import PatternAudit.Proofs.ClassPlaces
import PatternAudit.Proofs.Relocation

set_option autoImplicit false

/-!
# Closing brackets in first place

A closing bracket right behind the opening of a class is a member of it. It reads like an escaped one,
but for one difference: a dash behind it is a member too, where an escaped bracket would begin a range
(`Grammar.leadingBracket`). Places are left out of the comparison, as the two patterns differ in length.
-/
namespace PatternAudit.Grammar

/-- What was read of a text and what is left of it, or why it cannot be read. -/
def withoutPlaces {α : Type} (x : Except Fault (Piece α)) : Except Reason (α × Text) :=
  (x.mapError Fault.reason).map fun p => (p.value, p.rest)

/-- The kinds of the tokens of a pattern, or why it has none. -/
def kinds (pattern : Text) : Except Reason (List TokenKind) :=
  ((tokenize pattern).mapError Fault.reason).map (List.map Token.kind)

/-- What stands between the bracket that opens a class and its first member. -/
def classLead (negated : Bool) : Text :=
  if negated then ['^'] else []

/-- A dash and text for a character stand where a range would go on. -/
def GoesUpTo (hi : Char) (s : Text) : Prop :=
  ∃ high after, s = '-' :: (high ++ after) ∧ WritesChar hi high after

/-- How a text was written is no part of what was read of it. -/
theorem withoutPlaces_after {α β : Type} (x : Except Fault (Piece α)) (lead : Text) (f : α → β) :
    withoutPlaces (x.map fun p => (p.after lead).map f) = (withoutPlaces x).map (Prod.map f id) := by
  cases x <;> rfl

/-! Members of classes. -/

/-- The members up to the closing bracket, and what is left behind it. -/
def members (s : Text) : Except Reason (List ClassItem × Text) :=
  withoutPlaces (scanMembers 0 s)

theorem withoutPlaces_scanMembers (offset : Nat) (s : Text) : withoutPlaces (scanMembers offset s) = members s := by
  have hmoved : ∀ offset', withoutPlaces (scanMembers offset s) = withoutPlaces (scanMembers offset' s) := by
    fun_induction scanMembers offset s with
    | case1 => exact fun offset' => by rw [scanMembers]
    | case2 => exact fun offset' => by rw [scanMembers, if_pos rfl]
    | case3 _ _ _ hc f hf => exact fun offset' => by rw [scanMembers_of_error hc hf]; rfl
    | case4 offset c r hc p hp ih =>
      intro offset'
      rw [scanMembers_of_ok hc hp, withoutPlaces_after, withoutPlaces_after, ih]
  exact hmoved 0

theorem members_cons {c : Char} (hc : c ≠ ']') (s : Text) :
    members (c :: s) = withoutPlaces (scanMember c s) >>= fun r =>
      (members r.2).map (Prod.map (r.1 :: ·) id) := by
  cases hp : scanMember c s with
  | error f => rw [members, scanMembers_of_error hc hp]; rfl
  | ok p => rw [members, scanMembers_of_ok hc hp, withoutPlaces_after, withoutPlaces_scanMembers]; rfl

theorem withoutPlaces_extendRange (lo : Char) (text text' rest : Text) :
    withoutPlaces (extendRange ⟨.literal lo, text, rest⟩) =
      withoutPlaces (extendRange ⟨.literal lo, text', rest⟩) := by
  by_cases hrange : ∃ c s, rest = '-' :: c :: s
  · obtain ⟨c, s, rfl⟩ := hrange
    simp only [extendRange]
    split
    next => rfl
    next =>
      rcases scanRangeEnd c s with reason | _ | q
      · rfl
      · rfl
      · dsimp only
        split <;> rfl
  · have halone : ∀ t, extendRange ⟨.literal lo, t, rest⟩ = .ok ⟨.literal lo, t, rest⟩ := fun t =>
      extendRange_of_standsAlone fun _ c s _ hrest => absurd ⟨c, s, hrest⟩ hrange
    rw [halone, halone]
    rfl

/-! Members that a dash follows. -/

theorem WritesChar.scanRangeEnd {hi : Char} {high after : Text} (h : WritesChar hi high after) :
    ∃ c s, high = c :: s ∧ c ≠ ']' ∧ scanRangeEnd c (s ++ after) = .ok (some ⟨hi, high, after⟩) := by
  cases h with
  | plain hc =>
    refine ⟨hi, [], rfl, hc.2, ?_⟩
    rw [Grammar.scanRangeEnd, if_neg hc.1]
    rfl
  | @escaped body _ hbody =>
    refine ⟨'\\', body, rfl, by decide, ?_⟩
    rw [Grammar.scanRangeEnd, if_pos rfl, hbody]
    rfl

theorem extendRange_of_goesUpTo {hi : Char} {rest : Text} (h : GoesUpTo hi rest) (lo : Char)
    (text : Text) :
    ∃ after, withoutPlaces (extendRange ⟨.literal lo, text, rest⟩) =
      if hi < lo then .error .rangeOutOfOrder else .ok (.range lo hi, after) := by
  obtain ⟨high, after, rfl, hhigh⟩ := h
  obtain ⟨c, s, rfl, hc, hend⟩ := hhigh.scanRangeEnd
  refine ⟨after, ?_⟩
  simp only [extendRange, List.cons_append, hc, hend, if_false]
  split <;> rfl

/-- Where no range begins the character is the whole member, unless the escape behind a dash is invalid. -/
theorem extendRange_of_not_goesUpTo {lo : Char} {text rest : Text} (h : ∀ hi, ¬ GoesUpTo hi rest) :
    extendRange ⟨.literal lo, text, rest⟩ = .ok ⟨.literal lo, text, rest⟩ ∨
      ∃ s reason, rest = '-' :: '\\' :: s ∧ scanEscape true s = .error reason ∧
        withoutPlaces (extendRange ⟨.literal lo, text, rest⟩) = .error reason := by
  unfold extendRange
  split
  next lo' c s hvalue hrest =>
    split
    next => exact .inl rfl
    next hc =>
      split
      next reason hreason =>
        obtain ⟨rfl, -⟩ := scanRangeEnd_error hreason
        rw [scanRangeEnd, if_pos rfl] at hreason
        exact .inr ⟨s, reason, hrest, error_of_map_error hreason, rfl⟩
      next => exact .inl rfl
      next q hq =>
        have hsplits : q.text ++ q.rest = c :: s := scanRangeEnd_splits hq
        refine absurd ⟨q.text, q.rest, ?_, scanRangeEnd_literal hq hc⟩ (h q.value)
        rw [hsplits]
        exact hrest
  next => exact .inl rfl

theorem members_escapedBracket {rest : Text} (h : ∀ hi, ¬ GoesUpTo hi rest) :
    members ('\\' :: ']' :: rest) = (members rest).map (Prod.map (.literal ']' :: ·) id) := by
  have hbracket : scanMember '\\' (']' :: rest) = extendRange ⟨.literal ']', ['\\', ']'], rest⟩ := rfl
  rw [members_cons (by decide), hbracket]
  rcases extendRange_of_not_goesUpTo h with halone | ⟨s, reason, rfl, hescape, hfault⟩
  · rw [halone]
    rfl
  · -- The dash is a member of its own, and the fault is that of the next one.
    have hdash : scanMember '-' ('\\' :: s) = .ok ⟨.literal '-', ['-'], '\\' :: s⟩ := rfl
    have hnext : scanMember '\\' s = .error ⟨0, reason⟩ := by
      simp [scanMember, scanSimpleMember, hescape, Except.map]
    rw [hfault, members_cons (by decide), hdash]
    change _ = ((members ('\\' :: s)).map _).map _
    rw [members_cons (by decide), hnext]
    rfl

theorem members_escapedDash (s : Text) : members ('\\' :: '-' :: s) = members ('-' :: s) := by
  have hescaped : scanMember '\\' ('-' :: s) = extendRange ⟨.literal '-', ['\\', '-'], s⟩ := rfl
  have hplain : scanMember '-' s = extendRange ⟨.literal '-', ['-'], s⟩ := rfl
  rw [members_cons (by decide), members_cons (by decide), hescaped, hplain, withoutPlaces_extendRange]

/-! Classes. -/

theorem withoutPlaces_scanClass_bracket (negated : Bool) (rest : Text) :
    withoutPlaces (scanClass (classLead negated ++ ']' :: rest)) =
      (members rest).map (Prod.map (fun items => ⟨negated, .literal ']' :: items⟩) id) := by
  cases negated <;> exact (withoutPlaces_after _ _ _).trans (by rw [withoutPlaces_scanMembers]; rfl)

theorem withoutPlaces_scanClass_escaped (negated : Bool) (s : Text) :
    withoutPlaces (scanClass (classLead negated ++ '\\' :: s)) =
      (members ('\\' :: s)).map (Prod.map (fun items => ⟨negated, items⟩) id) := by
  cases negated <;> exact (withoutPlaces_after _ _ _).trans (by rw [withoutPlaces_scanMembers]; rfl)

/-- Reading from anywhere in a pattern gives what the text has by itself. -/
theorem kinds_eq_lexFrom (offset : Nat) (s : Text) :
    kinds s = match lexFrom false offset s with
      | ⟨_, some f⟩ => .error f.reason
      | ⟨tokens, none⟩ => .ok (tokens.map Token.kind) := by
  have hmoved : lexFrom false offset s = (lex s).move (offset + ·) := lexFrom_move false offset 0 s
  rw [kinds, tokenize, hmoved]
  rcases lex s with ⟨tokens, _ | f⟩
  · simp [Lexing.move, Except.map, mapError_ok, Function.comp_def, Token.move]
  · rfl

theorem kinds_class (s : Text) :
    kinds ('[' :: s) = withoutPlaces (scanClass s) >>= fun r =>
      (kinds r.2).map (.atom (.charClass r.1) :: ·) := by
  have hscan : scanLexeme false '[' s =
      (scanClass s).map fun p => (p.after ['[']).map fun cls => .plain (.atom (.charClass cls)) := rfl
  rw [kinds_eq_lexFrom 0]
  cases hp : scanClass s with
  | error f =>
    rw [hp] at hscan
    rw [lexFrom_of_error hscan]
    rfl
  | ok p =>
    rw [hp] at hscan
    rw [lexFrom_of_ok hscan]
    change _ = (kinds p.rest).map _
    rw [kinds_eq_lexFrom (0 + Text.byteLength ('[' :: p.text))]
    change (match (lexFrom false (0 + Text.byteLength ('[' :: p.text)) p.rest).prepend 0 _ with
      | ⟨_, some f⟩ => Except.error f.reason
      | ⟨tokens, none⟩ => .ok (tokens.map Token.kind)) = _
    rcases lexFrom false (0 + Text.byteLength ('[' :: p.text)) p.rest with ⟨tokens, _ | f⟩ <;> rfl

/-- A class with a closing bracket in first place has it as a member, whatever comes behind. -/
theorem kinds_bracket (negated : Bool) (rest : Text) :
    kinds ('[' :: (classLead negated ++ ']' :: rest)) = members rest >>= fun r =>
      (kinds r.2).map (.atom (.charClass ⟨negated, .literal ']' :: r.1⟩) :: ·) := by
  rw [kinds_class, withoutPlaces_scanClass_bracket]
  cases members rest <;> rfl

theorem kinds_escaped (negated : Bool) (s : Text) :
    kinds ('[' :: (classLead negated ++ '\\' :: s)) = members ('\\' :: s) >>= fun r =>
      (kinds r.2).map (.atom (.charClass ⟨negated, r.1⟩) :: ·) := by
  rw [kinds_class, withoutPlaces_scanClass_escaped]
  cases members ('\\' :: s) <;> rfl

/-- An escaped bracket as the first member, where no range begins. -/
theorem kinds_bracket_of_members {rest s : Text}
    (h : members ('\\' :: ']' :: s) = (members rest).map (Prod.map (.literal ']' :: ·) id)) (negated : Bool) :
    kinds ('[' :: (classLead negated ++ ']' :: rest)) =
      kinds ('[' :: (classLead negated ++ '\\' :: ']' :: s)) := by
  rw [kinds_bracket, kinds_escaped, h]
  cases members rest <;> rfl

/-- A dash that is escaped stands for itself, and an escaped bracket in front of it too. -/
theorem not_goesUpTo_escaped (hi : Char) (s : Text) : ¬ GoesUpTo hi ('\\' :: s) := by
  rintro ⟨high, after, hs, -⟩
  exact absurd (List.cons.inj hs).1 (by decide)

/-- A closing bracket in first place reads like an escaped one that begins no range. -/
theorem leadingBracket (negated : Bool) (rest : Text) :
    let bracket := '[' :: (classLead negated ++ ']' :: rest)
    let escaped := fun s => '[' :: (classLead negated ++ '\\' :: ']' :: s)
    ((∀ hi, ¬ GoesUpTo hi rest) → kinds bracket = kinds (escaped rest)) ∧
      (∀ s, rest = '-' :: s → kinds bracket = kinds (escaped ('\\' :: '-' :: s))) ∧
      (∀ ks, kinds bracket = .ok ks →
        ∃ items more, ks = .atom (.charClass ⟨negated, .literal ']' :: items⟩) :: more) ∧
      ∀ hi, GoesUpTo hi rest →
        (hi < ']' → kinds (escaped rest) = .error .rangeOutOfOrder) ∧
          ∀ ks, kinds (escaped rest) = .ok ks →
            ∃ items more, ks = .atom (.charClass ⟨negated, .range ']' hi :: items⟩) :: more := by
  intro bracket escaped
  refine ⟨fun h => ?_, fun s hs => ?_, fun ks hks => ?_, fun hi h => ?_⟩
  · exact kinds_bracket_of_members (members_escapedBracket h) negated
  · subst hs
    refine kinds_bracket_of_members ?_ negated
    rw [members_escapedBracket (not_goesUpTo_escaped · ('-' :: s)), members_escapedDash]
  · rw [kinds_bracket] at hks
    obtain ⟨r, -, hr⟩ := exists_of_bind_ok hks
    obtain ⟨more, -, rfl⟩ := exists_of_map_ok hr
    exact ⟨r.1, more, rfl⟩
  · obtain ⟨after, hrange⟩ := extendRange_of_goesUpTo h ']' ['\\', ']']
    have hmembers : members ('\\' :: ']' :: rest) =
        (if hi < ']' then .error .rangeOutOfOrder else .ok (.range ']' hi, after)) >>= fun r =>
          (members r.2).map (Prod.map (r.1 :: ·) id) := by
      rw [members_cons (by decide), ← hrange]
      rfl
    constructor
    · intro hlt
      rw [kinds_escaped, hmembers, if_pos hlt]
      rfl
    · intro ks hks
      rw [kinds_escaped, hmembers] at hks
      split at hks
      next => contradiction
      next =>
        obtain ⟨r, hr, hks⟩ := exists_of_bind_ok hks
        obtain ⟨r', -, rfl⟩ := exists_of_map_ok hr
        obtain ⟨more, -, rfl⟩ := exists_of_map_ok hks
        exact ⟨r'.1, more, rfl⟩

theorem leadingBracket_plain_and_dash :
    (∀ hi, ¬ GoesUpTo hi ['z', ']']) ∧
      kinds ['[', '^', ']', 'z', ']'] = kinds ['[', '^', '\\', ']', 'z', ']'] ∧
      GoesUpTo 'A' ['-', 'A', ']'] ∧ 'A' < ']' ∧
      kinds ['[', ']', '-', 'A', ']'] = kinds ['[', '\\', ']', '\\', '-', 'A', ']'] ∧
      kinds ['[', '\\', ']', '-', 'A', ']'] = .error .rangeOutOfOrder := by
  have hno : ∀ hi, ¬ GoesUpTo hi ['z', ']'] := by
    rintro hi ⟨high, after, hs, -⟩
    exact absurd (List.cons.inj hs).1 (by decide)
  have hupTo : GoesUpTo 'A' ['-', 'A', ']'] := ⟨['A'], [']'], rfl, .plain (by decide)⟩
  have hdash := leadingBracket false ['-', 'A', ']']
  exact ⟨hno, (leadingBracket true ['z', ']']).1 hno, hupTo, by decide, hdash.2.1 ['A', ']'] rfl,
    (hdash.2.2.2 'A' hupTo).1 (by decide)⟩

/-- The dash is a member behind a bracket in first place, and makes a range behind an escaped one. -/
theorem kinds_leadingDash_ne :
    kinds ['[', ']', '-', 'a', ']'] ≠ kinds ['[', '\\', ']', '-', 'a', ']'] := by
  have hplain : tokenize ['[', ']', '-', 'a', ']'] =
      .ok [⟨⟨0, 5⟩, .atom (.charClass ⟨false, [.literal ']', .literal '-', .literal 'a']⟩)⟩] :=
    tokenize_eq_ok_iff.2 (by decide +kernel)
  have hescaped : tokenize ['[', '\\', ']', '-', 'a', ']'] =
      .ok [⟨⟨0, 6⟩, .atom (.charClass ⟨false, [.range ']' 'a']⟩)⟩] :=
    tokenize_eq_ok_iff.2 (by decide +kernel)
  rw [kinds, kinds, hplain, hescaped]
  simp [Except.map, mapError_ok]

end PatternAudit.Grammar
