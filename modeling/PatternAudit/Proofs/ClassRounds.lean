import PatternAudit.Proofs.ClassPlaces

set_option autoImplicit false

/-!
# Rounds of reading a class

A class is read in rounds, and each round takes the text of one member. A round may look further than that, at a
dash and an escape behind it; where they make no range, the next round begins at the dash all the same. No round
is without text, so the rounds come to an end, and the texts of the members stand side by side between the
bracket that opens the class, with its caret, and the one that closes it (`Grammar.scanClass_rounds`).
-/
namespace PatternAudit.Grammar

/-! Members. -/

/-- Text of a member of a class, when `rest` comes after it. -/
inductive WritesMember : ClassItem → Text → Text → Prop where
  | char {c : Char} {text rest : Text} (h : WritesChar c text rest) : WritesMember (.literal c) text rest
  /-- A member in first place only. -/
  | bracket (rest : Text) : WritesMember (.literal ']') [']'] rest
  | range {lo hi : Char} {low high rest : Text} (hlow : WritesChar lo low ('-' :: (high ++ rest)))
      (hhigh : WritesChar hi high rest) (hle : lo ≤ hi) :
    WritesMember (.range lo hi) (low ++ '-' :: high) rest
  | set {e : Escape} {body rest : Text} (h : scanEscape true (body ++ rest) = .ok ⟨e, body, rest⟩)
      (he : e.asChar = none) : WritesMember (.set e) ('\\' :: body) rest
  | named (negated : Bool) {name : Text} (hne : name ≠ []) (hname : ∀ c ∈ name, c.isAlpha = true)
      (rest : Text) : WritesMember (.posix negated name) (ClassItem.posix negated name).written rest

theorem scanSimpleMember_writes {c : Char} {s : Text} {p : Piece ClassItem}
    (h : scanSimpleMember c s = .ok p) (hc : c ≠ ']') : WritesMember p.value p.text p.rest := by
  unfold scanSimpleMember at h
  split at h
  next hbracket =>
    subst hbracket
    split at h
    next q hq =>
      cases h
      obtain ⟨value, text, rest⟩ := q
      obtain ⟨negated, name, rfl, hne, hname, rfl⟩ := scanPosix?_text hq
      exact .named negated hne hname rest
    next =>
      cases h
      exact .char (.plain (by decide))
  next =>
    split at h
    next hbackslash =>
      subst hbackslash
      obtain ⟨q, hq, rfl⟩ := exists_of_map_ok h
      obtain ⟨e, body, rest⟩ := q
      have hsplits : body ++ rest = s := scanEscape_splits hq
      subst hsplits
      cases e with
      | literal d => exact .char (.escaped hq)
      | _ => exact .set hq rfl
    next hbackslash =>
      cases h
      exact .char (.plain ⟨hbackslash, hc⟩)

/-- What a round takes is the text of the member that it gives. -/
theorem scanMember_writes {c : Char} {s : Text} {p : Piece ClassItem} (h : scanMember c s = .ok p)
    (hc : c ≠ ']') : WritesMember p.value p.text p.rest := by
  unfold scanMember at h
  split at h
  next => contradiction
  next q hq =>
    obtain ⟨-, rfl⟩ | ⟨lo, d, t, upper, hvalue, hrest, hd, hupper, hle, rfl⟩ := extendRange_cases h
    · exact scanSimpleMember_writes hq hc
    · have hlow := scanSimpleMember_literal hq hvalue hc
      have hsplits : upper.text ++ upper.rest = d :: t := scanRangeEnd_splits hupper
      rw [hrest, ← hsplits] at hlow
      exact .range hlow (scanRangeEnd_literal hupper hd) hle

/-! Rounds. -/

/-- The text of a caret and of members. -/
def classText (negated : Bool) (ps : List (Piece ClassItem)) : Text :=
  caret negated ++ ps.flatMap Piece.text

/-- What is read of a class before its first round: a caret, and a closing bracket in first place. -/
inductive OpensClass : Text → Bool → List (Piece ClassItem) → Text → Prop where
  | plain (negated : Bool) {s : Text} (hbracket : ∀ r, s ≠ ']' :: r)
      (hcaret : negated = false → ∀ r, s ≠ '^' :: r) : OpensClass (caret negated ++ s) negated [] s
  | bracket (negated : Bool) (s : Text) :
    OpensClass (caret negated ++ ']' :: s) negated [⟨.literal ']', [']'], s⟩] s

/-- The rounds made so far over a text behind an opening bracket, and what is left of it. -/
inductive Rounds (s : Text) (negated : Bool) : List (Piece ClassItem) → Text → Prop where
  | opens {ps : List (Piece ClassItem)} {body : Text} (h : OpensClass s negated ps body) :
    Rounds s negated ps body
  | round {ps : List (Piece ClassItem)} {c : Char} {r : Text} {p : Piece ClassItem}
      (h : Rounds s negated ps (c :: r)) (hc : c ≠ ']') (hp : scanMember c r = .ok p) :
    Rounds s negated (ps ++ [p]) p.rest

theorem exists_opensClass (s : Text) : ∃ negated ps body, OpensClass s negated ps body := by
  have behind (negated : Bool) (r : Text) (hcaret : negated = false → ∀ t, r ≠ '^' :: t) :
      ∃ ps body, OpensClass (caret negated ++ r) negated ps body := by
    by_cases hbracket : ∃ t, r = ']' :: t
    · obtain ⟨t, rfl⟩ := hbracket
      exact ⟨_, _, .bracket negated t⟩
    · exact ⟨_, _, .plain negated (fun t ht => hbracket ⟨t, ht⟩) hcaret⟩
  by_cases hcaret : ∃ r, s = '^' :: r
  · obtain ⟨r, rfl⟩ := hcaret
    exact ⟨true, behind true r nofun⟩
  · exact ⟨false, behind false s fun _ r hr => hcaret ⟨r, hr⟩⟩

theorem OpensClass.scanClass_eq {s body : Text} {negated : Bool} {ps : List (Piece ClassItem)}
    (h : OpensClass s negated ps body) :
    scanClass s = scanClass.finish negated (classText negated ps) (ps.map Piece.value) body := by
  cases h with
  | bracket negated => cases negated <;> rfl
  | plain negated hbracket hcaret =>
    cases negated with
    | true =>
      change scanClass ('^' :: body) = _
      unfold scanClass
      split
      next r heq => exact absurd (List.cons.inj heq).2 (hbracket r)
      next heq =>
        cases heq
        rfl
      next heq => exact absurd (List.cons.inj heq).1 (by decide)
      next hno _ => exact absurd rfl (hno body)
    | false =>
      change scanClass body = _
      unfold scanClass
      split
      next r => exact absurd rfl (hcaret rfl (']' :: r))
      next r _ => exact absurd rfl (hcaret rfl r)
      next r => exact absurd rfl (hbracket r)
      next => rfl

/-- What is left of a class is read as if the rounds so far had opened it. -/
theorem Rounds.scanClass_eq {s rest : Text} {negated : Bool} {ps : List (Piece ClassItem)}
    (h : Rounds s negated ps rest) :
    scanClass s = scanClass.finish negated (classText negated ps) (ps.map Piece.value) rest := by
  induction h with
  | opens h => exact h.scanClass_eq
  | @round ps c r p _ hc hp ih =>
    rw [ih, scanClass.finish, scanClass.finish, scanMembers_of_ok hc hp, map_map]
    simp [classText, Piece.after, Piece.map, Nat.add_assoc]

/-- Where an escape behind a dash makes no range, the dash and the escape are read again in two further rounds. -/
theorem Rounds.dropped {s low t : Text} {negated : Bool} {ps : List (Piece ClassItem)} {lo : Char}
    {e : Piece Escape} (h : Rounds s negated ps (low ++ '-' :: '\\' :: t))
    (hlow : WritesChar lo low ('-' :: '\\' :: t)) (he : scanEscape true t = .ok e)
    (hset : e.value.asChar = none) :
    Rounds s negated (ps ++ [⟨.literal lo, low, '-' :: '\\' :: t⟩, ⟨.literal '-', ['-'], '\\' :: t⟩,
      ⟨.set e.value, '\\' :: e.text, e.rest⟩]) e.rest := by
  obtain ⟨c, u, rfl, hc, hmember⟩ := hlow.scanMember_dropped he hset
  have hdash : scanMember '-' ('\\' :: t) = .ok ⟨.literal '-', ['-'], '\\' :: t⟩ := rfl
  have hthird := ((h.round hc hmember).round (by decide) hdash).round (by decide) (scanMember_set he hset)
  simpa using hthird

/-! Where the rounds end. -/

/-- How the reading of a class ends where there is no further round. -/
inductive EndsAt (negated : Bool) (ps : List (Piece ClassItem)) :
    Text → Except Fault (Piece CharClass) → Prop where
  | unterminated : EndsAt negated ps [] (.error ⟨0, .unterminatedClass⟩)
  | closed (after : Text) : EndsAt negated ps (']' :: after)
      (.ok ⟨⟨negated, ps.map Piece.value⟩, classText negated ps ++ [']'], after⟩)
  | fault {c : Char} {r : Text} {f : Fault} (hc : c ≠ ']') (hf : scanMember c r = .error f) :
    EndsAt negated ps (c :: r) (.error (f.shift (1 + Text.byteLength (classText negated ps))))

theorem Rounds.scanClass_of_endsAt {s rest : Text} {negated : Bool} {ps : List (Piece ClassItem)}
    {x : Except Fault (Piece CharClass)} (h : Rounds s negated ps rest) (hend : EndsAt negated ps rest x) :
    scanClass s = x := by
  rw [h.scanClass_eq, scanClass.finish]
  cases hend with
  | unterminated =>
    rw [scanMembers]
    rfl
  | closed after =>
    rw [scanMembers, if_pos rfl]
    simp [Except.map, Piece.map, Piece.after]
  | fault hc hf =>
    rw [scanMembers_of_error hc hf]
    rfl

/-- Rounds leave less and less of the text, so they come to a place where there is none. -/
theorem Rounds.exists_endsAt {s : Text} {negated : Bool} {ps : List (Piece ClassItem)} {rest : Text}
    (h : Rounds s negated ps rest) :
    ∃ ps' rest' x, Rounds s negated ps' rest' ∧ EndsAt negated ps' rest' x := by
  match rest, h with
  | [], h => exact ⟨ps, [], _, h, .unterminated⟩
  | c :: r, h =>
    by_cases hc : c = ']'
    · subst hc
      exact ⟨ps, _, _, h, .closed r⟩
    · cases hp : scanMember c r with
      | error f => exact ⟨ps, _, _, h, .fault hc hp⟩
      | ok p => exact (h.round hc hp).exists_endsAt
termination_by rest.length
decreasing_by exact scanMember_rest_lt hp

theorem scanClass_eq_iff {s : Text} {x : Except Fault (Piece CharClass)} :
    scanClass s = x ↔ ∃ negated ps rest, Rounds s negated ps rest ∧ EndsAt negated ps rest x := by
  constructor
  · rintro rfl
    obtain ⟨negated, first, body, hopens⟩ := exists_opensClass s
    obtain ⟨ps, rest, x, hrounds, hend⟩ := (Rounds.opens hopens).exists_endsAt
    rw [hrounds.scanClass_of_endsAt hend]
    exact ⟨negated, ps, rest, hrounds, hend⟩
  · rintro ⟨negated, ps, rest, hrounds, hend⟩
    exact hrounds.scanClass_of_endsAt hend

/-! What the rounds take. -/

/-- The text is that of a caret and of the members, side by side, with `rest` behind them. -/
structure Tile (s : Text) (negated : Bool) (ps : List (Piece ClassItem)) (rest : Text) : Prop where
  whole : s = classText negated ps ++ rest
  placed : ∀ before p after, ps = before ++ p :: after → s = classText negated before ++ p.text ++ p.rest
  written : ∀ p ∈ ps, WritesMember p.value p.text p.rest
  nonempty : ∀ p ∈ ps, p.text ≠ []
  /-- A closing bracket begins a member in first place only. -/
  inside : ∀ p ∈ ps.tail, p.text.head? ≠ some ']'

theorem classText_concat (negated : Bool) (ps : List (Piece ClassItem)) (p : Piece ClassItem) :
    classText negated (ps ++ [p]) = classText negated ps ++ p.text := by
  simp [classText]

theorem OpensClass.tile {s body : Text} {negated : Bool} {ps : List (Piece ClassItem)}
    (h : OpensClass s negated ps body) : Tile s negated ps body := by
  cases h with
  | plain negated =>
    refine ⟨by simp [classText], ?_, by simp, by simp, by simp⟩
    intro before p after hps
    simp at hps
  | bracket negated =>
    refine ⟨by simp [classText], ?_, by simpa using .bracket body, by simp, by simp⟩
    intro before p after hps
    obtain ⟨rfl, rfl, rfl⟩ : before = [] ∧ p = ⟨.literal ']', [']'], body⟩ ∧ after = [] := by
      cases before with
      | nil => simpa [eq_comm] using hps
      | cons => simp at hps
    simp [classText]

/-- A round adds the text of its member. -/
theorem Tile.round {s r : Text} {negated : Bool} {ps : List (Piece ClassItem)} {c : Char}
    {p : Piece ClassItem} (h : Tile s negated ps (c :: r)) (hc : c ≠ ']') (hp : scanMember c r = .ok p) :
    Tile s negated (ps ++ [p]) p.rest := by
  obtain ⟨hsplits, hne⟩ := scanMember_splits hp
  have htext : p.text ++ p.rest = c :: r := hsplits
  have hwhole : s = classText negated ps ++ p.text ++ p.rest := by
    rw [List.append_assoc, htext]
    exact h.whole
  have hhead : p.text.head? ≠ some ']' := by
    obtain ⟨d, t, ht⟩ := List.exists_cons_of_ne_nil hne
    rw [ht] at htext ⊢
    rw [(List.cons.inj htext).1]
    simpa using hc
  refine ⟨by rw [classText_concat]; exact hwhole, ?_, ?_, ?_, ?_⟩
  · intro before q after hps
    rcases List.eq_nil_or_concat after with rfl | ⟨front, last, rfl⟩
    · obtain ⟨rfl, heq⟩ := List.append_inj' hps rfl
      cases heq
      exact hwhole
    · have hps' : ps ++ [p] = (before ++ q :: front) ++ [last] := by
        simpa using hps
      exact h.placed before q front (List.append_inj' hps' rfl).1
  · exact List.forall_mem_append.2 ⟨h.written, by simpa using scanMember_writes hp hc⟩
  · exact List.forall_mem_append.2 ⟨h.nonempty, by simpa using hne⟩
  · cases ps with
    | nil => simp
    | cons first others => exact List.forall_mem_append.2 ⟨h.inside, by simpa using hhead⟩

theorem Rounds.tile {s rest : Text} {negated : Bool} {ps : List (Piece ClassItem)}
    (h : Rounds s negated ps rest) : Tile s negated ps rest := by
  induction h with
  | opens h => exact h.tile
  | round _ hc hp ih => exact ih.round hc hp

theorem length_le_flatMap_text {ps : List (Piece ClassItem)} (h : ∀ p ∈ ps, p.text ≠ []) :
    ps.length ≤ (ps.flatMap Piece.text).length := by
  induction ps with
  | nil => exact Nat.le_refl 0
  | cons p ps ih =>
    obtain ⟨hp, hps⟩ := List.forall_mem_cons.1 h
    have hpos := List.length_pos_iff.2 hp
    have hle := ih hps
    rw [List.flatMap_cons, List.length_append, List.length_cons]
    omega

theorem Tile.length_le {s rest : Text} {negated : Bool} {ps : List (Piece ClassItem)}
    (h : Tile s negated ps rest) : ps.length + rest.length ≤ s.length := by
  have hle := length_le_flatMap_text h.nonempty
  rw [h.whole, classText, List.length_append, List.length_append]
  omega

/-- Where one more member is read, it is from the front of what was left. -/
theorem Tile.rest_eq {s rest : Text} {negated : Bool} {ps : List (Piece ClassItem)} {p : Piece ClassItem}
    (h : Tile s negated ps rest) (hnext : Tile s negated (ps ++ [p]) p.rest) :
    rest = p.text ++ p.rest := by
  have heq : classText negated ps ++ rest = classText negated ps ++ (p.text ++ p.rest) := by
    rw [← h.whole, ← List.append_assoc, ← classText_concat]
    exact hnext.whole
  exact List.append_cancel_left heq

/-- The outcome of reading a class is that of its rounds, however far one of them looks ahead: each begins where the
one before ended and ends further on. The members of a class that is read tile what stands in its brackets. -/
theorem scanClass_rounds (s : Text) :
    (∀ x, scanClass s = x ↔ ∃ negated ps rest, Rounds s negated ps rest ∧ EndsAt negated ps rest x) ∧
    (∀ negated ps rest, Rounds s negated ps rest →
      Tile s negated ps rest ∧ ps.length + rest.length ≤ s.length ∧
        ∀ p, Rounds s negated (ps ++ [p]) p.rest →
          rest = p.text ++ p.rest ∧ Text.byteLength p.rest < Text.byteLength rest) ∧
    (∀ negated ps lo low t e, Rounds s negated ps (low ++ '-' :: '\\' :: t) →
      WritesChar lo low ('-' :: '\\' :: t) → scanEscape true t = .ok e → e.value.asChar = none →
        Rounds s negated (ps ++ [⟨.literal lo, low, '-' :: '\\' :: t⟩, ⟨.literal '-', ['-'], '\\' :: t⟩,
          ⟨.set e.value, '\\' :: e.text, e.rest⟩]) e.rest) ∧
    ∀ cls text rest, scanClass s = .ok ⟨cls, text, rest⟩ →
      ∃ ps, Rounds s cls.negated ps (']' :: rest) ∧ Tile s cls.negated ps (']' :: rest) ∧
        cls.items = ps.map Piece.value ∧ text = caret cls.negated ++ ps.flatMap Piece.text ++ [']'] := by
  refine ⟨fun x => scanClass_eq_iff, ?_, ?_, ?_⟩
  · intro negated ps rest h
    refine ⟨h.tile, h.tile.length_le, fun p hnext => ?_⟩
    have hrest := h.tile.rest_eq hnext.tile
    have hpos := Text.byteLength_pos (hnext.tile.nonempty p (by simp))
    refine ⟨hrest, ?_⟩
    rw [hrest, Text.byteLength_append]
    omega
  · intro negated ps lo low t e h hlow he hset
    exact h.dropped hlow he hset
  · intro cls text rest h
    obtain ⟨negated, ps, rest', hrounds, hend⟩ := scanClass_eq_iff.1 h
    cases hend
    exact ⟨ps, hrounds, hrounds.tile, rfl, rfl⟩

theorem scanClass_rounds_dropped_range :
    let s : Text := ['^', ']', 'a', '-', '\\', 'd', ']', 'x']
    let bracket : Piece ClassItem := ⟨.literal ']', [']'], ['a', '-', '\\', 'd', ']', 'x']⟩
    let ps : List (Piece ClassItem) := [bracket, ⟨.literal 'a', ['a'], ['-', '\\', 'd', ']', 'x']⟩,
      ⟨.literal '-', ['-'], ['\\', 'd', ']', 'x']⟩, ⟨.set (.shorthand 'd'), ['\\', 'd'], [']', 'x']⟩]
    Rounds s true [bracket] ['a', '-', '\\', 'd', ']', 'x'] ∧
      WritesChar 'a' ['a'] ['-', '\\', 'd', ']', 'x'] ∧ Rounds s true ps [']', 'x'] ∧
      Tile s true ps [']', 'x'] ∧ ps.length + 2 ≤ s.length ∧
      scanClass s = .ok ⟨⟨true, ps.map Piece.value⟩, ['^', ']', 'a', '-', '\\', 'd', ']'], ['x']⟩ := by
  intro s bracket ps
  have hopens : Rounds s true [bracket] ['a', '-', '\\', 'd', ']', 'x'] := .opens (.bracket true _)
  have hlow : WritesChar 'a' ['a'] ['-', '\\', 'd', ']', 'x'] := .plain (by decide)
  have hescape : scanEscape true ['d', ']', 'x'] = .ok ⟨.shorthand 'd', ['d'], [']', 'x']⟩ := rfl
  obtain ⟨hiff, hrounds, hdropped, -⟩ := scanClass_rounds s
  have hps : Rounds s true ps [']', 'x'] := hdropped true [bracket] 'a' ['a'] _ _ hopens hlow hescape rfl
  obtain ⟨htile, hlength, -⟩ := hrounds true ps [']', 'x'] hps
  exact ⟨hopens, hlow, hps, htile, hlength, (hiff _).2 ⟨true, ps, [']', 'x'], hps, .closed ['x']⟩⟩

end PatternAudit.Grammar
