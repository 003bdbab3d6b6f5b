import PatternAudit.Proofs.OnePass
import PatternAudit.Proofs.Payload

set_option autoImplicit false

/-!
# Where faults show

A fault always stands at a character of the pattern, never behind the last one, and its reason fixes
which character that is: the mark that opened what is wrong or, for a range out of order, the first
character of the range's lower end. `parse_fault_place` says so for every pattern that has a fault.
-/
namespace PatternAudit.Grammar

/-- The characters that a fault can stand at. Those of a range are described by
`BeginsBackwardRange`. -/
def Reason.ShowsAt : Reason → Char → Prop
  | .unterminatedClass, c => c = '['
  | .unterminatedGroup, c | .invalidGroupName, c | .nestingTooDeep _, c => c = '('
  | .unmatchedClose, c => c = ')'
  | .danglingEscape, c | .invalidEscape, c => c = '\\'
  | .quantifierOutOfOrder, c | .quantifierTooLarge, c => c = '{'
  | .nothingToRepeat, c => c ∈ ['*', '+', '?', '{']
  | .rangeOutOfOrder, _ => True

/-- Text that stands for one character in a class, when `rest` comes after it. -/
inductive WritesChar (c : Char) : Text → Text → Prop where
  | plain {rest : Text} (hc : c ≠ '\\' ∧ c ≠ ']') : WritesChar c [c] rest
  | escaped {body rest : Text} (h : scanEscape true (body ++ rest) = .ok ⟨.literal c, body, rest⟩) :
    WritesChar c ('\\' :: body) rest

/-- A range comes whose upper end is below its lower end. -/
def BeginsBackwardRange (s : Text) : Prop :=
  ∃ low high rest lo hi, s = low ++ '-' :: (high ++ rest) ∧
    WritesChar lo low ('-' :: (high ++ rest)) ∧ WritesChar hi high rest ∧ hi < lo

/-- An opening bracket and what was read after it: a caret, a bracket in first place and whole
members, with `rest` still to come. -/
inductive ReadInClass : Text → Text → Prop where
  | opening {rest : Text} (h : ∀ s, rest ≠ '^' :: s ∧ rest ≠ ']' :: s) : ReadInClass ['['] rest
  | negated {rest : Text} (h : ∀ s, rest ≠ ']' :: s) : ReadInClass ['[', '^'] rest
  | bracket (rest : Text) : ReadInClass ['[', ']'] rest
  | negatedBracket (rest : Text) : ReadInClass ['[', '^', ']'] rest
  | member {before s : Text} {c : Char} {p : Piece ClassItem} (h : ReadInClass before (c :: s))
      (hc : c ≠ ']') (hp : scanMember c s = .ok p) : ReadInClass (before ++ p.text) p.rest

/-- The fault, its offset counted from the start of a lexeme that begins `s`, stands where its
reason says. -/
def Fault.ShowsIn (f : Fault) (s : Text) : Prop :=
  ∃ before c after, s = before ++ c :: after ∧ f.offset = Text.byteLength before ∧
    f.reason.ShowsAt c ∧
    (f.reason = .rangeOutOfOrder → ReadInClass before (c :: after) ∧ BeginsBackwardRange (c :: after))

theorem error_of_map_error {ε α β : Type} {x : Except ε α} {f : α → β} {e : ε}
    (h : x.map f = .error e) : x = .error e := by
  cases x with
  | error e' => exact congrArg Except.error (Except.error.inj h)
  | ok a => contradiction

theorem Fault.showsIn_start {reason : Reason} {c : Char} (hc : reason.ShowsAt c)
    (hrange : reason ≠ .rangeOutOfOrder) (s : Text) : ShowsIn ⟨0, reason⟩ (c :: s) :=
  ⟨[], c, s, rfl, rfl, hc, fun h => absurd h hrange⟩

/-! Escapes. -/

def Reason.OfEscape (r : Reason) : Prop :=
  r = .danglingEscape ∨ r = .invalidEscape

theorem Reason.OfEscape.showsAt {r : Reason} (h : r.OfEscape) :
    r.ShowsAt '\\' ∧ r ≠ .rangeOutOfOrder := by
  rcases h with rfl | rfl <;> exact ⟨rfl, by simp⟩

theorem literalOf_error {n? : Option Nat} {r : Reason} (h : literalOf n? = .error r) :
    r.OfEscape := by
  unfold literalOf at h
  split at h
  next => contradiction
  next => exact .inr (Except.error.inj h).symm

theorem scanBracedCode_error {base : Nat} {s : Text} {r : Reason}
    (h : scanBracedCode base s = .error r) : r.OfEscape := by
  unfold scanBracedCode at h
  split at h
  next =>
    split at h
    next => exact literalOf_error (error_of_map_error h)
    next => exact .inr (Except.error.inj h).symm
  next => exact .inr (Except.error.inj h).symm

theorem scanShortCode_error {base limit : Nat} {s : Text} {r : Reason}
    (h : scanShortCode base limit s = .error r) : r.OfEscape :=
  literalOf_error (error_of_map_error h)

theorem scanHexCode_error {s : Text} {r : Reason} (h : scanHexCode s = .error r) : r.OfEscape := by
  unfold scanHexCode at h
  split at h
  next => exact scanBracedCode_error h
  next => exact scanShortCode_error h

theorem scanControl_error {s : Text} {r : Reason} (h : scanControl s = .error r) : r.OfEscape := by
  unfold scanControl at h
  split at h
  next => exact .inl (Except.error.inj h).symm
  next =>
    split at h
    next => exact literalOf_error (error_of_map_error h)
    next => exact .inr (Except.error.inj h).symm

theorem scanProperty_error {negated : Bool} {s : Text} {r : Reason}
    (h : scanProperty negated s = .error r) : r.OfEscape := by
  refine .inr ?_
  unfold scanProperty at h
  split at h
  next => split at h <;> simp_all
  next => split at h <;> simp_all
  next => exact (Except.error.inj h).symm

theorem scanNumber_error {sign s : Text} {r : Reason} (h : scanNumber sign s = .error r) :
    r.OfEscape := by
  unfold scanNumber at h
  split at h
  next => exact .inr (Except.error.inj h).symm
  next => contradiction

theorem scanReference_error {s : Text} {r : Reason} (h : scanReference s = .error r) :
    r.OfEscape := by
  unfold scanReference at h
  split at h
  next => exact .inr (Except.error.inj h).symm
  next =>
    split at h
    next =>
      unfold scanNumberReference at h
      split at h <;> exact scanNumber_error h
    next =>
      split at h
      next => exact .inr (Except.error.inj h).symm
      next => exact .inr (Except.error.inj h).symm
      next => contradiction

theorem scanEscapeTail_error {inClass : Bool} {c : Char} {s : Text} {r : Reason}
    (h : scanEscapeTail inClass c s = .error r) : r.OfEscape := by
  unfold scanEscapeTail at h
  split at h
  next => exact scanHexCode_error h
  next => exact scanBracedCode_error h
  next => exact scanShortCode_error h
  next => exact scanControl_error h
  next => exact scanProperty_error h
  next => exact scanProperty_error h
  next =>
    split at h
    next => exact scanReference_error h
    next => split at h <;> contradiction

theorem scanEscape_error {inClass : Bool} {s : Text} {r : Reason}
    (h : scanEscape inClass s = .error r) : r.OfEscape := by
  unfold scanEscape at h
  split at h
  next => exact .inl (Except.error.inj h).symm
  next =>
    split at h
    next => contradiction
    next => exact scanEscapeTail_error (error_of_map_error h)

/-! Classes. -/

theorem scanSimpleMember_error {c : Char} {s : Text} {r : Reason}
    (h : scanSimpleMember c s = .error r) : c = '\\' ∧ r.OfEscape := by
  unfold scanSimpleMember at h
  split at h
  next => split at h <;> contradiction
  next =>
    split at h
    next hc => exact ⟨hc, scanEscape_error (error_of_map_error h)⟩
    next => contradiction

theorem scanRangeEnd_error {c : Char} {s : Text} {r : Reason} (h : scanRangeEnd c s = .error r) :
    c = '\\' ∧ r.OfEscape := by
  unfold scanRangeEnd at h
  split at h
  next hc => exact ⟨hc, scanEscape_error (error_of_map_error h)⟩
  next => contradiction

theorem scanPosix?_close_ne_literal {negated : Bool} {lead s : Text} {p : Piece ClassItem}
    (h : scanPosix?.close negated lead s = some p) (c : Char) : p.value ≠ .literal c := by
  unfold scanPosix?.close at h
  split at h
  next => contradiction
  next => cases h; simp
  next => contradiction

/-- A member that is one character is written as such. -/
theorem scanSimpleMember_literal {c lo : Char} {s : Text} {p : Piece ClassItem}
    (h : scanSimpleMember c s = .ok p) (hp : p.value = .literal lo) (hc : c ≠ ']') :
    WritesChar lo p.text p.rest := by
  unfold scanSimpleMember at h
  split at h
  next hbracket =>
    split at h
    next q hq =>
      cases h
      have hvalue : q.value = .literal lo := hp
      unfold scanPosix? at hq
      split at hq
      next => exact absurd hvalue (scanPosix?_close_ne_literal hq lo)
      next => exact absurd hvalue (scanPosix?_close_ne_literal hq lo)
      next => contradiction
    next =>
      cases h
      cases hp
      exact .plain ⟨by simp [hbracket], hc⟩
  next =>
    split at h
    next hbackslash =>
      obtain ⟨q, hq, rfl⟩ := exists_of_map_ok h
      obtain ⟨e, body, rest⟩ := q
      have hsplits : body ++ rest = s := scanEscape_splits hq
      subst hbackslash hsplits
      cases e with
      | literal d =>
        cases hp
        exact .escaped hq
      | _ => contradiction
    next hbackslash =>
      cases h
      cases hp
      exact .plain ⟨hbackslash, hc⟩

theorem scanRangeEnd_literal {c : Char} {s : Text} {q : Piece Char} (h : scanRangeEnd c s = .ok (some q))
    (hc : c ≠ ']') : WritesChar q.value q.text q.rest := by
  unfold scanRangeEnd at h
  split at h
  next hbackslash =>
    obtain ⟨p, hp, hq⟩ := exists_of_map_ok h
    obtain ⟨e, body, rest⟩ := p
    have hsplits : body ++ rest = s := scanEscape_splits hp
    subst hbackslash hsplits
    cases e with
    | literal d =>
      cases hq
      exact .escaped hp
    | _ => contradiction
  next hbackslash =>
    cases h
    exact .plain ⟨hbackslash, hc⟩

/-- The fault of a member stands at a backslash in it, or it is the member and a backward range. -/
theorem scanMember_error {c : Char} {s : Text} {f : Fault} (h : scanMember c s = .error f)
    (hc : c ≠ ']') :
    (∃ before after, c :: s = before ++ '\\' :: after ∧ f.offset = Text.byteLength before ∧
      f.reason.OfEscape) ∨
    f = ⟨0, .rangeOutOfOrder⟩ ∧ BeginsBackwardRange (c :: s) := by
  unfold scanMember at h
  split at h
  next reason hreason =>
    cases h
    obtain ⟨rfl, hescape⟩ := scanSimpleMember_error hreason
    exact .inl ⟨[], s, rfl, rfl, hescape⟩
  next p hp =>
    have hsplits : p.text ++ p.rest = c :: s := (scanSimpleMember_splits hp).1
    unfold extendRange at h
    split at h
    next lo d t hvalue hrest =>
      rw [hrest] at hsplits
      split at h
      next => contradiction
      next hd =>
        split at h
        next reason hreason =>
          cases h
          obtain ⟨rfl, hescape⟩ := scanRangeEnd_error hreason
          refine .inl ⟨p.text ++ ['-'], t, by simp [← hsplits], ?_, hescape⟩
          simp
          rfl
        next => contradiction
        next q hq =>
          split at h
          next hlt =>
            cases h
            have hlow := scanSimpleMember_literal hp hvalue hc
            have hhigh := scanRangeEnd_literal hq hd
            have hq' : q.text ++ q.rest = d :: t := scanRangeEnd_splits hq
            rw [hrest, ← hq'] at hlow
            exact .inr ⟨rfl, p.text, q.text, q.rest, lo, q.value, by rw [hq', hsplits], hlow, hhigh, hlt⟩
          next => contradiction
    next => contradiction

theorem ReadInClass.exists_eq_cons {before rest : Text} (h : ReadInClass before rest) :
    ∃ s, before = '[' :: s := by
  induction h with
  | member _ _ _ ih =>
    obtain ⟨s, rfl⟩ := ih
    exact ⟨_, rfl⟩
  | _ => exact ⟨_, rfl⟩

theorem scanMembers_error {before s : Text} {f : Fault} (hbefore : ReadInClass before s)
    (h : scanMembers (Text.byteLength before) s = .error f) : f.ShowsIn (before ++ s) := by
  generalize hoffset : Text.byteLength before = offset at h
  fun_induction scanMembers offset s generalizing before with
  | case1 offset =>
    cases h
    obtain ⟨s, rfl⟩ := hbefore.exists_eq_cons
    have hbracket : Reason.unterminatedClass.ShowsAt '[' := rfl
    exact Fault.showsIn_start hbracket (by simp) _
  | case2 => contradiction
  | case3 offset c r hc g hg =>
    cases h
    rcases scanMember_error hg hc with ⟨lead, after, hs, hlead, hescape⟩ | ⟨rfl, hrange⟩
    · refine ⟨before ++ lead, '\\', after, by simp [hs], ?_, hescape.showsAt.1, ?_⟩
      · simp [Fault.shift, hlead, hoffset]
      · exact fun hr => absurd hr hescape.showsAt.2
    · exact ⟨before, c, r, rfl, by simp [Fault.shift, hoffset], trivial, fun _ => ⟨hbefore, hrange⟩⟩
  | case4 offset c r hc p hp ih =>
    have hmembers := error_of_map_error h
    have hsplits : p.text ++ p.rest = c :: r := (scanMember_splits hp).1
    have hshows := ih (hbefore.member hc hp) (by simp [hoffset]) hmembers
    rwa [List.append_assoc, hsplits] at hshows

theorem scanClass_error {s : Text} {f : Fault} (h : scanClass s = .error f) : f.ShowsIn ('[' :: s) := by
  unfold scanClass at h
  split at h
  next r => exact scanMembers_error (.negatedBracket r) (error_of_map_error h)
  next r hr =>
    exact scanMembers_error (.negated fun s hs => hr s (by rw [hs])) (error_of_map_error h)
  next r => exact scanMembers_error (.bracket r) (error_of_map_error h)
  next r _ hcaret hbracket =>
    exact scanMembers_error (.opening fun s => ⟨hcaret s, hbracket s⟩) (error_of_map_error h)

/-! Openings and bounds. -/

theorem scanGroupName_error {lead s : Text} {close : Char} {r : Reason}
    (h : scanGroupName lead close s = .error r) : r = .invalidGroupName := by
  unfold scanGroupName at h
  split at h
  next =>
    split at h
    next => contradiction
    next => exact (Except.error.inj h).symm
  next => exact (Except.error.inj h).symm

theorem scanOpening_error {s : Text} {r : Reason} (h : scanOpening s = .error r) :
    r = .unterminatedGroup ∨ r = .invalidGroupName := by
  unfold scanOpening at h
  split at h
  next => contradiction
  next =>
    unfold scanMarkedOpening at h
    split at h
    next => exact .inl (Except.error.inj h).symm
    next =>
      split at h
      next => contradiction
      next => exact .inl (Except.error.inj h).symm
    all_goals try contradiction
    next => exact .inr (scanGroupName_error h)
    next => exact .inr (scanGroupName_error h)
    next => exact .inr (scanGroupName_error h)
    next => split at h <;> contradiction
  next => contradiction

theorem repeatCount_error {digits : Text} {r : Reason} (h : repeatCount digits = .error r) :
    r = .quantifierTooLarge := by
  unfold repeatCount at h
  split at h
  next =>
    split at h
    next => contradiction
    next => exact (Except.error.inj h).symm
  next => exact (Except.error.inj h).symm

theorem boundsOf_error {lo : Text} {hi? : Option Text} {r : Reason} (h : boundsOf lo hi? = .error r) :
    r = .quantifierTooLarge ∨ r = .quantifierOutOfOrder := by
  unfold boundsOf at h
  cases hlo : repeatCount lo with
  | error e =>
    rw [hlo] at h
    cases h
    exact .inl (repeatCount_error hlo)
  | ok n =>
    rw [hlo, ok_bind] at h
    split at h
    next => contradiction
    next => contradiction
    next hi _ =>
      cases hhi : repeatCount hi with
      | error e =>
        rw [hhi] at h
        cases h
        exact .inl (repeatCount_error hhi)
      | ok m =>
        rw [hhi, ok_bind] at h
        split at h
        next => contradiction
        next => exact .inr (Except.error.inj h).symm

/-! Lexemes. -/

theorem scanBackslash_error {s : Text} {f : Fault} (h : scanBackslash s = .error f) :
    f.ShowsIn ('\\' :: s) := by
  unfold scanBackslash at h
  split at h
  next => contradiction
  next => contradiction
  next =>
    split at h
    next => contradiction
    next reason hreason =>
      cases h
      obtain ⟨hshows, hrange⟩ := (scanEscape_error hreason).showsAt
      exact Fault.showsIn_start hshows hrange s

theorem scanBrace_error {s : Text} {f : Fault} (h : scanBrace s = .error f) :
    f.ShowsIn ('{' :: s) := by
  unfold scanBrace at h
  split at h
  next reason hreason =>
    cases h
    unfold scanBounds at hreason
    split at hreason
    next => contradiction
    next =>
      rcases boundsOf_error (error_of_map_error hreason) with rfl | rfl <;>
        exact Fault.showsIn_start (by simp [Reason.ShowsAt]) (by simp) s
  next => contradiction
  next => contradiction

theorem scanUnquoted_error {c : Char} {s : Text} {f : Fault} (h : scanUnquoted c s = .error f) :
    f.ShowsIn (c :: s) := by
  unfold scanUnquoted at h
  split at h
  next => exact scanBackslash_error h
  next => exact scanClass_error (error_of_map_error h)
  next =>
    split at h
    next => contradiction
    next reason hreason =>
      cases h
      rcases scanOpening_error hreason with rfl | rfl <;>
        exact Fault.showsIn_start (by simp [Reason.ShowsAt]) (by simp) s
  all_goals try contradiction
  next => exact scanBrace_error h

/-- What the lexer reads from a text before `rest`, quoting or not at the start and at the end. -/
inductive Reads : Bool → Text → Bool → Text → Prop where
  | here (quoting : Bool) (rest : Text) : Reads quoting [] quoting rest
  | lexeme {quoting quoting' : Bool} {c : Char} {s read rest : Text} {p : Piece Lexeme}
      (hp : scanLexeme quoting c s = .ok p) (hrest : p.rest = read ++ rest)
      (h : Reads p.value.quoting read quoting' rest) : Reads quoting (p.text ++ read) quoting' rest

theorem lexFrom_fault {quoting : Bool} {offset : Nat} {s : Text} {f : Fault}
    (h : (lexFrom quoting offset s).fault? = some f) :
    ∃ read c after g, s = read ++ c :: after ∧ Reads quoting read false (c :: after) ∧
      scanUnquoted c after = .error g ∧ f = g.shift (offset + Text.byteLength read) := by
  fun_induction lexFrom quoting offset s with
  | case1 => contradiction
  | case2 quoting offset c r g hg =>
    cases quoting with
    | true => contradiction
    | false => exact ⟨[], c, r, g, rfl, .here false _, hg, (Option.some.inj h).symm⟩
  | case3 quoting offset c r p hp ih =>
    have hfault : (lexFrom p.value.quoting (offset + Text.byteLength p.text) p.rest).fault? = some f := by
      rw [← h]
      unfold Lexing.prepend
      split <;> rfl
    obtain ⟨read, d, after, g, hrest, hreads, hg, hf⟩ := ih hfault
    have hsplits : p.text ++ p.rest = c :: r := (scanLexeme_splits hp).1
    refine ⟨p.text ++ read, d, after, g, ?_, .lexeme hp hrest hreads, hg, ?_⟩
    · rw [← hsplits, hrest, List.append_assoc]
    · rw [hf, Text.byteLength_append, Nat.add_assoc]

/-! The first characters of tokens. -/

/-- The characters that text of a token can begin with, as far as faults may stand at the token. -/
def TokenKind.BeginsWith : TokenKind → Char → Prop
  | .groupOpen _, c => c = '('
  | .groupClose, c => c = ')'
  | .quantifier _, c => c ∈ ['*', '+', '?', '{']
  | .atom _, _ | .bar, _ => True

/-- What an opening parenthesis can begin. -/
def TokenKind.IsOpening : TokenKind → Prop
  | .groupOpen _ | .atom (.options _) => True
  | _ => False

theorem TokenKind.IsOpening.beginsWith {kind : TokenKind} (h : kind.IsOpening) : kind.BeginsWith '(' := by
  match kind, h with
  | .groupOpen _, _ => rfl
  | .atom (.options _), _ => trivial

theorem scanGroupName_opens {lead s : Text} {close : Char} {p : Piece (Option TokenKind)}
    (h : scanGroupName lead close s = .ok p) : ∀ kind ∈ p.value, kind.IsOpening := by
  unfold scanGroupName at h
  split at h
  next =>
    split at h
    next => cases h; rintro _ ⟨⟩; trivial
    next => contradiction
  next => contradiction

theorem scanOptions_opens (s : Text) : ∀ kind ∈ (scanOptions s).value, kind.IsOpening := by
  simp only [scanOptions]
  split <;> (rintro _ ⟨⟩; trivial)

theorem scanOpening_opens {s : Text} {p : Piece (Option TokenKind)} (h : scanOpening s = .ok p) :
    ∀ kind ∈ p.value, kind.IsOpening := by
  unfold scanOpening at h
  split at h
  next => cases h; rintro _ ⟨⟩; trivial
  next =>
    unfold scanMarkedOpening at h
    split at h
    next => contradiction
    next =>
      split at h
      next => cases h; simp
      next => contradiction
    all_goals try (cases h; rintro _ ⟨⟩; trivial)
    next => exact scanGroupName_opens h
    next => exact scanGroupName_opens h
    next => exact scanGroupName_opens h
    next =>
      split at h
      next => cases h; exact scanOptions_opens _
      next => cases h; rintro _ ⟨⟩; trivial
  next => cases h; rintro _ ⟨⟩; trivial

theorem scanMark_beginsWith {c : Char} (bounds : Bounds) (s : Text) (hc : c ∈ ['*', '+', '?', '{']) :
    ∀ kind ∈ (scanMark c bounds s).value.token?, kind.BeginsWith c := by
  rintro _ ⟨⟩
  exact hc

theorem scanUnquoted_beginsWith {c : Char} {s : Text} {p : Piece Lexeme}
    (h : scanUnquoted c s = .ok p) : ∀ kind ∈ p.value.token?, kind.BeginsWith c := by
  unfold scanUnquoted at h
  split at h
  next =>
    unfold scanBackslash at h
    split at h
    next => cases h; simp
    next => cases h; simp
    next =>
      split at h
      next => cases h; rintro _ ⟨⟩; trivial
      next => contradiction
  next =>
    obtain ⟨q, -, rfl⟩ := exists_of_map_ok h
    rintro _ ⟨⟩
    trivial
  next =>
    split at h
    next q hq =>
      cases h
      exact fun kind hkind => (scanOpening_opens hq kind hkind).beginsWith
    next => contradiction
  all_goals try (cases h; rintro _ ⟨⟩; trivial)
  next => cases h; exact scanMark_beginsWith _ _ (by simp)
  next => cases h; exact scanMark_beginsWith _ _ (by simp)
  next => cases h; exact scanMark_beginsWith _ _ (by simp)
  next =>
    unfold scanBrace at h
    split at h
    next => contradiction
    next => cases h; rintro _ ⟨⟩; trivial
    next =>
      cases h
      rintro _ ⟨⟩
      simp [TokenKind.BeginsWith]

theorem scanLexeme_beginsWith {quoting : Bool} {c : Char} {s : Text} {p : Piece Lexeme}
    (h : scanLexeme quoting c s = .ok p) : ∀ kind ∈ p.value.token?, kind.BeginsWith c := by
  cases quoting with
  | false => exact scanUnquoted_beginsWith h
  | true =>
    have hp : p = scanQuoted c s := (Except.ok.inj h).symm
    rw [hp]
    unfold scanQuoted
    split
    next => simp
    next => rintro _ ⟨⟩; trivial

theorem lexFrom_starts (quoting : Bool) (offset : Nat) (s : Text) :
    ∀ t ∈ (lexFrom quoting offset s).tokens, ∃ before c after, s = before ++ c :: after ∧
      t.span.start = offset + Text.byteLength before ∧ t.kind.BeginsWith c := by
  intro t ht
  obtain ⟨before, c, after, quoting', p, hs, hstart, hp, htoken⟩ := exists_lexeme quoting offset s t ht
  exact ⟨before, c, after, hs, hstart, scanLexeme_beginsWith hp t.kind htoken⟩

/-! Faults of trees. -/

/-- The tokens at which a tree cannot go on, and the openings of groups that are never closed. -/
def Token.Causes (t : Token) (f : Fault) : Prop :=
  f.offset = t.span.start ∧
    match f.reason, t.kind with
    | .nothingToRepeat, .quantifier _ | .unmatchedClose, .groupClose => True
    | .nestingTooDeep _, .groupOpen _ | .unterminatedGroup, .groupOpen _ => True
    | _, _ => False

theorem Token.Causes.showsAt {t : Token} {f : Fault} {c : Char} (h : t.Causes f)
    (hc : t.kind.BeginsWith c) : f.reason.ShowsAt c ∧ f.reason ≠ .rangeOutOfOrder := by
  obtain ⟨offset, reason⟩ := f
  obtain ⟨span, kind⟩ := t
  cases reason <;> cases kind <;>
    first | exact h.2.elim | exact ⟨hc, by simp⟩

theorem Builder.step_fault {b : Builder} {t : Token} {f : Fault} (h : b.step t = .error f) :
    t.Causes f := by
  unfold Builder.step at h
  split at h
  next => contradiction
  next => contradiction
  next hkind =>
    split at h
    next => contradiction
    next => cases h; simp [Token.Causes, hkind]
  next hkind =>
    split at h
    next => contradiction
    next => cases h; simp [Token.Causes, hkind]
  next hkind =>
    split at h
    next => cases h; simp [Token.Causes, hkind]
    next => contradiction

/-- A run ends in a fault at one of its tokens, or it never closes a group it began with. -/
theorem Builder.run_fault {b : Builder} {stop : Nat} {ts : List Token} {f : Fault}
    (h : b.run stop ts = .error f) :
    (∃ t ∈ ts, t.Causes f) ∨ ∃ g ∈ b.pending, f = ⟨g.start, .unterminatedGroup⟩ := by
  induction ts generalizing b with
  | nil =>
    obtain ⟨l, pending⟩ := b
    cases pending with
    | nil => contradiction
    | cons g pending => exact .inr ⟨g, by simp, (Except.error.inj h).symm⟩
  | cons t ts ih =>
    rw [Builder.run_cons] at h
    cases hstep : b.step t with
    | error g =>
      rw [hstep] at h
      cases h
      exact .inl ⟨t, by simp, Builder.step_fault hstep⟩
    | ok b' =>
      rw [hstep, ok_bind] at h
      rcases ih h with ⟨u, hu, hcauses⟩ | ⟨g, hg, rfl⟩
      · exact .inl ⟨u, by simp [hu], hcauses⟩
      · cases Builder.step_of_ok hstep with
        | groupOpen l pending span kind hdepth =>
          rcases List.mem_cons.1 hg with rfl | hg
          · exact .inl ⟨⟨span, .groupOpen kind⟩, by simp, rfl, trivial⟩
          · exact .inr ⟨g, hg, rfl⟩
        | groupClose l g' pending span => exact .inr ⟨g, List.mem_cons_of_mem g' hg, rfl⟩
        | _ => exact .inr ⟨g, hg, rfl⟩

theorem buildTree_fault {tokens : List Token} {length : Nat} {f : Fault}
    (h : buildTree tokens length = .error f) : ∃ t ∈ tokens, t.Causes f := by
  rw [buildTree_eq_run] at h
  rcases Builder.run_fault h with hcauses | ⟨g, hg, -⟩
  · exact hcauses
  · simp [Builder.fresh] at hg

/-- A range out of order begins after `before`, in a class that the lexer has reached. -/
def BackwardRangeAt (before rest : Text) : Prop :=
  ∃ read inside, before = read ++ inside ∧ Reads false read false (inside ++ rest) ∧
    ReadInClass inside rest ∧ BeginsBackwardRange rest

theorem tokenize_fault {pattern : Text} {f : Fault} (h : tokenize pattern = .error f) :
    ∃ before c after, pattern = before ++ c :: after ∧ f.offset = Text.byteLength before ∧
      f.reason.ShowsAt c ∧ (f.reason = .rangeOutOfOrder → BackwardRangeAt before (c :: after)) := by
  have hfault : (lex pattern).fault? = some f := by
    unfold tokenize at h
    split at h
    next hlex => rw [hlex, ← Except.error.inj h]
    next => contradiction
  obtain ⟨read, c, s, g, hpattern, hreads, hg, hf⟩ := lexFrom_fault hfault
  obtain ⟨inside, d, after, hs, hoffset, hshows, hrange⟩ := scanUnquoted_error hg
  refine ⟨read ++ inside, d, after, ?_, ?_, ?_, ?_⟩
  · rw [hpattern, hs, List.append_assoc]
  · simp [hf, Fault.shift, hoffset]
  · rw [hf]
    exact hshows
  · intro hreason
    rw [hf] at hreason
    rw [hs] at hreads
    exact ⟨read, inside, rfl, hreads, hrange hreason⟩

theorem parse_fault_place {pattern : Text} {f : Fault} (h : parse pattern = .error f) :
    Text.isBoundary pattern f.offset = true ∧ f.offset < Text.byteLength pattern ∧
      ∃ before c after, pattern = before ++ c :: after ∧ f.offset = Text.byteLength before ∧
        f.reason.ShowsAt c ∧ (f.reason = .rangeOutOfOrder → BackwardRangeAt before (c :: after)) := by
  have hplace : ∃ before c after, pattern = before ++ c :: after ∧
      f.offset = Text.byteLength before ∧ f.reason.ShowsAt c ∧
      (f.reason = .rangeOutOfOrder → BackwardRangeAt before (c :: after)) := by
    cases htokens : tokenize pattern with
    | error g =>
      rw [parse, htokens] at h
      cases h
      exact tokenize_fault htokens
    | ok tokens =>
      rw [parse, htokens, ok_bind] at h
      obtain ⟨t, ht, hcauses⟩ := buildTree_fault h
      have hstarts := lexFrom_starts false 0 pattern
      change ∀ t ∈ (lex pattern).tokens, _ at hstarts
      rw [tokenize_eq_ok_iff.1 htokens] at hstarts
      obtain ⟨before, c, after, hpattern, hstart, hbegins⟩ := hstarts t ht
      obtain ⟨hshows, hrange⟩ := hcauses.showsAt hbegins
      rw [Nat.zero_add] at hstart
      exact ⟨before, c, after, hpattern, hcauses.1.trans hstart, hshows, fun h => absurd h hrange⟩
  obtain ⟨before, c, after, hpattern, hoffset, -⟩ := id hplace
  refine ⟨?_, ?_, hplace⟩
  · rw [hoffset, hpattern]
    exact Text.isBoundary_append before (c :: after)
  · have hc := c.utf8Size_pos
    rw [hoffset, hpattern]
    simp
    omega

theorem parse_fault_place_backward_range :
    let pattern : Text := ['a', '\\', 'Q', '[', '\\', 'E', '[', '^', 'é', '\\', 'x', '6', '2', '-',
      'a', ']', ')']
    parse pattern = .error ⟨10, .rangeOutOfOrder⟩ ∧ 10 < Text.byteLength pattern ∧
      ∃ before c after, pattern = before ++ c :: after ∧ 10 = Text.byteLength before ∧
        BackwardRangeAt before (c :: after) := by
  intro pattern
  have hlex : lex pattern = ⟨[⟨⟨0, 1⟩, .atom (.char 'a')⟩,
      ⟨⟨3, 4⟩, .atom (.escape (.literal '['))⟩], some ⟨10, .rangeOutOfOrder⟩⟩ := by
    decide +kernel
  have h : parse pattern = .error ⟨10, .rangeOutOfOrder⟩ := by
    rw [parse, tokenize, hlex]
    rfl
  obtain ⟨-, hlt, before, c, after, hpattern, hoffset, -, hrange⟩ := parse_fault_place h
  exact ⟨h, hlt, before, c, after, hpattern, hoffset, hrange rfl⟩

end PatternAudit.Grammar
