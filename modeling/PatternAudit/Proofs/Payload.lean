import PatternAudit.Grammar.Lexeme

set_option autoImplicit false

/-!
# What tokens carry

The data of tokens has a form that the parts of the library after the lexer take for granted: bounds
in order and not too large, classes that are not empty and hold no more than a class can, names and
option letters. `lex_valid` says that every token of every pattern has it, of malformed ones too.
-/
namespace PatternAudit.Grammar

/-- The escapes that can stand outside a class, and those that can stand in one. -/
def Escape.Valid (inClass : Bool) : Escape → Prop
  | .literal _ => True
  | .shorthand letter =>
    letter ∈ ['d', 'D', 'w', 'W', 's', 'S', 'h', 'H', 'v', 'V'] ∨
      inClass = false ∧ letter ∈ ['R', 'X', 'N', 'C']
  | .assertion letter => inClass = false ∧ letter ∈ ['b', 'B', 'A', 'z', 'Z', 'G', 'K']
  | .property _ name => name ≠ []
  | .backreference target => inClass = false ∧ target ≠ []

def ClassItem.Valid : ClassItem → Prop
  | .literal _ => True
  | .range lo hi => lo ≤ hi
  | .set (.shorthand letter) => letter ∈ ['d', 'D', 'w', 'W', 's', 'S', 'h', 'H', 'v', 'V']
  | .set (.property _ name) => name ≠ []
  | .set _ => False
  | .posix _ name => name ≠ []

def CharClass.Valid (cls : CharClass) : Prop :=
  cls.items ≠ [] ∧ ∀ item ∈ cls.items, item.Valid

def ValidFlags (flags : Text) : Prop :=
  flags ≠ [] ∧ ∀ c ∈ flags, c ∈ ['i', 'm', 'n', 's', 'x', 'J', 'U', 'X', '^', '-']

def ValidName (name : Text) : Prop :=
  ∃ c s, name = c :: s ∧ (Text.isAlphabetic c = true ∨ c = '_') ∧
    ∀ d ∈ s, Text.isAlphanumeric d = true ∨ d = '_'

def Bounds.Valid : Bounds → Prop
  | .atLeast lo => lo ≤ 65535
  | .between lo hi => lo ≤ 65535 ∧ hi ≤ 65535 ∧ lo ≤ hi

def GroupKind.Valid : GroupKind → Prop
  | .named name => ValidName name
  | .scoped flags => ValidFlags flags
  | _ => True

def Atom.Valid : Atom → Prop
  | .escape e => e.Valid false
  | .charClass cls => cls.Valid
  | .options flags => ValidFlags flags
  | .char _ | .any | .anchor _ => True

def TokenKind.Valid : TokenKind → Prop
  | .atom a => a.Valid
  | .groupOpen kind => kind.Valid
  | .quantifier q => q.bounds.Valid
  | .groupClose | .bar => True

/-! Escapes. -/

theorem literalOf_valid {n? : Option Nat} {e : Escape} (inClass : Bool) (h : literalOf n? = .ok e) :
    e.Valid inClass := by
  unfold literalOf at h
  split at h
  next => cases h; trivial
  next => contradiction

theorem scanBracedCode_valid {base : Nat} {s : Text} {p : Piece Escape} (inClass : Bool)
    (h : scanBracedCode base s = .ok p) : p.value.Valid inClass := by
  unfold scanBracedCode at h
  split at h
  next =>
    split at h
    next =>
      obtain ⟨e, he, rfl⟩ := exists_of_map_ok h
      exact literalOf_valid inClass he
    next => contradiction
  next => contradiction

theorem scanShortCode_valid {base limit : Nat} {s : Text} {p : Piece Escape} (inClass : Bool)
    (h : scanShortCode base limit s = .ok p) : p.value.Valid inClass := by
  obtain ⟨e, he, rfl⟩ := exists_of_map_ok h
  exact literalOf_valid inClass he

theorem scanHexCode_valid {s : Text} {p : Piece Escape} (inClass : Bool)
    (h : scanHexCode s = .ok p) : p.value.Valid inClass := by
  unfold scanHexCode at h
  split at h
  next => exact scanBracedCode_valid inClass h
  next => exact scanShortCode_valid inClass h

theorem scanControl_valid {s : Text} {p : Piece Escape} (inClass : Bool)
    (h : scanControl s = .ok p) : p.value.Valid inClass := by
  unfold scanControl at h
  split at h
  next => contradiction
  next =>
    split at h
    next =>
      obtain ⟨e, he, rfl⟩ := exists_of_map_ok h
      exact literalOf_valid inClass he
    next => contradiction

theorem scanProperty_valid {negated : Bool} {s : Text} {p : Piece Escape} (inClass : Bool)
    (h : scanProperty negated s = .ok p) : p.value.Valid inClass := by
  unfold scanProperty at h
  split at h
  next =>
    split at h
    next => cases h; simp [Escape.Valid]
    next => contradiction
    next => contradiction
    next => contradiction
    next => cases h; simp [Escape.Valid]
  next =>
    split at h
    next => cases h; simp [Escape.Valid]
    next => contradiction
  next => contradiction

theorem scanNumber_valid {sign s : Text} {p : Piece Escape} (h : scanNumber sign s = .ok p) :
    p.value.Valid false := by
  unfold scanNumber at h
  split at h
  next => contradiction
  next hdigits =>
    cases h
    simp only [Escape.Valid, true_and]
    exact List.append_ne_nil_of_right_ne_nil _ hdigits

theorem scanReference_valid {s : Text} {p : Piece Escape} (h : scanReference s = .ok p) :
    p.value.Valid false := by
  unfold scanReference at h
  split at h
  next => contradiction
  next =>
    split at h
    next =>
      unfold scanNumberReference at h
      split at h <;> exact scanNumber_valid h
    next =>
      split at h
      next => contradiction
      next => contradiction
      next hne _ =>
        cases h
        exact ⟨rfl, hne⟩

theorem scanEscapeTail_valid {inClass : Bool} {c : Char} {s : Text} {p : Piece Escape}
    (h : scanEscapeTail inClass c s = .ok p) : p.value.Valid inClass := by
  unfold scanEscapeTail at h
  split at h
  next => exact scanHexCode_valid inClass h
  next => exact scanBracedCode_valid inClass h
  next => exact scanShortCode_valid inClass h
  next => exact scanControl_valid inClass h
  next => exact scanProperty_valid inClass h
  next => exact scanProperty_valid inClass h
  next =>
    cases inClass with
    | true =>
      cases h
      trivial
    | false =>
      split at h
      next => exact scanReference_valid h
      next =>
        split at h
        next => cases h; simp [Escape.Valid]
        next => cases h; trivial

theorem letterEscape?_valid {inClass : Bool} {c : Char} {e : Escape}
    (h : letterEscape? inClass c = some e) : e.Valid inClass := by
  unfold letterEscape? at h
  split at h
  next => cases h; trivial
  next =>
    split at h
    next => cases h; trivial
    next =>
      split at h
      next hset =>
        cases h
        exact .inl (List.contains_iff_mem.1 hset)
      next =>
        split at h
        next hsequence =>
          cases h
          rw [Bool.and_eq_true, Bool.not_eq_true', List.contains_iff_mem] at hsequence
          exact .inr hsequence
        next =>
          split at h
          next hassertion =>
            cases h
            rw [Bool.and_eq_true, Bool.not_eq_true', List.contains_iff_mem] at hassertion
            exact hassertion
          next => contradiction

theorem scanEscape_valid {inClass : Bool} {s : Text} {p : Piece Escape}
    (h : scanEscape inClass s = .ok p) : p.value.Valid inClass := by
  unfold scanEscape at h
  split at h
  next => contradiction
  next =>
    split at h
    next he => cases h; exact letterEscape?_valid he
    next =>
      obtain ⟨q, hq, rfl⟩ := exists_of_map_ok h
      have hvalid := scanEscapeTail_valid hq
      exact hvalid

/-! Classes. -/

theorem scanPosix?_close_valid {negated : Bool} {lead s : Text} {p : Piece ClassItem}
    (h : scanPosix?.close negated lead s = some p) : p.value.Valid := by
  unfold scanPosix?.close at h
  split at h
  next => contradiction
  next _ hname => cases h; exact hname
  next => contradiction

theorem scanPosix?_valid {s : Text} {p : Piece ClassItem} (h : scanPosix? s = some p) :
    p.value.Valid := by
  unfold scanPosix? at h
  split at h
  next => exact scanPosix?_close_valid h
  next => exact scanPosix?_close_valid h
  next => contradiction

theorem scanSimpleMember_valid {c : Char} {s : Text} {p : Piece ClassItem}
    (h : scanSimpleMember c s = .ok p) : p.value.Valid := by
  unfold scanSimpleMember at h
  split at h
  next =>
    split at h
    next hq =>
      cases h
      have hvalid := scanPosix?_valid hq
      exact hvalid
    next => cases h; trivial
  next =>
    split at h
    next =>
      obtain ⟨q, hq, rfl⟩ := exists_of_map_ok h
      have hvalid := scanEscape_valid hq
      obtain ⟨e, text, rest⟩ := q
      cases e <;> simp_all [Escape.Valid, ClassItem.Valid, Piece.map, Piece.after]
    next => cases h; trivial

theorem extendRange_valid {p r : Piece ClassItem} (hp : p.value.Valid) (h : extendRange p = .ok r) :
    r.value.Valid := by
  obtain ⟨-, rfl⟩ | ⟨lo, c, s, q, -, -, -, -, hle, rfl⟩ := extendRange_cases h
  · exact hp
  · exact hle

theorem scanMember_valid {c : Char} {s : Text} {p : Piece ClassItem} (h : scanMember c s = .ok p) :
    p.value.Valid := by
  unfold scanMember at h
  split at h
  next => contradiction
  next hq => exact extendRange_valid (scanSimpleMember_valid hq) h

theorem scanMembers_valid {offset : Nat} {s : Text} {p : Piece (List ClassItem)}
    (h : scanMembers offset s = .ok p) : ∀ item ∈ p.value, item.Valid := by
  fun_induction scanMembers offset s generalizing p with
  | case1 => contradiction
  | case2 => cases h; simp
  | case3 => contradiction
  | case4 offset c r _ q hq ih =>
    obtain ⟨t, ht, rfl⟩ := exists_of_map_ok h
    intro item hitem
    rcases List.mem_cons.1 hitem with rfl | hitem
    · exact scanMember_valid hq
    · exact ih ht item hitem

/-- Members end at the first closing bracket, so there are some unless it comes at once. -/
theorem scanMembers_ne_nil {offset : Nat} {s : Text} {p : Piece (List ClassItem)}
    (h : scanMembers offset s = .ok p) (hs : ∀ r, s ≠ ']' :: r) : p.value ≠ [] := by
  rw [scanMembers.eq_def] at h
  split at h
  next => contradiction
  next c r =>
    split at h
    next hc => exact absurd (hc ▸ rfl) (hs r)
    next =>
      split at h
      next => contradiction
      next =>
        obtain ⟨t, -, rfl⟩ := exists_of_map_ok h
        simp [Piece.map]

theorem scanClass_finish_valid {negated : Bool} {lead s : Text} {first : List ClassItem}
    {p : Piece CharClass} (hfirst : ∀ item ∈ first, item.Valid)
    (hs : first ≠ [] ∨ ∀ r, s ≠ ']' :: r) (h : scanClass.finish negated lead first s = .ok p) :
    p.value.Valid := by
  obtain ⟨q, hq, rfl⟩ := exists_of_map_ok h
  constructor
  · intro hnil
    obtain ⟨hfirstNil, hqNil⟩ := List.append_eq_nil_iff.1 hnil
    rcases hs with hs | hs
    · exact hs hfirstNil
    · exact scanMembers_ne_nil hq hs hqNil
  · intro item hitem
    rcases List.mem_append.1 hitem with hitem | hitem
    · exact hfirst item hitem
    · exact scanMembers_valid hq item hitem

/-- A closing bracket in the first place is a member, so a class always has one. -/
theorem scanClass_valid {s : Text} {p : Piece CharClass} (h : scanClass s = .ok p) :
    p.value.Valid := by
  have hbracket : ∀ item ∈ [ClassItem.literal ']'], item.Valid := by
    intro item hitem
    rw [List.mem_singleton.1 hitem]
    trivial
  have hnone : ∀ item ∈ ([] : List ClassItem), item.Valid := by simp
  unfold scanClass at h
  split at h
  next => exact scanClass_finish_valid hbracket (.inl (by simp)) h
  next hr => exact scanClass_finish_valid hnone (.inr hr) h
  next => exact scanClass_finish_valid hbracket (.inl (by simp)) h
  next hr => exact scanClass_finish_valid hnone (.inr hr) h

/-! Group openings and bounds. -/

theorem validName_of_isGroupName {name : Text} (h : isGroupName name = true) : ValidName name := by
  unfold isGroupName at h
  split at h
  next => contradiction
  next c s =>
    simp only [Bool.and_eq_true, Bool.or_eq_true, beq_iff_eq, List.all_eq_true] at h
    exact ⟨c, s, rfl, h⟩

theorem validFlags_takeWhile {c : Char} (hc : isOptionLetter c = true) (s : Text) :
    ValidFlags ((c :: s).takeWhile isOptionLetter) := by
  constructor
  · simp [hc]
  · intro d hd
    have hletter : isOptionLetter d = true := List.all_eq_true.1 List.all_takeWhile d hd
    exact List.contains_iff_mem.1 hletter

theorem scanGroupName_valid {lead s : Text} {close : Char} {p : Piece (Option TokenKind)}
    (h : scanGroupName lead close s = .ok p) : ∀ kind ∈ p.value, kind.Valid := by
  unfold scanGroupName at h
  split at h
  next =>
    split at h
    next hname =>
      cases h
      rintro _ ⟨⟩
      exact validName_of_isGroupName hname
    next => contradiction
  next => contradiction

theorem scanOptions_valid {c : Char} (hc : isOptionLetter c = true) (s : Text) :
    ∀ kind ∈ (scanOptions (c :: s)).value, kind.Valid := by
  have hflags := validFlags_takeWhile hc s
  simp only [scanOptions]
  split
  next =>
    rintro _ ⟨⟩
    exact hflags
  next =>
    rintro _ ⟨⟩
    exact hflags
  next =>
    rintro _ ⟨⟩
    trivial

theorem scanMarkedOpening_valid {s : Text} {p : Piece (Option TokenKind)}
    (h : scanMarkedOpening s = .ok p) : ∀ kind ∈ p.value, kind.Valid := by
  unfold scanMarkedOpening at h
  split at h
  next => contradiction
  next =>
    split at h
    next => cases h; simp
    next => contradiction
  all_goals try (cases h; rintro _ ⟨⟩; trivial)
  next => exact scanGroupName_valid h
  next => exact scanGroupName_valid h
  next => exact scanGroupName_valid h
  next =>
    split at h
    next hc => cases h; exact scanOptions_valid hc _
    next =>
      cases h
      rintro _ ⟨⟩
      trivial

theorem scanOpening_valid {s : Text} {p : Piece (Option TokenKind)} (h : scanOpening s = .ok p) :
    ∀ kind ∈ p.value, kind.Valid := by
  unfold scanOpening at h
  split at h
  next =>
    cases h
    rintro _ ⟨⟩
    trivial
  next => exact scanMarkedOpening_valid h
  next =>
    cases h
    rintro _ ⟨⟩
    trivial

theorem repeatCount_le {digits : Text} {n : Nat} (h : repeatCount digits = .ok n) : n ≤ 65535 := by
  unfold repeatCount at h
  split at h
  next =>
    split at h
    next hle => cases h; exact hle
    next => contradiction
  next => contradiction

theorem boundsOf_valid {lo : Text} {hi? : Option Text} {b : Bounds} (h : boundsOf lo hi? = .ok b) :
    b.Valid := by
  obtain ⟨n, hn, h⟩ := exists_of_bind_ok h
  have hlo := repeatCount_le hn
  split at h
  next => cases h; exact ⟨hlo, hlo, Nat.le_refl n⟩
  next => cases h; exact hlo
  next =>
    obtain ⟨m, hm, h⟩ := exists_of_bind_ok h
    split at h
    next hle => cases h; exact ⟨hlo, repeatCount_le hm, hle⟩
    next => contradiction

theorem scanBounds_valid {s : Text} {p : Piece Bounds} (h : scanBounds s = .ok (some p)) :
    p.value.Valid := by
  unfold scanBounds at h
  split at h
  next => cases h
  next =>
    obtain ⟨b, hb, hp⟩ := exists_of_map_ok h
    cases hp
    exact boundsOf_valid hb

/-! Lexemes. -/

theorem scanGreed_bounds (bounds : Bounds) (s : Text) :
    (scanGreed bounds s).value.bounds = bounds := by
  unfold scanGreed
  split <;> rfl

theorem scanMark_valid {c : Char} {bounds : Bounds} (hbounds : bounds.Valid) (s : Text) :
    ∀ kind ∈ (scanMark c bounds s).value.token?, kind.Valid := by
  rintro _ ⟨⟩
  change (scanGreed bounds s).value.bounds.Valid
  rwa [scanGreed_bounds]

theorem scanBrace_valid {s : Text} {p : Piece Lexeme} (h : scanBrace s = .ok p) :
    ∀ kind ∈ p.value.token?, kind.Valid := by
  unfold scanBrace at h
  split at h
  next => contradiction
  next =>
    cases h
    rintro _ ⟨⟩
    trivial
  next q hq =>
    cases h
    rintro _ ⟨⟩
    change (scanGreed q.value q.rest).value.bounds.Valid
    rw [scanGreed_bounds]
    exact scanBounds_valid hq

theorem scanBackslash_valid {s : Text} {p : Piece Lexeme} (h : scanBackslash s = .ok p) :
    ∀ kind ∈ p.value.token?, kind.Valid := by
  unfold scanBackslash at h
  split at h
  next => cases h; simp
  next => cases h; simp
  next =>
    split at h
    next q hq =>
      cases h
      rintro _ ⟨⟩
      have hvalid := scanEscape_valid hq
      exact hvalid
    next => contradiction

theorem scanUnquoted_valid {c : Char} {s : Text} {p : Piece Lexeme} (h : scanUnquoted c s = .ok p) :
    ∀ kind ∈ p.value.token?, kind.Valid := by
  unfold scanUnquoted at h
  split at h
  next => exact scanBackslash_valid h
  next =>
    obtain ⟨q, hq, rfl⟩ := exists_of_map_ok h
    rintro _ ⟨⟩
    have hvalid := scanClass_valid hq
    exact hvalid
  next =>
    split at h
    next q hq =>
      cases h
      have hvalid := scanOpening_valid hq
      exact hvalid
    next => contradiction
  all_goals try (cases h; rintro _ ⟨⟩; trivial)
  next => cases h; exact scanMark_valid (by simp [Bounds.Valid]) s
  next => cases h; exact scanMark_valid (by simp [Bounds.Valid]) s
  next => cases h; exact scanMark_valid (by simp [Bounds.Valid]) s
  next => exact scanBrace_valid h

theorem scanLexeme_valid {quoting : Bool} {c : Char} {s : Text} {p : Piece Lexeme}
    (h : scanLexeme quoting c s = .ok p) : ∀ kind ∈ p.value.token?, kind.Valid := by
  cases quoting with
  | false => exact scanUnquoted_valid h
  | true =>
    have hp : p = scanQuoted c s := (Except.ok.inj h).symm
    rw [hp]
    unfold scanQuoted
    split
    next => simp
    next =>
      rintro _ ⟨⟩
      trivial

/-- A token begins where a lexeme does that stands for it. -/
theorem exists_lexeme (quoting : Bool) (offset : Nat) (s : Text) :
    ∀ t ∈ (lexFrom quoting offset s).tokens, ∃ before c after quoting' p, s = before ++ c :: after ∧
      t.span.start = offset + Text.byteLength before ∧ scanLexeme quoting' c after = .ok p ∧
      p.value.token? = some t.kind := by
  fun_induction lexFrom quoting offset s with
  | case1 => simp
  | case2 => simp
  | case3 quoting offset c r p hp ih =>
    have hsplits : p.text ++ p.rest = c :: r := (scanLexeme_splits hp).1
    have hlater : ∀ t ∈ (lexFrom p.value.quoting (offset + Text.byteLength p.text) p.rest).tokens,
        ∃ before d after quoting' q, c :: r = before ++ d :: after ∧
          t.span.start = offset + Text.byteLength before ∧ scanLexeme quoting' d after = .ok q ∧
          q.value.token? = some t.kind := by
      intro t ht
      obtain ⟨before, d, after, quoting', q, hrest, hstart, hq⟩ := ih t ht
      refine ⟨p.text ++ before, d, after, quoting', q, ?_, ?_, hq⟩
      · rw [← hsplits, hrest, List.append_assoc]
      · rw [hstart, Text.byteLength_append, Nat.add_assoc]
    unfold Lexing.prepend
    split
    next kind hkind =>
      intro t ht
      rcases List.mem_cons.1 ht with rfl | ht
      · exact ⟨[], c, r, quoting, p, rfl, rfl, hp, hkind⟩
      · exact hlater t ht
    next => exact hlater

theorem lex_valid (pattern : Text) : ∀ t ∈ (lex pattern).tokens, t.kind.Valid := by
  intro t ht
  obtain ⟨_, _, _, _, p, -, -, hp, htoken⟩ := exists_lexeme false 0 pattern t ht
  exact scanLexeme_valid hp t.kind htoken

end PatternAudit.Grammar
