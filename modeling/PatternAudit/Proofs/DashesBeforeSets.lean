import PatternAudit.Proofs.ClassPlaces

set_option autoImplicit false

/-!
# Dashes before sets

Where an escape for a set of characters stands behind a dash there is no range, and the dash is a member of
the class like the character before it and the set behind it. A named set does not stop a range: its bracket
is taken for the upper end, and what is left of the set is read as single characters. `Grammar.dash_before_set`
says both, for a class of one character, a dash and a set.
-/
namespace PatternAudit.Grammar

/-- The letter that announces a property of characters, or the lack of one. -/
def propertyLetter (negated : Bool) : Char :=
  if negated then 'P' else 'p'

/-- What stands behind the backslash of an escape for a set of characters. -/
inductive WritesSet : Escape → Text → Prop where
  | shorthand {letter : Char} (h : letter ∈ setLetters) : WritesSet (.shorthand letter) [letter]
  | property (negated : Bool) {name : Text} (hname : name ≠ []) (hclose : '}' ∉ name)
      (hcaret : ∀ s, name ≠ '^' :: s) :
    WritesSet (.property negated name) (propertyLetter negated :: '{' :: name ++ ['}'])
  | caretProperty (negated : Bool) {name : Text} (hname : name ≠ []) (hclose : '}' ∉ name) :
    WritesSet (.property (!negated) name) (propertyLetter negated :: '{' :: '^' :: name ++ ['}'])
  | letterProperty (negated : Bool) {c : Char} (hc : c.isAlpha = true) :
    WritesSet (.property negated [c]) [propertyLetter negated, c]

/-! Sets. -/

theorem scanEscape_propertyLetter {negated : Bool} {s : Text} {p : Piece Escape}
    (h : scanProperty negated s = .ok p) :
    scanEscape true (propertyLetter negated :: s) = .ok (p.after [propertyLetter negated]) := by
  have hescape : scanEscape true (propertyLetter negated :: s) =
      (scanProperty negated s).map (Piece.after [propertyLetter negated]) := by
    cases negated <;> rfl
  rw [hescape, h]
  rfl

theorem scanProperty_plain (negated : Bool) {name : Text} (hname : name ≠ []) (hclose : '}' ∉ name)
    (hcaret : ∀ s, name ≠ '^' :: s) (rest : Text) :
    scanProperty negated ('{' :: name ++ '}' :: rest) =
      .ok ⟨.property negated name, '{' :: name ++ ['}'], rest⟩ := by
  have hsplit := splitFirst?_append hclose rest
  obtain ⟨c, s, rfl⟩ := List.exists_cons_of_ne_nil hname
  have hc : c ≠ '^' := fun h => hcaret s (by rw [h])
  simp only [List.cons_append] at hsplit ⊢
  simp [scanProperty, hsplit, hc]

theorem WritesSet.scanEscape {e : Escape} {text : Text} (h : WritesSet e text) (rest : Text) :
    Grammar.scanEscape true (text ++ rest) = .ok ⟨e, text, rest⟩ ∧ e.asChar = none := by
  cases h with
  | @shorthand letter hletter =>
    have hset := letterEscape?_shorthand true (.inl hletter)
    refine ⟨?_, rfl⟩
    simp [Grammar.scanEscape, hset]
  | property negated hname hclose hcaret =>
    have hscan := scanEscape_propertyLetter (scanProperty_plain negated hname hclose hcaret rest)
    refine ⟨?_, rfl⟩
    simpa [Piece.after] using hscan
  | caretProperty negated hname hclose =>
    have hscan := scanEscape_propertyLetter (scanProperty_written negated hname hclose rest)
    refine ⟨?_, rfl⟩
    simpa [Piece.after] using hscan
  | @letterProperty negated c hc =>
    have hbrace : c ≠ '{' := by
      rintro rfl
      contradiction
    have hproperty : scanProperty negated (c :: rest) = .ok ⟨.property negated [c], [c], rest⟩ := by
      unfold scanProperty
      split
      next heq => exact absurd (List.cons.inj heq).1 hbrace
      next heq =>
        obtain ⟨rfl, rfl⟩ := List.cons.inj heq
        rw [if_pos hc]
      next heq => contradiction
    exact ⟨scanEscape_propertyLetter hproperty, rfl⟩

theorem WritesSet.scanMember {e : Escape} {text : Text} (h : WritesSet e text) (rest : Text) :
    Grammar.scanMember '\\' (text ++ rest) = .ok ⟨.set e, '\\' :: text, rest⟩ := by
  obtain ⟨hescape, hset⟩ := h.scanEscape rest
  exact scanMember_set hescape hset

/-! Members. -/

/-- The characters that mean something in a class. -/
def classMarks : Text := ['[', '\\', ']', '-']

theorem scanMembers_plain {plain : Text} (hplain : ∀ c ∈ plain, c ∉ classMarks) (offset : Nat)
    (rest : Text) :
    scanMembers offset (plain ++ ']' :: rest) = .ok ⟨plain.map .literal, plain ++ [']'], rest⟩ := by
  induction plain generalizing offset with
  | nil =>
    rw [List.nil_append, scanMembers, if_pos rfl]
    rfl
  | cons c plain ih =>
    obtain ⟨hc, hlater⟩ := List.forall_mem_cons.1 hplain
    simp only [classMarks, List.mem_cons, List.not_mem_nil, or_false, not_or] at hc
    obtain ⟨hopen, hbackslash, hclose, -⟩ := hc
    have hnext : StartsNoRange (plain ++ ']' :: rest) := by
      cases plain with
      | nil => trivial
      | cons d plain =>
        have hdash : d ≠ '-' := by
          rintro rfl
          exact hlater '-' List.mem_cons_self (by decide)
        simp [StartsNoRange, hdash]
    have hmember : scanMember c (plain ++ ']' :: rest) = .ok ⟨.literal c, [c], plain ++ ']' :: rest⟩ := by
      simp only [scanMember, scanSimpleMember, hopen, hbackslash, if_false]
      exact extendRange_of_startsNoRange hnext
    rw [List.cons_append, scanMembers_of_ok hclose hmember, ih hlater]
    rfl

/-- Behind its bracket a named set has nothing in it that means something to a class but its end. -/
theorem ClassItem.written_posix (negated : Bool) {name : Text} (hname : ∀ c ∈ name, c.isAlpha = true) :
    ∃ plain, plain = ':' :: caret negated ++ name ++ [':'] ∧
      (ClassItem.posix negated name).written = '[' :: (plain ++ [']']) ∧ ∀ c ∈ plain, c ∉ classMarks := by
  refine ⟨_, rfl, by simp [ClassItem.written], fun c hc => ?_⟩
  have hmarks : ∀ d ∈ classMarks, d.isAlpha = false := by simp [classMarks]
  simp only [List.cons_append, List.mem_cons, List.mem_append, List.not_mem_nil, or_false] at hc
  rcases hc with rfl | (hc | hc) | rfl
  · decide
  · cases negated with
    | false => exact absurd hc List.not_mem_nil
    | true =>
      obtain rfl := List.mem_singleton.1 hc
      decide
  · intro hmem
    exact absurd (hname c hc) (by rw [hmarks c hmem]; decide)
  · decide

/-- A class whose members begin with an escape, and what is read behind it. -/
theorem lex_class_escape {s text rest : Text} {items : List ClassItem}
    (h : scanMembers 1 ('\\' :: s) = .ok ⟨items, text, rest⟩) :
    lex ('[' :: '\\' :: s) =
      (lexFrom false (Text.byteLength ('[' :: text)) rest).after
        [⟨⟨0, Text.byteLength ('[' :: text)⟩, .atom (.charClass ⟨false, items⟩)⟩] := by
  have hclass : scanClass ('\\' :: s) = .ok ⟨⟨false, items⟩, text, rest⟩ := by
    change (scanMembers 1 ('\\' :: s)).map _ = _
    rw [h]
    rfl
  have hscan : scanLexeme false '[' ('\\' :: s) =
      .ok ⟨.plain (.atom (.charClass ⟨false, items⟩)), '[' :: text, rest⟩ := by
    change (scanClass ('\\' :: s)).map _ = _
    rw [hclass]
    rfl
  rw [lex, lexFrom_of_ok hscan, Nat.zero_add]
  simp [Lexing.prepend, Lexing.after, Lexeme.plain]

theorem tokenize_class_escape_error {s : Text} {f : Fault} (h : scanMembers 1 ('\\' :: s) = .error f) :
    tokenize ('[' :: '\\' :: s) = .error f := by
  have hscan : scanUnquoted '[' ('\\' :: s) = .error f := by
    change ((scanMembers 1 ('\\' :: s)).map _).map _ = _
    rw [h]
    rfl
  have hfault := (Reads.here false ('[' :: '\\' :: s)).tokenize_error hscan
  simpa [Fault.shift] using hfault

/-! A character, a dash and a set. -/

section

variable {lo : Char} {body : Text}

theorem scanSimpleMember_escaped {rest : Text} (h : WritesChar lo ('\\' :: body) ('-' :: rest)) :
    scanSimpleMember '\\' (body ++ '-' :: rest) = .ok ⟨.literal lo, '\\' :: body, '-' :: rest⟩ := by
  obtain ⟨c, s, hcons, -, hsimple⟩ := h.scanSimpleMember
  obtain ⟨rfl, rfl⟩ := List.cons.inj hcons
  exact hsimple

theorem scanMembers_dash_set {e : Escape} {text : Text} (hset : WritesSet e text)
    (hlo : WritesChar lo ('\\' :: body) ('-' :: '\\' :: (text ++ [']']))) :
    scanMembers 1 ('\\' :: (body ++ '-' :: '\\' :: (text ++ [']']))) =
      .ok ⟨[.literal lo, .literal '-', .set e], '\\' :: body ++ '-' :: '\\' :: text ++ [']'], []⟩ := by
  obtain ⟨hescape, hnoChar⟩ := hset.scanEscape [']']
  have hfirst : scanMember '\\' (body ++ '-' :: '\\' :: (text ++ [']'])) =
      .ok ⟨.literal lo, '\\' :: body, '-' :: '\\' :: (text ++ [']'])⟩ := by
    obtain ⟨c, t, hcons, -, hmember⟩ := hlo.scanMember_dropped hescape hnoChar
    obtain ⟨rfl, rfl⟩ := List.cons.inj hcons
    exact hmember
  have hdash : scanMember '-' ('\\' :: (text ++ [']'])) =
      .ok ⟨.literal '-', ['-'], '\\' :: (text ++ [']'])⟩ := rfl
  have hlast : ∀ offset, scanMembers offset [']'] = .ok ⟨[], [']'], []⟩ := fun offset => by
    rw [scanMembers, if_pos rfl]
  rw [scanMembers_of_ok (by decide) hfirst, scanMembers_of_ok (by decide) hdash,
    scanMembers_of_ok (by decide) (hset.scanMember [']']), hlast]
  simp [Except.map, Piece.map, Piece.after]

/-- Behind a dash a bracket is the upper end of a range, whatever it would open elsewhere. -/
theorem scanMember_dash_bracket {rest : Text} (hlo : WritesChar lo ('\\' :: body) ('-' :: '[' :: rest)) :
    scanMember '\\' (body ++ '-' :: '[' :: rest) =
      if '[' < lo then .error ⟨0, .rangeOutOfOrder⟩
      else .ok ⟨.range lo '[', '\\' :: body ++ ['-', '['], rest⟩ := by
  rw [scanMember, scanSimpleMember_escaped hlo]
  rfl

/-- The range takes the bracket, so the first closing one ends the class and the second stands alone. -/
theorem tokenize_dash_bracket {plain : Text} (hplain : ∀ c ∈ plain, c ∉ classMarks)
    (hlo : WritesChar lo ('\\' :: body) ('-' :: '[' :: (plain ++ [']', ']']))) :
    let read := '[' :: '\\' :: (body ++ '-' :: '[' :: (plain ++ [']']))
    let stop := Text.byteLength read
    ('[' < lo → tokenize (read ++ [']']) = .error ⟨1, .rangeOutOfOrder⟩) ∧
      (lo ≤ '[' → tokenize (read ++ [']']) =
        .ok [⟨⟨0, stop⟩, .atom (.charClass ⟨false, .range lo '[' :: plain.map .literal⟩)⟩,
          ⟨⟨stop, stop + 1⟩, .atom (.char ']')⟩]) := by
  intro read stop
  have hread : read ++ [']'] = '[' :: '\\' :: (body ++ '-' :: '[' :: (plain ++ [']', ']'])) := by
    simp [read]
  have hmember := scanMember_dash_bracket hlo
  rw [hread]
  constructor
  · intro hlt
    rw [if_pos hlt] at hmember
    exact tokenize_class_escape_error (scanMembers_of_error (by decide) hmember 1)
  · intro hle
    rw [if_neg (Char.not_lt.2 hle)] at hmember
    have hmembers : scanMembers 1 ('\\' :: (body ++ '-' :: '[' :: (plain ++ [']', ']']))) =
        .ok ⟨.range lo '[' :: plain.map .literal, '\\' :: (body ++ '-' :: '[' :: (plain ++ [']'])),
          [']']⟩ := by
      rw [scanMembers_of_ok (by decide) hmember, scanMembers_plain hplain]
      simp [Except.map, Piece.map, Piece.after]
    have hbracket : scanLexeme false ']' [] = .ok ⟨.plain (.atom (.char ']')), [']'], []⟩ := rfl
    have hwidth : Text.byteLength [']'] = 1 := rfl
    rw [tokenize_eq_ok_iff, lex_class_escape hmembers, lexFrom_of_ok hbracket, lexFrom_nil]
    simp only [Lexing.prepend, Lexing.after, Lexeme.plain, List.singleton_append, hwidth]
    rfl

end

/-- Behind a dash an escape for a set leaves the dash to itself, and a named set does not. -/
theorem dash_before_set (lo : Char) (body : Text) :
    (∀ e text, WritesSet e text → WritesChar lo ('\\' :: body) ('-' :: '\\' :: (text ++ [']'])) →
      let pattern := '[' :: '\\' :: (body ++ '-' :: '\\' :: (text ++ [']']))
      tokenize pattern = .ok [⟨⟨0, Text.byteLength pattern⟩,
        .atom (.charClass ⟨false, [.literal lo, .literal '-', .set e]⟩)⟩]) ∧
    ∀ negated name, (∀ c ∈ name, c.isAlpha = true) →
      let set := (ClassItem.posix negated name).written
      let read := '[' :: '\\' :: (body ++ '-' :: set)
      let stop := Text.byteLength read
      WritesChar lo ('\\' :: body) ('-' :: (set ++ [']'])) →
        ('[' < lo → tokenize (read ++ [']']) = .error ⟨1, .rangeOutOfOrder⟩) ∧
          (lo ≤ '[' → tokenize (read ++ [']']) =
            .ok [⟨⟨0, stop⟩, .atom (.charClass ⟨false,
              .range lo '[' :: (':' :: caret negated ++ name ++ [':']).map .literal⟩)⟩,
              ⟨⟨stop, stop + 1⟩, .atom (.char ']')⟩]) := by
  constructor
  · intro e text hset hlo pattern
    have hlex := lex_class_escape (scanMembers_dash_set hset hlo)
    rw [lexFrom_nil] at hlex
    rw [tokenize_eq_ok_iff, hlex]
    simp [Lexing.after, pattern]
  · intro negated name hname set read stop hlo
    obtain ⟨plain, rfl, hset, hplain⟩ := ClassItem.written_posix negated hname
    simp only [stop, read, set, hset] at hlo ⊢
    exact tokenize_dash_bracket hplain (by simpa using hlo)

theorem dash_before_set_property_and_name :
    let property : Text := ['p', '{', '^', 'L', 'u', '}']
    let digits : Text := ['d', 'i', 'g', 'i', 't']
    let set : Text := (ClassItem.posix true digits).written
    WritesSet (.property true ['L', 'u']) property ∧
      WritesChar 'a' ['\\', 'x', '6', '1'] ('-' :: '\\' :: (property ++ [']'])) ∧
      tokenize ('[' :: '\\' :: (['x', '6', '1'] ++ '-' :: '\\' :: (property ++ [']']))) =
        .ok [⟨⟨0, 14⟩, .atom (.charClass ⟨false, [.literal 'a', .literal '-',
          .set (.property true ['L', 'u'])]⟩)⟩] ∧
      (∀ c ∈ digits, c.isAlpha = true) ∧
      WritesChar '\n' ['\\', 'n'] ('-' :: (set ++ [']'])) ∧ '\n' ≤ '[' ∧
      tokenize ('[' :: '\\' :: (['n'] ++ '-' :: set) ++ [']']) =
        .ok [⟨⟨0, 14⟩, .atom (.charClass ⟨false, .range '\n' '[' ::
          [':', '^', 'd', 'i', 'g', 'i', 't', ':'].map .literal⟩)⟩, ⟨⟨14, 15⟩, .atom (.char ']')⟩] := by
  intro property digits set
  have hset : WritesSet (.property true ['L', 'u']) property :=
    .caretProperty false (by decide) (by decide)
  have hlo : WritesChar 'a' ['\\', 'x', '6', '1'] ('-' :: '\\' :: (property ++ [']'])) := .escaped rfl
  have hname : ∀ c ∈ digits, c.isAlpha = true := by simp [digits]
  have hbreak : WritesChar '\n' ['\\', 'n'] ('-' :: (set ++ [']'])) := .escaped rfl
  exact ⟨hset, hlo, (dash_before_set 'a' ['x', '6', '1']).1 _ _ hset hlo, hname, hbreak, by decide,
    ((dash_before_set '\n' ['n']).2 true digits hname hbreak).2 (by decide)⟩

/-- A dash before a named set is no member of its own. -/
theorem tokenize_dash_named :
    tokenize ['[', '\\', 'x', '6', '1', '-', '[', ':', 'd', 'i', 'g', 'i', 't', ':', ']', ']'] ≠
      .ok [⟨⟨0, 16⟩, .atom (.charClass ⟨false, [.literal 'a', .literal '-',
        .posix false ['d', 'i', 'g', 'i', 't']]⟩)⟩] := by
  have hfault : (lex ['[', '\\', 'x', '6', '1', '-', '[', ':', 'd', 'i', 'g', 'i', 't', ':', ']', ']']).fault? =
      some ⟨1, .rangeOutOfOrder⟩ := by
    decide +kernel
  rw [ne_eq, tokenize_eq_ok_iff]
  intro h
  rw [h] at hfault
  contradiction

end PatternAudit.Grammar
