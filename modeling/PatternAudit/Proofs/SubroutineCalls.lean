import PatternAudit.Proofs.ItemsBetween
import PatternAudit.Proofs.LiteralText

set_option autoImplicit false

/-!
# Subroutine calls

A recursion, a call of a group or a reference to a named group has a question mark behind its
parenthesis that explains nothing, so it opens a directive, and the text up to the closing parenthesis is
read like any other. Between two patterns that have trees such a call is one more item, a group whose
content is that text. The call of a group that comes later is written with a plus sign, which is read as
a quantifier with nothing to repeat, so no pattern can hold it (`Grammar.parse_call`).
-/
namespace PatternAudit.Grammar

open Lint (escapeText isSignificant significantChars)

/-! Texts of calls. -/

/-- A reference to a part of the pattern. -/
inductive Call where
  /-- To the whole pattern. -/
  | recursion
  /-- To the group of this number. -/
  | numbered (number : Text)
  /-- To a group so many openings before. -/
  | back (number : Text)
  /-- To the group of this name. -/
  | named (name : Text)
  | namedByP (name : Text)
  /-- To what the group of this name has matched. -/
  | matched (name : Text)

def Call.content : Call → Text
  | .recursion => ['R']
  | .numbered number => number
  | .back number => '-' :: number
  | .named name => '&' :: name
  | .namedByP name => 'P' :: '>' :: name
  | .matched name => 'P' :: '=' :: name

def ValidNumber (number : Text) : Prop :=
  number ≠ [] ∧ ∀ c ∈ number, c.isDigit = true

def Call.Valid : Call → Prop
  | .recursion => True
  | .numbered number | .back number => ValidNumber number
  | .named name | .namedByP name | .matched name => ValidName name

/-- The text of a group that opens with a question mark. -/
def marked (content : Text) : Text :=
  '(' :: '?' :: content ++ [')']

theorem byteLength_marked (content : Text) :
    Text.byteLength (marked content) = Text.byteLength content + 3 := by
  have hopen : Text.byteLength ['(', '?'] = 2 := rfl
  have hclose : Text.byteLength [')'] = 1 := rfl
  have hparts : marked content = ['(', '?'] ++ (content ++ [')']) := rfl
  rw [hparts, Text.byteLength_append, Text.byteLength_append, hopen, hclose]
  omega

theorem escapeText_of_plain {t : Text} (h : ∀ c ∈ t, isSignificant c = false) : escapeText t = t := by
  induction t with
  | nil => rfl
  | cons c t ih =>
    obtain ⟨hc, ht⟩ := List.forall_mem_cons.1 h
    rw [escapeText, hc, ih ht]
    rfl

/-- Digits are no marks of any kind. -/
theorem not_mem_of_isDigit {d : Char} (hd : d.isDigit = true) :
    d ∉ significantChars ∧ d ∉ openingMarks ∧ d ∉ optionLetters := by
  have hnot : ∀ c ∈ significantChars ++ openingMarks ++ optionLetters, (!c.isDigit) = true :=
    List.all_eq_true.1 (by decide)
  have hmem : d ∉ significantChars ++ openingMarks ++ optionLetters := fun hmem => by
    have hother := hnot d hmem
    rw [hd] at hother
    exact Bool.false_ne_true hother
  simp only [List.mem_append, not_or] at hmem
  exact ⟨hmem.1.1, hmem.1.2, hmem.2⟩

theorem isSignificant_eq_false {c : Char} : isSignificant c = false ↔ c ∉ significantChars := by
  rw [isSignificant, List.contains_eq_mem, decide_eq_false_iff_not]

theorem ValidNumber.plain {number : Text} (h : ValidNumber number) :
    ∀ c ∈ number, isSignificant c = false :=
  fun c hc => isSignificant_eq_false.2 (not_mem_of_isDigit (h.2 c hc)).1

theorem ValidName.plain {name : Text} (h : ValidName name) : ∀ c ∈ name, isSignificant c = false :=
  fun c hc => isSignificant_eq_false.2 (h.disjoint (by decide +kernel) c hc)

theorem Call.plain {call : Call} (h : call.Valid) : ∀ c ∈ call.content, isSignificant c = false := by
  cases call with
  | recursion => exact List.forall_mem_singleton.2 rfl
  | numbered number => exact ValidNumber.plain h
  | back number => exact List.forall_mem_cons.2 ⟨rfl, ValidNumber.plain h⟩
  | named name => exact List.forall_mem_cons.2 ⟨rfl, ValidName.plain h⟩
  | namedByP name | matched name =>
    exact List.forall_mem_cons.2 ⟨rfl, List.forall_mem_cons.2 ⟨rfl, ValidName.plain h⟩⟩

/-- A character that explains no question mark opens a directive. -/
theorem opensDirective_of_unmarked {c : Char} (hmark : c ∉ openingMarks) (hletter : c ∉ optionLetters)
    {s : Text} (hname : c = 'P' → s.head? ≠ some '<') : OpensDirective (c :: s) := by
  refine opensDirective_iff.2 ⟨hmark, hname, fun hoption => ?_⟩
  exact absurd (List.contains_iff_mem.1 hoption) hletter

theorem Call.opensDirective {call : Call} (h : call.Valid) (rest : Text) :
    OpensDirective (call.content ++ rest) := by
  cases call with
  | recursion => exact opensDirective_of_unmarked (by decide) (by decide) (by simp)
  | numbered number =>
    obtain ⟨hne, hdigits⟩ := h
    obtain ⟨d, ds, rfl⟩ := List.exists_cons_of_ne_nil hne
    obtain ⟨-, hmark, hletter⟩ := not_mem_of_isDigit (hdigits d List.mem_cons_self)
    refine opensDirective_of_unmarked hmark hletter ?_
    rintro rfl
    exact absurd (hdigits 'P' List.mem_cons_self) (by decide)
  | back number =>
    obtain ⟨hne, hdigits⟩ := h
    obtain ⟨d, ds, rfl⟩ := List.exists_cons_of_ne_nil hne
    obtain ⟨hplain, hmark, hletter⟩ := not_mem_of_isDigit (hdigits d List.mem_cons_self)
    -- the dash is an option letter, but what follows the letters closes no options
    have hdash : isOptionLetter '-' = true := rfl
    have hdigit : isOptionLetter d = false := by
      rw [isOptionLetter, List.contains_eq_mem, decide_eq_false_iff_not]
      exact hletter
    have hafter : ('-' :: d :: ds ++ rest).dropWhile isOptionLetter = d :: (ds ++ rest) := by
      simp [hdash, hdigit]
    refine opensDirective_iff.2 ⟨by decide, by simp, fun _ e he => ?_⟩
    change e ∈ (('-' :: d :: ds ++ rest).dropWhile isOptionLetter).head? at he
    rw [hafter] at he
    obtain rfl : d = e := by simpa using he
    constructor
    · rintro rfl
      exact hplain (by decide)
    · rintro rfl
      exact hmark (by decide)
  | named name => exact opensDirective_of_unmarked (by decide) (by decide) (by simp)
  | namedByP name | matched name =>
    exact opensDirective_of_unmarked (by decide) (by decide) (by simp)

/-! Patterns with a directive in them. -/

/-- A directive between two patterns is read between their tokens. -/
theorem lex_directive {p q content : Text} {ts us inside : List Token} (hp : lex p = ⟨ts, none⟩)
    (hq : lex q = ⟨us, none⟩) (hquote : Reads false p false []) (hopens : OpensDirective (content ++ ')' :: q))
    (hcontent : lexFrom false (Text.byteLength p + 2) (content ++ ')' :: q) =
      (lexFrom false (Text.byteLength p + 2 + Text.byteLength content) (')' :: q)).after inside) :
    let place := Text.byteLength p
    let stop := place + 2 + Text.byteLength content
    lex (p ++ marked content ++ q) =
      ⟨ts ++ ⟨⟨place, place + 2⟩, .groupOpen .directive⟩ :: (inside ++ [⟨⟨stop, stop + 1⟩, .groupClose⟩]) ++
        us.map (Token.move (stop + 1 + ·)), none⟩ := by
  intro place stop
  have hopening : scanLexeme false '(' ('?' :: (content ++ ')' :: q)) =
      .ok ⟨⟨some (.groupOpen .directive), false⟩, ['(', '?'], content ++ ')' :: q⟩ := by
    have hmarked : scanOpening ('?' :: (content ++ ')' :: q)) =
      .ok ⟨some (.groupOpen .directive), ['?'], content ++ ')' :: q⟩ := hopens
    simp only [scanLexeme, scanUnquoted, hmarked]
    rfl
  have hclosing : scanLexeme false ')' q = .ok ⟨.plain .groupClose, [')'], q⟩ := rfl
  have hafter : lexFrom false (stop + 1) q = ⟨us.map (Token.move (stop + 1 + ·)), none⟩ := by
    have hmoved : lexFrom false (stop + 1) q = (lex q).move (stop + 1 + ·) :=
      lexFrom_move false (stop + 1) 0 q
    rw [hmoved, hq]
    rfl
  have hbehind : lexFrom false stop (')' :: q) =
      ⟨⟨⟨stop, stop + 1⟩, .groupClose⟩ :: us.map (Token.move (stop + 1 + ·)), none⟩ := by
    rw [lexFrom_of_ok hclosing]
    change (lexFrom false (stop + 1) q).prepend stop _ = _
    rw [hafter]
    rfl
  have hends : EndsLexemes ('(' :: '?' :: (content ++ ')' :: q)) := by simp [EndsLexemes]
  have htext : p ++ marked content ++ q = p ++ '(' :: '?' :: (content ++ ')' :: q) := by simp [marked]
  rw [htext, lex, lexFrom_append hp hquote hends (.inl rfl), map_move_zero, Nat.zero_add,
    lexFrom_of_ok hopening]
  change ((lexFrom false (place + 2) _).prepend place _).after ts = _
  rw [hcontent, hbehind]
  have hwidth : Text.byteLength ['(', '?'] = 2 := rfl
  simp [Lexing.after, Lexing.prepend, hwidth]

/-- Plain characters one after the other are what their tokens make up. -/
theorem Node.itemsOf_chars {tokens : List Token} {t : Text} (h : tokens.mapM Token.asChar = some t) :
    ∃ nodes, ItemsOf nodes tokens ∧ nodes.mapM asChar = some t ∧ nestingAll nodes = 0 := by
  induction tokens generalizing t with
  | nil =>
    cases h
    exact ⟨[], .nil, rfl, rfl⟩
  | cons u tokens ih =>
    obtain ⟨c, t, hc, hchars, rfl⟩ := mapM_cons_eq_some_iff.1 h
    obtain ⟨nodes, hitems, hnodes, hnesting⟩ := ih hchars
    obtain ⟨span, kind⟩ := u
    cases kind with
    | atom a =>
      refine ⟨.atom span a :: nodes, .cons (.atom span a) hitems, mapM_cons_eq_some hc hnodes, ?_⟩
      rw [nestingAll, hnesting]
      rfl
    | _ => contradiction

section

variable {p q : Text} {left right : Node} (hp : parse p = .ok left) (hq : parse q = .ok right)
  (hquote : Reads false p false [])

include hp hq hquote

theorem parse_plainDirective {content : Text} (hplain : ∀ c ∈ content, isSignificant c = false)
    (hopens : OpensDirective (content ++ ')' :: q)) :
    let place := Text.byteLength p
    let stop := place + Text.byteLength (marked content)
    ∃ tree body, parse (p ++ marked content ++ q) = .ok tree ∧ body.Spells content ∧
      (Node.group ⟨place, stop⟩ .directive body).Between left (right.move (stop + ·)) tree := by
  intro place stop
  obtain ⟨ts, hlexp, hleft⟩ := parse_eq_ok_iff.1 hp
  obtain ⟨us, hlexq, hright⟩ := parse_eq_ok_iff.1 hq
  obtain ⟨inside, hchars, hinside⟩ := lexFrom_escapeText content (place + 2) (')' :: q)
  rw [escapeText_of_plain hplain] at hinside
  have hlex := lex_directive hlexp hlexq hquote hopens hinside
  obtain ⟨nodes, hitems, hspells, hnesting⟩ := Node.itemsOf_chars hchars
  let closing := place + 2 + Text.byteLength content
  let body := Node.concatenation closing nodes
  have hgroup : (Node.group ⟨place, closing + 1⟩ .directive body).ItemOf
      (⟨⟨place, place + 2⟩, .groupOpen .directive⟩ :: (inside ++ [⟨⟨closing, closing + 1⟩, .groupClose⟩])) := by
    have hitem := Node.ItemOf.group ⟨place, place + 2⟩ ⟨closing, closing + 1⟩ .directive hitems.madeOf
    rwa [Level.content_of_items, List.reverse_reverse] at hitem
  have hfits : (Node.group ⟨place, closing + 1⟩ .directive body).nesting ≤ maxNesting := by
    rw [Node.nesting, Node.nesting_concatenation, hnesting]
    decide
  have hwidth : stop = closing + 1 := by
    simp only [stop, closing, byteLength_marked]
    omega
  have hlength : Text.byteLength (p ++ marked content ++ q) = stop + Text.byteLength q := by
    rw [Text.byteLength_append, Text.byteLength_append]
  obtain ⟨tree, htree, hbetween⟩ :=
    buildTree_between hleft hgroup hfits (buildTree_move (stop + ·) hright)
  rw [← hwidth] at hbetween
  refine ⟨tree, body, ?_, Node.spells_concatenation hspells closing, hbetween⟩
  rw [parse_eq_buildTree hlex, hlength, ← htree, hwidth]

theorem parse_forwardCall {number : Text} (h : ValidNumber number) :
    parse (p ++ marked ('+' :: number) ++ q) = .error ⟨Text.byteLength p + 2, .nothingToRepeat⟩ := by
  obtain ⟨ts, hlexp, hleft⟩ := parse_eq_ok_iff.1 hp
  obtain ⟨us, hlexq, -⟩ := parse_eq_ok_iff.1 hq
  let place := Text.byteLength p
  obtain ⟨digits, -, hdigits⟩ := lexFrom_escapeText number (place + 3) (')' :: q)
  rw [escapeText_of_plain h.plain] at hdigits
  obtain ⟨hne, hnumber⟩ := h
  obtain ⟨d, ds, rfl⟩ := List.exists_cons_of_ne_nil hne
  have hmark : scanLexeme false '+' (d :: ds ++ ')' :: q) =
      .ok ⟨.plain (.quantifier ⟨.atLeast 1, .greedy⟩), ['+'], d :: ds ++ ')' :: q⟩ := by
    have hd : StartsNoMark (d :: ds ++ ')' :: q) := by
      have hmarks : ∀ c ∈ ['*', '+', '?'], c ∈ significantChars := by simp [significantChars]
      rintro c hc hmem
      obtain rfl : d = c := by simpa using hc
      exact (not_mem_of_isDigit (hnumber d List.mem_cons_self)).1 (hmarks d hmem)
    have hgreed : scanGreed (.atLeast 1) (d :: ds ++ ')' :: q) =
        ⟨⟨.atLeast 1, .greedy⟩, [], d :: ds ++ ')' :: q⟩ := scanGreed_written (.atLeast 1) .greedy hd
    change Except.ok (scanMark '+' (.atLeast 1) _) = _
    rw [scanMark, hgreed]
    rfl
  have hopens : OpensDirective ('+' :: d :: ds ++ ')' :: q) :=
    opensDirective_of_unmarked (by decide) (by decide) (by simp)
  have hinside : lexFrom false (place + 2) ('+' :: d :: ds ++ ')' :: q) =
      (lexFrom false (place + 2 + Text.byteLength ('+' :: d :: ds)) (')' :: q)).after
        (⟨⟨place + 2, place + 3⟩, .quantifier ⟨.atLeast 1, .greedy⟩⟩ :: digits) := by
    have hwidth : place + 3 + Text.byteLength (d :: ds) =
        place + 2 + Text.byteLength ('+' :: d :: ds) := by
      have hplus : '+'.utf8Size = 1 := rfl
      rw [Text.byteLength_cons '+', hplus]
      omega
    rw [hwidth] at hdigits
    rw [List.cons_append, lexFrom_of_ok hmark]
    change (lexFrom false (place + 3) (d :: ds ++ ')' :: q)).prepend (place + 2) _ = _
    rw [hdigits]
    rfl
  have hlex := lex_directive hlexp hlexq hquote hopens hinside
  obtain ⟨l, hl, -⟩ := exists_level_of_buildTree hleft
  have hfits : ([] : List OpenGroup).length + l.nesting ≤ maxNesting := by
    simpa using (hl.of_buildTree hleft).1
  -- the quantifier is the first token of the group
  rw [parse_eq_run hlex, List.append_assoc ts]
  exact (hl.run hfits _ _).trans rfl

end

/-- A call of any kind is one group between two patterns, unless it is one of a group still to come. -/
theorem parse_call {p q : Text} {left right : Node} (hp : parse p = .ok left) (hq : parse q = .ok right)
    (hquote : Reads false p false []) :
    (∀ call : Call, call.Valid →
      let place := Text.byteLength p
      let stop := place + Text.byteLength (marked call.content)
      ∃ tree body, parse (p ++ marked call.content ++ q) = .ok tree ∧ body.Spells call.content ∧
        let group := Node.group ⟨place, stop⟩ .directive body
        group.IsIn tree ∧ group.Between left (right.move (stop + ·)) tree) ∧
      ∀ number, ValidNumber number →
        parse (p ++ marked ('+' :: number) ++ q) = .error ⟨Text.byteLength p + 2, .nothingToRepeat⟩ := by
  refine ⟨fun call hcall => ?_, fun number hnumber => parse_forwardCall hp hq hquote hnumber⟩
  obtain ⟨tree, body, htree, hbody, hbetween⟩ :=
    parse_plainDirective hp hq hquote (Call.plain hcall) (Call.opensDirective hcall _)
  exact ⟨tree, body, htree, hbody, hbetween.isIn, hbetween⟩

theorem parse_call_between_alternatives :
    let p : Text := ['é', '|', 'a']
    let q : Text := ['b', '*', '|', 'c']
    let left : Node := .alternation ⟨0, 4⟩ [.atom ⟨0, 2⟩ (.char 'é'), .atom ⟨3, 4⟩ (.char 'a')]
    let right : Node := .alternation ⟨0, 4⟩ [
      .quantified ⟨0, 2⟩ (.atom ⟨0, 1⟩ (.char 'b')) ⟨.atLeast 0, .greedy⟩, .atom ⟨3, 4⟩ (.char 'c')]
    parse p = .ok left ∧ parse q = .ok right ∧ Reads false p false [] ∧
      (Call.back ['1']).Valid ∧ ValidNumber ['2'] ∧
      (∃ tree body, parse ['é', '|', 'a', '(', '?', '-', '1', ')', 'b', '*', '|', 'c'] = .ok tree ∧
        body.Spells ['-', '1'] ∧ (Node.group ⟨4, 9⟩ .directive body).IsIn tree) ∧
      parse ['é', '|', 'a', '(', '?', '+', '2', ')', 'b', '*', '|', 'c'] =
        .error ⟨6, .nothingToRepeat⟩ := by
  intro p q left right
  have hlexp : lex p = ⟨[⟨⟨0, 2⟩, .atom (.char 'é')⟩, ⟨⟨2, 3⟩, .bar⟩, ⟨⟨3, 4⟩, .atom (.char 'a')⟩], none⟩ := by
    decide +kernel
  have hlexq : lex q = ⟨[⟨⟨0, 1⟩, .atom (.char 'b')⟩, ⟨⟨1, 2⟩, .quantifier ⟨.atLeast 0, .greedy⟩⟩,
      ⟨⟨2, 3⟩, .bar⟩, ⟨⟨3, 4⟩, .atom (.char 'c')⟩], none⟩ := by
    decide +kernel
  have hp : parse p = .ok left := by
    rw [parse_eq_run hlexp]
    rfl
  have hq : parse q = .ok right := by
    rw [parse_eq_run hlexq]
    rfl
  have hquote : Reads false p false [] :=
    .lexeme (c := 'é') (s := ['|', 'a']) (p := ⟨.plain (.atom (.char 'é')), ['é'], ['|', 'a']⟩) rfl rfl <|
    .lexeme (c := '|') (s := ['a']) (p := ⟨.plain .bar, ['|'], ['a']⟩) rfl rfl <|
    .lexeme (c := 'a') (s := []) (p := ⟨.plain (.atom (.char 'a')), ['a'], []⟩) rfl rfl <|
    .here false []
  have hback : (Call.back ['1']).Valid := ⟨List.cons_ne_nil _ _, List.forall_mem_singleton.2 rfl⟩
  have hforward : ValidNumber ['2'] := ⟨List.cons_ne_nil _ _, List.forall_mem_singleton.2 rfl⟩
  obtain ⟨hcalls, hforwardCalls⟩ := parse_call hp hq hquote
  obtain ⟨tree, body, htree, hbody, hin, -⟩ := hcalls (.back ['1']) hback
  exact ⟨hp, hq, hquote, hback, hforward, ⟨tree, body, htree, hbody, hin⟩, hforwardCalls ['2'] hforward⟩

/-- The call of the next group is refused, although it is all there is. -/
theorem parse_forwardCall_alone :
    parse ['(', '?', '+', '1', ')'] = .error ⟨2, .nothingToRepeat⟩ := by
  have hlex : lex ['(', '?', '+', '1', ')'] = ⟨[⟨⟨0, 2⟩, .groupOpen .directive⟩,
      ⟨⟨2, 3⟩, .quantifier ⟨.atLeast 1, .greedy⟩⟩, ⟨⟨3, 4⟩, .atom (.char '1')⟩,
      ⟨⟨4, 5⟩, .groupClose⟩], none⟩ := by
    decide +kernel
  rw [parse_eq_run hlex]
  rfl

end PatternAudit.Grammar
