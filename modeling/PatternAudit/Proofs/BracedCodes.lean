import Mathlib.Data.List.Induction
import PatternAudit.Proofs.ClassPlaces

set_option autoImplicit false

/-!
# Code points in braces

An escape may give a character by its code point, written in braces to the base sixteen or eight. What
stands between the braces is a numeral, of any length and with any zeros in front, and a plus sign in
front of it is read over. `Grammar.tokenize_bracedCode` says that everything else in the braces is a
fault of the escape, outside and inside classes, and so is a numeral that no character has as its code.
-/
namespace PatternAudit.Text

/-- A text writes a number: it is a digit, or a numeral with one more digit behind it. -/
inductive Writes (base : Nat) : Text → Nat → Prop where
  | digit {c : Char} {d : Nat} (hd : d < base) (hc : c = d.digitChar ∨ c = d.digitChar.toUpper) :
    Writes base [c] d
  | behind {s : Text} {n : Nat} {c : Char} {d : Nat} (hs : Writes base s n) (hd : d < base)
      (hc : c = d.digitChar ∨ c = d.digitChar.toUpper) : Writes base (s ++ [c]) (n * base + d)

/-- What a range of characters spells can be checked one character after the other. -/
theorem eq_of_between {first last c : Char} {low : Nat} {f : Nat → Char} (hc : first ≤ c ∧ c ≤ last)
    (h : ∀ n ≤ last.toNat - first.toNat, Char.ofNat (first.toNat + n) = f (first.toNat + n - low)) :
    c = f (c.toNat - low) := by
  have hfirst : first.toNat ≤ c.toNat := UInt32.le_iff_toNat_le.1 hc.1
  have hlast : c.toNat ≤ last.toNat := UInt32.le_iff_toNat_le.1 hc.2
  have hsame := h (c.toNat - first.toNat) (by omega)
  rwa [Nat.add_sub_of_le hfirst, Char.ofNat_toNat] at hsame

theorem digitValue?_eq_some_iff {base d : Nat} {c : Char} (hbase : base ≤ 16) :
    digitValue? base c = some d ↔ d < base ∧ (c = d.digitChar ∨ c = d.digitChar.toUpper) := by
  constructor
  · intro h
    simp only [digitValue?, Option.ite_none_right_eq_some, Option.some.injEq] at h
    obtain ⟨hlt, rfl⟩ := h
    refine ⟨hlt, ?_⟩
    by_cases hfigure : '0' ≤ c ∧ c ≤ '9'
    · rw [if_pos hfigure]
      exact .inl (eq_of_between hfigure (by decide))
    by_cases hsmall : 'a' ≤ c ∧ c ≤ 'f'
    · rw [if_neg hfigure, if_pos hsmall]
      exact .inl (eq_of_between hsmall (by decide))
    by_cases hcapital : 'A' ≤ c ∧ c ≤ 'F'
    · rw [if_neg hfigure, if_neg hsmall, if_pos hcapital]
      exact .inr (eq_of_between (f := fun d => d.digitChar.toUpper) hcapital (by decide))
    · rw [if_neg hfigure, if_neg hsmall, if_neg hcapital] at hlt
      exact absurd hlt (Nat.lt_irrefl base)
  · rintro ⟨hd, rfl | rfl⟩
    · exact Grammar.digitValue?_digitChar hbase hd
    · have hdigits : ∀ b < 17, ∀ n < b, digitValue? b n.digitChar.toUpper = some n := by decide
      exact hdigits base (by omega) d hd

theorem numeral?_append {base : Nat} {s : Text} (hs : s ≠ []) (c : Char) :
    numeral? base (s ++ [c]) = do return (← numeral? base s) * base + (← digitValue? base c) := by
  obtain ⟨e, t, rfl⟩ := List.exists_cons_of_ne_nil hs
  rw [List.cons_append]
  simp only [numeral?]
  rw [← List.cons_append, Grammar.numeralFrom?_append]
  cases numeralFrom? base 0 (e :: t) with
  | none => rfl
  | some n => cases hc : digitValue? base c <;> simp [numeralFrom?, hc]

/-- A numeral is read as what it writes, and no other text is read as one. -/
theorem numeral?_eq_some_iff {base n : Nat} {s : Text} (hbase : base ≤ 16) :
    numeral? base s = some n ↔ Writes base s n := by
  constructor
  · intro h
    induction s using List.reverseRecOn generalizing n with
    | nil => contradiction
    | append_singleton s c ih =>
      by_cases hs : s = []
      · subst hs
        cases hvalue : digitValue? base c with
        | none => simp [numeral?, numeralFrom?, hvalue] at h
        | some d =>
          obtain rfl : d = n := by simpa [numeral?, numeralFrom?, hvalue] using h
          obtain ⟨hd, hc⟩ := (digitValue?_eq_some_iff hbase).1 hvalue
          exact .digit hd hc
      · rw [numeral?_append hs] at h
        obtain ⟨high, hhigh, h⟩ := Option.bind_eq_some_iff.1 h
        obtain ⟨d, hvalue, h⟩ := Option.bind_eq_some_iff.1 h
        cases h
        obtain ⟨hd, hc⟩ := (digitValue?_eq_some_iff hbase).1 hvalue
        exact .behind (ih hhigh) hd hc
  · intro h
    induction h with
    | digit hd hc =>
      have hvalue := (digitValue?_eq_some_iff hbase).2 ⟨hd, hc⟩
      simp [numeral?, numeralFrom?, hvalue]
    | @behind s n c d hs hd hc ih =>
      have hvalue := (digitValue?_eq_some_iff hbase).2 ⟨hd, hc⟩
      have hne : s ≠ [] := by cases hs <;> simp
      simp [numeral?_append hne, ih, hvalue]

/-- No digit is a plus sign. -/
theorem Writes.ne_plus {base n : Nat} {s t : Text} (hbase : base ≤ 16) (h : Writes base s n) :
    s ≠ '+' :: t := by
  rintro rfl
  have hnumeral := (numeral?_eq_some_iff hbase).2 h
  have hplus := Grammar.isDigitOf_of_numeralFrom? hnumeral '+' List.mem_cons_self
  simp [isDigitOf, digitValue?] at hplus

theorem signedNumeral?_eq_some_iff {base n : Nat} {s : Text} (hbase : base ≤ 16) :
    signedNumeral? base s = some n ↔ ∃ digits, (s = digits ∨ s = '+' :: digits) ∧ Writes base digits n := by
  constructor
  · intro h
    unfold signedNumeral? at h
    split at h
    next digits => exact ⟨digits, .inr rfl, (numeral?_eq_some_iff hbase).1 h⟩
    next => exact ⟨s, .inl rfl, (numeral?_eq_some_iff hbase).1 h⟩
  · rintro ⟨digits, rfl | rfl, hwrites⟩
    · have hplus : ∀ t, s = '+' :: t → False := fun t => hwrites.ne_plus hbase
      rw [signedNumeral?, (numeral?_eq_some_iff hbase).2 hwrites]
      exact hplus
    · exact (numeral?_eq_some_iff hbase).2 hwrites

theorem charOfCode?_eq_some_iff {n : Nat} {c : Char} : charOfCode? n = some c ↔ n = c.toNat := by
  constructor
  · intro h
    rw [charOfCode?] at h
    by_cases hvalid : n.isValidChar
    · rw [dif_pos hvalid] at h
      cases h
      rfl
    · rw [dif_neg hvalid] at h
      contradiction
  · rintro rfl
    exact Grammar.charOfCode?_toNat c

end PatternAudit.Text

namespace PatternAudit.Grammar

/-- What stands between braces names a character by its code point. -/
def Names (base : Nat) (s : Text) (c : Char) : Prop :=
  ∃ digits, (s = digits ∨ s = '+' :: digits) ∧ Text.Writes base digits c.toNat

theorem literalOf_of_names {base : Nat} (hbase : base ≤ 16) {s : Text} {c : Char} (h : Names base s c) :
    literalOf (Text.signedNumeral? base s) = .ok (.literal c) := by
  have hnumeral := (Text.signedNumeral?_eq_some_iff hbase).2 h
  simp [literalOf, hnumeral, charOfCode?_toNat]

theorem literalOf_of_not_names {base : Nat} (hbase : base ≤ 16) {s : Text} (h : ∀ c, ¬ Names base s c) :
    literalOf (Text.signedNumeral? base s) = .error .invalidEscape := by
  have hnone : (Text.signedNumeral? base s).bind Text.charOfCode? = none := by
    rw [Option.bind_eq_none_iff]
    intro n hn
    refine Option.eq_none_iff_forall_ne_some.2 fun c hc => h c ?_
    rw [Text.charOfCode?_eq_some_iff] at hc
    subst hc
    exact (Text.signedNumeral?_eq_some_iff hbase).1 hn
  rw [literalOf, hnone]

/-- The letters that announce a code point in braces, each with the base it is written to. -/
def codeLetters : List (Char × Nat) := [('x', 16), ('o', 8)]

section

variable {letter : Char} {base : Nat} (hletter : (letter, base) ∈ codeLetters)

include hletter

theorem base_le_of_mem_codeLetters : base ≤ 16 := by
  simp only [codeLetters, List.mem_cons, List.not_mem_nil, or_false, Prod.mk.injEq] at hletter
  omega

theorem scanEscape_bracedCode (inClass : Bool) {s : Text} (hs : '}' ∉ s) (after : Text) :
    scanEscape inClass (letter :: '{' :: s ++ '}' :: after) =
      (literalOf (Text.signedNumeral? base s)).map fun e => ⟨e, letter :: '{' :: s ++ ['}'], after⟩ := by
  have hbraced : scanBracedCode base ('{' :: s ++ '}' :: after) =
      (literalOf (Text.signedNumeral? base s)).map fun e => ⟨e, '{' :: s ++ ['}'], after⟩ := by
    simp only [List.cons_append, scanBracedCode, splitFirst?_append hs after]
  have hescape : scanEscape inClass (letter :: '{' :: s ++ '}' :: after) =
      (scanBracedCode base ('{' :: s ++ '}' :: after)).map (Piece.after [letter]) := by
    simp only [codeLetters, List.mem_cons, List.not_mem_nil, or_false, Prod.mk.injEq] at hletter
    rcases hletter with ⟨rfl, rfl⟩ | ⟨rfl, rfl⟩ <;> cases inClass <;> rfl
  rw [hescape, hbraced, map_map]
  rfl

theorem scanEscape_of_names (inClass : Bool) {s : Text} (hs : '}' ∉ s) {c : Char} (hc : Names base s c)
    (after : Text) :
    scanEscape inClass (letter :: '{' :: s ++ '}' :: after) =
      .ok ⟨.literal c, letter :: '{' :: s ++ ['}'], after⟩ := by
  rw [scanEscape_bracedCode hletter inClass hs,
    literalOf_of_names (base_le_of_mem_codeLetters hletter) hc]
  rfl

theorem scanEscape_of_not_names (inClass : Bool) {s : Text} (hs : '}' ∉ s) (hnone : ∀ c, ¬ Names base s c)
    (after : Text) :
    scanEscape inClass (letter :: '{' :: s ++ '}' :: after) = .error .invalidEscape := by
  rw [scanEscape_bracedCode hletter inClass hs,
    literalOf_of_not_names (base_le_of_mem_codeLetters hletter) hnone]
  rfl

end

/-- Behind a backslash, outside classes and in them, a text makes the escape for one character. -/
structure StandsFor (body : Text) (c : Char) : Prop where
  token (after : Text) : ReadsAs ('\\' :: body) (.plain (.atom (.escape (.literal c)))) after
  member {after : Text} (hafter : StartsNoRange after) :
    scanMember '\\' (body ++ after) = .ok ⟨.literal c, '\\' :: body, after⟩
  bound (after : Text) : WritesChar c ('\\' :: body) after

/-- Behind a backslash, outside classes and in them, a text makes the escape invalid. -/
structure StandsForNone (body : Text) : Prop where
  outside (before after : Text) (h : Reads false before false ('\\' :: (body ++ after))) :
    tokenize (before ++ '\\' :: (body ++ after)) = .error ⟨Text.byteLength before, .invalidEscape⟩
  inside (before inside after : Text) (h : Reads false before false (inside ++ '\\' :: (body ++ after)))
      (hinside : ReadToChar inside ('\\' :: (body ++ after))) :
    tokenize (before ++ (inside ++ '\\' :: (body ++ after))) =
      .error ⟨Text.byteLength (before ++ inside), .invalidEscape⟩

section

variable {letter : Char} {s : Text} (hQ : letter ≠ 'Q') (hE : letter ≠ 'E')

include hQ hE

theorem standsFor_of_scanEscape {c : Char} (h : ∀ inClass after,
      scanEscape inClass (letter :: s ++ after) = .ok ⟨.literal c, letter :: s, after⟩) :
    StandsFor (letter :: s) c where
  token after := ⟨'\\', letter :: s, rfl, scanBackslash_of_escape hQ hE (h false after)⟩
  bound after := .escaped (h true after)
  member {after} hafter := by
    have hsimple : scanSimpleMember '\\' (letter :: s ++ after) =
        .ok ⟨.literal c, '\\' :: letter :: s, after⟩ := by
      simp only [scanSimpleMember, h]
      rfl
    rw [scanMember, hsimple]
    exact extendRange_of_startsNoRange hafter

theorem standsForNone_of_scanEscape (h : ∀ inClass after,
      scanEscape inClass (letter :: s ++ after) = .error .invalidEscape) :
    StandsForNone (letter :: s) where
  outside before after hreads := by
    have hscan : scanUnquoted '\\' (letter :: s ++ after) = .error ⟨0, .invalidEscape⟩ := by
      have hescape := h false after
      rw [List.cons_append] at hescape ⊢
      simp [scanUnquoted, scanBackslash, hQ, hE, hescape]
    exact hreads.tokenize_error hscan
  inside before inside after hreads hinside := hreads.tokenize_class_error hinside (h true after)

end

theorem StandsFor.tokenize {body : Text} {c : Char} (h : StandsFor body c) :
    Grammar.tokenize ('\\' :: body) =
      .ok [⟨⟨0, Text.byteLength ('\\' :: body)⟩, .atom (.escape (.literal c))⟩] := by
  have hlex := lexFrom_of_readsAs (h.token []) 0
  rw [List.append_nil, lexFrom_nil] at hlex
  rw [tokenize_eq_ok_iff, lex, hlex]
  simp [Lexing.prepend, Lexeme.plain]

theorem StandsFor.tokenize_class {body : Text} {c : Char} (h : StandsFor body c) :
    Grammar.tokenize ('[' :: '\\' :: body ++ [']']) =
      .ok [⟨⟨0, Text.byteLength ('\\' :: body) + 2⟩, .atom (.charClass ⟨false, [.literal c]⟩)⟩] := by
  have hmember : scanMember '\\' (body ++ [']']) = .ok ⟨.literal c, '\\' :: body, [']']⟩ :=
    h.member trivial
  have hmembers : scanMembers 1 ('\\' :: (body ++ [']'])) =
      .ok ⟨[.literal c], '\\' :: body ++ [']'], []⟩ := by
    rw [scanMembers_of_ok (by decide) hmember, scanMembers]
    rfl
  have hclass : scanClass ('\\' :: (body ++ [']'])) =
      .ok ⟨⟨false, [.literal c]⟩, '\\' :: body ++ [']'], []⟩ := by
    change (scanMembers 1 ('\\' :: (body ++ [']']))).map _ = _
    rw [hmembers]
    rfl
  have hscan : scanLexeme false '[' ('\\' :: (body ++ [']'])) =
      .ok ⟨.plain (.atom (.charClass ⟨false, [.literal c]⟩)), '[' :: '\\' :: body ++ [']'], []⟩ := by
    change (scanClass ('\\' :: (body ++ [']']))).map _ = _
    rw [hclass]
    rfl
  have hopen : '['.utf8Size = 1 := rfl
  have hclose : ']'.utf8Size = 1 := rfl
  rw [tokenize_eq_ok_iff, lex]
  refine (lexFrom_of_ok hscan 0).trans ?_
  rw [lexFrom_nil]
  simp [Lexing.prepend, Lexeme.plain, Text.byteLength_append, hopen, hclose]
  omega

theorem StandsForNone.tokenize {body : Text} (h : StandsForNone body) :
    Grammar.tokenize ('\\' :: body) = .error ⟨0, .invalidEscape⟩ := by
  have houtside := h.outside [] [] (.here false _)
  rwa [List.append_nil] at houtside

theorem StandsForNone.tokenize_class {body : Text} (h : StandsForNone body) :
    Grammar.tokenize ('[' :: '\\' :: body ++ [']']) = .error ⟨1, .invalidEscape⟩ :=
  h.inside [] ['['] [']'] (.here false _) (.member (.opening fun t => by simp))

/-- Braces give the character that their numeral names, and are a fault if it names none. -/
theorem tokenize_bracedCode {letter : Char} {base : Nat} (hletter : (letter, base) ∈ codeLetters)
    {s : Text} (hs : '}' ∉ s) :
    let body := letter :: '{' :: s ++ ['}']
    let width := Text.byteLength ('\\' :: body)
    (∀ c, Names base s c → StandsFor body c) ∧ ((∀ c, ¬ Names base s c) → StandsForNone body) ∧
      ∀ c, (tokenize ('\\' :: body) = .ok [⟨⟨0, width⟩, .atom (.escape (.literal c))⟩] ↔ Names base s c) ∧
        (tokenize ('[' :: '\\' :: body ++ [']']) =
          .ok [⟨⟨0, width + 2⟩, .atom (.charClass ⟨false, [.literal c]⟩)⟩] ↔ Names base s c) := by
  intro body width
  have hletters : letter ≠ 'Q' ∧ letter ≠ 'E' := by
    have hnot : ∀ p ∈ codeLetters, p.1 ≠ 'Q' ∧ p.1 ≠ 'E' := by decide
    exact hnot (letter, base) hletter
  have hnamed : ∀ c, Names base s c → StandsFor body c := fun c hc =>
    standsFor_of_scanEscape hletters.1 hletters.2 fun inClass after => by
      simpa using scanEscape_of_names hletter inClass hs hc after
  have hunnamed : (∀ c, ¬ Names base s c) → StandsForNone body := fun hnone =>
    standsForNone_of_scanEscape hletters.1 hletters.2 fun inClass after => by
      simpa using scanEscape_of_not_names hletter inClass hs hnone after
  refine ⟨hnamed, hunnamed, fun c => ?_⟩
  by_cases hnone : ∀ d, ¬ Names base s d
  · have hfault := hunnamed hnone
    have houtside : tokenize ('\\' :: body) ≠ .ok [⟨⟨0, width⟩, .atom (.escape (.literal c))⟩] := by
      rw [hfault.tokenize]
      exact nofun
    have hinside : tokenize ('[' :: '\\' :: body ++ [']']) ≠
        .ok [⟨⟨0, width + 2⟩, .atom (.charClass ⟨false, [.literal c]⟩)⟩] := by
      rw [hfault.tokenize_class]
      exact nofun
    exact ⟨iff_of_false houtside (hnone c), iff_of_false hinside (hnone c)⟩
  · -- The one character that is named is the one that both readings give.
    push Not at hnone
    obtain ⟨d, hd⟩ := hnone
    have hread := hnamed d hd
    constructor
    · refine ⟨fun h => ?_, fun h => (hnamed c h).tokenize⟩
      rw [hread.tokenize] at h
      obtain ⟨-, rfl⟩ : _ ∧ d = c := by simpa using h
      exact hd
    · refine ⟨fun h => ?_, fun h => (hnamed c h).tokenize_class⟩
      rw [hread.tokenize_class] at h
      obtain ⟨-, rfl⟩ : _ ∧ d = c := by simpa using h
      exact hd

theorem tokenize_bracedCode_leadingZeros :
    ('x', 16) ∈ codeLetters ∧ '}' ∉ ['0', '0', 'e', '9'] ∧ Names 16 ['0', '0', 'e', '9'] 'é' ∧
      StandsFor ['x', '{', '0', '0', 'e', '9', '}'] 'é' := by
  have hletter : ('x', 16) ∈ codeLetters := List.mem_cons_self
  have hs : '}' ∉ ['0', '0', 'e', '9'] := by decide
  have hzero : Text.Writes 16 ['0'] 0 := .digit (by decide) (.inl rfl)
  have hzeros : Text.Writes 16 ['0', '0'] 0 := .behind (d := 0) hzero (by decide) (.inl rfl)
  have hhigh : Text.Writes 16 ['0', '0', 'e'] 14 := .behind (d := 14) hzeros (by decide) (.inl rfl)
  have hnamed : Names 16 ['0', '0', 'e', '9'] 'é' :=
    ⟨_, .inl rfl, .behind (d := 9) hhigh (by decide) (.inl rfl)⟩
  exact ⟨hletter, hs, hnamed, (tokenize_bracedCode hletter hs).1 'é' hnamed⟩

/-- A sign is no digit, yet the braces are read as if it were not there. -/
theorem tokenize_signedCode :
    (∀ n, ¬ Text.Writes 16 ['+', '4', '1'] n) ∧
      tokenize ['\\', 'x', '{', '+', '4', '1', '}'] =
        .ok [⟨⟨0, 7⟩, .atom (.escape (.literal 'A'))⟩] :=
  ⟨fun _ h => h.ne_plus (by decide) rfl, tokenize_eq_ok_iff.2 (by decide +kernel)⟩

end PatternAudit.Grammar
