import Mathlib.Data.List.TakeWhile
import PatternAudit.Lint.Validation

set_option autoImplicit false

/-!
# Delimited texts

Taking a configured text apart undoes putting a pattern between delimiters, even if the closing delimiter
occurs in the pattern itself, because no modifier is a delimiter. `Splits` lists what else a text can be,
and `splitDelimited_exact` says that the list is complete and that validating a configured text is
validating its pattern.
-/
namespace PatternAudit.Lint

/-! Delimiters, modifiers and blanks. -/

theorem isModifier_of_isPunctuation {c : Char} (h : isPunctuation c = true) : isModifier c = false := by
  simp only [isPunctuation, Bool.and_eq_true, decide_eq_true_eq, Bool.not_eq_true'] at h
  obtain ⟨⟨hlo, hhi⟩, halphanum⟩ := h
  have hletter : modifierLetters.contains c = false := by
    have hletters : ∀ m ∈ modifierLetters, m.isAlphanum = true := List.all_eq_true.1 (by decide)
    by_contra hmem
    have hmem' := hletters c (List.contains_iff_mem.1 (by simpa using hmem))
    rw [hmem'] at halphanum
    contradiction
  have hblank : Text.isBlank c = false := by
    have hlo' : 33 ≤ c.toNat := hlo
    have hhi' : c.toNat ≤ 126 := hhi
    simp only [Text.isBlank, Bool.or_eq_false_iff, Bool.and_eq_false_iff, decide_eq_false_iff_not,
      beq_eq_false_iff_ne]
    omega
  rw [isModifier, hletter, hblank]
  rfl

section

variable {d : Char} (h : isDelimiter d = true)

include h

theorem isBlank_of_isDelimiter : Text.isBlank d = false := by
  rw [isDelimiter, Bool.and_eq_true] at h
  have hmodifier := isModifier_of_isPunctuation h.1
  rw [isModifier, Bool.or_eq_false_iff] at hmodifier
  exact hmodifier.2

theorem utf8Size_of_isDelimiter : d.utf8Size = 1 := by
  simp only [isDelimiter, isPunctuation, Bool.and_eq_true, decide_eq_true_eq] at h
  have hhi : d.val.toNat ≤ 126 := h.1.1.2
  have hascii : d.val ≤ 0x7f := by
    rw [UInt32.le_iff_toNat_le]
    exact Nat.le_trans hhi (by decide)
  simp [Char.utf8Size, hascii]

theorem isModifier_closingDelimiter : isModifier (closingDelimiter d) = false := by
  rw [isDelimiter, Bool.and_eq_true] at h
  unfold closingDelimiter
  split
  case h_5 => exact isModifier_of_isPunctuation h.1
  all_goals rfl

/-- The delimiter that ends a body cannot be taken for a modifier behind it. -/
theorem closingDelimiter_not_mem {flags : Text} (hflags : ∀ c ∈ flags, isModifier c = true) :
    closingDelimiter d ∉ flags := by
  intro hmem
  have hmodifier := hflags _ hmem
  rw [isModifier_closingDelimiter h] at hmodifier
  contradiction

end

/-! Outcomes of taking a text apart. -/

/-- What configured texts look like, and what each is taken apart into. -/
inductive Splits : Text → Except DelimiterFault Delimited → Prop where
  | empty {w : Text} (hw : ∀ c ∈ w, Text.isBlank c = true) : Splits w (.error .empty)
  | invalidDelimiter {w : Text} (hw : ∀ c ∈ w, Text.isBlank c = true) {c : Char}
      (hblank : Text.isBlank c = false) (hc : isDelimiter c = false) (s : Text) :
    Splits (w ++ c :: s) (.error (.invalidDelimiter c))
  | missingEnd {w : Text} (hw : ∀ c ∈ w, Text.isBlank c = true) {d : Char} (hd : isDelimiter d = true)
      {s : Text} (hs : closingDelimiter d ∉ s) :
    Splits (w ++ d :: s) (.error (.missingEnd (closingDelimiter d)))
  | unknownModifier {w : Text} (hw : ∀ c ∈ w, Text.isBlank c = true) {d : Char}
      (hd : isDelimiter d = true) (body : Text) {flags : Text} (hflags : ∀ c ∈ flags, isModifier c = true)
      {c : Char} (hc : isModifier c = false) {s : Text} (hlast : closingDelimiter d ∉ flags ++ c :: s) :
    Splits (w ++ d :: (body ++ closingDelimiter d :: (flags ++ c :: s))) (.error (.unknownModifier c))
  | parts {w : Text} (hw : ∀ c ∈ w, Text.isBlank c = true) {d : Char} (hd : isDelimiter d = true)
      (body : Text) {flags : Text} (hflags : ∀ c ∈ flags, isModifier c = true)
      (hlast : closingDelimiter d ∉ flags) :
    Splits (w ++ d :: (body ++ closingDelimiter d :: flags))
      (.ok ⟨d, body, Text.byteLength w + 1, Text.trim flags⟩)

theorem splitDelimited_append {w : Text} (hw : ∀ c ∈ w, Text.isBlank c = true) {c : Char}
    (hc : Text.isBlank c = false) (s : Text) :
    splitDelimited (w ++ c :: s) = splitAfterBlanks (Text.byteLength w) (c :: s) := by
  have hnone : List.takeWhile Text.isBlank (c :: s) = [] := by simp [hc]
  have hrest : List.dropWhile Text.isBlank (c :: s) = c :: s := by simp [hc]
  rw [splitDelimited, Text.trimStart, List.takeWhile_append_of_pos hw, List.dropWhile_append_of_pos hw,
    hnone, hrest, List.append_nil]

theorem Splits.splitDelimited {raw : Text} {outcome : Except DelimiterFault Delimited}
    (h : Splits raw outcome) : splitDelimited raw = outcome := by
  cases h with
  | empty hw =>
    have hall : Text.trimStart raw = [] := List.dropWhile_eq_nil_iff.2 hw
    rw [Lint.splitDelimited, hall]
    rfl
  | invalidDelimiter hw hblank hc s =>
    rw [splitDelimited_append hw hblank, splitAfterBlanks, hc]
    rfl
  | missingEnd hw hd hs =>
    rw [splitDelimited_append hw (isBlank_of_isDelimiter hd), splitAfterBlanks, if_pos hd,
      Text.splitLast?_eq_none_iff.2 hs]
  | @unknownModifier w hw d hd body flags hflags c hc s hlast =>
    have hfind : (flags ++ c :: s).find? (fun c => !isModifier c) = some c :=
      List.find?_eq_some_iff_append.2
        ⟨by rw [hc]; rfl, flags, s, rfl, fun m hm => by rw [hflags m hm]; rfl⟩
    rw [splitDelimited_append hw (isBlank_of_isDelimiter hd), splitAfterBlanks, if_pos hd,
      Text.splitLast?_append hlast]
    simp only [hfind]
  | @parts w hw d hd body flags hflags hlast =>
    have hfind : flags.find? (fun c => !isModifier c) = none :=
      List.find?_eq_none.2 fun m hm => by simp [hflags m hm]
    rw [splitDelimited_append hw (isBlank_of_isDelimiter hd), splitAfterBlanks, if_pos hd,
      Text.splitLast?_append hlast]
    simp only [hfind]

theorem splits_splitDelimited (raw : Text) : Splits raw (splitDelimited raw) := by
  cases hfirst : raw.find? fun c => !Text.isBlank c with
  | none =>
    have hw : ∀ c ∈ raw, Text.isBlank c = true := by simpa using hfirst
    rw [(Splits.empty hw).splitDelimited]
    exact .empty hw
  | some d =>
    simp only [List.find?_eq_some_iff_append, Bool.not_eq_true', Bool.not_not] at hfirst
    obtain ⟨hblank, w, s, rfl, hw⟩ := hfirst
    rw [splitDelimited_append hw hblank, splitAfterBlanks]
    split
    next hd =>
      split
      next hnone => exact .missingEnd hw hd (Text.splitLast?_eq_none_iff.1 hnone)
      next body flags hsplit =>
        have hlast := Text.splitLast?_not_mem hsplit
        obtain rfl := Text.splitLast?_eq_some hsplit
        split
        next c hunknown =>
          simp only [List.find?_eq_some_iff_append, Bool.not_eq_true', Bool.not_not] at hunknown
          obtain ⟨hc, flags, s, rfl, hflags⟩ := hunknown
          exact .unknownModifier hw hd body hflags hc hlast
        next hnone => exact .parts hw hd body (by simpa using hnone) hlast
    next hd => exact .invalidDelimiter hw hblank (by simpa using hd) s

/-- A configured text is as good as its body. -/
theorem validateDelimited_of_splitDelimited {raw : Text} {parts : Delimited}
    (h : splitDelimited raw = .ok parts) (resolve : TypeLookup) :
    validateDelimited resolve raw = (validate resolve parts.body).mapError .malformed := by
  simp only [validateDelimited, h]
  cases validate resolve parts.body <;> rfl

theorem splitDelimited_exact (resolve : TypeLookup) :
    (∀ (w body flags : Text) (d : Char), (∀ c ∈ w, Text.isBlank c = true) → isDelimiter d = true →
      (∀ c ∈ flags, isModifier c = true) →
      let raw := w ++ d :: (body ++ closingDelimiter d :: flags)
      splitDelimited raw = .ok ⟨d, body, Text.byteLength w + 1, Text.trim flags⟩ ∧
        validateDelimited resolve raw = (validate resolve body).mapError .malformed) ∧
    ∀ (raw : Text) (outcome : Except DelimiterFault Delimited),
      splitDelimited raw = outcome ↔ Splits raw outcome := by
  refine ⟨fun w body flags d hw hd hflags => ?_, fun raw outcome => ⟨?_, Splits.splitDelimited⟩⟩
  · have hsplit := (Splits.parts hw hd body hflags (closingDelimiter_not_mem hd hflags)).splitDelimited
    exact ⟨hsplit, validateDelimited_of_splitDelimited hsplit resolve⟩
  · rintro rfl
    exact splits_splitDelimited raw

/-- A pattern with its own delimiter in it, behind a no-break space. -/
theorem splitDelimited_exact_delimiter_inside :
    let raw : Text := ['\u00a0', '{', 'a', '{', '2', '}', '}', 'u', ' ']
    (∀ c ∈ ['\u00a0'], Text.isBlank c = true) ∧ isDelimiter '{' = true ∧
      (∀ c ∈ ['u', ' '], isModifier c = true) ∧
      splitDelimited raw = .ok ⟨'{', ['a', '{', '2', '}'], 3, ['u']⟩ ∧
      validateDelimited .builtin raw = (validate .builtin ['a', '{', '2', '}']).mapError .malformed := by
  intro raw
  have hw : ∀ c ∈ ['\u00a0'], Text.isBlank c = true := List.all_eq_true.1 (by decide)
  have hd : isDelimiter '{' = true := by decide
  have hflags : ∀ c ∈ ['u', ' '], isModifier c = true := List.all_eq_true.1 (by decide)
  obtain ⟨hsplit, hvalidate⟩ := (splitDelimited_exact .builtin).1 _ ['a', '{', '2', '}'] _ _ hw hd hflags
  exact ⟨hw, hd, hflags, hsplit, hvalidate⟩

end PatternAudit.Lint
