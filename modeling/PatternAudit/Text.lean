set_option autoImplicit false

/-!
# Texts and byte positions

A text is a list of characters. Positions count bytes of its UTF-8 form, so a position can be used only where
a character starts or where the text ends; a cut anywhere else has no answer.
-/
namespace PatternAudit

abbrev Text := List Char

namespace Text

def byteLength : Text → Nat
  | [] => 0
  | c :: s => c.utf8Size + byteLength s

@[simp] theorem byteLength_nil : byteLength [] = 0 := rfl

@[simp] theorem byteLength_cons (c : Char) (s : Text) :
    byteLength (c :: s) = c.utf8Size + byteLength s := rfl

@[simp] theorem byteLength_append (s t : Text) : byteLength (s ++ t) = byteLength s + byteLength t := by
  induction s with
  | nil => simp
  | cons c s ih => simp [ih, Nat.add_assoc]

theorem byteLength_pos {s : Text} (h : s ≠ []) : 0 < byteLength s := by
  cases s with
  | nil => contradiction
  | cons c s =>
    have := c.utf8Size_pos
    simp only [byteLength_cons]
    omega

/-- Cuts a text at a byte position. Inside a character and past the end there is nothing to cut. -/
def splitAt? : Text → Nat → Option (Text × Text)
  | s, 0 => some ([], s)
  | [], _ + 1 => none
  | c :: s, n + 1 =>
    if c.utf8Size ≤ n + 1 then
      (splitAt? s (n + 1 - c.utf8Size)).map fun (before, after) => (c :: before, after)
    else none

theorem splitAt?_append (s t : Text) : splitAt? (s ++ t) (byteLength s) = some (s, t) := by
  induction s with
  | nil => cases t <;> rfl
  | cons c s ih =>
    have hc := c.utf8Size_pos
    obtain ⟨n, hn⟩ : ∃ n, byteLength (c :: s) = n + 1 := ⟨c.utf8Size - 1 + byteLength s, by simp; omega⟩
    have hs : n + 1 - c.utf8Size = byteLength s := by simp at hn; omega
    have hle : c.utf8Size ≤ n + 1 := by simp at hn; omega
    rw [hn, List.cons_append, splitAt?, if_pos hle, hs, ih]
    rfl

theorem splitAt?_eq_some {s a b : Text} {n : Nat} (h : splitAt? s n = some (a, b)) :
    s = a ++ b ∧ byteLength a = n := by
  induction s generalizing n a with
  | nil => cases n <;> simp_all [splitAt?]
  | cons c s ih =>
    cases n with
    | zero =>
      simp only [splitAt?, Option.some.injEq, Prod.mk.injEq] at h
      obtain ⟨rfl, rfl⟩ := h
      exact ⟨rfl, rfl⟩
    | succ n =>
      rw [splitAt?] at h
      split at h
      next hle =>
        obtain ⟨⟨a', b'⟩, h', hab⟩ := Option.map_eq_some_iff.1 h
        simp only [Prod.mk.injEq] at hab
        obtain ⟨rfl, rfl⟩ := hab
        obtain ⟨rfl, hn⟩ := ih h'
        exact ⟨rfl, by simp; omega⟩
      next => contradiction

def isBoundary (s : Text) (n : Nat) : Bool :=
  (splitAt? s n).isSome

/-- The part of a text between two byte positions. -/
def slice? (s : Text) (start stop : Nat) : Option Text :=
  if start ≤ stop then do
    let (_, after) ← splitAt? s start
    let (part, _) ← splitAt? after (stop - start)
    return part
  else none

theorem isBoundary_append (s t : Text) : isBoundary (s ++ t) (byteLength s) = true := by
  simp [isBoundary, splitAt?_append]

theorem slice?_append (before part after : Text) :
    slice? (before ++ part ++ after) (byteLength before) (byteLength before + byteLength part) = some part := by
  rw [slice?, if_pos (Nat.le_add_right _ _), Nat.add_sub_cancel_left, List.append_assoc, splitAt?_append]
  change (splitAt? (part ++ after) (byteLength part)).bind _ = _
  rw [splitAt?_append]
  rfl

theorem slice?_eq_some {s part : Text} {start stop : Nat} (h : slice? s start stop = some part) :
    ∃ before after, s = before ++ part ++ after ∧ byteLength before = start ∧
      byteLength (before ++ part) = stop := by
  rw [slice?] at h
  split at h
  next hle =>
    obtain ⟨⟨before, rest⟩, hcut, h⟩ := Option.bind_eq_some_iff.1 h
    obtain ⟨⟨_, after⟩, hpart, h⟩ := Option.bind_eq_some_iff.1 h
    cases h
    obtain ⟨rfl, rfl⟩ := splitAt?_eq_some hcut
    obtain ⟨rfl, hlength⟩ := splitAt?_eq_some hpart
    refine ⟨before, after, (List.append_assoc ..).symm, rfl, ?_⟩
    rw [byteLength_append, hlength, Nat.add_sub_of_le hle]
  next => contradiction

theorem isBoundary_byteLength (s : Text) : isBoundary s (byteLength s) = true := by
  simpa using isBoundary_append s []

theorem exists_of_isBoundary {s : Text} {n : Nat} (h : isBoundary s n = true) :
    ∃ before after, s = before ++ after ∧ byteLength before = n := by
  obtain ⟨⟨before, after⟩, hcut⟩ := Option.isSome_iff_exists.1 h
  exact ⟨before, after, splitAt?_eq_some hcut⟩

theorem le_byteLength_of_isBoundary {s : Text} {n : Nat} (h : isBoundary s n = true) :
    n ≤ byteLength s := by
  obtain ⟨before, after, rfl, rfl⟩ := exists_of_isBoundary h
  simp

theorem isSome_slice? {s : Text} {start stop : Nat} (hle : start ≤ stop)
    (hstart : isBoundary s start = true) (hstop : isBoundary s stop = true) :
    (slice? s start stop).isSome = true := by
  obtain ⟨before, rest, rfl, rfl⟩ := exists_of_isBoundary hstart
  obtain ⟨upTo, after, heq, rfl⟩ := exists_of_isBoundary hstop
  rcases List.append_eq_append_iff.1 heq with ⟨part, rfl, rfl⟩ | ⟨part, rfl, rfl⟩
  · have hslice := slice?_append before part after
    rw [List.append_assoc] at hslice
    rw [byteLength_append, hslice]
    rfl
  · -- the two cuts are one, so nothing stands between them
    have hnil : part = [] := by
      apply Decidable.byContradiction
      intro hne
      have := byteLength_pos hne
      rw [byteLength_append] at hle
      omega
    subst hnil
    have hslice := slice?_append upTo [] rest
    simp only [List.append_nil, byteLength_nil, Nat.add_zero] at hslice ⊢
    rw [hslice]
    rfl

/-- All places where a text that begins at `offset` can be cut, in ascending order. -/
def boundariesFrom (offset : Nat) : Text → List Nat
  | [] => [offset]
  | c :: s => offset :: boundariesFrom (offset + c.utf8Size) s

def boundaries (s : Text) : List Nat :=
  boundariesFrom 0 s

theorem mem_boundariesFrom {offset n : Nat} {s : Text} :
    n ∈ boundariesFrom offset s ↔ ∃ before after, s = before ++ after ∧ n = offset + byteLength before := by
  induction s generalizing offset with
  | nil => simp [boundariesFrom]
  | cons c s ih =>
    rw [boundariesFrom, List.mem_cons, ih]
    constructor
    · rintro (rfl | ⟨before, after, rfl, rfl⟩)
      · exact ⟨[], c :: s, rfl, rfl⟩
      · exact ⟨c :: before, after, rfl, Nat.add_assoc ..⟩
    · rintro ⟨_ | ⟨d, before⟩, after, hs, rfl⟩
      · exact .inl rfl
      · cases hs
        exact .inr ⟨before, after, rfl, (Nat.add_assoc ..).symm⟩

theorem mem_boundaries {n : Nat} {s : Text} : n ∈ boundaries s ↔ isBoundary s n = true := by
  rw [boundaries, mem_boundariesFrom]
  constructor
  · rintro ⟨before, after, rfl, rfl⟩
    rw [Nat.zero_add]
    exact isBoundary_append before after
  · intro h
    obtain ⟨before, after, hs, rfl⟩ := exists_of_isBoundary h
    exact ⟨before, after, hs, (Nat.zero_add _).symm⟩

/-- Cuts at the first occurrence of a character, which belongs to neither part. -/
def splitFirst? (mark : Char) : Text → Option (Text × Text)
  | [] => none
  | c :: s =>
    if c = mark then some ([], s)
    else (splitFirst? mark s).map fun (before, after) => (c :: before, after)

/-- The byte position of the first occurrence of a character. -/
def offsetOf? (mark : Char) (s : Text) : Option Nat :=
  (splitFirst? mark s).map fun (before, _) => byteLength before

/-- Cuts at the last occurrence of a character, which belongs to neither part. -/
def splitLast? (mark : Char) : Text → Option (Text × Text)
  | [] => none
  | c :: s =>
    match splitLast? mark s with
    | some (before, after) => some (c :: before, after)
    | none => if c = mark then some ([], s) else none

theorem splitFirst?_eq_some {mark : Char} {s before after : Text}
    (h : splitFirst? mark s = some (before, after)) : before ++ mark :: after = s := by
  induction s generalizing before with
  | nil => simp [splitFirst?] at h
  | cons c s ih =>
    rw [splitFirst?] at h
    split at h
    next hc => simp_all
    next =>
      obtain ⟨⟨b, a⟩, h', hab⟩ := Option.map_eq_some_iff.1 h
      simp only [Prod.mk.injEq] at hab
      obtain ⟨rfl, rfl⟩ := hab
      simp [ih h']

theorem splitFirst?_not_mem {mark : Char} {s before after : Text}
    (h : splitFirst? mark s = some (before, after)) : mark ∉ before := by
  induction s generalizing before with
  | nil => simp [splitFirst?] at h
  | cons c s ih =>
    rw [splitFirst?] at h
    split at h
    next =>
      cases h
      simp
    next hc =>
      obtain ⟨⟨b, a⟩, h', hab⟩ := Option.map_eq_some_iff.1 h
      cases hab
      simpa [Ne.symm hc] using ih h'

theorem splitLast?_eq_some {mark : Char} {s before after : Text}
    (h : splitLast? mark s = some (before, after)) : before ++ mark :: after = s := by
  induction s generalizing before with
  | nil => simp [splitLast?] at h
  | cons c s ih =>
    rw [splitLast?] at h
    split at h
    next b a hs =>
      simp only [Option.some.injEq, Prod.mk.injEq] at h
      obtain ⟨rfl, rfl⟩ := h
      simp [ih hs]
    next =>
      split at h
      next hc => simp_all
      next => contradiction

theorem splitLast?_eq_none_iff {mark : Char} {s : Text} : splitLast? mark s = none ↔ mark ∉ s := by
  induction s with
  | nil => simp [splitLast?]
  | cons c s ih =>
    rw [splitLast?]
    split
    next b a hs =>
      have hmem : mark ∈ s := by
        rw [← splitLast?_eq_some hs]
        simp
      simp [hmem]
    next hs => simp [ih.1 hs, eq_comm]

theorem splitLast?_not_mem {mark : Char} {s before after : Text}
    (h : splitLast? mark s = some (before, after)) : mark ∉ after := by
  induction s generalizing before with
  | nil => simp [splitLast?] at h
  | cons c s ih =>
    rw [splitLast?] at h
    split at h
    next b a hs =>
      cases h
      exact ih hs
    next hs =>
      split at h
      next =>
        cases h
        exact splitLast?_eq_none_iff.1 hs
      next => contradiction

theorem splitLast?_append {mark : Char} {after : Text} (h : mark ∉ after) (before : Text) :
    splitLast? mark (before ++ mark :: after) = some (before, after) := by
  induction before with
  | nil => simp [splitLast?, splitLast?_eq_none_iff.2 h]
  | cons c before ih => rw [List.cons_append, splitLast?, ih]

theorem splitFirst?_eq_none {mark : Char} {s : Text} (h : mark ∉ s) : splitFirst? mark s = none := by
  induction s with
  | nil => rfl
  | cons c s ih =>
    obtain ⟨hc, hs⟩ := List.ne_and_not_mem_of_not_mem_cons h
    rw [splitFirst?, if_neg (Ne.symm hc), ih hs]
    rfl

/-- Whether one text occurs in another without a gap. -/
def occursIn (part : Text) : Text → Bool
  | [] => part.isEmpty
  | c :: s => part.isPrefixOf (c :: s) || occursIn part s

theorem occursIn_iff {part s : Text} : occursIn part s = true ↔ part <:+: s := by
  induction s with
  | nil => simp [occursIn]
  | cons c s ih =>
    rw [occursIn, Bool.or_eq_true, ih, List.isPrefixOf_iff_prefix, List.infix_cons_iff]

end Text

end PatternAudit
