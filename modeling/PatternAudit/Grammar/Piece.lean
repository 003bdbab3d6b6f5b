import PatternAudit.Text

set_option autoImplicit false

/-!
# Pieces of a text

Reading from the front of a text gives a piece: a value, the text it was written as, and what is left. Readers
look at the text alone, never at its place in a larger one, so a piece means the same wherever it stands.
-/
namespace PatternAudit.Grammar

structure Piece (α : Type) where
  value : α
  text : Text
  rest : Text
deriving Repr

namespace Piece

/-- Nothing of `s` is lost or read twice. -/
def Splits {α : Type} (p : Piece α) (s : Text) : Prop :=
  p.text ++ p.rest = s

def map {α β : Type} (f : α → β) (p : Piece α) : Piece β :=
  ⟨f p.value, p.text, p.rest⟩

/-- Counts text already read in front of a piece as part of it. -/
def after {α : Type} (lead : Text) (p : Piece α) : Piece α :=
  { p with text := lead ++ p.text }

theorem Splits.map {α β : Type} {p : Piece α} {s : Text} (f : α → β) (h : p.Splits s) :
    (p.map f).Splits s := h

theorem Splits.after {α : Type} {p : Piece α} {s : Text} (lead : Text) (h : p.Splits s) :
    (p.after lead).Splits (lead ++ s) := by
  simpa [Splits, Piece.after] using h

theorem Splits.rest_lt {α : Type} {p : Piece α} {s : Text} (h : p.Splits s) (hne : p.text ≠ []) :
    p.rest.length < s.length := by
  rw [← h, List.length_append]
  have := List.length_pos_iff.2 hne
  omega

end Piece

theorem exists_of_map_ok {ε α β : Type} {x : Except ε α} {f : α → β} {b : β} (h : x.map f = .ok b) :
    ∃ a, x = .ok a ∧ f a = b := by
  cases x with
  | error e => simp [Except.map] at h
  | ok a => exact ⟨a, rfl, by simpa [Except.map] using h⟩

theorem ok_bind {ε α β : Type} (a : α) (f : α → Except ε β) : Except.ok a >>= f = f a := rfl

theorem exists_of_bind_ok {ε α β : Type} {x : Except ε α} {f : α → Except ε β} {b : β}
    (h : x >>= f = .ok b) : ∃ a, x = .ok a ∧ f a = .ok b := by
  cases x with
  | error e => contradiction
  | ok a => exact ⟨a, rfl, h⟩

theorem bind_congr_ok {ε α β : Type} {x : Except ε α} {f g : α → Except ε β}
    (h : ∀ a, x = .ok a → f a = g a) : x >>= f = x >>= g := by
  cases x with
  | error e => rfl
  | ok a => exact h a rfl

/-! Texts up to a mark. -/

theorem splitFirst?_append {mark : Char} {s : Text} (h : mark ∉ s) (rest : Text) :
    Text.splitFirst? mark (s ++ mark :: rest) = some (s, rest) := by
  induction s with
  | nil => simp [Text.splitFirst?]
  | cons c s ih =>
    rw [List.mem_cons, not_or] at h
    rw [List.cons_append, Text.splitFirst?, if_neg (Ne.symm h.1), ih h.2]
    rfl

theorem takeWhile_append_of_head {p : Char → Bool} {s t : Text} (hs : ∀ c ∈ s, p c = true)
    (ht : ∀ c ∈ t.head?, p c = false) : (s ++ t).takeWhile p = s := by
  rw [List.takeWhile_append_of_pos hs]
  cases t with
  | nil => simp
  | cons c t => simp [ht c rfl]

theorem dropWhile_append_of_head {p : Char → Bool} {s t : Text} (hs : ∀ c ∈ s, p c = true)
    (ht : ∀ c ∈ t.head?, p c = false) : (s ++ t).dropWhile p = t := by
  rw [List.dropWhile_append_of_pos hs]
  cases t with
  | nil => rfl
  | cons c t => simp [ht c rfl]

theorem takeWhile_until {p : Char → Bool} {s : Text} (hs : ∀ c ∈ s, p c = true) {mark : Char}
    (hmark : p mark = false) (rest : Text) : (s ++ mark :: rest).takeWhile p = s :=
  takeWhile_append_of_head hs (by simpa using hmark)

theorem dropWhile_until {p : Char → Bool} {s : Text} (hs : ∀ c ∈ s, p c = true) {mark : Char}
    (hmark : p mark = false) (rest : Text) : (s ++ mark :: rest).dropWhile p = mark :: rest :=
  dropWhile_append_of_head hs (by simpa using hmark)

theorem head_dropWhile {p : Char → Bool} (s : Text) : ∀ c ∈ (s.dropWhile p).head?, p c = false := by
  intro c hc
  have h := List.head?_dropWhile_not p s
  rw [Option.mem_def.1 hc] at h
  exact h

theorem mem_takeWhile {p : Char → Bool} (s : Text) : ∀ c ∈ s.takeWhile p, p c = true :=
  fun c hc => List.all_eq_true.1 List.all_takeWhile c hc

end PatternAudit.Grammar
