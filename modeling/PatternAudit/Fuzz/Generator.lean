import PatternAudit.Text

set_option autoImplicit false

/-!
# Generators of random numbers

What drawing needs of a generator: a start from a seed, and numbers from a range. Which numbers they are is its own
matter, but they must be of that range; and a draw that throws its words away may go on for ever.
-/
namespace PatternAudit.Fuzz

class Generator (σ : Type) where
  ofSeed : UInt64 → σ
  /-- A number from `lo` up to, and not including, `hi`; nothing if the draw never ends. It is asked for only where
  there is such a number. -/
  between? (lo hi : Nat) (g : σ) : Option (Nat × σ)

/-- A generator whose numbers are of the range they are asked for. -/
class LawfulGenerator (σ : Type) [Generator σ] : Prop where
  mem_of_between? {lo hi n : Nat} {g g' : σ} (hlt : lo < hi) (h : Generator.between? lo hi g = some (n, g')) :
    lo ≤ n ∧ n < hi

section

variable {σ : Type} [Generator σ]

/-- Draws lead from one state of a generator to another. -/
inductive Reaches : σ → σ → Prop where
  | refl (g : σ) : Reaches g g
  | draw {g g' g'' : σ} {lo hi n : Nat} (hlt : lo < hi) (h : Generator.between? lo hi g = some (n, g'))
      (hrest : Reaches g' g'') : Reaches g g''

theorem Reaches.trans {g g' g'' : σ} (h : Reaches g g') (h' : Reaches g' g'') : Reaches g g'' := by
  induction h with
  | refl => exact h'
  | draw hlt hdraw _ ih => exact .draw hlt hdraw (ih h')

/-- Draws lead to one that never ends. -/
def Stalls (g : σ) : Prop :=
  ∃ (g' : σ) (lo hi : Nat), Reaches g g' ∧ lo < hi ∧ Generator.between? lo hi g' = none

theorem Stalls.of_reaches {g g' : σ} (h : Reaches g g') (h' : Stalls g') : Stalls g := by
  obtain ⟨g'', lo, hi, hreaches, hnone⟩ := h'
  exact ⟨g'', lo, hi, h.trans hreaches, hnone⟩

/-- A generator whose draws all end never stalls. -/
theorem not_stalls (h : ∀ (lo hi : Nat) (g : σ), lo < hi → Generator.between? lo hi g ≠ none) (g : σ) :
    ¬ Stalls g := by
  rintro ⟨g', lo, hi, -, hlt, hnone⟩
  exact h lo hi g' hlt hnone

end

end PatternAudit.Fuzz
