import PatternAudit.Lint.Attempted
import PatternAudit.Lint.Validation
import PatternAudit.Proofs.CursorTokens
import PatternAudit.Proofs.MovedFindings

set_option autoImplicit false

/-!
# No attempt panics

Every cut that parsing and the checks make in a pattern is between two characters, and reading a pattern ends: an
attempt to validate it gives what validating it gives (`Lint.attemptValidate_eq`).
-/
namespace PatternAudit.Lint

open Grammar (Attempt Node)

/-- The text of a part is looked for only where it can be cut out. -/
theorem attemptUniversalMatch_eq {pattern : Text} {root : Node} (h : Grammar.parse pattern = .ok root) :
    attemptUniversalMatch pattern root = pure (universalMatch? pattern root) := by
  unfold attemptUniversalMatch universalMatch?
  cases hpart : universalPart? root with
  | none => rfl
  | some part =>
    obtain ⟨text, htext⟩ := Option.isSome_iff_exists.1 (isSome_text?_of_universalPart? h hpart)
    simp only [htext, Option.bind_eq_bind, Option.bind_some]
    rfl

theorem attemptValidate_eq (resolve : TypeLookup) (pattern : Text) :
    attemptValidate resolve pattern = Attempt.ofExcept (validate resolve pattern) := by
  unfold attemptValidate validate
  rw [Attempt.parse_eq]
  cases hparse : Grammar.parse pattern with
  | error f => rfl
  | ok root =>
    change (attemptUniversalMatch pattern root >>= fun universal? => _) = _
    rw [attemptUniversalMatch_eq hparse]
    rfl

end PatternAudit.Lint
