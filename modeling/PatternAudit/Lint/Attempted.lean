import PatternAudit.Grammar.Cursor
import PatternAudit.Lint.Findings

set_option autoImplicit false

/-!
# Attempted validation

Validation by position. It may panic where the parser cuts texts out of the pattern, and where the text of a part
that matches everything is cut out.
-/
namespace PatternAudit.Lint

open Grammar (Attempt Node)

def attemptUniversalMatch (pattern : Text) (root : Node) : Attempt (Option UniversalMatch) :=
  match universalPart? root with
  | some part => do return some (.ofText (← Attempt.orPanic (part.text? pattern)))
  | none => return none

def attemptValidate (resolve : TypeLookup) (pattern : Text) : Attempt Findings := do
  let root ← Attempt.parse pattern
  let universal? ← attemptUniversalMatch pattern root
  return ⟨ignoredTypes resolve root, misplacedAnchor root, universal?⟩

end PatternAudit.Lint
