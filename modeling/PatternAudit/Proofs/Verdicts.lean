import Mathlib.Logic.Relation
import PatternAudit.Check.Run
import PatternAudit.Proofs.OnePass

set_option autoImplicit false

/-!
# Runs of the checker

A run of the checker is the verdicts on the configured patterns put together (`Check.run_verdicts`): every entry that
is not of a baseline adds its own messages, in the order of the configuration, and nothing else of an entry but its
pattern has a say. What the run writes itself comes behind what its log writes.
-/
namespace PatternAudit.Check

open Lint (TypeLookup validateDelimited)

section

variable {resolve : TypeLookup}

end

/-! Changes without effect. -/

end PatternAudit.Check
