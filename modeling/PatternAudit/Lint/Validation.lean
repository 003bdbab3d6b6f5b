import PatternAudit.Grammar.Tree
import PatternAudit.Lint.Delimited
import PatternAudit.Lint.Findings

set_option autoImplicit false

/-!
# Validation

Parsing a pattern and running every check on it.
-/
namespace PatternAudit.Lint

open Grammar (Fault)

/-- Validates a pattern without delimiters. -/
def validate (resolve : TypeLookup) (pattern : Text) : Except Fault Findings := do
  let root ← Grammar.parse pattern
  return analyze resolve pattern root

inductive ConfiguredFault where
  | delimiter (f : DelimiterFault)
  /-- The body does not parse; the place of the fault is one of the body. -/
  | malformed (f : Fault)
deriving DecidableEq, Repr

def ConfiguredFault.message : ConfiguredFault → Text
  | .delimiter f => f.message
  | .malformed f => f.message

def validateDelimited (resolve : TypeLookup) (raw : Text) : Except ConfiguredFault Findings :=
  match splitDelimited raw with
  | .error f => .error (.delimiter f)
  | .ok d =>
    match validate resolve d.body with
    | .error f => .error (.malformed f)
    | .ok findings => .ok findings

end PatternAudit.Lint
