import PatternAudit.Grammar.Node
import PatternAudit.Lint.Escaping
import PatternAudit.Lint.TypeName

set_option autoImplicit false

/-!
# Ignored types

A bar outside all groups splits a pattern into branches that each match alone. A branch that is the name of a type
was most likely meant as part of a union type. Alternations inside groups are deliberate and are not looked at.
-/
namespace PatternAudit.Lint

open Grammar (Node)

/-- The text of a node that matches one text only and needs no escaping to be read back. -/
def literalText? (n : Node) : Option Text := do
  let text ← n.items.mapM Node.asChar
  if text.isEmpty || text.any isSignificant then Option.none else some text

/-- One alternative of a pattern, with its text if it is a plain literal. -/
structure Branch where
  node : Node
  literal? : Option Text

def Branch.ofNode (n : Node) : Branch :=
  ⟨n, literalText? n⟩

def topBranches (root : Node) : List Branch :=
  match root.branches? with
  | some (n :: m :: ns) => (n :: m :: ns).map .ofNode
  | _ => []

structure IgnoredType where
  literal : Text
  description : TypeDescription
deriving DecidableEq, Repr

/-- Lists the literals that resolve, leaving out those in `seen` and each after its first occurrence. -/
def resolveNew (resolve : TypeLookup) (seen : List Text) : List Text → List IgnoredType
  | [] => []
  | name :: names =>
    if seen.contains name then resolveNew resolve seen names
    else
      match resolve name with
      | some d => ⟨name, d⟩ :: resolveNew resolve (name :: seen) names
      | none => resolveNew resolve seen names

/-- The branches of a pattern that name types, in order, each name once. -/
def ignoredTypes (resolve : TypeLookup) (root : Node) : List IgnoredType :=
  resolveNew resolve [] ((topBranches root).filterMap Branch.literal?)

end PatternAudit.Lint
