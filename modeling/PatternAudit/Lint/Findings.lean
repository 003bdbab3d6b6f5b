import PatternAudit.Lint.Branch
import PatternAudit.Lint.MisplacedAnchor
import PatternAudit.Lint.UniversalMatch

set_option autoImplicit false

/-!
# Findings

Everything the three checks find in one pattern.
-/
namespace PatternAudit.Lint

open Grammar (Node)

inductive Finding where
  | ignoredTypes (types : List IgnoredType)
  | misplacedAnchor (offset : Nat)
  | universalMatch (found : UniversalMatch)
deriving DecidableEq, Repr

structure Findings where
  ignored : List IgnoredType
  anchor? : Option Nat
  universal? : Option UniversalMatch
deriving DecidableEq, Repr

namespace Findings

/-- The findings one by one, always in the same order. -/
def toList (f : Findings) : List Finding :=
  (if f.ignored.isEmpty then [] else [.ignoredTypes f.ignored]) ++
    f.anchor?.toList.map .misplacedAnchor ++ f.universal?.toList.map .universalMatch

def isClean (f : Findings) : Bool :=
  f.toList.isEmpty

def ignoredType? (f : Findings) (literal : Text) : Option TypeDescription :=
  (f.ignored.find? fun t => t.literal == literal).map IgnoredType.description

end Findings

def analyze (resolve : TypeLookup) (pattern : Text) (root : Node) : Findings :=
  ⟨ignoredTypes resolve root, misplacedAnchor root, universalMatch? pattern root⟩

end PatternAudit.Lint
