import PatternAudit.Grammar.Token

set_option autoImplicit false

/-!
# Pattern trees

The tree of a pattern. Each node covers bytes of the pattern; an empty node covers none and only has a place.
-/
namespace PatternAudit.Grammar

inductive Node where
  | empty (offset : Nat)
  | atom (span : Span) (a : Atom)
  | group (span : Span) (kind : GroupKind) (body : Node)
  | sequence (span : Span) (items : List Node)
  /-- Alternatives in the order of the pattern. -/
  | alternation (span : Span) (branches : List Node)
  | quantified (span : Span) (body : Node) (quantifier : Quantifier)
deriving Repr

namespace Node

def span : Node → Span
  | .empty offset => ⟨offset, offset⟩
  | .atom span _ | .group span _ _ | .sequence span _ | .alternation span _ | .quantified span _ _ => span

/-- The bytes from the beginning of one node to the end of another. -/
def spanTo (first last : Node) : Span :=
  ⟨first.span.start, last.span.stop⟩

def text? (pattern : Text) (n : Node) : Option Text :=
  Text.slice? pattern n.span.start n.span.stop

def asChar : Node → Option Char
  | .atom _ a => a.asChar
  | _ => none

def isAnchor (side : Anchor) : Node → Bool
  | .atom _ (.anchor a) => a == side
  | _ => false

def isOptions : Node → Bool
  | .atom _ (.options _) => true
  | _ => false

def branches? : Node → Option (List Node)
  | .alternation _ branches => some branches
  | _ => none

/-- The nodes a node is a concatenation of. An empty node is one of nothing, any other node one of itself. -/
def items : Node → List Node
  | .sequence _ items => items
  | .empty _ => []
  | n => [n]

def children : Node → List Node
  | .sequence _ nodes | .alternation _ nodes => nodes
  | .group _ _ body | .quantified _ body _ => [body]
  | .empty _ | .atom _ _ => []

mutual

/-- A node and all nodes below it, each with its depth, parents before children and left before right. -/
def preorder (depth : Nat) : Node → List (Nat × Node)
  | .empty offset => [(depth, .empty offset)]
  | .atom span a => [(depth, .atom span a)]
  | .group span kind body => (depth, .group span kind body) :: preorder (depth + 1) body
  | .sequence span items => (depth, .sequence span items) :: preorderAll (depth + 1) items
  | .alternation span branches => (depth, .alternation span branches) :: preorderAll (depth + 1) branches
  | .quantified span body q => (depth, .quantified span body q) :: preorder (depth + 1) body

def preorderAll (depth : Nat) : List Node → List (Nat × Node)
  | [] => []
  | n :: ns => preorder depth n ++ preorderAll depth ns

end

end Node

end PatternAudit.Grammar
