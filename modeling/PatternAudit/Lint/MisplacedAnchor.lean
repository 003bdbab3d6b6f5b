import PatternAudit.Grammar.Node

set_option autoImplicit false

/-!
# Misplaced anchors

Messages have one line, so an end anchor anywhere but at the very end of a pattern is most likely a dollar sign
that lacks its backslash. After an end anchor in the right place come only closing parentheses, repetition marks
and option settings.
-/
namespace PatternAudit.Lint

open Grammar (Node)

mutual

/-- The place of the first misplaced end anchor in a node; `terminal` says that nothing after the node can match a
character. -/
def misplacedAnchorIn (terminal : Bool) : Node → Option Nat
  | .atom span (.anchor .finish) => if terminal then none else some span.start
  | .atom _ _ => none
  | .empty _ => none
  | .group _ _ body => misplacedAnchorIn terminal body
  | .quantified _ body _ => misplacedAnchorIn terminal body
  | .sequence _ items => misplacedAnchorInItems terminal items
  | .alternation _ branches => misplacedAnchorInBranches terminal branches

/-- Option settings match nothing, so items that only settings follow can end the pattern. -/
def misplacedAnchorInItems (terminal : Bool) : List Node → Option Nat
  | [] => none
  | n :: ns =>
    (misplacedAnchorIn (terminal && ns.all Node.isOptions) n).or (misplacedAnchorInItems terminal ns)

/-- Only the last branch can end the pattern. -/
def misplacedAnchorInBranches (terminal : Bool) : List Node → Option Nat
  | [] => none
  | n :: ns => (misplacedAnchorIn (terminal && ns.isEmpty) n).or (misplacedAnchorInBranches terminal ns)

end

def misplacedAnchor (root : Node) : Option Nat :=
  misplacedAnchorIn true root

end PatternAudit.Lint
