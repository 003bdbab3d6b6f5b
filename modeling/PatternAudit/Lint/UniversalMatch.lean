import PatternAudit.Grammar.Node
import PatternAudit.Lint.Escaping

set_option autoImplicit false

/-!
# Universal matches

Finding the part of a pattern that makes it match every message: nothing at all, or any character repeated without
an upper bound, perhaps behind anchors, option settings, transparent groups and alternatives. A pattern of both
anchors and nothing else matches the empty message only and is left alone.
-/
namespace PatternAudit.Lint

open Grammar (Anchor Bounds GroupKind Node Quantifier Span)

/-- What is left of the items of a concatenation without its option settings and outer anchors. -/
inductive Core (α : Type) where
  /-- Nothing, between both anchors. -/
  | anchoredNothing
  | nothing
  | single (item : α)
  | several

/-- Takes away one start anchor at the front; says whether there was one. -/
def dropStartAnchor {α : Type} (node : α → Node) : List α → Bool × List α
  | x :: xs => if (node x).isAnchor .start then (true, xs) else (false, x :: xs)
  | [] => (false, [])

/-- Takes away one end anchor at the back; says whether there was one. -/
def dropEndAnchor {α : Type} (node : α → Node) (xs : List α) : Bool × List α :=
  match xs.getLast? with
  | some x => if (node x).isAnchor .finish then (true, xs.dropLast) else (false, xs)
  | none => (false, [])

def coreOf {α : Type} (node : α → Node) (items : List α) : Core α :=
  let (anchoredStart, xs) := dropStartAnchor node (items.filter fun x => !(node x).isOptions)
  let (anchoredEnd, ys) := dropEndAnchor node xs
  match ys with
  | [] => if anchoredStart && anchoredEnd then .anchoredNothing else .nothing
  | [x] => .single x
  | _ :: _ :: _ => .several

def isAny : Node → Bool
  | .atom _ .any => true
  | _ => false

/-- Whether a repetition takes any number of times, or any number of times but none. -/
def isBoundless (q : Quantifier) : Bool :=
  q.bounds.lo ≤ 1 && q.bounds.isUnbounded

/-- A part without text cannot be shown, so what encloses it is shown instead. -/
def showable (enclosing part : Node) : Node :=
  if part.span.start = part.span.stop then enclosing else part

/-- Whether a node can be universal as the only item of a concatenation. -/
def isCompound : Node → Bool
  | .group .. | .alternation .. | .quantified .. => true
  | .empty _ | .atom .. | .sequence .. => false

mutual

/-- The part of a node that makes it match everything. -/
def universalPart? : Node → Option Node
  | .empty offset => some (.empty offset)
  | .atom span (.options flags) => some (.atom span (.options flags))
  | .atom span (.anchor side) => some (.atom span (.anchor side))
  | .atom _ _ => none
  | .group span kind body =>
    if kind.isTransparent then (universalPart? body).map (showable (.group span kind body)) else none
  | .quantified span body q => if isAny body && isBoundless q then some (.quantified span body q) else none
  | .sequence span items =>
    match coreOf Prod.fst (universalItems items) with
    | .anchoredNothing => none
    | .nothing => some (.sequence span items)
    | .single (_, part?) => part?
    | .several => none
  | .alternation span branches => (firstUniversal? branches).map (showable (.alternation span branches))

/-- The items of a concatenation, each with the part that makes it match everything. -/
def universalItems : List Node → List (Node × Option Node)
  | [] => []
  | n :: ns => (n, if isCompound n then universalPart? n else none) :: universalItems ns

def firstUniversal? : List Node → Option Node
  | [] => none
  | n :: ns => (universalPart? n).or (firstUniversal? ns)

end

/-- A part that matches everything, and the same text written so that it would match literally. -/
structure UniversalMatch where
  found : Text
  escaped : Text
deriving DecidableEq, Repr

def UniversalMatch.ofText (found : Text) : UniversalMatch :=
  ⟨found, escapeText found⟩

def universalMatch? (pattern : Text) (root : Node) : Option UniversalMatch := do
  let part ← universalPart? root
  let text ← part.text? pattern
  return .ofText text

end PatternAudit.Lint
