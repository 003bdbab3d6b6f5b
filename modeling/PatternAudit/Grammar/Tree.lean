import PatternAudit.Grammar.Lexeme
import PatternAudit.Grammar.Node

set_option autoImplicit false

/-!
# Building trees

A tree is read off the tokens by descent: an alternation is made of sequences, a sequence of items,
and an item of an atom or a group with perhaps a quantifier after it. Each reader takes tokens from
the front and hands on the rest, which never grows, and the first fault met ends the reading.
-/
namespace PatternAudit.Grammar

/-- How deep groups may nest. -/
def maxNesting : Nat := 250

/-- What was read from the front of at most `limit` tokens, and the tokens left. -/
structure Reading (α : Type) (limit : Nat) where
  value : α
  rest : List Token
  rest_le : rest.length ≤ limit

/-- Where the next token starts, or where the pattern ends. -/
def nextOffset (stop : Nat) : List Token → Nat
  | [] => stop
  | t :: _ => t.span.start

def startsWithQuantifier : List Token → Bool
  | ⟨_, .quantifier _⟩ :: _ => true
  | _ => false

/-- One node for nodes that follow each other; `offset` is the place of an empty one. -/
def Node.concatenation (offset : Nat) : List Node → Node
  | [] => .empty offset
  | [n] => n
  | n :: m :: ns => .sequence (n.spanTo ((m :: ns).getLast (by simp))) (n :: m :: ns)

/-- One node for alternatives, of which there is at least one. -/
def Node.choice (first : Node) : List Node → Node
  | [] => first
  | n :: ns => .alternation (first.spanTo ((n :: ns).getLast (by simp))) (first :: n :: ns)

/-- Repeats a node by the quantifier that follows it, if one does. No quantifier may follow that. -/
def takeQuantifier {limit : Nat} (stop : Nat) (n : Node) (ts : List Token) (h : ts.length ≤ limit) :
    Except Fault (Reading Node limit) :=
  match ts, h with
  | ⟨span, .quantifier q⟩ :: rest, h =>
    if startsWithQuantifier rest then .error ⟨nextOffset stop rest, .nothingToRepeat⟩
    else .ok ⟨.quantified ⟨n.span.start, span.stop⟩ n q, rest, Nat.le_of_succ_le h⟩
  | ts, h => .ok ⟨n, ts, h⟩

/-- Makes a group of its content when a closing parenthesis follows. -/
def closeGroup {limit : Nat} (start : Nat) (kind : GroupKind) (body : Node) (ts : List Token)
    (h : ts.length ≤ limit) : Except Fault (Reading Node limit) :=
  match ts, h with
  | ⟨close, .groupClose⟩ :: rest, h =>
    .ok ⟨.group ⟨start, close.stop⟩ kind body, rest, Nat.le_of_succ_le h⟩
  | _, _ => .error ⟨start, .unterminatedGroup⟩

mutual

/-- Everything up to the end of a nesting level; `depth` groups are open around it. -/
def readAlternation (stop depth : Nat) (ts : List Token) : Except Fault (Reading Node ts.length) := do
  let first ← readSequence stop depth ts
  have := first.rest_le
  readBranches stop depth first.value [] first.rest first.rest_le
termination_by (ts.length, 3)
decreasing_by
  · exact Prod.Lex.right _ (by decide)
  · exact Prod.Lex.right' _ this (by decide)

/-- Further branches, as long as bars come; `more` holds the ones after the first, latest in front. -/
def readBranches {limit : Nat} (stop depth : Nat) (first : Node) (more : List Node)
    (ts : List Token) (h : ts.length ≤ limit) : Except Fault (Reading Node limit) :=
  match ts, h with
  | ⟨_, .bar⟩ :: rest, h => do
    let branch ← readSequence stop depth rest
    have := branch.rest_le
    readBranches stop depth first (branch.value :: more) branch.rest
      (Nat.le_trans this (Nat.le_of_succ_le h))
  | ts, h => .ok ⟨.choice first more.reverse, ts, h⟩
termination_by (ts.length, 2)

/-- One branch: the items up to a bar, a closing parenthesis or the end. -/
def readSequence (stop depth : Nat) (ts : List Token) : Except Fault (Reading Node ts.length) := do
  let items ← readItems stop depth [] ts (Nat.le_refl _)
  return { items with value := .concatenation (nextOffset stop ts) items.value }
termination_by (ts.length, 1)

/-- Further items of a branch; `items` holds the ones before, the latest in front. -/
def readItems {limit : Nat} (stop depth : Nat) (items : List Node) (ts : List Token)
    (h : ts.length ≤ limit) : Except Fault (Reading (List Node) limit) :=
  match ts, h with
  | [], h => .ok ⟨items.reverse, [], h⟩
  | t :: rest, h =>
    if t.kind = .bar ∨ t.kind = .groupClose then .ok ⟨items.reverse, t :: rest, h⟩
    else do
      let item ← readItem stop depth t rest
      have := item.rest_le
      readItems stop depth (item.value :: items) item.rest
        (Nat.le_trans this (Nat.le_of_succ_le h))
termination_by (ts.length, 0)

/-- An atom or a group that begins with `t`, and the quantifier that repeats it if one follows. -/
def readItem (stop depth : Nat) (t : Token) (ts : List Token) : Except Fault (Reading Node ts.length) := do
  let atom ← readAtom stop depth t ts
  takeQuantifier stop atom.value atom.rest atom.rest_le
termination_by (ts.length, 6)

def readAtom (stop depth : Nat) (t : Token) (ts : List Token) : Except Fault (Reading Node ts.length) :=
  match t.kind with
  | .groupOpen kind => readGroup stop depth t.span.start kind ts
  | .atom a => .ok ⟨.atom t.span a, ts, Nat.le_refl _⟩
  | .quantifier _ | .bar | .groupClose => .error ⟨t.span.start, .nothingToRepeat⟩
termination_by (ts.length, 5)

/-- A group whose opening parenthesis stands at `start`, from the tokens after it. -/
def readGroup (stop depth start : Nat) (kind : GroupKind) (ts : List Token) :
    Except Fault (Reading Node ts.length) :=
  if maxNesting ≤ depth then .error ⟨start, .nestingTooDeep maxNesting⟩
  else do
    let body ← readAlternation stop (depth + 1) ts
    closeGroup start kind body.value body.rest body.rest_le
termination_by (ts.length, 4)

end

/-- The tree of a list of tokens of a pattern that is `length` bytes long. -/
def buildTree (tokens : List Token) (length : Nat) : Except Fault Node := do
  match ← readAlternation length 0 tokens with
  | ⟨root, [], _⟩ => return root
  | ⟨_, t :: _, _⟩ => throw ⟨t.span.start, .unmatchedClose⟩

def parse (pattern : Text) : Except Fault Node := do
  let tokens ← tokenize pattern
  buildTree tokens (Text.byteLength pattern)

end PatternAudit.Grammar
