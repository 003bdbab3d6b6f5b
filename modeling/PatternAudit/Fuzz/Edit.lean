import PatternAudit.Fuzz.Draw

set_option autoImplicit false

/-!
# Edits

Replacing a stretch of a text, and strategies that choose what to replace by what.
-/
namespace PatternAudit.Fuzz

structure Edit where
  start : Nat
  stop : Nat
  text : Text
deriving DecidableEq, Repr

/-- Keeps what is before `start` and from `stop` on, with the new text between them. -/
def Edit.apply? (e : Edit) (s : Text) : Option Text := do
  let (before, _) ← s.splitAt? e.start
  let (_, after) ← s.splitAt? e.stop
  return before ++ e.text ++ after

inductive EditStrategy where
  | append (generator : TextGenerator)
  | insert (generator : TextGenerator)
  | erase
  | splice (generator : TextGenerator)
  /-- Picks one of the strategies for every edit. -/
  | anyOf (strategies : List EditStrategy)
deriving Repr

namespace EditStrategy

variable {σ : Type} [Generator σ]

/-- A stretch between two places of a text, the second drawn from the first on. -/
def stretch (s : Text) : Drawing σ (Nat × Nat) := do
  let start ← Draw.boundary s 0 s.byteLength
  let stop ← Draw.boundary s start s.byteLength
  return (start, stop)

mutual

/-- Chooses an edit for a text. -/
def edit (s : Text) : EditStrategy → Drawing σ Edit
  | .append g => do
    let text ← g.generate
    return ⟨s.byteLength, s.byteLength, text⟩
  | .insert g => do
    let place ← Draw.boundary s 0 s.byteLength
    let text ← g.generate
    return ⟨place, place, text⟩
  | .erase => do
    let (start, stop) ← stretch s
    return ⟨start, stop, []⟩
  | .splice g => do
    let (start, stop) ← stretch s
    let text ← g.generate
    return ⟨start, stop, text⟩
  | .anyOf strategies => do
    if strategies.isEmpty then throw .emptyChoice
    let i ← Draw.range 0 strategies.length
    editBy s i strategies

/-- Lets the strategy at a given place of a list choose the edit. -/
def editBy (s : Text) : Nat → List EditStrategy → Drawing σ Edit
  | _, [] => throw .emptyChoice
  | 0, strategy :: _ => edit s strategy
  | i + 1, _ :: strategies => editBy s i strategies

end

/-- Chooses an edit for a text and makes it. -/
def mutate (strategy : EditStrategy) (s : Text) : Drawing σ (Edit × Text) := do
  let e ← strategy.edit s
  match e.apply? s with
  | some t => return (e, t)
  | none => throw .badCut

end EditStrategy

end PatternAudit.Fuzz
