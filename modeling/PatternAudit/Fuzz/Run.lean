import PatternAudit.Fuzz.Edit
import PatternAudit.Fuzz.Outcome

set_option autoImplicit false

/-!
# Fuzzing runs

A run takes patterns of a fixed corpus, edits each a random number of times, validates the result and looks at the
outcome. It stops at the first outcome that gives cause for complaint. A panic of validation is such an outcome; one
of an edit breaks the run off.
-/
namespace PatternAudit.Fuzz

open Lint (Resolver TypeTable)

/-- Patterns the way they show up in real configurations. -/
def corpus : List Text :=
  ["^Call to an undefined method Foo::bar\\(\\)\\.$",
    "^Parameter \\#1 \\$x of function foo expects int\\|string, float given\\.$",
    "^Access to an undefined property [a-zA-Z0-9\\\\_]+::\\$foo\\.$",
    "^Method Foo::(get|set)Bar\\(\\) has no return type specified\\.$",
    "#^Variable \\$[a-z]+ might not be defined\\.$#",
    "Foo|Bar",
    "int|string",
    "^(?i)unsafe usage of new static\\(\\)\\.$",
    "~^Property .+::\\$\\w+ is never read, only written\\.$~u",
    ".*",
    ""].map String.toList

/-- How a run edits patterns. -/
def mixedEdits : EditStrategy :=
  .anyOf [.append .fragments, .insert .fragments,
    .insert (.random 1 4 "ab|$^.*+?()[]\x7b\x7d\\:<>=!#,-0123456789é".toList), .erase, .splice .fragments]

/-- The types a run knows. -/
def knownResolver : Resolver :=
  .chain [.table (TypeTable.ofList [⟨"Foo".toList, .classType⟩, ⟨"Bar".toList, .interface⟩]), .builtin]

variable {σ : Type} [Generator σ]

/-- How many edits a pattern gets: at least one, and at most `limit` if that is not zero. The number after `limit`
is taken in 64 bits. -/
def editCount (limit : UInt64) : Drawing σ Nat :=
  Draw.range 1 (limit + 1).toNat

/-- Makes several edits, each on the result of the one before. -/
def mutateTimes (strategy : EditStrategy) : Nat → Text → Drawing σ Text
  | 0, s => return s
  | n + 1, s => do
    let (_, t) ← strategy.mutate s
    mutateTimes strategy n t

/-- An edited pattern of the corpus. -/
def mutant (limit : UInt64) : Drawing σ Text := do
  let pattern ← Draw.choice corpus
  let count ← editCount limit
  mutateTimes mixedEdits count pattern

/-- Where a run stopped early. -/
structure Stop where
  iteration : Nat
  complaint : Complaint
  pattern : Text
deriving DecidableEq, Repr

/-- Runs `remaining` iterations, the first of which has the number `iteration`. -/
def runFrom (limit : UInt64) (iteration : Nat) : Nat → Drawing σ (Option Stop)
  | 0 => return none
  | remaining + 1 => do
    let pattern ← mutant limit
    match (Lint.attemptValidate knownResolver pattern).run with
    | none => throw .endless
    | some outcome =>
      match verdict? pattern outcome with
      | some complaint => return some ⟨iteration, complaint, pattern⟩
      | none => runFrom limit (iteration + 1) remaining

/-- What a run is asked for. -/
structure Options where
  seed? : Option UInt64
  iterations : UInt64
  edits : UInt64
deriving DecidableEq, Repr

def Options.default : Options :=
  ⟨none, 100000, 8⟩

inductive Report where
  | ran (seed iterations : UInt64) (stop? : Option Stop)
  /-- The run itself broke off. -/
  | broken (seed : UInt64) (mishap : Mishap)
deriving DecidableEq, Repr

variable (σ) in
/-- A whole run; `clock` is its seed if the options give none. -/
def report (clock : UInt64) (o : Options) : Report :=
  let seed := o.seed?.getD clock
  match (runFrom o.edits 0 o.iterations.toNat).run' (Generator.ofSeed seed : σ) with
  | .ok stop? => .ran seed o.iterations stop?
  | .error mishap => .broken seed mishap

/-- A text in double quotes with the usual escapes. -/
def quoted (s : Text) : Text :=
  '\x22' :: (s.flatMap fun c =>
    if c = '\x22' then ['\\', '\x22']
    else if c = '\\' then ['\\', '\\']
    else if c = '\n' then ['\\', 'n']
    else if c = '\r' then ['\\', 'r']
    else if c = '\t' then ['\\', 't']
    else if c = '\x00' then ['\\', '0']
    else if c.toNat < 0x20 ∨ c = '\x7f' then "\\u\x7b".toList ++ Nat.toDigits 16 c.toNat ++ ['}']
    else [c]) ++ ['\x22']

namespace Report

/-- The exit code; there is none if the run never ends. -/
def exitCode? : Report → Option Nat
  | .ran _ _ none => some 0
  | .ran _ _ (some _) => some 1
  | .broken _ .endless => none
  | .broken _ _ => some 101

def heading (seed : UInt64) : Text :=
  "Fuzzing with seed ".toList ++ Text.decimal seed.toNat ++ ['\n']

def stdout : Report → Text
  | .ran seed iterations none =>
    heading seed ++ Text.decimal iterations.toNat ++ " patterns validated\n".toList
  | .ran seed _ (some stop) =>
    heading seed ++ "Iteration ".toList ++ Text.decimal stop.iteration ++ " (seed ".toList ++
      Text.decimal seed.toNat ++ "): ".toList ++ stop.complaint.message ++ "\nPattern: ".toList ++
      quoted stop.pattern ++ ['\n']
  | .broken seed _ => heading seed

end Report

end PatternAudit.Fuzz
