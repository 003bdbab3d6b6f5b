import PatternAudit.CommandLine.Word
import PatternAudit.Fuzz.Run
import PatternAudit.Fuzz.Source

set_option autoImplicit false

/-!
# The fuzzer command

From the arguments to the output and the exit code of a fuzzing run that draws from a seeded source. Each option can
be given once and takes a 64-bit number.
-/
namespace PatternAudit.CommandLine

open Fuzz (Options Source)

inductive FuzzRequest where
  | help
  | fuzz (options : Options)
deriving DecidableEq, Repr

/-- The options that are set so far. -/
structure FuzzDraft where
  seed? : Option UInt64
  iterations? : Option UInt64
  edits? : Option UInt64
deriving DecidableEq, Repr

def FuzzDraft.fresh : FuzzDraft :=
  ⟨none, none, none⟩

def FuzzDraft.finish (d : FuzzDraft) : FuzzRequest :=
  .fuzz ⟨d.seed?, d.iterations?.getD Options.default.iterations, d.edits?.getD Options.default.edits⟩

/-- A decimal number of at most 64 bits. -/
def number64? (s : Text) : Option UInt64 := do
  let n ← Text.signedNumeral? 10 s
  if n < UInt64.size then some (UInt64.ofNat n) else none

/-- Sets an option that is not set yet. -/
def FuzzDraft.set? (d : FuzzDraft) (name value : Text) : Option FuzzDraft := do
  let n ← number64? value
  if name = "seed".toList then if d.seed?.isNone then some { d with seed? := some n } else none
  else if name = "iterations".toList then
    if d.iterations?.isNone then some { d with iterations? := some n } else none
  else if name = "edits".toList then if d.edits?.isNone then some { d with edits? := some n } else none
  else none

def fuzzOptionNames : List Text :=
  ["seed", "iterations", "edits"].map String.toList

/-- What the arguments ask for, given the options set before them; nothing if they are wrong. -/
def FuzzDraft.read? (d : FuzzDraft) (args : List Text) : Option FuzzRequest :=
  match args with
  | [] => some d.finish
  | arg :: rest =>
    match Word.ofText arg with
    | .separator => if rest.isEmpty then some d.finish else none
    | .long name value? =>
      if name = "help".toList then if value?.isNone then some .help else none
      else if fuzzOptionNames.contains name then
        match _h : optionValue? value? rest with
        | some (value, rest') => do
          let d ← d.set? name value
          d.read? rest'
        | none => none
      else none
    | .short letters => if letters.head? = some 'h' then some .help else none
    | .plain _ => none
termination_by args.length
decreasing_by exact optionValue?_length _h

inductive FuzzResponse where
  /-- How the command is used, told because it was asked for or because the arguments are wrong. -/
  | usage {asked : Bool}
  | report (report : Fuzz.Report)

def fuzzerHelp : Text :=
  ("Mutates ignore patterns and checks that validating them holds up\n\n" ++
    "Usage: rx_pattern_fuzzer [OPTIONS]\n\n" ++
    "Options:\n" ++
    "      --seed <SEED>              Seed to replay; taken from the clock when missing\n" ++
    "      --iterations <ITERATIONS>  Number of mutated patterns to validate [default: 100000]\n" ++
    "      --edits <EDITS>            Maximum number of edits applied to one corpus pattern [default: 8]\n" ++
    "  -h, --help                     Print help\n").toList

namespace FuzzResponse

/-- The exit code. A run that never ends has none; it is taken for one that broke off. -/
def exitCode : FuzzResponse → Nat
  | @usage true => 0
  | @usage false => 2
  | .report r => r.exitCode?.getD 101

def stdout : FuzzResponse → Text
  | @usage true => fuzzerHelp
  | @usage false => []
  | .report r => r.stdout

end FuzzResponse

/-- Answers a command line of the fuzzer; `clock` is the seed if the arguments give none. -/
def fuzzer (clock : UInt64) (args : List Text) : FuzzResponse :=
  match FuzzDraft.fresh.read? args with
  | none => @FuzzResponse.usage false
  | some .help => @FuzzResponse.usage true
  | some (.fuzz options) => .report (Fuzz.report Source clock options)

end PatternAudit.CommandLine
