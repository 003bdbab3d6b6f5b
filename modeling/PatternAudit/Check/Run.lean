import PatternAudit.Check.Log
import PatternAudit.Check.Selection

set_option autoImplicit false

/-!
# Runs of the checker

Checking the patterns of a configuration. A run writes its problems and how many there are, and nothing if there are
none; what its log writes comes before that.
-/
namespace PatternAudit.Check

structure Run where
  records : List Record
  problems : List Text

/-- Checks a configuration, with further names that count as types. -/
def run (config : Config) (knownTypes : List Text) : Run :=
  let resolver := resolverOf config.settings knownTypes
  let patterns := patternsOf config
  ⟨checkLog resolver patterns, allMessages resolver patterns⟩

namespace Run

def exitCode (r : Run) : Nat :=
  if r.problems.isEmpty then 0 else 1

/-- What the run itself has to say. -/
def report (r : Run) : Text :=
  if r.problems.isEmpty then []
  else (r.problems.flatMap fun p => p ++ ['\n', '\n']) ++ summary r.problems ++ ['\n']

def stdout (_ : Run) : Text :=
  []

/-- What is written to the error output when `log` is what becomes of the records. -/
def stderr (r : Run) (log : List Record → Text) : Text :=
  log r.records ++ r.report

end Run

end PatternAudit.Check
