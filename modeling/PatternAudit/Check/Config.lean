import PatternAudit.Text

set_option autoImplicit false

/-!
# Configuration

The patterns to check and how to check them.
-/
namespace PatternAudit.Check

/-- A pattern together with where it applies. Only the entries of a baseline carry a count. -/
structure DetailedEntry where
  message : Text
  path? : Option Text
  paths : List Text
  count? : Option Nat
  reportUnmatched? : Option Bool
deriving DecidableEq, Repr

inductive Entry where
  | pattern (message : Text)
  | detailed (entry : DetailedEntry)
deriving DecidableEq, Repr

def Entry.message : Entry → Text
  | .pattern message => message
  | .detailed entry => entry.message

def Entry.isBaseline : Entry → Bool
  | .pattern _ => false
  | .detailed entry => entry.count?.isSome

structure Settings where
  /-- Without this no pattern is checked. -/
  enabled : Bool
  /-- Whether the keyword types count as types. -/
  builtinTypes : Bool
  /-- Further names that count as types. -/
  knownTypes : List Text
deriving DecidableEq, Repr

def Settings.default : Settings :=
  ⟨true, true, []⟩

structure Config where
  entries : List Entry
  settings : Settings
deriving DecidableEq, Repr

end PatternAudit.Check
