import PatternAudit.Text

set_option autoImplicit false

/-!
# Command line words

How a single argument of a command line is read before it is known what the command makes of it.
-/
namespace PatternAudit.CommandLine

inductive Word where
  /-- Two dashes alone: no option comes after them. -/
  | separator
  /-- A long option, perhaps with a value attached by an equals sign. -/
  | long (name : Text) (value? : Option Text)
  | short (letters : Text)
  /-- Anything else, a single dash included. -/
  | plain (text : Text)
deriving DecidableEq, Repr

def Word.ofText : Text → Word
  | ['-', '-'] => .separator
  | '-' :: '-' :: s =>
    match Text.splitFirst? '=' s with
    | some (name, value) => .long name (some value)
    | none => .long s none
  | ['-'] => .plain ['-']
  | '-' :: s => .short s
  | s => .plain s

/-- The value of an option: the attached one, or else the next argument if that is a plain word. -/
def optionValue? : Option Text → List Text → Option (Text × List Text)
  | some value, args => some (value, args)
  | none, arg :: args =>
    match Word.ofText arg with
    | .plain value => some (value, args)
    | _ => none
  | none, [] => none

theorem optionValue?_length {value? : Option Text} {args rest : List Text} {value arg : Text}
    (h : optionValue? value? args = some (value, rest)) : rest.length < (arg :: args).length := by
  unfold optionValue? at h
  split at h
  next => cases h; exact Nat.lt_succ_self _
  next =>
    split at h
    next => cases h; exact Nat.lt_succ_of_lt (Nat.lt_succ_self _)
    next => contradiction
  next => contradiction

end PatternAudit.CommandLine
