import PatternAudit.Lint.Validation

set_option autoImplicit false

/-!
# Report messages

What is said about a configured pattern: one message for each finding, or one for the fault that keeps it from
being validated. The message of a malformed pattern shows the pattern with a caret under the faulty place.
-/
namespace PatternAudit.Check

open Lint (ConfiguredFault Finding Findings)

def blanks (n : Nat) : Text :=
  List.replicate n ' '

def subject (pattern : Text) : Text :=
  "Ignored error ".toList ++ pattern

def findingMessage (pattern : Text) : Finding → Text
  | .ignoredTypes types =>
    subject pattern ++
      " has an unescaped '|' which leads to ignoring more errors than intended. Use '\\|' instead.\n".toList ++
      "It ignores all errors containing the following types:".toList ++
      types.flatMap fun t => "\n* ".toList ++ t.description.display
  | .misplacedAnchor _ =>
    subject pattern ++
      " has an unescaped anchor '$' in the middle. This leads to unintended behavior. Use '\\$' instead.".toList
  | .universalMatch m =>
    subject pattern ++ " has an unescaped '".toList ++ m.found ++
      "' which leads to ignoring all errors. Use '".toList ++ m.escaped ++ "' instead.".toList

/-- How many characters stand before a byte position; for a position inside a character, the position itself. -/
def columnOf (pattern : Text) (offset : Nat) : Nat :=
  match Text.splitAt? pattern offset with
  | some (before, _) => before.length
  | none => offset

/-- The pattern with a caret under the character at a byte position. -/
def caretBlock (pattern : Text) (offset : Nat) : Text :=
  blanks 4 ++ pattern ++ '\n' :: blanks 4 ++ blanks (columnOf pattern offset) ++ ['^']

/-- Where the body of a configured pattern starts; at the front if it cannot be taken apart. -/
def bodyStart (pattern : Text) : Nat :=
  match Lint.splitDelimited pattern with
  | .ok d => d.bodyStart
  | .error _ => 0

def faultMessage (pattern : Text) : ConfiguredFault → Text
  | .delimiter f =>
    subject pattern ++ " is not a valid delimited regular expression: ".toList ++ f.message ++ ['.']
  | .malformed f =>
    subject pattern ++ " is not a valid regular expression: ".toList ++ f.message ++ ".\n".toList ++
      caretBlock pattern (bodyStart pattern + f.offset)

def findingMessages (pattern : Text) (findings : Findings) : List Text :=
  findings.toList.map (findingMessage pattern)

/-- Everything there is to say about one configured pattern. -/
def patternMessages (resolve : Lint.TypeLookup) (pattern : Text) : List Text :=
  match Lint.validateDelimited resolve pattern with
  | .ok findings => findingMessages pattern findings
  | .error f => [faultMessage pattern f]

/-- Everything there is to say about several patterns. -/
def allMessages (resolve : Lint.TypeLookup) (patterns : List Text) : List Text :=
  patterns.flatMap (patternMessages resolve)

def summary (problems : List Text) : Text :=
  Text.decimal problems.length ++ " problem(s) found in ignored error patterns".toList

end PatternAudit.Check
