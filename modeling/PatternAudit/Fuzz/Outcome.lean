import PatternAudit.Lint.Attempted

set_option autoImplicit false

/-!
# Outcomes

What must hold for the outcome of validating any pattern at all: a fault stands at a place of the pattern, a
misplaced anchor is a dollar sign, and a universal sequence occurs in the pattern. Validating must not panic either.
-/
namespace PatternAudit.Fuzz

open Grammar (Fault Halt)
open Lint (Findings)

inductive Complaint where
  | faultPlace (offset : Nat)
  | anchorPlace (offset : Nat)
  | universalSequence (found : Text)
  | panicked
deriving DecidableEq, Repr

def Complaint.message : Complaint → Text
  | .faultPlace offset =>
    "error offset ".toList ++ Text.decimal offset ++ " is not a position in the pattern".toList
  | .anchorPlace offset =>
    "anchor offset ".toList ++ Text.decimal offset ++ " does not point at a '$'".toList
  | .universalSequence found =>
    "universal sequence '".toList ++ found ++ "' is not part of the pattern".toList
  | .panicked => "validation panicked".toList

def anchorComplaint? (pattern : Text) (offset : Nat) : Option Complaint :=
  if pattern.slice? offset (offset + 1) = some ['$'] then none else some (.anchorPlace offset)

def universalComplaint? (pattern found : Text) : Option Complaint :=
  if found.occursIn pattern then none else some (.universalSequence found)

/-- The first thing wrong with an outcome. -/
def complaint? (pattern : Text) : Except Fault Findings → Option Complaint
  | .error f => if pattern.isBoundary f.offset then none else some (.faultPlace f.offset)
  | .ok findings =>
    (findings.anchor?.bind (anchorComplaint? pattern)).or
      (findings.universal?.bind fun m => universalComplaint? pattern m.found)

/-- The first thing wrong with an attempt to validate a pattern. -/
def verdict? (pattern : Text) : Except Halt Findings → Option Complaint
  | .ok findings => complaint? pattern (.ok findings)
  | .error (.fault f) => complaint? pattern (.error f)
  | .error .panic => some .panicked

end PatternAudit.Fuzz
