import PatternAudit.Text.Numeral

set_option autoImplicit false

/-!
# Faults of a pattern

Why a text is not a pattern, and the byte position at which this shows.
-/
namespace PatternAudit.Grammar

/-- The largest repetition count a bound may name. -/
def maxRepeat : Nat := 65535

inductive Reason where
  | unterminatedClass
  | unterminatedGroup
  | unmatchedClose
  | danglingEscape
  | invalidEscape
  | invalidGroupName
  | quantifierOutOfOrder
  | quantifierTooLarge
  | nothingToRepeat
  | rangeOutOfOrder
  | nestingTooDeep (levels : Nat)
deriving DecidableEq, Repr

def Reason.message : Reason → Text
  | .unterminatedClass => "unterminated character class".toList
  | .unterminatedGroup => "unterminated group".toList
  | .unmatchedClose => "unmatched closing parenthesis".toList
  | .danglingEscape => "dangling escape at end of pattern".toList
  | .invalidEscape => "invalid escape sequence".toList
  | .invalidGroupName => "invalid group name".toList
  | .quantifierOutOfOrder => "invalid quantifier bound: minimum exceeds maximum".toList
  | .quantifierTooLarge => "invalid quantifier bound: larger than ".toList ++ Text.decimal maxRepeat
  | .nothingToRepeat => "quantifier does not follow a repeatable item".toList
  | .rangeOutOfOrder => "character class range is out of order".toList
  | .nestingTooDeep levels =>
    "groups are nested deeper than ".toList ++ Text.decimal levels ++ " levels".toList

structure Fault where
  offset : Nat
  reason : Reason
deriving DecidableEq, Repr

def Fault.message (f : Fault) : Text :=
  f.reason.message ++ " at offset ".toList ++ Text.decimal f.offset

/-- The same fault seen from `distance` bytes further to the left. -/
def Fault.shift (distance : Nat) (f : Fault) : Fault :=
  { f with offset := distance + f.offset }

end PatternAudit.Grammar
