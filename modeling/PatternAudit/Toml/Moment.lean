import PatternAudit.Text.Numeral
import PatternAudit.Toml.Value

set_option autoImplicit false

/-!
# TOML dates and times

A date, a time of day, or both, then perhaps with an offset. A second may be the sixtieth.
-/
namespace PatternAudit.Toml

def twoDigits? (lo hi : Nat) : Text → Option (Nat × Text)
  | a :: b :: s => do
    let n ← if a.isDigit && b.isDigit then Text.numeral? 10 [a, b] else none
    if lo ≤ n ∧ n ≤ hi then some (n, s) else none
  | _ => none

def isLeapYear (year : Nat) : Bool :=
  year % 4 == 0 && (year % 100 != 0 || year % 400 == 0)

def daysInMonth (year month : Nat) : Nat :=
  if month = 2 then if isLeapYear year then 29 else 28
  else if month = 4 ∨ month = 6 ∨ month = 9 ∨ month = 11 then 30
  else 31

def expect? (c : Char) : Text → Option Text
  | d :: s => if d = c then some s else none
  | [] => none

/-- The rest of a date after its year. -/
def dateAfterYear? (year : Nat) (s : Text) : Option Text := do
  let s ← expect? '-' s
  let (month, s) ← twoDigits? 1 12 s
  let s ← expect? '-' s
  let (_, s) ← twoDigits? 1 (daysInMonth year month) s
  return s

def secondFraction? : Text → Option Text
  | '.' :: c :: s => if c.isDigit then some (s.dropWhile Char.isDigit) else none
  | ['.'] => none
  | s => some s

def time? (s : Text) : Option Text := do
  let (_, s) ← twoDigits? 0 23 s
  let s ← expect? ':' s
  let (_, s) ← twoDigits? 0 59 s
  let s ← expect? ':' s
  let (_, s) ← twoDigits? 0 60 s
  secondFraction? s

def offset? : Text → Option Text
  | 'Z' :: s | 'z' :: s => some s
  | '+' :: s | '-' :: s => do
    let (_, s) ← twoDigits? 0 23 s
    let s ← expect? ':' s
    let (_, s) ← twoDigits? 0 59 s
    return s
  | s => some s

/-- Whether a time of day has begun: two digits and a colon. -/
def beginsTime : Text → Bool
  | a :: b :: ':' :: _ => a.isDigit && b.isDigit
  | _ => false

/-- Whether a date has begun: four digits and a dash. -/
def beginsDate : Text → Bool
  | a :: b :: c :: d :: '-' :: _ => a.isDigit && b.isDigit && c.isDigit && d.isDigit
  | _ => false

/-- A date and what may come with it. A separator that no time follows is left alone. -/
def date? (s : Text) : Option Text := do
  let year ← Text.numeral? 10 (s.take 4)
  let rest ← dateAfterYear? year (s.drop 4)
  match rest with
  | c :: r =>
    if (c == 'T' || c == 't' || c == ' ') && beginsTime r then time? r >>= offset? else some rest
  | [] => some []

/-- What follows a date or a time; nothing if neither begins here, or what begins goes wrong. -/
def moment? (s : Text) : Option (Value × Text) := do
  let rest ← if beginsDate s then date? s else time? s
  return (.moment (s.take (s.length - rest.length)), rest)

end PatternAudit.Toml
