import PatternAudit.Text.Numeral
import PatternAudit.Toml.Value

set_option autoImplicit false

/-!
# TOML numbers

Integers in four bases and floats. Underscores may stand between digits. Integers fit into 64 bits with a sign; a
positive float must not be so large that it rounds to infinity.
-/
namespace PatternAudit.Toml

/-- The digits after a first one, without the underscores between them, and what follows. -/
def moreDigits? (isDigit : Char → Bool) : Text → Option (Text × Text)
  | '_' :: c :: s => if isDigit c then (moreDigits? isDigit s).map fun (t, r) => (c :: t, r) else none
  | ['_'] => none
  | c :: s =>
    if isDigit c then (moreDigits? isDigit s).map fun (t, r) => (c :: t, r) else some ([], c :: s)
  | [] => some ([], [])

def digits? (isDigit : Char → Bool) : Text → Option (Text × Text)
  | c :: s => if isDigit c then (moreDigits? isDigit s).map fun (t, r) => (c :: t, r) else none
  | [] => none

/-- Decimal digits where a leading zero stands alone. -/
def plainDigits? : Text → Option (Text × Text)
  | '0' :: s => some (['0'], s)
  | s => digits? Char.isDigit s

def splitSign : Text → Text × Text
  | '+' :: s => (['+'], s)
  | '-' :: s => (['-'], s)
  | s => ([], s)

def maxInteger : Int := 0x7FFFFFFFFFFFFFFF

def minInteger : Int := -0x8000000000000000

def integerOf? (n : Int) : Option Value :=
  if minInteger ≤ n ∧ n ≤ maxInteger then some (.integer n) else none

/-- The least number that rounds to infinity. -/
def roundsToInfinity : Nat := Nat.pow 2 1024 - Nat.pow 2 970

/-- Whether `m` times a power of ten rounds to infinity. The number of digits decides unless it is close. -/
def isOverflow (digits : Text) (exponent : Int) : Bool :=
  let significant := digits.dropWhile (· == '0')
  let magnitude : Int := significant.length + exponent
  let m := (Text.numeralFrom? 10 0 significant).getD 0
  if significant.isEmpty || magnitude < 300 then false
  else if magnitude > 320 then true
  else if 0 ≤ exponent then roundsToInfinity ≤ m * Nat.pow 10 exponent.toNat
  else roundsToInfinity * Nat.pow 10 (-exponent).toNat ≤ m

def fraction? : Text → Option (Text × Text)
  | '.' :: s => digits? Char.isDigit s
  | s => some ([], s)

def exponent? (s : Text) : Option (Option Int × Text) :=
  match s with
  | 'e' :: r | 'E' :: r => do
    let (sign, r) := splitSign r
    let (digits, r) ← digits? Char.isDigit r
    let n ← Text.numeral? 10 digits
    return (some (if sign = ['-'] then -(n : Int) else n), r)
  | _ => some (none, s)

def decimalNumber? (sign s : Text) : Option (Value × Text) := do
  let (whole, r) ← plainDigits? s
  let (part, r') ← fraction? r
  let (power?, rest) ← exponent? r'
  if part.isEmpty && power?.isNone then
    let n ← Text.numeral? 10 whole
    let v ← integerOf? (if sign = ['-'] then -(n : Int) else n)
    return (v, rest)
  else
    let spelling := sign ++ s.take (s.length - rest.length)
    if sign != ['-'] && isOverflow (whole ++ part) (power?.getD 0 - part.length) then none
    else return (.float spelling, rest)

/-- An integer in another base, after the two characters that announce it. -/
def basedInteger? (base : Nat) (s : Text) : Option (Value × Text) := do
  let (digits, rest) ← digits? (Text.isDigitOf base) s
  let n ← Text.numeral? base digits
  let v ← integerOf? n
  return (v, rest)

def number? (s : Text) : Option (Value × Text) :=
  match s with
  | '0' :: 'x' :: r => basedInteger? 16 r
  | '0' :: 'o' :: r => basedInteger? 8 r
  | '0' :: 'b' :: r => basedInteger? 2 r
  | _ =>
    match splitSign s with
    | (sign, 'i' :: 'n' :: 'f' :: r) => some (.float (sign ++ ['i', 'n', 'f']), r)
    | (sign, 'n' :: 'a' :: 'n' :: r) => some (.float (sign ++ ['n', 'a', 'n']), r)
    | (sign, r) => decimalNumber? sign r

end PatternAudit.Toml
