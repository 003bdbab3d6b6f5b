import PatternAudit.Text

set_option autoImplicit false

/-!
# Numerals

Digit strings in a given base as natural numbers, of any length and without wrap-around, or as words of 32 bits, and
the characters that such numbers stand for.
-/
namespace PatternAudit.Text

/-- The value of a digit in a base of at most sixteen; letters may have either case. -/
def digitValue? (base : Nat) (c : Char) : Option Nat :=
  let value :=
    if '0' ≤ c ∧ c ≤ '9' then c.toNat - 0x30
    else if 'a' ≤ c ∧ c ≤ 'f' then c.toNat - 0x57
    else if 'A' ≤ c ∧ c ≤ 'F' then c.toNat - 0x37
    else base
  if value < base then some value else none

def isDigitOf (base : Nat) (c : Char) : Bool :=
  (digitValue? base c).isSome

/-- The number that continues `high` by the digits of a text. -/
def numeralFrom? (base : Nat) : Nat → Text → Option Nat
  | high, [] => some high
  | high, c :: s =>
    match digitValue? base c with
    | some d => numeralFrom? base (high * base + d) s
    | none => none

/-- The number written by one or more digits. -/
def numeral? (base : Nat) : Text → Option Nat
  | [] => none
  | s => numeralFrom? base 0 s

/-- A numeral that may have a plus sign in front. -/
def signedNumeral? (base : Nat) : Text → Option Nat
  | '+' :: s => numeral? base s
  | s => numeral? base s

/-- The number that continues `high` by the digits of a text, if it stays below `limit` all the way. -/
def checkedFrom? (base limit : Nat) : Nat → Text → Option Nat
  | high, [] => some high
  | high, c :: s =>
    match digitValue? base c with
    | some d => if high * base + d < limit then checkedFrom? base limit (high * base + d) s else none
    | none => none

def checked? (base limit : Nat) : Text → Option Nat
  | [] => none
  | s => checkedFrom? base limit 0 s

/-- The word of 32 bits written by digits, perhaps with a plus sign in front. -/
def word? (base : Nat) : Text → Option Nat
  | '+' :: s => checked? base UInt32.size s
  | s => checked? base UInt32.size s

theorem le_of_numeralFrom? {base high n : Nat} (hbase : 0 < base) {s : Text}
    (h : numeralFrom? base high s = some n) : high ≤ n := by
  induction s generalizing high with
  | nil => cases h; exact Nat.le_refl _
  | cons c s ih =>
    rw [numeralFrom?] at h
    split at h
    next d hd =>
      have hle := Nat.le_mul_of_pos_right high hbase
      exact Nat.le_trans (Nat.le_add_right_of_le hle) (ih h)
    next => contradiction

/-- The numbers on the way are never larger than the last, so only the last can be too large. -/
theorem checkedFrom?_eq_some_iff {base limit high n : Nat} (hbase : 0 < base) (hhigh : high < limit) {s : Text} :
    checkedFrom? base limit high s = some n ↔ numeralFrom? base high s = some n ∧ n < limit := by
  induction s generalizing high with
  | nil =>
    rw [checkedFrom?, numeralFrom?, Option.some_inj]
    exact ⟨fun h => ⟨h, h ▸ hhigh⟩, And.left⟩
  | cons c s ih =>
    rw [checkedFrom?, numeralFrom?]
    cases digitValue? base c with
    | none => simp
    | some d =>
      dsimp only
      split
      next hlt => exact ih hlt
      next hlarge =>
        refine ⟨fun h => by contradiction, fun ⟨h, hlt⟩ => absurd hlt ?_⟩
        exact Nat.not_lt.2 (Nat.le_trans (Nat.not_lt.1 hlarge) (le_of_numeralFrom? hbase h))

theorem checked?_eq_some_iff {base limit n : Nat} (hbase : 0 < base) (hlimit : 0 < limit) {s : Text} :
    checked? base limit s = some n ↔ numeral? base s = some n ∧ n < limit := by
  cases s with
  | nil => simp [checked?, numeral?]
  | cons c s => exact checkedFrom?_eq_some_iff hbase hlimit

theorem word?_eq_some_iff {base n : Nat} (hbase : 0 < base) {s : Text} :
    word? base s = some n ↔ signedNumeral? base s = some n ∧ n < UInt32.size := by
  unfold word? signedNumeral?
  split <;> exact checked?_eq_some_iff hbase (by decide)

/-- The character of a given code point, if there is one. -/
def charOfCode? (n : Nat) : Option Char :=
  if h : n.isValidChar then some (Char.ofNatAux n h) else none

def decimal (n : Nat) : Text :=
  Nat.toDigits 10 n

end PatternAudit.Text
