import PatternAudit.Fuzz.Generator

set_option autoImplicit false

/-!
# Draws

Random numbers, choices, texts and places in a text, each a step on a generator.
-/
namespace PatternAudit.Fuzz

/-- What can keep a fuzzing step from finishing. -/
inductive Mishap where
  /-- A choice among nothing. -/
  | emptyChoice
  /-- An edit that does not start and end where a character does. -/
  | badCut
  /-- A step that never ends. -/
  | endless
deriving DecidableEq, Repr

abbrev Drawing (σ : Type) := StateT σ (Except Mishap)

variable {σ : Type} [Generator σ]

namespace Draw

/-- A number from `lo` up to, and not including, `hi`; `lo` if there is none. Nothing is drawn then. -/
def range (lo hi : Nat) : Drawing σ Nat := fun g =>
  if hi ≤ lo then .ok (lo, g)
  else
    match Generator.between? lo hi g with
    | some drawn => .ok drawn
    | none => .error .endless

def choice {α : Type} (xs : List α) : Drawing σ α := do
  if xs.isEmpty then throw .emptyChoice
  let i ← range 0 xs.length
  match xs[i]? with
  | some x => return x
  | none => throw .emptyChoice

def repeated {α : Type} (d : Drawing σ α) : Nat → Drawing σ (List α)
  | 0 => return []
  | n + 1 => do
    let x ← d
    let xs ← repeated d n
    return x :: xs

/-- A text of random length over a set of characters. -/
def text (lo hi : Nat) (charset : Text) : Drawing σ Text := do
  let length ← range lo hi
  repeated (choice charset) length

/-- A place from `lo` to `hi` where a text can be cut; its end if there is none. -/
def boundary (s : Text) (lo hi : Nat) : Drawing σ Nat := do
  match s.boundaries.filter fun n => lo ≤ n && n ≤ hi with
  | [] => return s.byteLength
  | places => choice places

end Draw

/-- Pieces of pattern syntax, so that edits open groups, start escapes and write repetitions more often than
single characters would. -/
def fragments : List Text :=
  ["|", "\\|", "$", "\\$", "^", ".", ".*", ".+?", "*", "+", "?", "\x7b2,3\x7d", "\x7b,4\x7d", "\x7b99999\x7d",
    "(", ")", "(?:", "(?i)", "(?i:", "(?<name>", "(?P<n>", "(?=", "(?<!", "(?>", "(?|",
    "(?#note)", "(*UTF8)", "(?R)", "[", "]", "[^a-z]", "[[:alpha:]]", "[\\d-z]", "\\",
    "\\Q", "\\E", "\\x\x7b41\x7d", "\\x\x7bzz\x7d", "\\p\x7bL\x7d", "\\PL", "\\k<name>", "\\g\x7b-1\x7d", "\\1",
    "\\cA", "\\o\x7b17\x7d", "\\0", "int", "Foo", "é", "::"].map String.toList

inductive TextGenerator where
  | fragments
  | random (lo hi : Nat) (charset : Text)
deriving DecidableEq, Repr

def TextGenerator.generate : TextGenerator → Drawing σ Text
  | .fragments => Draw.choice Fuzz.fragments
  | .random lo hi charset => Draw.text lo hi charset

end PatternAudit.Fuzz
