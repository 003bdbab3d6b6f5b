import PatternAudit.Text

set_option autoImplicit false

/-!
# Escaping

The characters that mean something in a pattern, and writing a text so that a pattern matches it literally.
-/
namespace PatternAudit.Lint

def significantChars : Text :=
  ['\\', '^', '$', '.', '|', '?', '*', '+', '(', ')', '[', ']', '{', '}']

def isSignificant (c : Char) : Bool :=
  significantChars.contains c

def escapeText : Text → Text
  | [] => []
  | c :: s => if isSignificant c then '\\' :: c :: escapeText s else c :: escapeText s

theorem escapeText_append (s t : Text) : escapeText (s ++ t) = escapeText s ++ escapeText t := by
  induction s with
  | nil => rfl
  | cons c s ih => by_cases hc : isSignificant c <;> simp [escapeText, hc, ih]

end PatternAudit.Lint
