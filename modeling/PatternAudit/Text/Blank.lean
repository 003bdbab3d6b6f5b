import PatternAudit.Text

set_option autoImplicit false

/-!
# Blank characters

The White_Space property of Unicode, and cutting blanks off the ends of a text.
-/
namespace PatternAudit.Text

def isBlank (c : Char) : Bool :=
  let n := c.toNat
  (9 ≤ n && n ≤ 13) || n == 0x20 || n == 0x85 || n == 0xA0 || n == 0x1680 || (0x2000 ≤ n && n ≤ 0x200A) ||
    n == 0x2028 || n == 0x2029 || n == 0x202F || n == 0x205F || n == 0x3000

def trimStart (s : Text) : Text :=
  s.dropWhile isBlank

def trimEnd (s : Text) : Text :=
  (s.reverse.dropWhile isBlank).reverse

def trim (s : Text) : Text :=
  trimEnd (trimStart s)

end PatternAudit.Text
