import PatternAudit.Text.Numeral
import PatternAudit.Toml.Value

set_option autoImplicit false

/-!
# Quoted TOML text

Basic and literal strings, of one line or of several, each read after its opening quotes. A reader gives the text
that is meant and what follows the closing quotes.
-/
namespace PatternAudit.Toml

/-- Whether a character may stand in a comment, and between quotes as far as quoting allows. -/
def isPrintable (c : Char) : Bool :=
  c == '\t' || (' ' ≤ c && c != '\x7f')

def shortEscape? : Char → Option Char
  | 'b' => some '\x08'
  | 't' => some '\t'
  | 'n' => some '\n'
  | 'f' => some '\x0c'
  | 'r' => some '\r'
  | '\x22' => some '\x22'
  | '\\' => some '\\'
  | _ => none

def hexCharacter? (digits : Text) : Option Char := do
  let n ← Text.numeral? 16 digits
  Text.charOfCode? n

/-- The character written after a backslash, and what follows it. -/
def escape? : Text → Option (Char × Text)
  | 'u' :: a :: b :: c :: d :: s => (hexCharacter? [a, b, c, d]).map (·, s)
  | 'U' :: a :: b :: c :: d :: e :: f :: g :: h :: s => (hexCharacter? [a, b, c, d, e, f, g, h]).map (·, s)
  | c :: s => (shortEscape? c).map (·, s)
  | [] => none

theorem escape?_length {s rest : Text} {c : Char} (h : escape? s = some (c, rest)) :
    rest.length < s.length := by
  have rest_eq {x : Option Char} {t : Text} (h : x.map (·, t) = some (c, rest)) : rest = t := by
    obtain ⟨d, _, hd⟩ := Option.map_eq_some_iff.1 h
    exact (Prod.mk.inj hd).2.symm
  unfold escape? at h
  split at h
  next => rw [rest_eq h]; simp only [List.length_cons]; omega
  next => rw [rest_eq h]; simp only [List.length_cons]; omega
  next => rw [rest_eq h]; simp only [List.length_cons]; omega
  next => contradiction

def skipBlankLines : Text → Text
  | ' ' :: s | '\t' :: s | '\n' :: s | '\r' :: '\n' :: s => skipBlankLines s
  | s => s

theorem skipBlankLines_length_le (s : Text) : (skipBlankLines s).length ≤ s.length := by
  fun_induction skipBlankLines s <;> grind

/-- What a backslash at the end of a line leaves: the text from the next visible character on. -/
def continuedLine? (s : Text) : Option Text :=
  match s.dropWhile fun c => c == ' ' || c == '\t' with
  | '\n' :: r | '\r' :: '\n' :: r => some (skipBlankLines r)
  | _ => none

theorem continuedLine?_length {s r : Text} (h : continuedLine? s = some r) : r.length < s.length := by
  have hs := (List.dropWhile_sublist (l := s) (fun c => c == ' ' || c == '\t')).length_le
  unfold continuedLine? at h
  split at h
  next r' hr =>
    cases h
    have := skipBlankLines_length_le r'
    simp only [hr, List.length_cons] at hs
    omega
  next r' hr =>
    cases h
    have := skipBlankLines_length_le r'
    simp only [hr, List.length_cons] at hs
    omega
  next => contradiction

def basicString? (s : Text) : Option (Text × Text) :=
  match s with
  | [] => none
  | '\x22' :: r => some ([], r)
  | '\\' :: r =>
    match _h : escape? r with
    | some (c, rest) => (basicString? rest).map fun (t, after) => (c :: t, after)
    | none => none
  | c :: r =>
    if isPrintable c then (basicString? r).map fun (t, after) => (c :: t, after) else none
termination_by s.length
decreasing_by
  · exact Nat.lt_succ_of_lt (escape?_length _h)
  · exact Nat.lt_succ_self _

def literalString? : Text → Option (Text × Text)
  | [] => none
  | '\x27' :: s => some ([], s)
  | c :: s => if isPrintable c then (literalString? s).map fun (t, after) => (c :: t, after) else none

/-- Several lines of a basic string; up to two quotes may stand right before the closing three. -/
def basicLines? (s : Text) : Option (Text × Text) :=
  match s with
  | [] => none
  | '\x22' :: '\x22' :: '\x22' :: '\x22' :: '\x22' :: r => some (['\x22', '\x22'], r)
  | '\x22' :: '\x22' :: '\x22' :: '\x22' :: r => some (['\x22'], r)
  | '\x22' :: '\x22' :: '\x22' :: r => some ([], r)
  | '\n' :: r | '\r' :: '\n' :: r => (basicLines? r).map fun (t, after) => ('\n' :: t, after)
  | '\\' :: r =>
    match _h : continuedLine? r with
    | some rest => basicLines? rest
    | none =>
      match _h : escape? r with
      | some (c, rest) => (basicLines? rest).map fun (t, after) => (c :: t, after)
      | none => none
  | c :: r => if isPrintable c then (basicLines? r).map fun (t, after) => (c :: t, after) else none
termination_by s.length
decreasing_by
  · exact Nat.lt_succ_self _
  · exact Nat.lt_succ_of_lt (Nat.lt_succ_self _)
  · exact Nat.lt_succ_of_lt (continuedLine?_length _h)
  · exact Nat.lt_succ_of_lt (escape?_length _h)
  · exact Nat.lt_succ_self _

/-- Several lines of a literal string; up to two quotes may stand right before the closing three. -/
def literalLines? : Text → Option (Text × Text)
  | [] => none
  | '\x27' :: '\x27' :: '\x27' :: '\x27' :: '\x27' :: s => some (['\x27', '\x27'], s)
  | '\x27' :: '\x27' :: '\x27' :: '\x27' :: s => some (['\x27'], s)
  | '\x27' :: '\x27' :: '\x27' :: s => some ([], s)
  | '\n' :: s | '\r' :: '\n' :: s => (literalLines? s).map fun (t, after) => ('\n' :: t, after)
  | c :: s => if isPrintable c then (literalLines? s).map fun (t, after) => (c :: t, after) else none

/-- A line end right after the opening quotes of several lines does not count. -/
def dropFirstLineEnd : Text → Text
  | '\n' :: s | '\r' :: '\n' :: s => s
  | s => s

def quoted? : Text → Option (Text × Text)
  | '\x22' :: '\x22' :: '\x22' :: s => basicLines? (dropFirstLineEnd s)
  | '\x27' :: '\x27' :: '\x27' :: s => literalLines? (dropFirstLineEnd s)
  | '\x22' :: s => basicString? s
  | '\x27' :: s => literalString? s
  | _ => none

end PatternAudit.Toml
