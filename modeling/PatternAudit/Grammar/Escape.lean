import PatternAudit.Grammar.Fault
import PatternAudit.Grammar.Piece
import PatternAudit.Grammar.Token
import PatternAudit.Text.Numeral

set_option autoImplicit false

/-!
# Escape sequences

Reading what follows a backslash, outside and inside a bracketed class. Every fault of an escape stands at its
backslash, so the readers give only the reason.
-/
namespace PatternAudit.Grammar

def controlLetter? : Char → Option Char
  | 'n' => some '\n'
  | 't' => some '\t'
  | 'r' => some '\r'
  | 'f' => some '\x0c'
  | 'e' => some '\x1b'
  | 'a' => some '\x07'
  | _ => none

/-- Letters for sets of characters, which a class can hold too. -/
def setLetters : Text := ['d', 'D', 'w', 'W', 's', 'S', 'h', 'H', 'v', 'V']

/-- Letters for sets of character sequences, which a class cannot hold. -/
def sequenceLetters : Text := ['R', 'X', 'N', 'C']

def assertionLetters : Text := ['b', 'B', 'A', 'z', 'Z', 'G', 'K']

def letterEscape? (inClass : Bool) (c : Char) : Option Escape :=
  match controlLetter? c with
  | some d => some (.literal d)
  | none =>
    if inClass && c == 'b' then some (.literal '\x08')
    else if setLetters.contains c then some (.shorthand c)
    else if !inClass && sequenceLetters.contains c then some (.shorthand c)
    else if !inClass && assertionLetters.contains c then some (.assertion c)
    else none

def literalOf (n? : Option Nat) : Except Reason Escape :=
  match n?.bind Text.charOfCode? with
  | some c => .ok (.literal c)
  | none => .error .invalidEscape

def scanBracedCode (base : Nat) : Text → Except Reason (Piece Escape)
  | '{' :: s =>
    match Text.splitFirst? '}' s with
    | some (digits, rest) =>
      (literalOf (Text.signedNumeral? base digits)).map fun e => ⟨e, '{' :: digits ++ ['}'], rest⟩
    | none => .error .invalidEscape
  | _ => .error .invalidEscape

/-- At most `limit` digits from the front of a text, and what follows them. -/
def leadingDigits (base : Nat) : Nat → Text → Text × Text
  | limit + 1, c :: s =>
    if Text.isDigitOf base c then
      let (digits, rest) := leadingDigits base limit s
      (c :: digits, rest)
    else ([], c :: s)
  | _, s => ([], s)

/-- A code point as a short run of digits; no digit at all is the null character. -/
def scanShortCode (base limit : Nat) (s : Text) : Except Reason (Piece Escape) :=
  let (digits, rest) := leadingDigits base limit s
  (literalOf (Text.numeralFrom? base 0 digits)).map fun e => ⟨e, digits, rest⟩

def scanHexCode : Text → Except Reason (Piece Escape)
  | '{' :: s => scanBracedCode 16 ('{' :: s)
  | s => scanShortCode 16 2 s

/-- The control character named by an ASCII character in either case. -/
def scanControl : Text → Except Reason (Piece Escape)
  | [] => .error .danglingEscape
  | c :: s =>
    if c.toNat < 0x80 then
      (literalOf (some (c.toUpper.toNat ^^^ 0x40))).map fun e => ⟨e, [c], s⟩
    else .error .invalidEscape

/-- A property name, in braces or of one letter; a caret inside the braces negates once more. -/
def scanProperty (negated : Bool) : Text → Except Reason (Piece Escape)
  | '{' :: s =>
    match Text.splitFirst? '}' s with
    | some ('^' :: c :: name, rest) => .ok ⟨.property (!negated) (c :: name), '{' :: '^' :: c :: name ++ ['}'], rest⟩
    | some (['^'], _) | some ([], _) | none => .error .invalidEscape
    | some (c :: name, rest) => .ok ⟨.property negated (c :: name), '{' :: c :: name ++ ['}'], rest⟩
  | c :: s => if c.isAlpha then .ok ⟨.property negated [c], [c], s⟩ else .error .invalidEscape
  | [] => .error .invalidEscape

def referenceClosing? : Char → Option Char
  | '{' => some '}'
  | '<' => some '>'
  | '\x27' => some '\x27'
  | _ => none

/-- A reference as a number, after the sign it carries. -/
def scanNumber (sign s : Text) : Except Reason (Piece Escape) :=
  match s.takeWhile Char.isDigit with
  | [] => .error .invalidEscape
  | digits => .ok ⟨.backreference (sign ++ digits), sign ++ digits, s.dropWhile Char.isDigit⟩

def scanNumberReference : Text → Except Reason (Piece Escape)
  | '-' :: s => scanNumber ['-'] s
  | '+' :: s => scanNumber ['+'] s
  | s => scanNumber [] s

def scanReference : Text → Except Reason (Piece Escape)
  | [] => .error .invalidEscape
  | c :: s =>
    match referenceClosing? c with
    | none => scanNumberReference (c :: s)
    | some close =>
      match Text.splitFirst? close s with
      | some ([], _) | none => .error .invalidEscape
      | some (target, rest) => .ok ⟨.backreference target, c :: target ++ [close], rest⟩

/-- The part of an escape after its first character `c`, for the escapes that need more than that. -/
def scanEscapeTail (inClass : Bool) (c : Char) (s : Text) : Except Reason (Piece Escape) :=
  match c with
  | 'x' => scanHexCode s
  | 'o' => scanBracedCode 8 s
  | '0' => scanShortCode 8 2 s
  | 'c' => scanControl s
  | 'p' => scanProperty false s
  | 'P' => scanProperty true s
  | _ =>
    if !inClass && (c == 'g' || c == 'k') then scanReference s
    else if !inClass && c.isDigit then
      .ok ⟨.backreference (c :: s.takeWhile Char.isDigit), s.takeWhile Char.isDigit, s.dropWhile Char.isDigit⟩
    else .ok ⟨.literal c, [], s⟩

def scanEscape (inClass : Bool) : Text → Except Reason (Piece Escape)
  | [] => .error .danglingEscape
  | c :: s =>
    match letterEscape? inClass c with
    | some e => .ok ⟨e, [c], s⟩
    | none => (scanEscapeTail inClass c s).map (Piece.after [c])

theorem leadingDigits_append (base limit : Nat) (s : Text) :
    (leadingDigits base limit s).1 ++ (leadingDigits base limit s).2 = s := by
  induction s generalizing limit with
  | nil => cases limit <;> rfl
  | cons c s ih =>
    cases limit with
    | zero => rfl
    | succ limit =>
      rw [leadingDigits]
      split
      next => simp [ih]
      next => rfl

theorem scanBracedCode_splits {base : Nat} {s : Text} {p : Piece Escape}
    (h : scanBracedCode base s = .ok p) : p.Splits s := by
  unfold scanBracedCode at h
  split at h
  next s =>
    split at h
    next digits rest hs =>
      obtain ⟨e, _, rfl⟩ := exists_of_map_ok h
      simp [Piece.Splits, ← Text.splitFirst?_eq_some hs]
    next => contradiction
  next => contradiction

theorem scanShortCode_splits {base limit : Nat} {s : Text} {p : Piece Escape}
    (h : scanShortCode base limit s = .ok p) : p.Splits s := by
  unfold scanShortCode at h
  obtain ⟨e, _, rfl⟩ := exists_of_map_ok h
  exact leadingDigits_append base limit s

theorem scanHexCode_splits {s : Text} {p : Piece Escape} (h : scanHexCode s = .ok p) : p.Splits s := by
  unfold scanHexCode at h
  split at h
  next => exact scanBracedCode_splits h
  next => exact scanShortCode_splits h

theorem scanControl_splits {s : Text} {p : Piece Escape} (h : scanControl s = .ok p) : p.Splits s := by
  unfold scanControl at h
  split at h
  next => contradiction
  next c s =>
    split at h
    next =>
      obtain ⟨e, _, rfl⟩ := exists_of_map_ok h
      rfl
    next => contradiction

theorem scanProperty_splits {negated : Bool} {s : Text} {p : Piece Escape}
    (h : scanProperty negated s = .ok p) : p.Splits s := by
  unfold scanProperty at h
  split at h
  next s =>
    split at h
    next c name rest hs =>
      cases h
      simpa [Piece.Splits] using Text.splitFirst?_eq_some hs
    next => contradiction
    next => contradiction
    next => contradiction
    next c name rest _ _ hs =>
      cases h
      simpa [Piece.Splits] using Text.splitFirst?_eq_some hs
  next c s _ =>
    split at h
    next => cases h; rfl
    next => contradiction
  next => contradiction

theorem scanNumber_splits {sign s : Text} {p : Piece Escape} (h : scanNumber sign s = .ok p) :
    p.Splits (sign ++ s) := by
  unfold scanNumber at h
  split at h
  next => contradiction
  next => cases h; simp [Piece.Splits]

theorem scanNumberReference_splits {s : Text} {p : Piece Escape}
    (h : scanNumberReference s = .ok p) : p.Splits s := by
  unfold scanNumberReference at h
  split at h <;> exact scanNumber_splits h

theorem scanReference_splits {s : Text} {p : Piece Escape} (h : scanReference s = .ok p) :
    p.Splits s := by
  unfold scanReference at h
  split at h
  next => contradiction
  next c s =>
    split at h
    next => exact scanNumberReference_splits h
    next close _ =>
      split at h
      next => contradiction
      next => contradiction
      next target rest _ hs =>
        cases h
        simpa [Piece.Splits] using Text.splitFirst?_eq_some hs

theorem scanEscapeTail_splits {inClass : Bool} {c : Char} {s : Text} {p : Piece Escape}
    (h : scanEscapeTail inClass c s = .ok p) : p.Splits s := by
  unfold scanEscapeTail at h
  split at h
  next => exact scanHexCode_splits h
  next => exact scanBracedCode_splits h
  next => exact scanShortCode_splits h
  next => exact scanControl_splits h
  next => exact scanProperty_splits h
  next => exact scanProperty_splits h
  next =>
    split at h
    next => exact scanReference_splits h
    next =>
      split at h
      next => cases h; simp [Piece.Splits]
      next => cases h; rfl

theorem scanEscape_splits {inClass : Bool} {s : Text} {p : Piece Escape}
    (h : scanEscape inClass s = .ok p) : p.Splits s := by
  unfold scanEscape at h
  split at h
  next => contradiction
  next c s =>
    split at h
    next => cases h; rfl
    next =>
      obtain ⟨q, hq, rfl⟩ := exists_of_map_ok h
      exact (scanEscapeTail_splits hq).after [c]

end PatternAudit.Grammar
