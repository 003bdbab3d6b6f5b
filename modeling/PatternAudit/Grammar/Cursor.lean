import PatternAudit.Grammar.Lexeme
import PatternAudit.Grammar.Tree

set_option autoImplicit false

/-!
# Reading by position

A cursor stands at a byte position of a pattern. Whatever it looks at is cut out of the pattern first, and a cut that
is not between two characters panics; some steps also move the cursor back. Loops run for as long as they find
something to read. A loop that has not come to its end after more rounds than the pattern has characters is taken for
one that never does.
-/
namespace PatternAudit.Grammar

/-- Why there is no result. -/
inductive Halt where
  | panic
  | fault (f : Fault)
deriving DecidableEq, Repr

/-- What ends in a result or halts, or never ends. -/
abbrev Attempt := ExceptT Halt Option

/-- A panic where there is nothing. -/
def Attempt.orPanic {α : Type} : Option α → Attempt α
  | some a => return a
  | none => throw .panic

def Attempt.ofExcept {α : Type} : Except Fault α → Attempt α
  | .ok a => return a
  | .error f => throw (.fault f)

/-- A step on a pattern and a position in it. -/
abbrev Cursor := ReaderT Text (StateT Nat Attempt)

namespace Cursor

def orPanic {α : Type} (a? : Option α) : Cursor α :=
  fun _ index => (Attempt.orPanic a?).map fun a => (a, index)

def fail {α : Type} (offset : Nat) (reason : Reason) : Cursor α :=
  throw (.fault ⟨offset, reason⟩)

/-- A step that never ends. -/
def never {α : Type} : Cursor α :=
  fun _ _ => ExceptT.mk none

/-- How many rounds a loop is given. -/
def rounds : Cursor Nat := do
  return (← read).length + 1

def advance (bytes : Nat) : Cursor Unit :=
  modify (· + bytes)

/-- The pattern from the cursor on. -/
def rest : Cursor Text := do
  let (_, after) ← orPanic ((← read).splitAt? (← get))
  return after

/-- The pattern from an earlier position up to the cursor. -/
def since (start : Nat) : Cursor Text := do
  orPanic ((← read).slice? start (← get))

def peekNth (n : Nat) : Cursor (Option Char) := do
  return (← rest)[n]?

def peek : Cursor (Option Char) :=
  peekNth 0

def bump : Cursor (Option Char) := do
  match ← peek with
  | some c =>
    advance c.utf8Size
    return some c
  | none => return none

def eat (c : Char) : Cursor Bool := do
  if (← peek) = some c then
    advance c.utf8Size
    return true
  else return false

/-- Reads up to and including a mark and gives what is before it; does not move if the mark never comes. -/
def takeUntil? (mark : Char) : Cursor (Option Text) := do
  let rest ← rest
  match Text.offsetOf? mark rest with
  | some stop =>
    advance (stop + mark.utf8Size)
    return some (← orPanic (rest.slice? 0 stop))
  | none => return none

def skipWhileWithin (p : Char → Bool) : Nat → Cursor Unit
  | 0 => never
  | rounds + 1 => do
    match ← peek with
    | some c =>
      if p c then
        let _ ← bump
        skipWhileWithin p rounds
      else return
    | none => return

def skipWhile (p : Char → Bool) : Cursor Unit := do
  skipWhileWithin p (← rounds)

def quantifier (bounds : Bounds) : Cursor TokenKind := do
  if ← eat '?' then return .quantifier ⟨bounds, .lazy⟩
  else if ← eat '+' then return .quantifier ⟨bounds, .possessive⟩
  else return .quantifier ⟨bounds, .greedy⟩

/-- The counts on both sides of the first comma. -/
def countTexts (inner : Text) : Cursor (Text × Option Text) := do
  match Text.offsetOf? ',' inner with
  | some comma =>
    let lo ← orPanic (inner.slice? 0 comma)
    let hi ← orPanic (inner.slice? (comma + 1) inner.byteLength)
    return (lo, some hi)
  | none => return (inner, none)

/-- Bounds behind a brace at `start`, from after the brace; does not move where there are none. -/
def bounds? (start : Nat) : Cursor (Option Bounds) := do
  let rest ← rest
  if (rest.dropWhile isBoundMark).head? = some '}' then
    let close := Text.byteLength (rest.takeWhile isBoundMark)
    let (lo, hi?) ← countTexts (← orPanic (rest.slice? 0 close))
    if isDigits lo && hi?.all fun hi => hi.isEmpty || isDigits hi then
      match boundsOf lo hi? with
      | .ok bounds =>
        advance (close + 1)
        return some bounds
      | .error reason => fail start reason
    else return none
  else return none

/-! Escapes. Their faults stand at the backslash, which is at `start`. -/

def literal (start : Nat) (n? : Option Nat) : Cursor Escape :=
  match n?.bind Text.charOfCode? with
  | some c => return .literal c
  | none => fail start .invalidEscape

def bracedCode (start base : Nat) : Cursor Escape := do
  if ← eat '{' then
    match ← takeUntil? '}' with
    | some digits =>
      if digits.isEmpty then fail start .invalidEscape else literal start (Text.word? base digits)
    | none => fail start .invalidEscape
  else fail start .invalidEscape

/-- Reads hexadecimal digits up to two bytes behind `begin`. -/
def skipHexDigitsWithin (begin : Nat) : Nat → Cursor Unit
  | 0 => never
  | rounds + 1 => do
    if (← get) - begin < 2 then
      match ← peek with
      | some c =>
        if Text.isDigitOf 16 c then
          let _ ← bump
          skipHexDigitsWithin begin rounds
        else return
      | none => return
    else return

def hexCode (start : Nat) : Cursor Escape := do
  if (← peek) = some '{' then bracedCode start 16
  else
    let begin ← get
    skipHexDigitsWithin begin (← rounds)
    let digits ← since begin
    if digits.isEmpty then return .literal '\x00' else literal start (Text.word? 16 digits)

/-- The number that continues `value` by at most so many octal digits. -/
def octalDigits : Nat → Nat → Cursor Nat
  | 0, value => return value
  | limit + 1, value => do
    match (← peek).bind (Text.digitValue? 8) with
    | some d =>
      let _ ← bump
      octalDigits limit (value * 8 + d)
    | none => return value

def octalCode : Cursor Escape := do
  let value ← octalDigits 2 0
  return .literal ((Text.charOfCode? value).getD '\x00')

def control (start : Nat) : Cursor Escape := do
  match ← bump with
  | some c =>
    if c.toNat < 0x80 then return .literal (Char.ofNat (c.toUpper.toNat ^^^ 0x40))
    else fail start .invalidEscape
  | none => fail start .danglingEscape

/-- A property name in braces or of one letter; a caret inside the braces negates once more. -/
def property (start : Nat) (complement : Bool) : Cursor Escape := do
  if ← eat '{' then
    match ← takeUntil? '}' with
    | some body =>
      let negated := body.head? == some '^'
      let name := if negated then body.tail else body
      if name.isEmpty then fail start .invalidEscape else return .property (negated != complement) name
    | none => fail start .invalidEscape
  else
    match ← bump with
    | some c => if c.isAlpha then return .property complement [c] else fail start .invalidEscape
    | none => fail start .invalidEscape

def eatSign : Cursor Unit := do
  match ← peek with
  | some '-' | some '+' =>
    let _ ← bump
    return
  | _ => return

def reference (start : Nat) : Cursor Escape := do
  match (← peek).bind referenceClosing? with
  | some close =>
    let _ ← bump
    match ← takeUntil? close with
    | some name => if name.isEmpty then fail start .invalidEscape else return .backreference name
    | none => fail start .invalidEscape
  | none =>
    let begin ← get
    eatSign
    let digits ← get
    skipWhile Char.isDigit
    if (← get) = digits then fail start .invalidEscape else return .backreference (← since begin)

/-- An escape from after its backslash. -/
def escape (start : Nat) (inClass : Bool) : Cursor Escape := do
  match ← bump with
  | none => fail start .danglingEscape
  | some c =>
    match letterEscape? inClass c with
    | some e => return e
    | none =>
      match c with
      | 'x' => hexCode start
      | 'o' => bracedCode start 8
      | '0' => octalCode
      | 'c' => control start
      | 'p' => property start false
      | 'P' => property start true
      | _ =>
        if !inClass && (c == 'g' || c == 'k') then reference start
        else if !inClass && c.isDigit then
          let begin := (← get) - 1
          skipWhile Char.isDigit
          return .backreference (← since begin)
        else return .literal c

/-! Classes. -/

/-- A named set, from its colon on; does not move where there is none. -/
def posix? : Cursor (Option ClassItem) := do
  let (_, rest) ← orPanic ((← rest).splitAt? 1)
  let negated := rest.head? == some '^'
  let body := if negated then rest.tail else rest
  let length := Text.byteLength (body.takeWhile Char.isAlpha)
  let (name, after) ← orPanic (Text.splitAt? body length)
  if length = 0 || !(List.isPrefixOf [':', ']'] after) then return none
  else
    advance (1 + (if negated then 1 else 0) + length + 2)
    return some (.posix negated name)

/-- Whether a dash with something other than a closing bracket behind it comes next. -/
def startsRange : Cursor Bool := do
  return (← peek) == some '-' && (← peekNth 1).any (· != ']')

/-- The character at the upper end of a range; nothing if what stands there is not a single one. -/
def rangeEnd? (start : Nat) : Cursor (Option Char) := do
  match ← bump with
  | some '\\' => return (← escape start true).asChar
  | hi? => return hi?

/-- A range from after its lower end, which is at `start`. What turns out to be no range leaves the dash unread. -/
def range (start : Nat) (lo : Char) : Cursor ClassItem := do
  let dash ← get
  let _ ← bump
  let highStart ← get
  match ← rangeEnd? highStart with
  | some hi => if hi < lo then fail start .rangeOutOfOrder else return .range lo hi
  | none =>
    set dash
    return .literal lo

/-- A member that begins with `c` at `start`, before it is known whether it begins a range. -/
def simpleMember (start : Nat) (c : Char) : Cursor ClassItem :=
  match c with
  | '[' => do
    if (← peek) = some ':' then return (← posix?).getD (.literal '[') else return .literal '['
  | '\\' => do
    match ← escape start true with
    | .literal d => return .literal d
    | e => return .set e
  | c => return .literal c

/-- Extends a single character to the range that it begins, if it begins one. -/
def extend (start : Nat) (item : ClassItem) : Cursor ClassItem := do
  match item with
  | .literal lo => if ← startsRange then range start lo else return item
  | _ => return item

def member (start : Nat) (c : Char) : Cursor ClassItem := do
  extend start (← simpleMember start c)

def membersWithin (start : Nat) : Nat → Cursor (List ClassItem)
  | 0 => never
  | rounds + 1 => do
    let memberStart ← get
    match ← bump with
    | none => fail start .unterminatedClass
    | some c =>
      if c = ']' then return []
      else
        let item ← member memberStart c
        return item :: (← membersWithin start rounds)

/-- The members of a class whose opening bracket is at `start`. -/
def members (start : Nat) : Cursor (List ClassItem) := do
  membersWithin start (← rounds)

def charClass (start : Nat) : Cursor CharClass := do
  let negated ← eat '^'
  let leading ← eat ']'
  let items ← members start
  return ⟨negated, (if leading then [.literal ']'] else []) ++ items⟩

/-! Groups. Their faults stand at the opening parenthesis, which is at `start`. -/

def groupName (start : Nat) (close : Char) : Cursor (Option TokenKind) := do
  match ← takeUntil? close with
  | some name => if isGroupName name then return some (.groupOpen (.named name)) else fail start .invalidGroupName
  | none => fail start .invalidGroupName

def options : Cursor (Option TokenKind) := do
  let begin ← get
  skipWhile isOptionLetter
  let flags ← since begin
  if ← eat ')' then return some (.atom (.options flags))
  else if ← eat ':' then return some (.groupOpen (.scoped flags))
  else
    set begin
    return some (.groupOpen .directive)

/-- A comment is no token. -/
def comment (start : Nat) : Cursor (Option TokenKind) := do
  match ← takeUntil? ')' with
  | some _ => return none
  | none => fail start .unterminatedGroup

/-- An opening of which so many bytes are left to read. -/
def marked (bytes : Nat) (kind : GroupKind) : Cursor (Option TokenKind) := do
  advance bytes
  return some (.groupOpen kind)

def named (start bytes : Nat) (close : Char) : Cursor (Option TokenKind) := do
  advance bytes
  groupName start close

/-- What a parenthesis and a question mark open; nothing for a comment. -/
def markedOpening (start : Nat) : Cursor (Option TokenKind) := do
  match ← peek with
  | none => fail start .unterminatedGroup
  | some '#' => comment start
  | some ':' => marked 1 .nonCapturing
  | some '|' => marked 1 .branchReset
  | some '>' => marked 1 .atomic
  | some '=' => marked 1 (.lookahead false)
  | some '!' => marked 1 (.lookahead true)
  | some '<' =>
    match ← peekNth 1 with
    | some '=' => marked 2 (.lookbehind false)
    | some '!' => marked 2 (.lookbehind true)
    | _ => named start 1 '>'
  | some '\x27' => named start 1 '\x27'
  | some c =>
    if c = 'P' && (← peekNth 1) == some '<' then named start 2 '>'
    else if isOptionLetter c then options
    else return some (.groupOpen .directive)

def opening (start : Nat) : Cursor (Option TokenKind) := do
  if ← eat '*' then return some (.groupOpen .directive)
  else if ← eat '?' then markedOpening start
  else return some (.groupOpen .capturing)

/-! Lexemes. -/

def quoted (c : Char) : Cursor Lexeme := do
  if ← (if c = '\\' then eat 'E' else return false) then return ⟨none, false⟩
  else return ⟨some (.atom (.escape (.literal c))), true⟩

def backslash (start : Nat) : Cursor Lexeme := do
  if ← eat 'Q' then return ⟨none, true⟩
  else if ← eat 'E' then return ⟨none, false⟩
  else return .plain (.atom (.escape (← escape start false)))

def brace (start : Nat) : Cursor Lexeme := do
  match ← bounds? start with
  | some bounds => return .plain (← quantifier bounds)
  | none => return .plain (.atom (.char '{'))

/-- A lexeme that begins with `c` at `start`. -/
def unquoted (start : Nat) (c : Char) : Cursor Lexeme :=
  match c with
  | '\\' => backslash start
  | '[' => return .plain (.atom (.charClass (← charClass start)))
  | '(' => return ⟨← opening start, false⟩
  | ')' => return .plain .groupClose
  | '|' => return .plain .bar
  | '^' => return .plain (.atom (.anchor .start))
  | '$' => return .plain (.atom (.anchor .finish))
  | '.' => return .plain (.atom .any)
  | '*' => return .plain (← quantifier (.atLeast 0))
  | '+' => return .plain (← quantifier (.atLeast 1))
  | '?' => return .plain (← quantifier (.between 0 1))
  | '{' => brace start
  | c => return .plain (.atom (.char c))

def lexeme (quoting : Bool) : Cursor Lexeme := do
  let start ← get
  match ← bump with
  | none => return ⟨none, quoting⟩
  | some c => if quoting then quoted c else unquoted start c

def tokensWithin (quoting : Bool) : Nat → Cursor (List Token)
  | 0 => never
  | rounds + 1 => do
    let start ← get
    if start < (← read).byteLength then
      let lexeme ← lexeme quoting
      let stop ← get
      let more ← tokensWithin lexeme.quoting rounds
      match lexeme.token? with
      | some kind => return ⟨⟨start, stop⟩, kind⟩ :: more
      | none => return more
    else return []

/-- The tokens from the cursor to the end of the pattern. -/
def tokens : Cursor (List Token) := do
  tokensWithin false (← rounds)

end Cursor

namespace Attempt

/-- Reads the tokens of a pattern with a cursor. -/
def tokenize (pattern : Text) : Attempt (List Token) :=
  (Cursor.tokens pattern 0).map Prod.fst

def parse (pattern : Text) : Attempt Node := do
  let tokens ← tokenize pattern
  ofExcept (buildTree tokens pattern.byteLength)

end Attempt

end PatternAudit.Grammar
