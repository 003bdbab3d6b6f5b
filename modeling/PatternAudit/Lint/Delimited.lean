import PatternAudit.Text.Blank

set_option autoImplicit false

/-!
# Delimited patterns

A configured pattern stands between delimiters, with modifiers behind the closing one. Opening brackets are closed
by their counterparts and every other delimiter by itself; the last closing delimiter ends the pattern.
-/
namespace PatternAudit.Lint

/-- A configured pattern taken apart. The body starts at byte `bodyStart` of the configured text. -/
structure Delimited where
  delimiter : Char
  body : Text
  bodyStart : Nat
  flags : Text
deriving DecidableEq, Repr

inductive DelimiterFault where
  | empty
  | invalidDelimiter (c : Char)
  | missingEnd (closing : Char)
  | unknownModifier (c : Char)
deriving DecidableEq, Repr

def DelimiterFault.message : DelimiterFault → Text
  | .empty => "empty regular expression".toList
  | .invalidDelimiter c =>
    "delimiter '".toList ++ c :: "' must not be alphanumeric, backslash or whitespace".toList
  | .missingEnd c => "no ending delimiter '".toList ++ c :: "' found".toList
  | .unknownModifier c => "unknown modifier '".toList ++ [c, '\x27']

def modifierLetters : Text :=
  ['i', 'm', 's', 'x', 'n', 'u', 'A', 'D', 'S', 'U', 'X', 'J']

/-- The visible ASCII characters that are neither letters nor digits. -/
def isPunctuation (c : Char) : Bool :=
  '!' ≤ c && c ≤ '~' && !c.isAlphanum

def isDelimiter (c : Char) : Bool :=
  isPunctuation c && c != '\\'

def closingDelimiter : Char → Char
  | '(' => ')'
  | '[' => ']'
  | '{' => '}'
  | '<' => '>'
  | c => c

def isModifier (c : Char) : Bool :=
  modifierLetters.contains c || Text.isBlank c

/-- Takes apart a text that begins with its delimiter, at byte `start` of the configured text. -/
def splitAfterBlanks (start : Nat) : Text → Except DelimiterFault Delimited
  | [] => .error .empty
  | c :: s =>
    if isDelimiter c then
      match Text.splitLast? (closingDelimiter c) s with
      | none => .error (.missingEnd (closingDelimiter c))
      | some (body, flags) =>
        match flags.find? fun d => !isModifier d with
        | some d => .error (.unknownModifier d)
        | none => .ok ⟨c, body, start + 1, Text.trim flags⟩
    else .error (.invalidDelimiter c)

/-- Takes apart a configured text; blanks in front of it are skipped. -/
def splitDelimited (raw : Text) : Except DelimiterFault Delimited :=
  splitAfterBlanks (Text.byteLength (raw.takeWhile Text.isBlank)) (Text.trimStart raw)

end PatternAudit.Lint
