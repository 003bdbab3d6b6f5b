import PatternAudit.Toml.Moment
import PatternAudit.Toml.Number
import PatternAudit.Toml.Quoted

set_option autoImplicit false

/-!
# TOML documents

Reading a whole document into its table of entries. The reader says only whether a text is a document; the rounds
that its loops are given are never short, because each round takes at least one character.
-/
namespace PatternAudit.Toml

/-- How deep arrays and inline tables may nest, and how many parts a dotted key may have. -/
def maxDepth : Nat := 79

def isSpace (c : Char) : Bool :=
  c == ' ' || c == '\t'

def skipSpaces (s : Text) : Text :=
  s.dropWhile isSpace

/-- Spaces, line ends and comments, as far as they go. -/
def skipFiller (inComment : Bool) : Text → Text
  | '\n' :: s | '\r' :: '\n' :: s => skipFiller false s
  | c :: s =>
    if inComment then if isPrintable c then skipFiller true s else c :: s
    else if c = '#' then skipFiller true s
    else if isSpace c then skipFiller false s
    else c :: s
  | [] => []

/-- What follows the end of a line, which a comment may come before. -/
def endOfLine? (s : Text) : Option Text :=
  let visible := skipSpaces s
  let r := if visible.head? = some '#' then (visible.drop 1).dropWhile isPrintable else visible
  match r with
  | [] => some []
  | '\n' :: r | '\r' :: '\n' :: r => some r
  | _ => none

def isKeyChar (c : Char) : Bool :=
  c.isAlphanum || c == '_' || c == '-'

def keyPart? (s : Text) : Option (Text × Text) :=
  match s with
  | '\x22' :: r => basicString? r
  | '\x27' :: r => literalString? r
  | _ =>
    match s.takeWhile isKeyChar with
    | [] => none
    | key => some (key, s.dropWhile isKeyChar)

/-- A key of at most `parts` parts, with spaces around each: the path before the last part, the last part, and
what follows. -/
def key? : Nat → Text → Option (List Text × Text × Text)
  | 0, _ => none
  | parts + 1, s => do
    let (part, r) ← keyPart? (skipSpaces s)
    match skipSpaces r with
    | '.' :: r => do
      let (path, last, rest) ← key? parts r
      return (part :: path, last, rest)
    | rest => return ([], part, rest)

def elements? (value? : Text → Option (Value × Text)) : Nat → Text → Option (List Value × Text)
  | 0, _ => none
  | rounds + 1, s =>
    match skipFiller false s with
    | ']' :: rest => some ([], rest)
    | r => do
      let (v, r) ← value? r
      match skipFiller false r with
      | ',' :: r => do
        let (vs, rest) ← elements? value? rounds r
        return (v :: vs, rest)
      | ']' :: rest => return ([v], rest)
      | _ => none

def pair? (value? : Text → Option (Value × Text)) (s : Text) :
    Option ((List Text × Text × Value) × Text) := do
  let (path, key, r) ← key? maxDepth s
  let r ← expect? '=' r
  let (v, r) ← value? (skipSpaces r)
  return ((path, key, v), skipSpaces r)

/-- The pairs of an inline table from the first one on, added to the entries before them. -/
def pairs? (value? : Text → Option (Value × Text)) : Nat → Entries → Text → Option (Entries × Text)
  | 0, _, _ => none
  | rounds + 1, es, s => do
    let ((path, key, v), r) ← pair? value? s
    let es ← es.insertDotted? path key v
    match r with
    | ',' :: r => pairs? value? rounds es r
    | '}' :: rest => return (es, rest)
    | _ => none

def inlineTable? (value? : Text → Option (Value × Text)) (s : Text) : Option (Entries × Text) :=
  match skipSpaces s with
  | '}' :: rest => some ([], rest)
  | r => pairs? value? (r.length + 1) [] r

/-- A value in which at most `depth` arrays and inline tables nest. -/
def value? : Nat → Text → Option (Value × Text)
  | depth, s =>
    match s, depth with
    | '[' :: r, depth + 1 => (elements? (value? depth) (r.length + 1) r).map fun (vs, rest) => (.array vs, rest)
    | '{' :: r, depth + 1 => (inlineTable? (value? depth) r).map fun (es, rest) => (.table .inline es, rest)
    | '[' :: _, 0 | '{' :: _, 0 => none
    | 't' :: 'r' :: 'u' :: 'e' :: rest, _ => some (.boolean true, rest)
    | 'f' :: 'a' :: 'l' :: 's' :: 'e' :: rest, _ => some (.boolean false, rest)
    | s, _ =>
      if s.head? = some '\x22' || s.head? = some '\x27' then (quoted? s).map fun (t, rest) => (.string t, rest)
      else if beginsDate s || beginsTime s then moment? s
      else number? s

/-- The key of a header up to its closing brackets and the end of its line. -/
def header? (closing : Text) (s : Text) : Option (List Text × Text × Text) := do
  let (path, key, r) ← key? maxDepth s
  let r ← if closing.isPrefixOf r then some (r.drop closing.length) else none
  let rest ← endOfLine? r
  return (path, key, rest)

/-- Reads the lines of a document into the entries before them; `current` is the path of the latest header. -/
def lines? : Nat → List Text → Entries → Text → Option Entries
  | 0, _, _, _ => none
  | rounds + 1, current, es, s =>
    match skipSpaces s with
    | [] => some es
    | '\n' :: r | '\r' :: '\n' :: r => lines? rounds current es r
    | '#' :: r => do
      let rest ← endOfLine? ('#' :: r)
      lines? rounds current es rest
    | '[' :: '[' :: r => do
      let (path, key, rest) ← header? [']', ']'] r
      let es ← es.openElement? path key
      lines? rounds (path ++ [key]) es rest
    | '[' :: r => do
      let (path, key, rest) ← header? [']'] r
      let es ← es.openTable? path key
      lines? rounds (path ++ [key]) es rest
    | r => do
      let ((path, key, v), r) ← pair? (value? maxDepth) r
      let rest ← endOfLine? r
      let es ← es.underHeader? current fun below => below.insertDotted? path key v
      lines? rounds current es rest

/-- The entries of a document. A byte order mark in front is skipped. -/
def document? (s : Text) : Option Entries :=
  let body := match s with
    | '\ufeff' :: r => r
    | r => r
  lines? (body.length + 1) [] [] body

end PatternAudit.Toml
