import PatternAudit.Text

set_option autoImplicit false

/-!
# TOML values

The values of a document and the tables it is made of. A table remembers how it came to be, because that decides
whether later lines may add to it.
-/
namespace PatternAudit.Toml

inductive Origin where
  /-- Named by a header of its own, or an element of an array of tables. -/
  | header
  /-- Only passed through by a longer header. -/
  | implied
  /-- Passed through by a dotted key. -/
  | dotted
  | inline
deriving DecidableEq, Repr

inductive Value where
  | string (s : Text)
  | integer (n : Int)
  | float (spelling : Text)
  | boolean (b : Bool)
  /-- A date, a time of day, or both. -/
  | moment (spelling : Text)
  | array (elements : List Value)
  /-- An array of tables, one for each of its headers. -/
  | tableArray (elements : List Value)
  | table (origin : Origin) (entries : List (Text × Value))
deriving Repr

/-- The entries of a table in the order they were written. -/
abbrev Entries := List (Text × Value)

def Value.elements? : Value → Option (List Value)
  | .array vs | .tableArray vs => some vs
  | _ => none

namespace Entries

def lookup? (es : Entries) (key : Text) : Option Value :=
  (es.find? fun e => e.1 == key).map Prod.snd

/-- Replaces the value of a key, or adds the key at the end; `f` may refuse. -/
def alter? (key : Text) (f : Option Value → Option Value) : Entries → Option Entries
  | [] => (f none).map fun v => [(key, v)]
  | (k, v) :: es =>
    if k = key then (f (some v)).map fun w => (k, w) :: es
    else (alter? key f es).map ((k, v) :: ·)

def insertNew? (key : Text) (v : Value) (es : Entries) : Option Entries :=
  es.alter? key fun
    | none => some v
    | some _ => none

/-- Changes the table at the end of a path, in the latest element of each array of tables on the way. Tables that
are missing are made with the origin `made`; only tables with an origin in `passable` are entered. -/
def within? (made : Origin) (passable : List Origin) (f : Origin → Entries → Option Entries) :
    List Text → Origin → Entries → Option Entries
  | [], origin, es => f origin es
  | key :: path, _, es =>
    es.alter? key fun
      | none => (within? made passable f path made []).map (.table made)
      | some (.table origin below) =>
        if passable.contains origin then (within? made passable f path origin below).map (.table origin)
        else none
      | some (.tableArray elements) =>
        match elements.getLast? with
        | some (.table origin below) =>
          (within? made passable f path origin below).map fun below' =>
            .tableArray (elements.dropLast ++ [.table origin below'])
        | _ => none
      | some _ => none

def underHeader? (path : List Text) (f : Entries → Option Entries) (es : Entries) : Option Entries :=
  within? .implied [.header, .implied, .dotted] (fun _ => f) path .header es

/-- Opens the table of a header. A table that was only passed through so far can still be opened. -/
def openTable? (path : List Text) (key : Text) (es : Entries) : Option Entries :=
  es.underHeader? path fun below => below.alter? key fun
    | none => some (.table .header [])
    | some (.table .implied entries) => some (.table .header entries)
    | some _ => none

/-- Starts the next element of an array of tables. -/
def openElement? (path : List Text) (key : Text) (es : Entries) : Option Entries :=
  es.underHeader? path fun below => below.alter? key fun
    | none => some (.tableArray [.table .header []])
    | some (.tableArray elements) => some (.tableArray (elements ++ [.table .header []]))
    | some _ => none

/-- Adds a value under a dotted key. The tables a dotted key passes through must be its own. -/
def insertDotted? (path : List Text) (key : Text) (v : Value) (es : Entries) : Option Entries :=
  within? .dotted [.implied, .dotted]
    (fun origin below => if path.isEmpty || origin == .dotted then below.insertNew? key v else none)
    path .header es

end Entries

end PatternAudit.Toml
