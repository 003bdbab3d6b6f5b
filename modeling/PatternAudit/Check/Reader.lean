import PatternAudit.Check.Config
import PatternAudit.Toml.Document

set_option autoImplicit false

/-!
# Reading a configuration

A configuration as it is written in TOML. Keys without a meaning are ignored. A structure can also be written as an
array of its fields in a fixed order, the last of them left out.
-/
namespace PatternAudit.Check

open Toml (Entries Value)

/-- The largest count an entry may have. -/
def maxCount : Int := 0xFFFFFFFF

def textOf? : Value → Option Text
  | .string s => some s
  | _ => none

def boolOf? : Value → Option Bool
  | .boolean b => some b
  | _ => none

def countOf? : Value → Option Nat
  | .integer n => if 0 ≤ n ∧ n ≤ maxCount then some n.toNat else none
  | _ => none

def textsOf? (v : Value) : Option (List Text) := do
  let vs ← v.elements?
  vs.mapM textOf?

/-- A value that may be missing but must not be of the wrong kind. -/
def optional? {α : Type} (read? : Value → Option α) : Option Value → Option (Option α)
  | none => some none
  | some v => (read? v).map some

/-- A value that stands for `fallback` when it is missing. -/
def orElse? {α : Type} (read? : Value → Option α) (fallback : α) : Option Value → Option α
  | none => some fallback
  | some v => read? v

/-- An entry from the values of its fields. -/
def detailedOf? (message path paths count reportUnmatched : Option Value) : Option DetailedEntry := do
  let message ← message >>= textOf?
  let path? ← optional? textOf? path
  let paths ← orElse? textsOf? [] paths
  let count? ← optional? countOf? count
  let reportUnmatched? ← optional? boolOf? reportUnmatched
  return { message, path?, paths, count?, reportUnmatched? }

def field? (es : Entries) (name : String) : Option Value :=
  es.lookup? name.toList

def entryOf? : Value → Option Entry
  | .string s => some (.pattern s)
  | .table _ es =>
    (detailedOf? (field? es "message") (field? es "path") (field? es "paths") (field? es "count")
      (field? es "reportUnmatched")).map .detailed
  | .array vs =>
    if vs.length ≤ 5 then (detailedOf? vs[0]? vs[1]? vs[2]? vs[3]? vs[4]?).map .detailed else none
  | _ => none

/-- Settings from the values of their fields. -/
def settingsFrom? (enabled builtinTypes knownTypes : Option Value) : Option Settings := do
  let enabled ← orElse? boolOf? Settings.default.enabled enabled
  let builtinTypes ← orElse? boolOf? Settings.default.builtinTypes builtinTypes
  let knownTypes ← orElse? textsOf? Settings.default.knownTypes knownTypes
  return { enabled, builtinTypes, knownTypes }

/-- The settings a value describes. A moment has no field in common with them and leaves all as it is. -/
def settingsOf? : Value → Option Settings
  | .table _ es =>
    settingsFrom? (field? es "enabled") (field? es "builtin_types") (field? es "known_types")
  | .array vs | .tableArray vs => settingsFrom? vs[0]? vs[1]? vs[2]?
  | .moment _ => some .default
  | _ => none

def entriesOf? (v : Value) : Option (List Entry) := do
  let vs ← v.elements?
  vs.mapM entryOf?

def Config.ofEntries? (es : Entries) : Option Config := do
  let entries ← orElse? entriesOf? [] (field? es "ignore_errors")
  let settings ← orElse? settingsOf? .default (field? es "validation")
  return { entries, settings }

/-- Reads a configuration from TOML. -/
def Config.ofToml? (content : Text) : Option Config := do
  let es ← Toml.document? content
  Config.ofEntries? es

end PatternAudit.Check
