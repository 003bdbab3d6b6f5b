import PatternAudit.Check.Report

set_option autoImplicit false

/-!
# Log records

What is logged while patterns are checked, in the order in which it is. Where a step fails, what would be logged behind
it is missing. Which records are written, and how, is up to whoever subscribes to the log.
-/
namespace PatternAudit.Check

open Grammar (Node parse tokenize)
open Lint (ConfiguredFault IgnoredType TypeLookup UniversalMatch)

inductive Level where
  | trace
  | debug
  | info
deriving DecidableEq, Repr

inductive Record where
  | tokenized (pattern : Text) (count : Nat)
  | parsed (root : Node)
  | namesType (found : IgnoredType)
  | matchesAll (found : UniversalMatch)
  | validated (pattern : Text) (findings : Nat)
  | stripped (delimiter : Char) (flags : Text)
  | notValidated (pattern : Text) (fault : ConfiguredFault)
  | checked (patterns problems : Nat)

namespace Record

def level : Record → Level
  | .tokenized .. | .parsed _ => .trace
  | .namesType _ | .matchesAll _ | .validated .. | .stripped .. | .notValidated .. => .debug
  | .checked .. => .info

/-- Where a record comes from. -/
def target : Record → Text
  | .tokenized .. => "rx_regex_parse::lexer".toList
  | .parsed _ => "rx_regex_parse::parser".toList
  | .namesType _ => "rx_lint::ignored_types".toList
  | .matchesAll _ => "rx_lint::universal".toList
  | .validated .. | .stripped .. => "rx_lint::validator".toList
  | .notValidated .. | .checked .. => "rx_check::check".toList

end Record

def tokenizeLog (pattern : Text) : List Record :=
  match tokenize pattern with
  | .ok tokens => [.tokenized pattern tokens.length]
  | .error _ => []

def parseLog (pattern : Text) : List Record :=
  tokenizeLog pattern ++
    match parse pattern with
    | .ok root => [.parsed root]
    | .error _ => []

def validateLog (resolve : TypeLookup) (pattern : Text) : List Record :=
  parseLog pattern ++
    match parse pattern with
    | .ok root =>
      let findings := Lint.analyze resolve pattern root
      findings.ignored.map .namesType ++ findings.universal?.toList.map .matchesAll ++
        [.validated pattern findings.toList.length]
    | .error _ => []

def validateDelimitedLog (resolve : TypeLookup) (raw : Text) : List Record :=
  match Lint.splitDelimited raw with
  | .ok d => .stripped d.delimiter d.flags :: validateLog resolve d.body
  | .error _ => []

def patternLog (resolve : TypeLookup) (pattern : Text) : List Record :=
  validateDelimitedLog resolve pattern ++
    match Lint.validateDelimited resolve pattern with
    | .ok _ => []
    | .error f => [.notValidated pattern f]

/-- What is logged while several patterns are checked, the outcome last. -/
def checkLog (resolve : TypeLookup) (patterns : List Text) : List Record :=
  patterns.flatMap (patternLog resolve) ++ [.checked patterns.length (allMessages resolve patterns).length]

/-- A log that is switched off. -/
def silent (_ : List Record) : Text :=
  []

end PatternAudit.Check
