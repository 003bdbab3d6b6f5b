import PatternAudit.Check.Reader
import PatternAudit.Check.Run
import PatternAudit.CommandLine.Folder
import PatternAudit.CommandLine.Word

set_option autoImplicit false

/-!
# The checker command

From the arguments and the text of the configuration file to a run, and to its output with the log switched off. The
arguments are read from left to right; the first that is wrong, or that asks for help or the version, decides.
-/
namespace PatternAudit.CommandLine

open Check (Config)

inductive CheckRequest where
  | help
  | version
  | check (path : Text) (knownTypes : List Text)
deriving DecidableEq, Repr

/-- What the arguments read so far amount to. -/
structure CheckDraft where
  path? : Option Text
  knownTypes : List Text
deriving DecidableEq, Repr

def CheckDraft.fresh : CheckDraft :=
  ⟨none, []⟩

/-- Adds a path; there can be one, and it must not be empty. -/
def CheckDraft.addPath? (d : CheckDraft) (path : Text) : Option CheckDraft :=
  if d.path?.isSome || path.isEmpty then none else some { d with path? := some path }

def CheckDraft.addType (d : CheckDraft) (name : Text) : CheckDraft :=
  { d with knownTypes := d.knownTypes ++ [name] }

def CheckDraft.finish? (d : CheckDraft) : Option CheckRequest :=
  d.path?.map fun path => .check path d.knownTypes

/-- What the arguments ask for, given those before them; nothing if they are wrong. -/
def CheckDraft.read? (d : CheckDraft) (args : List Text) : Option CheckRequest :=
  match args with
  | [] => d.finish?
  | arg :: rest =>
    match Word.ofText arg with
    | .separator => do
      let d ← rest.foldlM CheckDraft.addPath? d
      d.finish?
    | .short letters =>
      if letters.head? = some 'h' then some .help else if letters.head? = some 'V' then some .version else none
    | .long name value? =>
      if name = "help".toList then if value?.isNone then some .help else none
      else if name = "version".toList then if value?.isNone then some .version else none
      else if name = "known-type".toList then
        match _h : optionValue? value? rest with
        | some (value, rest') => (d.addType value).read? rest'
        | none => none
      else none
    | .plain path => do
      let d ← d.addPath? path
      d.read? rest
termination_by args.length
decreasing_by
  · exact optionValue?_length _h
  · exact Nat.lt_succ_self _

inductive CheckResponse where
  /-- How the command is used, told because it was asked for or because the arguments are wrong. -/
  | usage {asked : Bool}
  | version
  | unreadable (path : Text) (failure : ReadFailure)
  /-- The file is no configuration. -/
  | unparsable (path : Text)
  | report (run : Check.Run)

/-- The response to a request, given how its path reads. -/
def CheckRequest.respond (read : Text → Except ReadFailure Text) : CheckRequest → CheckResponse
  | .help => @CheckResponse.usage true
  | .version => .version
  | .check path knownTypes =>
    match read path with
    | .error failure => .unreadable path failure
    | .ok content =>
      match Config.ofToml? content with
      | none => .unparsable path
      | some config => .report (Check.run config knownTypes)

def checkerHelp : Text :=
  ("Finds mistakes in the regex patterns of ignored errors\n\n" ++
    "Usage: rx_check [OPTIONS] <CONFIG>\n\n" ++
    "Arguments:\n" ++
    "  <CONFIG>  Configuration file listing the ignored errors\n\n" ++
    "Options:\n" ++
    "      --known-type <NAME>  Name to treat as a type, on top of the configured ones\n" ++
    "  -h, --help               Print help\n" ++
    "  -V, --version            Print version\n").toList

namespace CheckResponse

def exitCode : CheckResponse → Nat
  | @usage true | .version => 0
  | .report run => run.exitCode
  | @usage false | .unreadable .. | .unparsable _ => 2

def stdout : CheckResponse → Text
  | @usage true => checkerHelp
  | .version => "rx_check 0.1.0\n".toList
  | .report run => run.stdout
  | _ => []

def stderr : CheckResponse → Text
  | @usage true | .version => []
  | @usage false => "usage: rx_check [--known-type NAME]... CONFIG\n".toList
  | .unreadable path failure =>
    "cannot read config file ".toList ++ path ++ ": ".toList ++ failure.message ++ ['\n']
  | .unparsable path =>
    "config parse error in ".toList ++ path ++ ": not a valid configuration\n".toList
  | .report run => run.stderr Check.silent

end CheckResponse

/-- Answers a command line of the checker. -/
def checker (read : Text → Except ReadFailure Text) (args : List Text) : CheckResponse :=
  match CheckDraft.fresh.read? args with
  | none => @CheckResponse.usage false
  | some request => request.respond read

end PatternAudit.CommandLine
