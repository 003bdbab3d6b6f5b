import PatternAudit.CommandLine.Checker
import PatternAudit.CommandLine.Fuzzer

set_option autoImplicit false

/-!
# Programs

The checker and the fuzzer in one executable: it fuzzes when the name it is started by says so, and checks
otherwise.
-/
namespace PatternAudit.Program

open CommandLine (CheckRequest CheckResponse ReadFailure)

def readFailure : IO.Error → ReadFailure
  | .noFileOrDirectory .. => .notFound
  | .inappropriateType _ 21 _ => .isDirectory
  | .inappropriateType .. => .notDirectory
  | .permissionDenied .. => .accessDenied
  | .userError _ => .notText
  | e => .other e.toString.toList

/-- What reading a file gives. -/
def readFile (path : Text) : IO (Except ReadFailure Text) := do
  try
    let content ← IO.FS.readFile (String.ofList path)
    return .ok content.toList
  catch e => return .error (readFailure e)

def emit (out err : Text) (code : Nat) : IO UInt32 := do
  IO.print (String.ofList out)
  IO.eprint (String.ofList err)
  return UInt32.ofNat code

def check (args : List Text) : IO UInt32 := do
  let response ← match CommandLine.CheckDraft.fresh.read? args with
    | none => pure (@CheckResponse.usage false)
    | some (.check path knownTypes) => do
      let content ← readFile path
      pure ((CheckRequest.check path knownTypes).respond fun _ => content)
    | some request => pure (request.respond fun _ => .error .notFound)
  emit response.stdout response.stderr response.exitCode

def fuzz (args : List Text) : IO UInt32 := do
  let seed := UInt64.ofNat (← IO.monoNanosNow)
  let response := CommandLine.fuzzer seed args
  emit response.stdout [] response.exitCode

end PatternAudit.Program

def main (args : List String) : IO UInt32 := do
  let name := toString (← IO.appPath)
  let args := args.map String.toList
  if name.endsWith "fuzzer" then PatternAudit.Program.fuzz args else PatternAudit.Program.check args
