import PatternAudit.Text

set_option autoImplicit false

/-!
# Reading files by path

What reading a path gives in a folder that holds some files and no folders. Of what is outside nothing is known
but that there are folders, so no file is found there.
-/
namespace PatternAudit.CommandLine

inductive ReadFailure where
  | notFound
  | notDirectory
  | isDirectory
  | nameTooLong
  | accessDenied
  /-- The bytes of the file are no text. -/
  | notText
  | other (description : Text)
deriving DecidableEq, Repr

def ReadFailure.message : ReadFailure → Text
  | .notFound => "No such file or directory (os error 2)".toList
  | .notDirectory => "Not a directory (os error 20)".toList
  | .isDirectory => "Is a directory (os error 21)".toList
  | .nameTooLong => "File name too long (os error 36)".toList
  | .accessDenied => "Permission denied (os error 13)".toList
  | .notText => "stream did not contain valid UTF-8".toList
  | .other description => description

/-- File names and contents. -/
abbrev Folder := List (Text × Text)

inductive Place where
  | file (content : Text)
  /-- The folder that paths start from. -/
  | here
  | outside
deriving DecidableEq, Repr

/-- The longest file name and the longest path, in bytes. -/
def maxNameLength : Nat := 255

def maxPathLength : Nat := 4095

/-- One step along a path. A step from a file is one too many, even if it leads nowhere. -/
def Place.step (folder : Folder) (place : Place) (name : Text) : Except ReadFailure Place :=
  match place with
  | .file _ => .error .notDirectory
  | _ =>
    if name = [] ∨ name = ['.'] then .ok place
    else if name = ['.', '.'] then .ok .outside
    else if maxNameLength < name.byteLength then .error .nameTooLong
    else
      match place, folder.find? fun f => f.1 == name with
      | .here, some f => .ok (.file f.2)
      | _, _ => .error .notFound

/-- The parts of a path between its slashes. -/
def pathParts : Text → List Text
  | [] => [[]]
  | c :: s =>
    if c = '/' then [] :: pathParts s
    else
      match pathParts s with
      | part :: parts => (c :: part) :: parts
      | [] => [[c]]

def Folder.read (folder : Folder) (path : Text) : Except ReadFailure Text := do
  if maxPathLength < path.byteLength then throw .nameTooLong
  let start := if path.head? = some '/' then Place.outside else .here
  match ← (pathParts path).foldlM (Place.step folder) start with
  | .file content => return content
  | .here | .outside => throw .isDirectory

end PatternAudit.CommandLine
