import PatternAudit.Text

set_option autoImplicit false

/-!
# Type names

Deciding whether a name is a type of the analysed program, and of what kind. Any function may answer that; one that
does not know a name says nothing about it. Resolvers are the ways to put such functions together.
-/
namespace PatternAudit.Lint

inductive TypeKind where
  | builtin
  | classType
  | interface
  | enum
  | trait
  | alias
deriving DecidableEq, Repr

structure TypeDescription where
  name : Text
  kind : TypeKind
deriving DecidableEq, Repr

def TypeDescription.display (t : TypeDescription) : Text :=
  match t.kind with
  | .builtin => t.name
  | .classType => "class ".toList ++ t.name
  | .interface => "interface ".toList ++ t.name
  | .enum => "enum ".toList ++ t.name
  | .trait => "trait ".toList ++ t.name
  | .alias => "type alias ".toList ++ t.name

/-- What is known of each name. -/
abbrev TypeLookup := Text → Option TypeDescription

/-- A table of types, each name at most once. -/
structure TypeTable where
  entries : List TypeDescription
deriving DecidableEq, Repr

namespace TypeTable

def empty : TypeTable := ⟨[]⟩

def lookup? (t : TypeTable) (name : Text) : Option TypeDescription :=
  t.entries.find? fun d => d.name == name

/-- Puts a type in the place of the entry of its name, or at the end if the name is new. -/
def insertInto (d : TypeDescription) : List TypeDescription → List TypeDescription
  | [] => [d]
  | e :: es => if e.name = d.name then d :: es else e :: insertInto d es

def insert (t : TypeTable) (d : TypeDescription) : TypeTable :=
  ⟨insertInto d t.entries⟩

/-- The latest type of a name is the one that is found. -/
theorem lookup?_insert (t : TypeTable) (d : TypeDescription) (name : Text) :
    (t.insert d).lookup? name = if d.name = name then some d else t.lookup? name := by
  obtain ⟨entries⟩ := t
  simp only [lookup?, insert]
  induction entries with
  | nil => by_cases hd : d.name = name <;> simp [insertInto, hd]
  | cons e es ih =>
    rw [insertInto]
    split
    next he => by_cases hd : d.name = name <;> simp [he, hd]
    next he =>
      by_cases hn : e.name = name
      · have hd : d.name ≠ name := fun h => he (hn.trans h.symm)
        simp [hn, hd]
      · simp [hn, ih]

def ofList (ds : List TypeDescription) : TypeTable :=
  ds.foldl insert empty

def size (t : TypeTable) : Nat :=
  t.entries.length

def isEmpty (t : TypeTable) : Bool :=
  t.entries.isEmpty

end TypeTable

def builtinNames : List Text :=
  ["array", "array-key", "bool", "boolean", "callable", "callable-string", "class-string", "double", "false",
    "float", "int", "integer", "iterable", "list", "mixed", "negative-int", "never", "non-empty-array",
    "non-empty-list", "non-empty-string", "null", "numeric", "numeric-string", "object", "positive-int",
    "resource", "scalar", "self", "static", "string", "true", "void"].map String.toList

namespace TypeLookup

/-- Knows no type at all. -/
def none : TypeLookup :=
  fun _ => Option.none

def builtin : TypeLookup :=
  fun name => if builtinNames.contains name then some ⟨name, .builtin⟩ else Option.none

/-- Asks each in turn; the first answer counts. -/
def chain (members : List TypeLookup) : TypeLookup :=
  fun name => members.findSome? fun resolve => resolve name

end TypeLookup

inductive Resolver where
  | none
  | builtin
  | table (types : TypeTable)
  /-- Asks each resolver in turn; the first answer counts. -/
  | chain (members : List Resolver)
  /-- A resolver with several owners, answering as the one it holds. -/
  | shared (held : Resolver)
deriving Repr

namespace Resolver

mutual

def resolve (name : Text) : Resolver → Option TypeDescription
  | .none => TypeLookup.none name
  | .builtin => TypeLookup.builtin name
  | .table types => types.lookup? name
  | .chain members => resolveFirst name members
  | .shared held => resolve name held

def resolveFirst (name : Text) : List Resolver → Option TypeDescription
  | [] => Option.none
  | r :: rs => (resolve name r).or (resolveFirst name rs)

end

instance : Coe Resolver TypeLookup := ⟨fun r name => r.resolve name⟩

end Resolver

end PatternAudit.Lint
