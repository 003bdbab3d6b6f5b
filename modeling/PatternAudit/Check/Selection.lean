import PatternAudit.Check.Config
import PatternAudit.Lint.TypeName

set_option autoImplicit false

/-!
# Selection

Which patterns of a configuration are checked, and against which types.
-/
namespace PatternAudit.Check

open Lint (Resolver TypeTable)

/-- The resolvers to ask in turn: the configured names and further ones as classes, then the keyword types. -/
def resolvers (settings : Settings) (extraTypes : List Text) : List Resolver :=
  let known := TypeTable.ofList ((settings.knownTypes ++ extraTypes).map fun name => ⟨name, .classType⟩)
  (if known.isEmpty then [] else [.table known]) ++ (if settings.builtinTypes then [.builtin] else [])

def resolverOf (settings : Settings) (extraTypes : List Text) : Resolver :=
  .chain (resolvers settings extraTypes)

/-- The patterns to check in the order of the configuration, without those of a baseline. -/
def patternsOf (config : Config) : List Text :=
  if config.settings.enabled then (config.entries.filter fun e => !e.isBaseline).map Entry.message else []

end PatternAudit.Check
