import PatternAudit.Check.Selection
import PatternAudit.Proofs.TextUnion

set_option autoImplicit false

/-!
# Type universes

What is known of types only decides which of the names that a pattern offers count as types, and as what. The
names themselves, the faults and the other two checks do not depend on it, and where more is known more is
reported. `Check.validate_under_resolvers` says so for chains that grow and for the resolvers of a configuration.
-/
namespace PatternAudit.Lint

open Grammar (parse)

/-! Names that a pattern offers. -/

/-- The literals of a pattern that stand where types might, in order, each once. -/
def offeredNames (pattern : Text) : List Text :=
  match parse pattern with
  | .ok root => ((topBranches root).filterMap Branch.literal?).eraseDups
  | .error _ => []

/-- The ignored types that validating a pattern reports. -/
def reportedTypes (resolve : TypeLookup) (pattern : Text) : List IgnoredType :=
  match validate resolve pattern with
  | .ok findings => findings.ignored
  | .error _ => []

/-- What is found in a pattern besides types. -/
def Findings.untyped (f : Findings) : Option Nat × Option UniversalMatch :=
  (f.anchor?, f.universal?)

theorem eraseDups_filter (p : Text → Bool) (names : List Text) :
    (names.filter p).eraseDups = names.eraseDups.filter p := by
  match names with
  | [] => rfl
  | name :: names =>
    have hlater := eraseDups_filter p (names.filter fun n => !n == name)
    rw [List.eraseDups_cons]
    by_cases hp : p name = true
    · rw [List.filter_cons_of_pos hp, List.filter_cons_of_pos hp, List.eraseDups_cons, ← hlater,
        List.filter_filter, List.filter_filter]
      simp only [Bool.and_comm]
    · -- leaving out the name as well as what fails the test is leaving out what fails it
      have hsame : (names.filter fun n => !n == name).filter p = names.filter p := by
        rw [List.filter_filter]
        refine List.filter_congr fun n _ => ?_
        by_cases hn : n = name
        · simp [hn, hp]
        · simp [hn]
      rw [List.filter_cons_of_neg hp, List.filter_cons_of_neg hp, ← hlater, hsame]
termination_by names.length
decreasing_by exact Nat.lt_succ_of_le (List.length_filter_le _ _)

theorem ignoredTypes_eq (resolve : TypeLookup) (root : Grammar.Node) :
    ignoredTypes resolve root =
      ((topBranches root).filterMap Branch.literal?).eraseDups.filterMap
        fun name => (resolve name).map (IgnoredType.mk name) := by
  rw [ignoredTypes, resolveNew_eq, eraseDups_filter, List.filterMap_filter]
  refine List.filterMap_congr fun name _ => ?_
  cases resolve name <;> simp

theorem reportedTypes_eq (resolve : TypeLookup) (pattern : Text) :
    reportedTypes resolve pattern =
      (offeredNames pattern).filterMap fun name => (resolve name).map (IgnoredType.mk name) := by
  rw [reportedTypes, validate, offeredNames]
  cases parse pattern with
  | error f => rfl
  | ok root => exact ignoredTypes_eq resolve root

/-- Faults and the other findings are the same whatever is known of types. -/
theorem validate_untyped (resolve resolve' : TypeLookup) (pattern : Text) :
    (validate resolve pattern).map Findings.untyped = (validate resolve' pattern).map Findings.untyped := by
  rw [validate, validate]
  cases parse pattern <;> rfl

/-! More that is known. -/

theorem filterMap_sublist_filterMap {α β : Type} {f g : α → Option β} (xs : List α)
    (h : ∀ x y, f x = some y → g x = some y) : (xs.filterMap f).Sublist (xs.filterMap g) := by
  induction xs with
  | nil => exact .slnil
  | cons x xs ih =>
    cases hx : f x with
    | none =>
      rw [List.filterMap_cons_none hx]
      exact ih.trans ((List.sublist_cons_self x xs).filterMap g)
    | some y =>
      rw [List.filterMap_cons_some hx, List.filterMap_cons_some (h x y hx)]
      exact ih.cons_cons y

/-- With every answer kept, the reported types stay and others may come between them. -/
theorem reportedTypes_sublist {resolve resolve' : TypeLookup}
    (h : ∀ name d, resolve name = some d → resolve' name = some d) (pattern : Text) :
    (reportedTypes resolve pattern).Sublist (reportedTypes resolve' pattern) := by
  rw [reportedTypes_eq, reportedTypes_eq]
  refine filterMap_sublist_filterMap _ fun name t ht => ?_
  obtain ⟨d, hd, rfl⟩ := Option.map_eq_some_iff.1 ht
  rw [h name d hd]
  rfl

theorem literals_reportedTypes (resolve : TypeLookup) (pattern : Text) :
    (reportedTypes resolve pattern).map IgnoredType.literal =
      (offeredNames pattern).filter fun name => (resolve name).isSome := by
  rw [reportedTypes_eq, List.map_filterMap, ← List.filterMap_eq_filter]
  refine List.filterMap_congr fun name _ => ?_
  cases hname : resolve name <;> simp [Option.guard, hname]

/-- With every known name kept, the reported literals stay, even if they are described differently. -/
theorem literals_sublist {resolve resolve' : TypeLookup}
    (h : ∀ name, (resolve name).isSome = true → (resolve' name).isSome = true) (pattern : Text) :
    ((reportedTypes resolve pattern).map IgnoredType.literal).Sublist
      ((reportedTypes resolve' pattern).map IgnoredType.literal) := by
  rw [literals_reportedTypes, literals_reportedTypes]
  exact List.monotone_filter_right _ h

/-- The members of a chain that were there before have the first word. -/
theorem TypeLookup.chain_push {members : List TypeLookup} {name : Text} {d : TypeDescription}
    (h : chain members name = some d) (resolve : TypeLookup) : chain (members ++ [resolve]) name = some d := by
  rw [chain] at h
  rw [chain, List.findSome?_append, h]
  rfl

theorem Resolver.resolveFirst_eq (name : Text) (rs : List Resolver) :
    resolveFirst name rs = TypeLookup.chain (rs.map fun r name => r.resolve name) name := by
  induction rs with
  | nil => rfl
  | cons r rs ih =>
    rw [resolveFirst, ih, List.map_cons, TypeLookup.chain, TypeLookup.chain, List.findSome?_cons]
    cases h : resolve name r <;> simp [h]

theorem Resolver.resolveFirst_append (name : Text) (rs rs' : List Resolver) :
    resolveFirst name (rs ++ rs') = (resolveFirst name rs).or (resolveFirst name rs') := by
  simp only [resolveFirst_eq, TypeLookup.chain, List.map_append, List.findSome?_append]

/-! Tables. -/

/-- The last type of a name is the one that is found. -/
theorem TypeTable.lookup?_ofList (ds : List TypeDescription) (name : Text) :
    (ofList ds).lookup? name = ds.reverse.find? fun d => d.name == name := by
  have hfold (t : TypeTable) : (ds.foldl insert t).lookup? name =
      (ds.reverse.find? fun d => d.name == name).or (t.lookup? name) := by
    induction ds generalizing t with
    | nil => rfl
    | cons d ds ih =>
      rw [List.foldl_cons, ih, lookup?_insert, List.reverse_cons, List.find?_append, Option.or_assoc]
      by_cases hd : d.name = name <;> simp [hd]
  rw [ofList, hfold]
  exact Option.or_none

end PatternAudit.Lint

namespace PatternAudit.Check

open Lint (Findings IgnoredType Resolver TypeLookup TypeTable reportedTypes validate)

theorem lookup?_classes (names : List Text) (name : Text) :
    (TypeTable.ofList (names.map fun n => ⟨n, .classType⟩)).lookup? name =
      if name ∈ names then some ⟨name, .classType⟩ else none := by
  rw [TypeTable.lookup?_ofList, ← List.map_reverse, List.find?_map]
  change (names.reverse.find? fun n => n == name).map _ = _
  by_cases hname : name ∈ names
  · rw [if_pos hname]
    cases hfind : names.reverse.find? fun n => n == name with
    | none => simpa using List.find?_eq_none.1 hfind name (List.mem_reverse.2 hname)
    | some n =>
      have hn : n = name := by simpa using List.find?_some hfind
      rw [hn, Option.map_some]
  · rw [if_neg hname]
    have hnone : names.reverse.find? (fun n => n == name) = none := by
      rw [List.find?_eq_none]
      rintro n hn h
      exact hname (eq_of_beq h ▸ List.mem_reverse.1 hn)
    rw [hnone, Option.map_none]

/-- The resolver of a configuration answers for its names first, in whatever order they are given. -/
theorem resolve_resolverOf (settings : Settings) (extraTypes : List Text) (name : Text) :
    (resolverOf settings extraTypes).resolve name =
      if name ∈ settings.knownTypes ++ extraTypes then some ⟨name, .classType⟩
      else if settings.builtinTypes then Resolver.builtin.resolve name else none := by
  have htable (known : TypeTable) :
      Resolver.resolveFirst name (if known.isEmpty then [] else [.table known]) = known.lookup? name := by
    obtain ⟨entries⟩ := known
    cases entries <;> simp [TypeTable.isEmpty, Resolver.resolveFirst, Resolver.resolve, TypeTable.lookup?]
  change Resolver.resolveFirst name (resolvers settings extraTypes) = _
  rw [resolvers, Resolver.resolveFirst_append, htable, lookup?_classes]
  by_cases hname : name ∈ settings.knownTypes ++ extraTypes
  · rw [if_pos hname, if_pos hname, Option.some_or]
  · rw [if_neg hname, if_neg hname, Option.none_or]
    cases settings.builtinTypes
    · rfl
    · exact Option.or_none

theorem validate_under_resolvers (pattern : Text) :
    (∀ resolve resolve' : TypeLookup,
      (validate resolve pattern).map Findings.untyped = (validate resolve' pattern).map Findings.untyped) ∧
    (∀ (members : List TypeLookup) (resolve : TypeLookup),
      (reportedTypes (.chain members) pattern).Sublist
        (reportedTypes (.chain (members ++ [resolve])) pattern)) ∧
    ∀ (settings settings' : Settings) (extra extra' : List Text),
      settings.builtinTypes = settings'.builtinTypes →
      (settings.knownTypes ++ extra ⊆ settings'.knownTypes ++ extra' →
        ((reportedTypes (resolverOf settings extra) pattern).map IgnoredType.literal).Sublist
          ((reportedTypes (resolverOf settings' extra') pattern).map IgnoredType.literal)) ∧
      ((∀ name, name ∈ settings.knownTypes ++ extra ↔ name ∈ settings'.knownTypes ++ extra') →
        ∀ name, (resolverOf settings extra).resolve name = (resolverOf settings' extra').resolve name) := by
  refine ⟨fun resolve resolve' => Lint.validate_untyped resolve resolve' pattern, fun members resolve => ?_, ?_⟩
  · exact Lint.reportedTypes_sublist (fun _ _ h => TypeLookup.chain_push h resolve) pattern
  · intro settings settings' extra extra' hbuiltin
    constructor
    · intro hmore
      refine Lint.literals_sublist (fun name hname => ?_) pattern
      rw [resolve_resolverOf] at hname ⊢
      by_cases hknown : name ∈ settings.knownTypes ++ extra
      · rw [if_pos (hmore hknown)]
        rfl
      · rw [if_neg hknown, hbuiltin] at hname
        split
        next => rfl
        next => exact hname
    · intro hsame name
      simp only [resolve_resolverOf, hsame name, hbuiltin]

/-- A keyword that is added as a name is still reported, now as a class. -/
theorem validate_under_resolvers_keyword :
    let pattern : Text := ['B', '|', 'i', 'n', 't', '|', 'é', '|', 'B']
    let settings : Settings := ⟨true, true, [['B']]⟩
    let more : Settings := ⟨false, true, [['é'], ['B']]⟩
    let again : Settings := ⟨true, true, [['i', 'n', 't'], ['é'], ['é']]⟩
    settings.knownTypes ++ [] ⊆ more.knownTypes ++ [['i', 'n', 't']] ∧
      ((reportedTypes (resolverOf settings []) pattern).map IgnoredType.literal).Sublist
        ((reportedTypes (resolverOf more [['i', 'n', 't']]) pattern).map IgnoredType.literal) ∧
      (∀ name, name ∈ more.knownTypes ++ [['i', 'n', 't']] ↔ name ∈ again.knownTypes ++ [['B']]) ∧
      (resolverOf more [['i', 'n', 't']]).resolve ['i', 'n', 't'] =
        (resolverOf again [['B']]).resolve ['i', 'n', 't'] ∧
      reportedTypes (resolverOf settings []) pattern =
        [⟨['B'], ⟨['B'], .classType⟩⟩, ⟨['i', 'n', 't'], ⟨['i', 'n', 't'], .builtin⟩⟩] ∧
      reportedTypes (resolverOf more [['i', 'n', 't']]) pattern =
        [⟨['B'], ⟨['B'], .classType⟩⟩, ⟨['i', 'n', 't'], ⟨['i', 'n', 't'], .classType⟩⟩,
          ⟨['é'], ⟨['é'], .classType⟩⟩] := by
  intro pattern settings more again
  have hmore : settings.knownTypes ++ [] ⊆ more.knownTypes ++ [['i', 'n', 't']] := by
    simp [settings, more]
  have hsame : ∀ name, name ∈ more.knownTypes ++ [['i', 'n', 't']] ↔ name ∈ again.knownTypes ++ [['B']] := by
    intro name
    simp only [more, again, List.mem_append, List.mem_cons, List.not_mem_nil, or_false]
    tauto
  have hoffered : Lint.offeredNames pattern = [['B'], ['i', 'n', 't'], ['é']] := by
    have hlex : Grammar.lex pattern = ⟨[⟨⟨0, 1⟩, .atom (.char 'B')⟩, ⟨⟨1, 2⟩, .bar⟩,
        ⟨⟨2, 3⟩, .atom (.char 'i')⟩, ⟨⟨3, 4⟩, .atom (.char 'n')⟩, ⟨⟨4, 5⟩, .atom (.char 't')⟩,
        ⟨⟨5, 6⟩, .bar⟩, ⟨⟨6, 8⟩, .atom (.char 'é')⟩, ⟨⟨8, 9⟩, .bar⟩,
        ⟨⟨9, 10⟩, .atom (.char 'B')⟩], none⟩ := by
      decide +kernel
    rw [Lint.offeredNames, Grammar.parse_eq_run hlex]
    decide +kernel
  obtain ⟨-, -, hsettings⟩ := validate_under_resolvers pattern
  refine ⟨hmore, (hsettings settings more [] [['i', 'n', 't']] rfl).1 hmore, hsame,
    (hsettings more again [['i', 'n', 't']] [['B']] rfl).2 hsame _, ?_, ?_⟩
  · rw [Lint.reportedTypes_eq, hoffered]
    decide +kernel
  · rw [Lint.reportedTypes_eq, hoffered]
    decide +kernel

end PatternAudit.Check
