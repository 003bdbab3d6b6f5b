import Mathlib.Data.List.Basic
import PatternAudit.Proofs.LiteralText

set_option autoImplicit false

/-!
# Unions of texts

Texts that are escaped and joined by bars give a pattern with one branch for each text. The checks for
anchors and universal matches find nothing in it, and the check for types finds the texts that can stand
in a pattern as they are and name a type. `Lint.validate_union` says so for every list of texts.
-/
namespace PatternAudit.Grammar

open Lint (escapeText)

/-- The pattern of a union. -/
def unionOf (texts : List Text) : Text :=
  ['|'].intercalate (texts.map escapeText)

theorem unionOf_cons_cons (t u : Text) (texts : List Text) :
    unionOf (t :: u :: texts) = escapeText t ++ '|' :: unionOf (u :: texts) := by
  simp [unionOf, List.intercalate_cons_cons]

/-- The nodes spell the texts, one each. -/
def SpellEach (nodes : List Node) (texts : List Text) : Prop :=
  nodes.map (fun n => n.items.mapM Node.asChar) = texts.map some

/-- The tokens of a union make up its branches, behind those that were read at the level before. -/
theorem lexFrom_unionOf (t : Text) (texts : List Text) (offset : Nat) :
    ∃ tokens, lexFrom false offset (unionOf (t :: texts)) = ⟨tokens, none⟩ ∧
      ∀ (stop : Nat) (branches : List Node), ∃ more, SpellEach more (t :: texts) ∧
        Builder.run stop ⟨⟨branches, []⟩, []⟩ tokens = .ok (.ofBranches (more.reverse ++ branches)) := by
  induction texts generalizing t offset with
  | nil =>
    obtain ⟨tokens, hchars, hlex⟩ := lexFrom_escapeText t offset []
    obtain ⟨nodes, hnodes, hrun⟩ := Builder.run_chars hchars
    refine ⟨tokens, by simpa [unionOf, Lexing.after] using hlex, fun stop branches => ?_⟩
    have hlast := hrun stop ⟨branches, []⟩ [] []
    rw [List.append_nil, List.append_nil] at hlast
    have hspells : (Node.concatenation stop nodes).Spells t := Node.spells_concatenation hnodes stop
    refine ⟨[.concatenation stop nodes], congrArg (fun s? => [s?]) hspells, hlast.trans ?_⟩
    simp [Builder.run, Builder.finish, Level.content, Level.branch]
  | cons u texts ih =>
    obtain ⟨tokens, hchars, hlex⟩ := lexFrom_escapeText t offset ('|' :: unionOf (u :: texts))
    obtain ⟨nodes, hnodes, hrun⟩ := Builder.run_chars hchars
    generalize offset + Text.byteLength (escapeText t) = place at hlex
    obtain ⟨tokens', hlex', hrun'⟩ := ih u (place + 1)
    have hbar : scanLexeme false '|' (unionOf (u :: texts)) =
        .ok ⟨.plain .bar, ['|'], unionOf (u :: texts)⟩ := rfl
    refine ⟨tokens ++ ⟨⟨place, place + 1⟩, .bar⟩ :: tokens', ?_, fun stop branches => ?_⟩
    · rw [unionOf_cons_cons, hlex, lexFrom_of_ok hbar]
      change ((lexFrom false (place + 1) _).prepend place _).after tokens = _
      rw [hlex']
      rfl
    · have hspells : (Node.concatenation place nodes).Spells t := Node.spells_concatenation hnodes place
      obtain ⟨more, hmore, hrest⟩ := hrun' stop (.concatenation place nodes :: branches)
      refine ⟨.concatenation place nodes :: more, ?_, ?_⟩
      · rw [SpellEach, List.map_cons, List.map_cons, hmore]
        exact congrArg (· :: _) hspells
      · rw [hrun, (Builder.Step.bar _ [] ⟨place, place + 1⟩).run]
        simpa [Level.separate, Level.branch] using hrest

theorem parse_unionOf {texts : List Text} (hlength : 2 ≤ texts.length) :
    ∃ span branches, parse (unionOf texts) = .ok (.alternation span branches) ∧
      2 ≤ branches.length ∧ SpellEach branches texts := by
  rcases texts with _ | ⟨t, texts⟩
  · contradiction
  obtain ⟨tokens, hlex, hrun⟩ := lexFrom_unionOf t texts 0
  obtain ⟨branches, hbranches, hrun⟩ := hrun (Text.byteLength (unionOf (t :: texts))) []
  rw [parse_eq_run hlex]
  have hsame : branches.length = texts.length + 1 := by
    simpa using congrArg List.length hbranches
  rw [List.length_cons, ← hsame] at hlength
  rcases branches with _ | ⟨n, _ | ⟨m, ns⟩⟩
  · contradiction
  · contradiction
  · refine ⟨n.spanTo ((m :: ns).getLast (by simp)), n :: m :: ns, hrun.trans ?_, hlength, hbranches⟩
    rw [List.append_nil, Node.ofBranches, List.reverse_reverse]
    rfl

end PatternAudit.Grammar

namespace PatternAudit.Lint

open Grammar (Node SpellEach parse unionOf)

/-- Resolving in order, each name once, keeps the first of equal names. -/
theorem resolveNew_eq (resolve : TypeLookup) (seen names : List Text) :
    resolveNew resolve seen names =
      (names.filter fun name => !seen.contains name && (resolve name).isSome).eraseDups.filterMap
        fun name => (resolve name).map (IgnoredType.mk name) := by
  induction names generalizing seen with
  | nil => rfl
  | cons name names ih =>
    rw [resolveNew]
    by_cases hseen : name ∈ seen
    · rw [if_pos (List.contains_iff_mem.2 hseen), ih, List.filter_cons_of_neg (by simp [hseen])]
    · rw [if_neg fun h => hseen (List.contains_iff_mem.1 h)]
      cases hresolve : resolve name with
      | none =>
        rw [List.filter_cons_of_neg (by simp [hresolve])]
        exact ih seen
      | some d =>
        have hkeep : (!seen.contains name && (resolve name).isSome) = true := by
          simp [hseen, hresolve]
        have hfound : (resolve name).map (IgnoredType.mk name) = some ⟨name, d⟩ := by
          rw [hresolve]
          rfl
        have hlater : (names.filter fun n => !seen.contains n && (resolve n).isSome).filter
            (fun n => !n == name) =
            names.filter fun n => !(name :: seen).contains n && (resolve n).isSome := by
          rw [List.filter_filter]
          refine List.filter_congr fun n _ => ?_
          rw [List.contains_cons, Bool.not_or, Bool.and_assoc]
        rw [List.filter_cons, if_pos hkeep, List.eraseDups_cons, List.filterMap_cons, hfound, hlater]
        exact congrArg (_ :: ·) (ih (name :: seen))

/-- The literals of branches that spell texts. -/
theorem literals_of_spellEach {nodes : List Node} {texts : List Text} (h : SpellEach nodes texts)
    (hne : ∀ t ∈ texts, t ≠ []) :
    (nodes.map Branch.ofNode).filterMap Branch.literal? = texts.filter fun t => !t.any isSignificant := by
  rw [List.filterMap_map]
  let literal? (s? : Option Text) : Option Text := s?.bind fun t =>
    if t.isEmpty || t.any isSignificant then none else some t
  calc nodes.filterMap (Branch.literal? ∘ Branch.ofNode)
      = (nodes.map fun n => n.items.mapM Node.asChar).filterMap literal? := by
        rw [List.filterMap_map]
        rfl
    _ = texts.filterMap (literal? ∘ some) := by rw [h, List.filterMap_map]
    _ = texts.filter fun t => !t.any isSignificant := by
        rw [← List.filterMap_eq_filter]
        refine List.filterMap_congr fun t ht => ?_
        have hempty : t.isEmpty = false := List.isEmpty_eq_false_iff.2 (hne t ht)
        change (if t.isEmpty || t.any isSignificant then none else some t) = _
        rw [hempty, Bool.false_or, Option.guard]
        cases t.any isSignificant <;> rfl

theorem mem_of_spellEach {nodes : List Node} {texts : List Text} (h : SpellEach nodes texts) :
    ∀ n ∈ nodes, ∃ t ∈ texts, n.Spells t := by
  intro n hn
  have hmem : n.items.mapM Node.asChar ∈ texts.map some := by
    rw [← h]
    exact List.mem_map_of_mem hn
  obtain ⟨t, ht, hspells⟩ := List.mem_map.1 hmem
  exact ⟨t, ht, hspells.symm⟩

theorem misplacedAnchorInBranches_eq_none {ns : List Node}
    (h : ∀ n ∈ ns, ∀ terminal, misplacedAnchorIn terminal n = none) (terminal : Bool) :
    misplacedAnchorInBranches terminal ns = none := by
  induction ns with
  | nil => rfl
  | cons n ns ih =>
    rw [misplacedAnchorInBranches, h n (by simp), ih fun m hm => h m (by simp [hm])]
    rfl

theorem firstUniversal?_eq_none {ns : List Node} (h : ∀ n ∈ ns, universalPart? n = none) :
    firstUniversal? ns = none := by
  induction ns with
  | nil => rfl
  | cons n ns ih =>
    rw [firstUniversal?, h n (by simp), ih fun m hm => h m (by simp [hm])]
    rfl

theorem validate_union {texts : List Text} (hlength : 2 ≤ texts.length) (hne : ∀ t ∈ texts, t ≠ [])
    (resolve : TypeLookup) :
    ∃ root, parse (['|'].intercalate (texts.map escapeText)) = .ok root ∧
      (topBranches root).map (fun b => b.node.items.mapM Node.asChar) = texts.map some ∧
      validate resolve (['|'].intercalate (texts.map escapeText)) =
        .ok ⟨(texts.filter fun t => !t.any isSignificant && (resolve t).isSome).eraseDups.filterMap
          fun t => (resolve t).map (IgnoredType.mk t), none, none⟩ := by
  obtain ⟨span, branches, hparse, hbranches, hspell⟩ := Grammar.parse_unionOf hlength
  have htop : topBranches (.alternation span branches) = branches.map .ofNode := by
    match branches, hbranches with
    | n :: m :: ns, _ => rfl
  have hspells := mem_of_spellEach hspell
  have hignored : ignoredTypes resolve (.alternation span branches) =
      (texts.filter fun t => !t.any isSignificant && (resolve t).isSome).eraseDups.filterMap
        fun t => (resolve t).map (IgnoredType.mk t) := by
    rw [ignoredTypes, htop, literals_of_spellEach hspell hne, resolveNew_eq, List.filter_filter]
    simp [Bool.and_comm]
  have hanchor : misplacedAnchor (.alternation span branches) = none := by
    refine misplacedAnchorInBranches_eq_none (fun n hn terminal => ?_) true
    obtain ⟨t, -, ht⟩ := hspells n hn
    exact misplacedAnchorIn_of_spells ht terminal
  have huniversal : universalPart? (.alternation span branches) = none := by
    have hnone : firstUniversal? branches = none := by
      refine firstUniversal?_eq_none fun n hn => ?_
      obtain ⟨t, ht, hspells⟩ := hspells n hn
      exact universalPart?_of_spells hspells (hne t ht)
    rw [universalPart?, hnone]
    rfl
  refine ⟨_, hparse, ?_, ?_⟩
  · rw [htop, List.map_map]
    exact hspell
  · have hparse' : parse (['|'].intercalate (texts.map escapeText)) = _ := hparse
    rw [validate, hparse', Grammar.ok_bind, analyze, hignored, hanchor, universalMatch?, huniversal]
    rfl

/-- A description need not carry the name that was asked for. -/
theorem validate_union_repeated_text :
    let texts : List Text := [['i', 'd'], ['A', '|', '\\'], ['u'], ['x'], ['i', 'd']]
    let resolve : TypeLookup := fun name =>
      if name = ['x'] then none else some ⟨'U' :: name, if name = ['u'] then .enum else .alias⟩
    2 ≤ texts.length ∧ (∀ t ∈ texts, t ≠ []) ∧
      validate resolve ['i', 'd', '|', 'A', '\\', '|', '\\', '\\', '|', 'u', '|', 'x', '|', 'i', 'd'] =
        .ok ⟨[⟨['i', 'd'], ⟨['U', 'i', 'd'], .alias⟩⟩, ⟨['u'], ⟨['U', 'u'], .enum⟩⟩], none, none⟩ := by
  intro texts resolve
  have hlength : 2 ≤ texts.length := by decide
  have hne : ∀ t ∈ texts, t ≠ [] := by decide
  obtain ⟨root, -, -, hvalidate⟩ := validate_union hlength hne resolve
  exact ⟨hlength, hne, hvalidate⟩

end PatternAudit.Lint
