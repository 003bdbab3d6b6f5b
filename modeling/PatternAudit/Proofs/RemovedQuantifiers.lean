import PatternAudit.Proofs.Acceptance
import PatternAudit.Proofs.OptionSettings
import PatternAudit.Proofs.Segments

set_option autoImplicit false

/-!
# Quantifiers taken away

The tokens of a pattern still make up a tree when a quantifier is taken out of them, with as many
branches as before. Which anchor is misplaced stays the same too, unless the quantifier repeated an
option setting: the pattern can end before a bare setting and not before a repeated one
(`Lint.removedQuantifier`).
-/
namespace PatternAudit.Grammar

/-! Accepted tokens. -/

theorem exists_buildTree_iff_scan {tokens : List Token} {length : Nat} :
    (∃ tree, buildTree tokens length = .ok tree) ↔ Scan.fresh.run tokens = .ok () := by
  have hscan := Builder.run_scan .fresh length tokens
  rw [← buildTree_eq_run] at hscan
  change _ = Scan.fresh.run tokens at hscan
  rw [← hscan]
  cases buildTree tokens length with
  | error f => simp [Except.map]
  | ok tree => simp [Except.map]

/-- Whether the latest token can be repeated only counts when a quantifier comes. -/
theorem Scan.run_repeatable {opens : List Nat} {ts : List Token} (h : Scan.run ⟨opens, false⟩ ts = .ok ()) :
    startsWithQuantifier ts = false ∧ Scan.run ⟨opens, true⟩ ts = .ok () := by
  cases ts with
  | nil => exact ⟨rfl, h⟩
  | cons t ts =>
    obtain ⟨span, kind⟩ := t
    cases kind with
    | quantifier q => contradiction
    | _ => exact ⟨rfl, h⟩

theorem Scan.run_remove {t : Token} {q : Quantifier} (ht : t.kind = .quantifier q) {s : Scan}
    {earlier later : List Token} (h : s.run (earlier ++ t :: later) = .ok ()) :
    startsWithQuantifier later = false ∧ s.run (earlier ++ later) = .ok () := by
  induction earlier generalizing s with
  | nil =>
    obtain ⟨opens, repeatable⟩ := s
    obtain ⟨span, kind⟩ := t
    cases ht
    cases repeatable with
    | false => contradiction
    | true => exact Scan.run_repeatable h
  | cons u us ih =>
    obtain ⟨s', hs', h⟩ := exists_of_bind_ok h
    obtain ⟨hlater, hrun⟩ := ih h
    exact ⟨hlater, by rw [List.cons_append, Scan.run, hs', ok_bind, hrun]⟩

/-! Branches. -/

theorem length_segments_remove {t : Token} {q : Quantifier} (ht : t.kind = .quantifier q)
    (earlier later : List Token) (depth : Nat) :
    (segments depth (earlier ++ t :: later)).length = (segments depth (earlier ++ later)).length := by
  induction earlier generalizing depth with
  | nil => cases depth <;> simp [segments, ht]
  | cons u us ih =>
    obtain ⟨span, kind⟩ := u
    cases kind with
    | bar => cases depth <;> simp [segments, ih]
    | _ => simp [segments, ih]

theorem length_alternatives_of_buildTree {tokens : List Token} {length : Nat} {root : Node}
    (h : buildTree tokens length = .ok root) : root.alternatives.length = (segments 0 tokens).length := by
  simpa using (congrArg List.length (spelling?_segments_of_buildTree h)).symm

end PatternAudit.Grammar

namespace PatternAudit.Lint

open Grammar (Node Quantifier Token TokenKind buildTree lex parse startsWithQuantifier)

/-- Whether the last of some tokens is an option setting. -/
def endsWithSetting (ts : List Token) : Bool :=
  match ts.getLast? with
  | some ⟨_, .atom (.options _)⟩ => true
  | _ => false

theorem endsWithSetting_of_cons {t : Token} {ts : List Token} (h : endsWithSetting (t :: ts) = false) :
    endsWithSetting ts = false := by
  cases ts with
  | nil => rfl
  | cons u us => rwa [endsWithSetting, List.getLast?_cons_cons] at h

/-! Tokens that follow others. -/

theorem onlyTrailing_append_false {later : List Token} (h : onlyTrailing later = false) (ts : List Token) :
    onlyTrailing (ts ++ later) = false := by
  induction ts with
  | nil => exact h
  | cons t ts ih => rw [List.cons_append, onlyTrailing, ih, Bool.and_false]

/-- Tokens that may all follow an end anchor hold none. -/
theorem strayAnchor_of_onlyTrailing {ts : List Token} (h : onlyTrailing ts = true) :
    strayAnchor ts = none := by
  induction ts with
  | nil => rfl
  | cons t ts ih =>
    rw [onlyTrailing, Bool.and_eq_true] at h
    have hanchor : t.kind ≠ .atom (.anchor .finish) := fun hkind => by
      simp [canTrail, hkind] at h
    rw [strayAnchor, if_neg fun hstray => hanchor hstray.1, ih h.2]

section

variable {later : List Token} (hnext : startsWithQuantifier later = false)

include hnext

theorem startsWithQuantifier_append (ts : List Token) :
    startsWithQuantifier (ts ++ later) = startsWithQuantifier ts := by
  cases ts with
  | nil => exact hnext
  | cons t ts => exact startsWithQuantifier_cons rfl _ _

theorem onlyTrailing_append (ts : List Token) :
    onlyTrailing (ts ++ later) = (onlyTrailing ts && onlyTrailing later) := by
  induction ts with
  | nil => rfl
  | cons t ts ih =>
    rw [List.cons_append, onlyTrailing, onlyTrailing, ih, canTrail, canTrail,
      startsWithQuantifier_append hnext, Bool.and_assoc]

/-- Where the pattern can end, the tokens up to there decide. -/
theorem strayAnchor_append_trailing (h : onlyTrailing later = true) (ts : List Token) :
    strayAnchor (ts ++ later) = strayAnchor ts := by
  induction ts with
  | nil => exact strayAnchor_of_onlyTrailing h
  | cons t ts ih =>
    rw [List.cons_append, strayAnchor, strayAnchor, ih, onlyTrailing_append hnext, h, Bool.and_true]

end

/-! Tokens without one of their quantifiers. -/

/-- Only a setting counts for an item when a quantifier comes. -/
theorem canTrail_remove {u : Token} {us : List Token} (t : Token) (later : List Token)
    (h : endsWithSetting (u :: us) = false) :
    canTrail u (us ++ t :: later) = canTrail u (us ++ later) := by
  cases us with
  | nil =>
    obtain ⟨span, kind⟩ := u
    cases kind with
    | atom a => cases a with
      | options flags => contradiction
      | _ => rfl
    | _ => rfl
  | cons v vs =>
    rw [canTrail, canTrail, List.cons_append, List.cons_append, startsWithQuantifier_cons rfl _ (vs ++ later)]

section

variable {t : Token} {q : Quantifier} (ht : t.kind = .quantifier q) {later : List Token}

include ht

theorem onlyTrailing_quantifier : onlyTrailing (t :: later) = onlyTrailing later := by
  simp [onlyTrailing, canTrail, ht]

theorem onlyTrailing_remove {earlier : List Token}
    (h : endsWithSetting earlier = false ∨ onlyTrailing later = false) :
    onlyTrailing (earlier ++ t :: later) = onlyTrailing (earlier ++ later) := by
  rcases h with hsetting | hlater
  · induction earlier with
    | nil => exact onlyTrailing_quantifier ht
    | cons u us ih =>
      rw [List.cons_append, List.cons_append, onlyTrailing, onlyTrailing, canTrail_remove t later hsetting,
        ih (endsWithSetting_of_cons hsetting)]
  · rw [onlyTrailing_append_false hlater,
      onlyTrailing_append_false ((onlyTrailing_quantifier ht).trans hlater)]

theorem strayAnchor_remove {earlier : List Token}
    (h : endsWithSetting earlier = false ∨ onlyTrailing later = false) :
    strayAnchor (earlier ++ t :: later) = strayAnchor (earlier ++ later) := by
  induction earlier with
  | nil => simp [strayAnchor, ht]
  | cons u us ih =>
    have hus := h.imp_left endsWithSetting_of_cons
    rw [List.cons_append, List.cons_append, strayAnchor, strayAnchor, onlyTrailing_remove ht hus, ih hus]

end

/-- A quantifier is taken away and nothing changes, unless it repeats a setting the pattern can end with. -/
theorem removedQuantifier {pattern : Text} {root : Node} (h : parse pattern = .ok root)
    {earlier later : List Token} {t : Token} {q : Quantifier} (ht : t.kind = .quantifier q)
    (htokens : (lex pattern).tokens = earlier ++ t :: later) :
    ∃ tree, buildTree (earlier ++ later) (Text.byteLength pattern) = .ok tree ∧
      (topBranches tree).length = (topBranches root).length ∧
      misplacedAnchor tree =
        if endsWithSetting earlier = true ∧ onlyTrailing later = true then strayAnchor earlier
        else misplacedAnchor root := by
  obtain ⟨tokens, hlex, hroot⟩ := Grammar.parse_eq_ok_iff.1 h
  have hvalid := Grammar.lex_valid pattern
  rw [hlex] at htokens hvalid
  change tokens = _ at htokens
  subst htokens
  obtain ⟨hnext, hscan⟩ := Grammar.Scan.run_remove ht (Grammar.exists_buildTree_iff_scan.1 ⟨root, hroot⟩)
  obtain ⟨tree, htree⟩ := Grammar.exists_buildTree_iff_scan.2 hscan
  have hvalid' : ∀ u ∈ earlier ++ later, u.kind.Valid := fun u hu => by
    refine hvalid u ?_
    rcases List.mem_append.1 hu with hu | hu
    · exact List.mem_append_left _ hu
    · exact List.mem_append_right _ (List.mem_cons_of_mem t hu)
  refine ⟨tree, htree, ?_, ?_⟩
  · have hbranches : tree.alternatives.length = root.alternatives.length := by
      rw [Grammar.length_alternatives_of_buildTree htree, Grammar.length_alternatives_of_buildTree hroot,
        Grammar.length_segments_remove ht]
    rw [topBranches_eq, topBranches_eq, hbranches]
    split
    next => simp [hbranches]
    next => rfl
  · rw [misplacedAnchor_of_buildTree htree hvalid', misplacedAnchor_of_buildTree hroot hvalid]
    split
    next hends => exact strayAnchor_append_trailing hnext hends.2 earlier
    next hends =>
      refine (strayAnchor_remove ht ?_).symm
      rw [not_and_or, Bool.not_eq_true, Bool.not_eq_true] at hends
      exact hends

/-- The anchor in a group stays misplaced when the group is no longer repeated. -/
theorem removedQuantifier_group :
    let pattern : Text := ['(', 'a', '$', ')', '+', 'b', '|', 'c']
    let root : Node := .alternation ⟨0, 8⟩ [
      .sequence ⟨0, 6⟩ [
        .quantified ⟨0, 5⟩ (.group ⟨0, 4⟩ .capturing (.sequence ⟨1, 3⟩ [.atom ⟨1, 2⟩ (.char 'a'),
          .atom ⟨2, 3⟩ (.anchor .finish)])) ⟨.atLeast 1, .greedy⟩,
        .atom ⟨5, 6⟩ (.char 'b')],
      .atom ⟨7, 8⟩ (.char 'c')]
    let earlier : List Token := [⟨⟨0, 1⟩, .groupOpen .capturing⟩, ⟨⟨1, 2⟩, .atom (.char 'a')⟩,
      ⟨⟨2, 3⟩, .atom (.anchor .finish)⟩, ⟨⟨3, 4⟩, .groupClose⟩]
    let later : List Token :=
      [⟨⟨5, 6⟩, .atom (.char 'b')⟩, ⟨⟨6, 7⟩, .bar⟩, ⟨⟨7, 8⟩, .atom (.char 'c')⟩]
    parse pattern = .ok root ∧
      (lex pattern).tokens = earlier ++ ⟨⟨4, 5⟩, .quantifier ⟨.atLeast 1, .greedy⟩⟩ :: later ∧
      ∃ tree, buildTree (earlier ++ later) 8 = .ok tree ∧ (topBranches tree).length = 2 ∧
        misplacedAnchor tree = some 2 := by
  intro pattern root earlier later
  have hlex : lex pattern =
      ⟨earlier ++ ⟨⟨4, 5⟩, .quantifier ⟨.atLeast 1, .greedy⟩⟩ :: later, none⟩ := by
    decide +kernel
  have h : parse pattern = .ok root := by
    rw [Grammar.parse_eq_run hlex]
    rfl
  have htokens := congrArg Grammar.Lexing.tokens hlex
  obtain ⟨tree, htree, hbranches, hanchor⟩ := removedQuantifier h rfl htokens
  exact ⟨h, htokens, tree, htree, hbranches, hanchor⟩

/-- The anchor before a repeated setting is misplaced, and before the bare setting it is not. -/
theorem misplacedAnchor_repeatedSetting :
    let pattern : Text := ['f', 'o', 'o', '$', '(', '?', 'i', ')', '*']
    let others : List Token := [⟨⟨0, 1⟩, .atom (.char 'f')⟩, ⟨⟨1, 2⟩, .atom (.char 'o')⟩,
      ⟨⟨2, 3⟩, .atom (.char 'o')⟩, ⟨⟨3, 4⟩, .atom (.anchor .finish)⟩,
      ⟨⟨4, 8⟩, .atom (.options ['i'])⟩]
    let word : List Node := [.atom ⟨0, 1⟩ (.char 'f'), .atom ⟨1, 2⟩ (.char 'o'),
      .atom ⟨2, 3⟩ (.char 'o'), .atom ⟨3, 4⟩ (.anchor .finish)]
    let setting : Node := .atom ⟨4, 8⟩ (.options ['i'])
    let root : Node :=
      .sequence ⟨0, 9⟩ (word ++ [.quantified ⟨4, 9⟩ setting ⟨.atLeast 0, .greedy⟩])
    let tree : Node := .sequence ⟨0, 8⟩ (word ++ [setting])
    (lex pattern).tokens = others ++ [⟨⟨8, 9⟩, .quantifier ⟨.atLeast 0, .greedy⟩⟩] ∧
      parse pattern = .ok root ∧ buildTree others 9 = .ok tree ∧
      misplacedAnchor root = some 3 ∧ misplacedAnchor tree = none := by
  intro pattern others word setting root tree
  have hlex : lex pattern =
      ⟨others ++ [⟨⟨8, 9⟩, .quantifier ⟨.atLeast 0, .greedy⟩⟩], none⟩ := by
    decide +kernel
  have hroot : parse pattern = .ok root := by
    rw [Grammar.parse_eq_run hlex]
    rfl
  have htree : buildTree others 9 = .ok tree := by
    rw [Grammar.buildTree_eq_run]
    rfl
  exact ⟨congrArg Grammar.Lexing.tokens hlex, hroot, htree, rfl, rfl⟩

end PatternAudit.Lint
