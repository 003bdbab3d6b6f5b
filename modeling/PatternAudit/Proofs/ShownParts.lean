import PatternAudit.Proofs.LiteralText
import PatternAudit.Proofs.Outcomes

set_option autoImplicit false

/-!
# Parts that are shown

A universal part is shown twice, as it stands in the pattern and escaped. A part without text is replaced
by what encloses it, so there is something to see unless the pattern has no tokens at all, and the escaped
text is a pattern that spells the other one (`universalMatch_shown`).
-/
namespace PatternAudit.Grammar

/-- Only patterns without tokens have an empty tree. -/
theorem isEmpty_tree_iff {tokens : List Token} {length : Nat} {tree : Node}
    (h : buildTree tokens length = .ok tree) : tree.IsEmpty ↔ tokens = [] := by
  constructor
  · intro hempty
    have hmarks := buildTree_readOff (fun _ _ => [()]) (fun _ => [()]) h
    cases tree with
    | empty offset =>
      refine List.eq_nil_iff_forall_not_mem.2 fun t ht => ?_
      have hnone := List.flatMap_eq_nil_iff.1 hmarks.symm t ht
      unfold Token.readOff at hnone
      split at hnone <;> contradiction
    | _ => contradiction
  · rintro rfl
    rw [buildTree_eq_run] at h
    cases h
    trivial

theorem Node.text?_eq_nil_iff {pattern text : Text} {n : Node} (h : n.text? pattern = some text) :
    text = [] ↔ n.span.start = n.span.stop := by
  obtain ⟨before, after, -, hstart, hstop⟩ := Text.slice?_eq_some h
  rw [Text.byteLength_append] at hstop
  constructor
  · rintro rfl
    rw [Text.byteLength_nil] at hstop
    omega
  · intro hspan
    by_contra hne
    have hpos := Text.byteLength_pos hne
    omega

end PatternAudit.Grammar

namespace PatternAudit.Lint

open Grammar (Node lex parse)

/-- Groups, alternatives and repetitions are shown themselves before anything without text is. -/
theorem eq_of_isCompound {n part : Node} (hn : isCompound n = true) (h : universalPart? n = some part)
    (hempty : part.span.start = part.span.stop) : part = n := by
  have hshow {inner : Node} (hpart : showable n inner = part) : part = n := by
    unfold showable at hpart
    split at hpart
    next => exact hpart.symm
    next hne =>
      cases hpart
      contradiction
  cases n with
  | group span kind body =>
    rw [universalPart?] at h
    split at h
    next =>
      obtain ⟨inner, -, hpart⟩ := Option.map_eq_some_iff.1 h
      exact hshow hpart
    next => contradiction
  | quantified span body q =>
    rw [universalPart?] at h
    split at h
    next => exact (Option.some.inj h).symm
    next => contradiction
  | alternation span branches =>
    obtain ⟨inner, -, hpart⟩ := Option.map_eq_some_iff.1 h
    exact hshow hpart
  | _ => contradiction

/-- Without text, nothing but the whole is found. -/
theorem eq_of_universalPart?_empty {pattern : Text} {n part : Node} (hn : n.AllPlaced pattern)
    (h : universalPart? n = some part) (hempty : part.span.start = part.span.stop) : part = n := by
  cases n with
  | group span kind body => exact eq_of_isCompound rfl h hempty
  | quantified span body q => exact eq_of_isCompound rfl h hempty
  | alternation span branches => exact eq_of_isCompound rfl h hempty
  | sequence span items =>
    rcases universalPart?_sequence h with heq | ⟨m, hm, hcompound, hpart⟩
    · exact heq
    · -- the only item would be empty, but it is a group, alternatives or a repetition
      obtain rfl := eq_of_isCompound hcompound hpart hempty
      have hmem := Node.preorder_child (n := .sequence span items) hm 0 (part.mem_preorder_self 1)
      have hplaced := hn 0 _ hmem
      have hnothing := hplaced.empty_iff.1 hempty
      cases part <;> contradiction
  | _ =>
    rcases universalPart?_cases h with heq | ⟨c, hc, -⟩
    · exact heq
    · contradiction

theorem universalMatch_shown {pattern : Text} {root : Node} {m : UniversalMatch}
    (hparse : parse pattern = .ok root) (h : universalMatch? pattern root = some m) :
    (∃ e ∈ root.preorder 0, e.2.text? pattern = some m.found) ∧ m.found <:+: pattern ∧
      (m.found = [] ↔ (lex pattern).tokens = []) ∧
      ∃ literal, parse m.escaped = .ok literal ∧ literal.Spells m.found := by
  have hinfix := infix_of_universalMatch? h
  obtain ⟨part, hpart, h⟩ := Option.bind_eq_some_iff.1 h
  obtain ⟨text, htext, h⟩ := Option.bind_eq_some_iff.1 h
  cases h
  obtain ⟨depth, hmem⟩ := mem_preorder_of_universalPart? hpart 0
  have hplaced := Grammar.allPlaced_of_parse hparse
  obtain ⟨tokens, hlex, htree⟩ := Grammar.parse_eq_ok_iff.1 hparse
  refine ⟨⟨_, hmem, htext⟩, hinfix, ?_, Grammar.parse_escapeText text⟩
  rw [hlex, ← Grammar.isEmpty_tree_iff htree]
  refine (Node.text?_eq_nil_iff htext).trans ?_
  constructor
  · intro hempty
    obtain rfl := eq_of_universalPart?_empty hplaced hpart hempty
    exact hplaced.placed.empty_iff.1 hempty
  · intro hempty
    cases root with
    | empty offset =>
      cases hpart
      rfl
    | _ => contradiction

/-- The branch behind the bar has no text, so both branches are shown. -/
theorem universalMatch_shown_empty_branch :
    let p : Text := ['(', 'é', '|', ')', '$']
    let found : Text := ['é', '|']
    let root : Node := .sequence ⟨0, 6⟩
      [.group ⟨0, 5⟩ .capturing (.alternation ⟨1, 4⟩ [.atom ⟨1, 3⟩ (.char 'é'), .empty 4]),
        .atom ⟨5, 6⟩ (.anchor .finish)]
    parse p = .ok root ∧ universalMatch? p root = some ⟨found, ['é', '\\', '|']⟩ ∧ found ≠ [] ∧
      ∃ literal, parse ['é', '\\', '|'] = .ok literal ∧ literal.Spells found := by
  intro p found root
  have hlex : lex p = ⟨[⟨⟨0, 1⟩, .groupOpen .capturing⟩, ⟨⟨1, 3⟩, .atom (.char 'é')⟩, ⟨⟨3, 4⟩, .bar⟩,
      ⟨⟨4, 5⟩, .groupClose⟩, ⟨⟨5, 6⟩, .atom (.anchor .finish)⟩], none⟩ := by
    decide +kernel
  have hparse : parse p = .ok root := by
    rw [Grammar.parse_eq_run hlex]
    rfl
  have hfound : universalMatch? p root = some ⟨found, ['é', '\\', '|']⟩ := by decide +kernel
  obtain ⟨-, -, hnothing, hspells⟩ := universalMatch_shown hparse hfound
  have hshown : found ≠ [] := fun h => by
    have hnone := hnothing.1 h
    rw [hlex] at hnone
    contradiction
  exact ⟨hparse, hfound, hshown, hspells⟩

end PatternAudit.Lint
