import PatternAudit.Proofs.JoinedPatterns

set_option autoImplicit false

/-!
# Items between patterns

Tokens that make up a tree alone also make it up behind other tokens, only that their first branch goes
on with the last one there (`Level.MadeOf.goesOn`). An item written between two patterns therefore
stands between the last branch of the one and the first branch of the other, and nothing else changes
(`buildTree_between`).
-/
namespace PatternAudit.Grammar

/-! Levels one behind the other. -/

/-- What a level becomes when further tokens are read that alone make up another one: the last branch goes
on with the first branch of the other level. -/
inductive Level.GoesOn (l : Level) : Level → Level → Prop where
  | inBranch (items : List Node) : GoesOn l ⟨[], items⟩ ⟨l.branches, items ++ l.items⟩
  | behind (first : Node) (others items : List Node) :
    GoesOn l ⟨others ++ [first], items⟩
      ⟨others ++ .concatenation 0 (l.items.reverse ++ first.items) :: l.branches, items⟩

theorem Node.concatenation_of_ne_nil {ns : List Node} (h : ns ≠ []) (offset offset' : Nat) :
    concatenation offset ns = concatenation offset' ns := by
  match ns with
  | [_] | _ :: _ :: _ => rfl

theorem Level.GoesOn.push {l l' joined : Level} (h : l.GoesOn l' joined) (n : Node) :
    l.GoesOn (l'.push n) (joined.push n) := by
  cases h with
  | inBranch items => exact .inBranch (n :: items)
  | behind first others items => exact .behind first others (n :: items)

theorem Level.GoesOn.of_push {l l' joined : Level} {n : Node} (h : l.GoesOn (l'.push n) joined) :
    ∃ before : Level, joined = before.push n ∧ l.GoesOn l' before := by
  generalize hpushed : l'.push n = pushed at h
  obtain ⟨branches, items⟩ := l'
  cases h with
  | inBranch items' =>
    cases hpushed
    exact ⟨_, rfl, .inBranch items⟩
  | behind first others items' =>
    cases hpushed
    exact ⟨_, rfl, .behind first others items⟩

theorem Level.GoesOn.separate {l l' joined : Level} (h : l.GoesOn l' joined) (hl : l.items ≠ [])
    (hitem : ∀ n ∈ l'.items, n.IsItem) (offset : Nat) :
    l.GoesOn (l'.separate offset) (joined.separate offset) := by
  cases h with
  | inBranch items =>
    have hfirst : (Node.concatenation offset items.reverse).items = items.reverse :=
      Node.items_concatenation (fun n hn => hitem n (List.mem_reverse.1 hn)) offset
    have hne : l.items.reverse ++ items.reverse ≠ [] := by simp [hl]
    have hgoes := behind (l := l) (Node.concatenation offset items.reverse) [] []
    rw [hfirst, Node.concatenation_of_ne_nil hne 0 offset] at hgoes
    simpa [Level.separate, branch] using hgoes
  | behind first others items =>
    exact .behind first (Node.concatenation offset items.reverse :: others) []

/-- Behind an item, tokens make up what they do alone, but their first branch goes on with the last one. -/
theorem Level.MadeOf.goesOn {l l' : Level} {ts us : List Token} (h : l.MadeOf ts) (hl : l.items ≠ [])
    (h' : l'.MadeOf us) : ∃ joined : Level, joined.MadeOf (ts ++ us) ∧ l.GoesOn l' joined := by
  induction h' with
  | fresh => exact ⟨l, by rwa [List.append_nil], .inBranch []⟩
  | atom span a _ ih =>
    obtain ⟨joined, hjoined, hgoes⟩ := ih
    rw [← List.append_assoc]
    exact ⟨_, .atom span a hjoined, hgoes.push _⟩
  | bar span h' ih =>
    obtain ⟨joined, hjoined, hgoes⟩ := ih
    rw [← List.append_assoc]
    exact ⟨_, .bar span hjoined, hgoes.separate hl h'.isItem span.start⟩
  | quantifier span q hn _ ih =>
    obtain ⟨joined, hjoined, hgoes⟩ := ih
    obtain ⟨before, rfl, hbefore⟩ := hgoes.of_push
    rw [← List.append_assoc]
    exact ⟨_, .quantifier span q hn hjoined, hbefore.push _⟩
  | group opening closing kind _ hbody ih =>
    obtain ⟨joined, hjoined, hgoes⟩ := ih
    rw [← List.append_assoc]
    exact ⟨_, .group opening closing kind hjoined hbody, hgoes.push _⟩

/-- A tree is two others with an item between the last branch of the one and the first of the other. -/
def Node.Between (item left right tree : Node) : Prop :=
  ∃ before last first after, left.alternatives = before ++ [last] ∧ right.alternatives = first :: after ∧
    tree.alternatives = before ++ .concatenation 0 (last.items ++ item :: first.items) :: after

theorem Level.MadeOf.items_branch {l : Level} {ts : List Token} (h : l.MadeOf ts) (offset : Nat) :
    (l.branch offset).items = l.items.reverse :=
  Node.items_concatenation (fun n hn => h.isItem n (List.mem_reverse.1 hn)) offset

theorem Level.MadeOf.between {l l' joined : Level} {item : Node} {ts us vs : List Token} (h : l.MadeOf ts)
    (h' : l'.MadeOf us) (hgoes : (l.push item).GoesOn l' joined) (hjoined : joined.MadeOf vs)
    (place stop : Nat) : item.Between (l.content place) (l'.content stop) (joined.content stop) := by
  refine ⟨l.branches.reverse, l.branch place, ?_⟩
  rw [h.alternatives_content, h'.alternatives_content, hjoined.alternatives_content, h.items_branch]
  cases hgoes with
  | inBranch items =>
    refine ⟨branch ⟨[], items⟩ stop, [], rfl, rfl, ?_⟩
    have hne : l.items.reverse ++ item :: items.reverse ≠ [] := by simp
    rw [h'.items_branch]
    simp [branch, Level.push, Node.concatenation_of_ne_nil hne stop 0]
  | behind first others items =>
    refine ⟨first, others.reverse ++ [branch ⟨others ++ [first], items⟩ stop], rfl, by simp, ?_⟩
    simp [branch, Level.push]

/-! Nesting. -/

theorem Node.nestingAll_items (n : Node) : nestingAll n.items = n.nesting := by
  cases n with
  | sequence span items => rfl
  | empty offset => rfl
  | _ => exact Nat.max_zero _

theorem Node.nestingAll_append (ns ms : List Node) :
    nestingAll (ns ++ ms) = max (nestingAll ns) (nestingAll ms) := by
  induction ns with
  | nil => simp [nestingAll]
  | cons n ns ih => rw [List.cons_append, nestingAll, nestingAll, ih, Nat.max_assoc]

theorem Node.Between.nesting_le {item left right tree : Node} (h : item.Between left right tree) :
    tree.nesting ≤ max item.nesting (max left.nesting right.nesting) := by
  obtain ⟨before, last, first, after, hleft, hright, htree⟩ := h
  rw [← nestingAll_alternatives left, ← nestingAll_alternatives right, ← nestingAll_alternatives tree,
    hleft, hright, htree]
  simp only [nestingAll_append, nestingAll, nesting_concatenation, nestingAll_items]
  omega

/-! Places in the tree. -/

theorem Node.isIn_concatenation {n : Node} {ns : List Node} (h : n ∈ ns) (offset : Nat) :
    n.IsIn (concatenation offset ns) := by
  match ns with
  | [m] =>
    rw [List.mem_singleton.1 h]
    exact .self
  | _ :: _ :: _ => exact .child h .self

theorem Node.IsIn.of_alternative {e n tree : Node} (he : e.IsIn n) (hn : n ∈ tree.alternatives) :
    e.IsIn tree := by
  cases tree with
  | alternation span branches => exact .child hn he
  | _ =>
    rw [List.mem_singleton.1 hn] at he
    exact he

theorem Node.Between.isIn {item left right tree : Node} (h : item.Between left right tree) :
    item.IsIn tree := by
  obtain ⟨before, last, first, after, -, -, htree⟩ := h
  have hitem : item ∈ last.items ++ item :: first.items := by simp
  refine (isIn_concatenation hitem 0).of_alternative ?_
  rw [htree]
  exact List.mem_append_right before List.mem_cons_self

/-- Tokens of an item between those of two trees make up a tree with the item between the two. -/
theorem buildTree_between {ts us vs : List Token} {place stop : Nat} {left item right : Node}
    (hleft : buildTree ts place = .ok left) (hitem : item.ItemOf us) (hfits : item.nesting ≤ maxNesting)
    (hright : buildTree vs stop = .ok right) :
    ∃ tree, buildTree (ts ++ us ++ vs) stop = .ok tree ∧ item.Between left right tree := by
  obtain ⟨l, hl, rfl⟩ := exists_level_of_buildTree hleft
  obtain ⟨l', hl', rfl⟩ := exists_level_of_buildTree hright
  obtain ⟨joined, hjoined, hgoes⟩ := (hl.push_item hitem).goesOn (List.cons_ne_nil _ _) hl'
  have hbetween := hl.between hl' hgoes hjoined place stop
  have hnesting : joined.nesting ≤ maxNesting := by
    have hle := hbetween.nesting_le
    have hfitsLeft := (hl.of_buildTree hleft).1
    have hfitsRight := (hl'.of_buildTree hright).1
    simp only [Level.nesting_content] at hle
    omega
  exact ⟨joined.content stop, hjoined.buildTree hnesting stop, hbetween⟩

end PatternAudit.Grammar
