import PatternAudit.Proofs.OnePass
import PatternAudit.Proofs.Payload

set_option autoImplicit false

/-!
# Normal form of pattern trees

The trees of patterns hold no node that says nothing: concatenations and alternations have at least
two members and none that could be merged into them, repetitions repeat an atom or a group, and the
data of every node is valid. `parse_normal` says so of every node of every tree, and that groups nest
no deeper than the limit.
-/
namespace PatternAudit.Grammar

/-- Can be a member of a concatenation. -/
def Node.IsItem : Node → Prop
  | .atom .. | .group .. | .quantified .. => True
  | .empty _ | .sequence .. | .alternation .. => False

/-- Can be a member of an alternation. -/
def Node.IsBranch : Node → Prop
  | .alternation .. => False
  | _ => True

def Node.IsUnit : Node → Prop
  | .atom .. | .group .. => True
  | .empty _ | .sequence .. | .alternation .. | .quantified .. => False

/-- What is demanded of a node itself, whatever its members hold. -/
def Node.Normal : Node → Prop
  | .empty _ => True
  | .atom _ a => a.Valid
  | .group _ kind _ => kind.Valid
  | .sequence _ items => 2 ≤ items.length ∧ ∀ n ∈ items, n.IsItem
  | .alternation _ branches => 2 ≤ branches.length ∧ ∀ n ∈ branches, n.IsBranch
  | .quantified _ body q => body.IsUnit ∧ q.bounds.Valid

mutual

/-- How many groups stand inside each other at most. -/
def Node.nesting : Node → Nat
  | .empty _ | .atom _ _ => 0
  | .group _ _ body => body.nesting + 1
  | .sequence _ items => nestingAll items
  | .alternation _ branches => nestingAll branches
  | .quantified _ body _ => body.nesting

def Node.nestingAll : List Node → Nat
  | [] => 0
  | n :: ns => max n.nesting (nestingAll ns)

end

/-- All nodes of a tree are normal, and its groups nest at most `k` deep. -/
structure Node.NormalWithin (k : Nat) (n : Node) : Prop where
  normal : ∀ depth, ∀ e ∈ n.preorder depth, e.2.Normal
  nesting_le : n.nesting ≤ k

theorem Node.mem_preorderAll {depth : Nat} {ns : List Node} {e : Nat × Node}
    (h : e ∈ preorderAll depth ns) : ∃ n ∈ ns, e ∈ n.preorder depth := by
  induction ns with
  | nil => simp [preorderAll] at h
  | cons n ns ih =>
    rw [preorderAll, List.mem_append] at h
    rcases h with h | h
    · exact ⟨n, by simp, h⟩
    · obtain ⟨m, hm, he⟩ := ih h
      exact ⟨m, by simp [hm], he⟩

theorem Node.preorder_subset {depth : Nat} {n : Node} {ns : List Node} (hn : n ∈ ns) :
    n.preorder depth ⊆ preorderAll depth ns := by
  induction ns with
  | nil => contradiction
  | cons m ns ih =>
    intro e he
    rw [preorderAll, List.mem_append]
    rcases List.mem_cons.1 hn with heq | hn
    · exact .inl (heq ▸ he)
    · exact .inr (ih hn he)

theorem Node.normal_of_preorder {n : Node} {depth : Nat} (h : ∀ e ∈ n.preorder depth, e.2.Normal) :
    n.Normal := by
  cases n <;> exact h (depth, _) List.mem_cons_self

theorem Node.normal_of_preorderAll {ns : List Node} {depth : Nat}
    (h : ∀ e ∈ preorderAll depth ns, e.2.Normal) : ∀ n ∈ ns, n.Normal := by
  intro n hn
  exact normal_of_preorder fun e he => h e (preorder_subset hn he)

theorem Node.nestingAll_le {k : Nat} {ns : List Node} (h : ∀ n ∈ ns, n.nesting ≤ k) :
    nestingAll ns ≤ k := by
  induction ns with
  | nil => exact Nat.zero_le k
  | cons n ns ih =>
    have hn := h n (by simp)
    have hns := ih fun m hm => h m (by simp [hm])
    simp only [nestingAll]
    omega

namespace Node.NormalWithin

variable {k : Nat}

theorem empty (offset : Nat) : NormalWithin k (.empty offset) :=
  ⟨by simp [preorder, Normal], Nat.zero_le k⟩

theorem atom {a : Atom} (span : Span) (ha : a.Valid) : NormalWithin k (.atom span a) :=
  ⟨by simpa [preorder, Normal] using ha, Nat.zero_le k⟩

theorem group {kind : GroupKind} {body : Node} (span : Span) (hkind : kind.Valid)
    (hbody : NormalWithin k body) : NormalWithin (k + 1) (.group span kind body) := by
  refine ⟨fun depth e he => ?_, Nat.succ_le_succ hbody.nesting_le⟩
  rcases List.mem_cons.1 he with rfl | he
  · exact hkind
  · exact hbody.normal _ e he

theorem quantified {q : Quantifier} {body : Node} (span : Span) (hunit : body.IsUnit)
    (hq : q.bounds.Valid) (hbody : NormalWithin k body) :
    NormalWithin k (.quantified span body q) := by
  refine ⟨fun depth e he => ?_, hbody.nesting_le⟩
  rcases List.mem_cons.1 he with rfl | he
  · exact ⟨hunit, hq⟩
  · exact hbody.normal _ e he

theorem sequence {items : List Node} (span : Span) (hlength : 2 ≤ items.length)
    (hitem : ∀ n ∈ items, n.IsItem) (hitems : ∀ n ∈ items, NormalWithin k n) :
    NormalWithin k (.sequence span items) := by
  refine ⟨fun depth e he => ?_, nestingAll_le fun n hn => (hitems n hn).nesting_le⟩
  rcases List.mem_cons.1 he with rfl | he
  · exact ⟨hlength, hitem⟩
  · obtain ⟨n, hn, he⟩ := mem_preorderAll he
    exact (hitems n hn).normal _ e he

theorem alternation {branches : List Node} (span : Span) (hlength : 2 ≤ branches.length)
    (hbranch : ∀ n ∈ branches, n.IsBranch) (hbranches : ∀ n ∈ branches, NormalWithin k n) :
    NormalWithin k (.alternation span branches) := by
  refine ⟨fun depth e he => ?_, nestingAll_le fun n hn => (hbranches n hn).nesting_le⟩
  rcases List.mem_cons.1 he with rfl | he
  · exact ⟨hlength, hbranch⟩
  · obtain ⟨n, hn, he⟩ := mem_preorderAll he
    exact (hbranches n hn).normal _ e he

theorem concatenation {ns : List Node} (offset : Nat) (h : ∀ n ∈ ns, n.IsItem ∧ NormalWithin k n) :
    (Node.concatenation offset ns).IsBranch ∧ NormalWithin k (.concatenation offset ns) := by
  match ns, h with
  | [], _ => exact ⟨trivial, empty offset⟩
  | [n], h =>
    obtain ⟨hitem, hn⟩ := h n (by simp)
    refine ⟨?_, hn⟩
    cases n <;> trivial
  | n :: m :: ns, h =>
    exact ⟨trivial, sequence _ (by simp) (fun x hx => (h x hx).1) fun x hx => (h x hx).2⟩

theorem ofBranches {n : Node} {ns : List Node} (h : ∀ m ∈ n :: ns, m.IsBranch ∧ NormalWithin k m) :
    NormalWithin k (Node.ofBranches (n :: ns)) := by
  have hreverse : ∀ m ∈ (n :: ns).reverse, m.IsBranch ∧ NormalWithin k m := by
    intro m hm
    exact h m (List.mem_reverse.1 hm)
  unfold Node.ofBranches
  match (n :: ns).reverse, hreverse with
  | [], _ => exact empty 0
  | [m], hm => exact (hm m (by simp)).2
  | m :: m' :: ms, hm =>
    exact alternation _ (by simp) (fun x hx => (hm x hx).1) fun x hx => (hm x hx).2

end Node.NormalWithin

/-- A level at which groups may still nest `k` deep. -/
structure Level.NormalWithin (k : Nat) (l : Level) : Prop where
  items : ∀ n ∈ l.items, n.IsItem ∧ n.NormalWithin k
  branches : ∀ n ∈ l.branches, n.IsBranch ∧ n.NormalWithin k

namespace Level.NormalWithin

variable {k : Nat} {l : Level}

theorem fresh (k : Nat) : NormalWithin k .fresh :=
  ⟨by simp [Level.fresh], by simp [Level.fresh]⟩

theorem branch (h : NormalWithin k l) (offset : Nat) :
    (l.branch offset).IsBranch ∧ (l.branch offset).NormalWithin k :=
  Node.NormalWithin.concatenation offset fun n hn => h.items n (List.mem_reverse.1 hn)

theorem content (h : NormalWithin k l) (offset : Nat) : (l.content offset).NormalWithin k := by
  refine .ofBranches fun n hn => ?_
  rcases List.mem_cons.1 hn with rfl | hn
  · exact h.branch offset
  · exact h.branches n hn

theorem push {n : Node} (h : NormalWithin k l) (hitem : n.IsItem) (hn : n.NormalWithin k) :
    NormalWithin k (l.push n) := by
  refine ⟨fun m hm => ?_, h.branches⟩
  rcases List.mem_cons.1 hm with rfl | hm
  · exact ⟨hitem, hn⟩
  · exact h.items m hm

theorem of_push {n : Node} (h : NormalWithin k (l.push n)) :
    NormalWithin k l ∧ n.IsItem ∧ n.NormalWithin k := by
  refine ⟨⟨fun m hm => ?_, h.branches⟩, h.items n List.mem_cons_self⟩
  exact h.items m (List.mem_cons_of_mem n hm)

theorem separate (h : NormalWithin k l) (offset : Nat) : NormalWithin k (l.separate offset) := by
  refine ⟨by simp [Level.separate], fun n hn => ?_⟩
  rcases List.mem_cons.1 hn with rfl | hn
  · exact h.branch offset
  · exact h.branches n hn

end Level.NormalWithin

/-- Open groups around a level at which groups may still nest `k` deep. -/
def OpenGroup.AllNormal : Nat → List OpenGroup → Prop
  | _, [] => True
  | k, g :: outer => g.kind.Valid ∧ g.outer.NormalWithin (k + 1) ∧ AllNormal (k + 1) outer

/-- The invariant of a builder: what it holds is normal, and open and closed groups together keep to
the limit. -/
def Builder.Normal (b : Builder) : Prop :=
  ∃ k, k + b.pending.length = maxNesting ∧ b.level.NormalWithin k ∧ OpenGroup.AllNormal k b.pending

theorem Builder.normal_fresh : Builder.fresh.Normal :=
  ⟨maxNesting, rfl, .fresh maxNesting, trivial⟩

theorem Node.IsItem.isUnit {n : Node} (h : n.IsItem) (hn : n.isQuantified = false) : n.IsUnit := by
  cases n <;> trivial

theorem Builder.Step.normal {b b' : Builder} {t : Token} (h : b.Step t b') (hb : b.Normal)
    (ht : t.kind.Valid) : b'.Normal := by
  obtain ⟨k, hk, hlevel, hpending⟩ := hb
  cases h with
  | atom l pending span a => exact ⟨k, hk, hlevel.push trivial (.atom span ht), hpending⟩
  | bar l pending span => exact ⟨k, hk, hlevel.separate span.start, hpending⟩
  | quantifier l n pending span q hn =>
    obtain ⟨hl, hitem, hnormal⟩ := hlevel.of_push
    exact ⟨k, hk, hl.push trivial (.quantified _ (hitem.isUnit hn) ht hnormal), hpending⟩
  | groupOpen l pending span kind hdepth =>
    obtain ⟨k, rfl⟩ : ∃ k', k = k' + 1 := ⟨k - 1, by simp at hk; omega⟩
    exact ⟨k, by simp at hk ⊢; omega, .fresh k, ht, hlevel, hpending⟩
  | groupClose l g pending span =>
    obtain ⟨hkind, houter, hpending⟩ := hpending
    have hgroup := Node.NormalWithin.group ⟨g.start, span.stop⟩ hkind (hlevel.content span.start)
    exact ⟨k + 1, by simp at hk ⊢; omega, houter.push trivial hgroup, hpending⟩

theorem buildTree_normalWithin {tokens : List Token} {length : Nat} {tree : Node}
    (h : buildTree tokens length = .ok tree) (htokens : ∀ t ∈ tokens, t.kind.Valid) :
    tree.NormalWithin maxNesting := by
  have hrun : Builder.fresh.Normal → (∀ t ∈ tokens, t.kind.Valid) →
      tree.NormalWithin maxNesting := by
    rw [buildTree_eq_run] at h
    refine Builder.run_induct (P := fun b ts => b.Normal → (∀ t ∈ ts, t.kind.Valid) →
      tree.NormalWithin maxNesting) ?_ ?_ h
    · rintro l rfl ⟨k, rfl, hlevel, -⟩ -
      exact hlevel.content length
    · intro b b' t ts hstep ih hb hts
      exact ih (hstep.normal hb (hts t (by simp))) fun u hu => hts u (by simp [hu])
  exact hrun Builder.normal_fresh htokens

theorem parse_normal {pattern : Text} {tree : Node} (h : parse pattern = .ok tree) :
    (∀ e ∈ tree.preorder 0, e.2.Normal) ∧ tree.nesting ≤ 250 := by
  obtain ⟨tokens, htokens, htree⟩ := exists_of_bind_ok h
  have hvalid := lex_valid pattern
  rw [tokenize_eq_ok_iff.1 htokens] at hvalid
  have hnormal := buildTree_normalWithin htree hvalid
  exact ⟨hnormal.normal 0, hnormal.nesting_le⟩

theorem parse_normal_named_group :
    let pattern : Text := ['a', '(', '?', '<', 'n', '>', '[', 'b', '-', 'd', '\\', 'w', ']', '|',
      '\\', 'p', 'L', ')', '{', '2', ',', '3', '}']
    let tree : Node := .sequence ⟨0, 23⟩ [.atom ⟨0, 1⟩ (.char 'a'),
      .quantified ⟨1, 23⟩ (.group ⟨1, 18⟩ (.named ['n']) (.alternation ⟨6, 17⟩
        [.atom ⟨6, 13⟩ (.charClass ⟨false, [.range 'b' 'd', .set (.shorthand 'w')]⟩),
          .atom ⟨14, 17⟩ (.escape (.property false ['L']))])) ⟨.between 2 3, .greedy⟩]
    parse pattern = .ok tree ∧ (∀ e ∈ tree.preorder 0, e.2.Normal) ∧ tree.nesting ≤ 250 := by
  intro pattern tree
  have hlex : lex pattern = ⟨[⟨⟨0, 1⟩, .atom (.char 'a')⟩, ⟨⟨1, 6⟩, .groupOpen (.named ['n'])⟩,
      ⟨⟨6, 13⟩, .atom (.charClass ⟨false, [.range 'b' 'd', .set (.shorthand 'w')]⟩)⟩,
      ⟨⟨13, 14⟩, .bar⟩, ⟨⟨14, 17⟩, .atom (.escape (.property false ['L']))⟩, ⟨⟨17, 18⟩, .groupClose⟩,
      ⟨⟨18, 23⟩, .quantifier ⟨.between 2 3, .greedy⟩⟩], none⟩ := by
    decide +kernel
  have h : parse pattern = .ok tree := by
    rw [parse, tokenize_eq_ok_iff.2 hlex, ok_bind, buildTree_eq_run]
    rfl
  exact ⟨h, parse_normal h⟩

end PatternAudit.Grammar
