import PatternAudit.Proofs.OnePass
import PatternAudit.Proofs.Tiling

set_option autoImplicit false

/-!
# Where nodes lie

Each node of a tree covers a stretch of the pattern that can be cut out, and only empty nodes cover
nothing. The children of a node follow each other inside it, and its kind says where its ends stand
against theirs. `parse_placed` says so of every node of every tree.
-/
namespace PatternAudit.Grammar

def Node.IsEmpty : Node → Prop
  | .empty _ => True
  | _ => False

/-- Where the ends of a node stand against those of its children. -/
def Node.Framed : Node → Prop
  | .empty _ | .atom _ _ => True
  | .group span _ body => span.start < body.span.start ∧ body.span.stop < span.stop
  | .quantified span body _ => span.start = body.span.start ∧ body.span.stop < span.stop
  | .sequence span nodes | .alternation span nodes =>
    ∃ first ∈ nodes.head?, ∃ last ∈ nodes.getLast?, span = first.spanTo last

/-- How a node lies in a pattern, and its children in the node. -/
structure Node.Placed (pattern : Text) (n : Node) : Prop where
  starts : Text.isBoundary pattern n.span.start = true
  stops : Text.isBoundary pattern n.span.stop = true
  start_le : n.span.start ≤ n.span.stop
  stop_le : n.span.stop ≤ Text.byteLength pattern
  empty_iff : n.span.start = n.span.stop ↔ n.IsEmpty
  inside : ∀ c ∈ n.children, n.span.start ≤ c.span.start ∧ c.span.stop ≤ n.span.stop
  ordered : n.children.Pairwise fun c d => c.span.stop ≤ d.span.start
  framed : n.Framed

/-- The text of a node can be cut out of the pattern. -/
theorem Node.Placed.isSome_text? {pattern : Text} {n : Node} (h : n.Placed pattern) :
    (n.text? pattern).isSome = true :=
  Text.isSome_slice? h.start_le h.starts h.stops

/-- A node and all nodes below it have their place. -/
def Node.AllPlaced (pattern : Text) (n : Node) : Prop :=
  ∀ depth, ∀ e ∈ n.preorder depth, e.2.Placed pattern

section

variable {pattern : Text}

theorem Node.AllPlaced.placed {n : Node} (h : n.AllPlaced pattern) : n.Placed pattern := by
  cases n <;> exact h 0 (0, _) List.mem_cons_self

theorem Node.placed_of_mem_preorderAll {ns : List Node} (hns : ∀ n ∈ ns, n.AllPlaced pattern)
    (depth : Nat) : ∀ e ∈ preorderAll depth ns, e.2.Placed pattern := by
  induction ns with
  | nil => simp [preorderAll]
  | cons n ns ih =>
    rw [preorderAll, List.forall_mem_append]
    exact ⟨hns n (by simp) depth, ih fun m hm => hns m (by simp [hm])⟩

theorem Node.Placed.allPlaced {n : Node} (h : n.Placed pattern)
    (hchildren : ∀ c ∈ n.children, c.AllPlaced pattern) : n.AllPlaced pattern := by
  intro depth e he
  cases n with
  | empty offset => rwa [List.mem_singleton.1 he]
  | atom span a => rwa [List.mem_singleton.1 he]
  | group span kind body =>
    rcases List.mem_cons.1 he with rfl | he
    · exact h
    · exact hchildren body List.mem_cons_self _ e he
  | quantified span body q =>
    rcases List.mem_cons.1 he with rfl | he
    · exact h
    · exact hchildren body List.mem_cons_self _ e he
  | sequence span nodes =>
    rcases List.mem_cons.1 he with rfl | he
    · exact h
    · exact placed_of_mem_preorderAll hchildren _ e he
  | alternation span nodes =>
    rcases List.mem_cons.1 he with rfl | he
    · exact h
    · exact placed_of_mem_preorderAll hchildren _ e he

/-! Nodes between two places of the pattern. -/

structure Node.LiesIn (pattern : Text) (start stop : Nat) (n : Node) : Prop where
  allPlaced : n.AllPlaced pattern
  start_le : start ≤ n.span.start
  le_stop : n.span.stop ≤ stop

theorem Node.LiesIn.widen {start start' stop stop' : Nat} {n : Node}
    (h : n.LiesIn pattern start stop) (hstart : start' ≤ start) (hstop : stop ≤ stop') :
    n.LiesIn pattern start' stop' :=
  ⟨h.allPlaced, Nat.le_trans hstart h.start_le, Nat.le_trans h.le_stop hstop⟩

theorem Node.LiesIn.le {start stop : Nat} {n : Node} (h : n.LiesIn pattern start stop) :
    start ≤ stop :=
  Nat.le_trans h.start_le (Nat.le_trans h.allPlaced.placed.start_le h.le_stop)

theorem Node.liesIn_empty {offset : Nat} (hoffset : Text.isBoundary pattern offset = true) :
    (Node.empty offset).LiesIn pattern offset offset := by
  have hplaced : (Node.empty offset).Placed pattern :=
    ⟨hoffset, hoffset, Nat.le_refl _, Text.le_byteLength_of_isBoundary hoffset,
      ⟨fun _ => trivial, fun _ => rfl⟩, by simp [children], .nil, trivial⟩
  exact ⟨hplaced.allPlaced (by simp [children]), Nat.le_refl _, Nat.le_refl _⟩

/-- Nodes that lie one after the other, from left to right. -/
structure InTurn (pattern : Text) (start stop : Nat) (ns : List Node) : Prop where
  lies : ∀ n ∈ ns, n.LiesIn pattern start stop
  ordered : ns.Pairwise fun n m => n.span.stop ≤ m.span.start

theorem InTurn.nil (start stop : Nat) : InTurn pattern start stop [] :=
  ⟨by simp, .nil⟩

theorem InTurn.widen {start stop stop' : Nat} {ns : List Node} (h : InTurn pattern start stop ns)
    (hstop : stop ≤ stop') : InTurn pattern start stop' ns :=
  ⟨fun n hn => (h.lies n hn).widen (Nat.le_refl _) hstop, h.ordered⟩

theorem InTurn.append {start mid stop : Nat} {ns : List Node} {n : Node}
    (h : InTurn pattern start mid ns) (hle : start ≤ mid) (hn : n.LiesIn pattern mid stop) :
    InTurn pattern start stop (ns ++ [n]) := by
  constructor
  · intro m hm
    rcases List.mem_append.1 hm with hm | hm
    · exact (h.lies m hm).widen (Nat.le_refl _) hn.le
    · rw [List.mem_singleton.1 hm]
      exact hn.widen hle (Nat.le_refl _)
  · refine List.pairwise_append.2 ⟨h.ordered, List.pairwise_singleton _ _, ?_⟩
    intro m hm k hk
    rw [List.mem_singleton.1 hk]
    exact Nat.le_trans (h.lies m hm).le_stop hn.start_le

theorem InTurn.stop_le_getLast {start stop : Nat} {ns : List Node} (h : InTurn pattern start stop ns)
    (hne : ns ≠ []) : ∀ n ∈ ns, n.span.stop ≤ (ns.getLast hne).span.stop := by
  have hlast := (h.lies _ (List.getLast_mem hne)).allPlaced.placed.start_le
  have hordered := h.ordered
  rw [← List.dropLast_concat_getLast hne] at hordered
  intro n hn
  rw [← List.dropLast_concat_getLast hne] at hn
  rcases List.mem_append.1 hn with hn | hn
  · have := (List.pairwise_append.1 hordered).2.2 n hn _ (List.mem_singleton.2 rfl)
    omega
  · exact Nat.le_of_eq (congrArg (·.span.stop) (List.mem_singleton.1 hn))

theorem InTurn.start_le {start stop : Nat} {n : Node} {ns : List Node}
    (h : InTurn pattern start stop (n :: ns)) : ∀ m ∈ n :: ns, n.span.start ≤ m.span.start := by
  have hn := (h.lies n (by simp)).allPlaced.placed.start_le
  intro m hm
  rcases List.mem_cons.1 hm with rfl | hm
  · exact Nat.le_refl _
  · have := (List.pairwise_cons.1 h.ordered).1 m hm
    omega

/-- A node lies between two places if its children do and it begins with the first and ends with the
last of them. -/
theorem InTurn.liesIn_parent {start stop : Nat} {parent first : Node} {others : List Node}
    (h : InTurn pattern start stop (first :: others)) (hne : others ≠ [])
    (hchildren : parent.children = first :: others)
    (hspan : parent.span = first.spanTo (others.getLast hne))
    (hlt : first.span.start < (others.getLast hne).span.stop) (hempty : ¬ parent.IsEmpty)
    (hframed : parent.Framed) : parent.LiesIn pattern start stop := by
  have hfirst := h.lies first (by simp)
  have hlast := h.lies (others.getLast hne) (List.mem_cons_of_mem first (List.getLast_mem hne))
  have hends : (first :: others).getLast (by simp) = others.getLast hne := List.getLast_cons hne
  have hplaced : parent.Placed pattern := by
    refine ⟨?_, ?_, ?_, ?_, ⟨fun heq => ?_, fun h => absurd h hempty⟩, ?_, ?_, hframed⟩
    · rw [hspan]
      exact hfirst.allPlaced.placed.starts
    · rw [hspan]
      exact hlast.allPlaced.placed.stops
    · rw [hspan]
      exact Nat.le_of_lt hlt
    · rw [hspan]
      exact hlast.allPlaced.placed.stop_le
    · rw [hspan] at heq
      exact absurd heq (Nat.ne_of_lt hlt)
    · rw [hchildren, hspan]
      intro c hc
      have hstop := h.stop_le_getLast (by simp) c hc
      rw [hends] at hstop
      exact ⟨h.start_le c hc, hstop⟩
    · rw [hchildren]
      exact h.ordered
  have hchild : ∀ c ∈ parent.children, c.AllPlaced pattern := by
    rw [hchildren]
    exact fun c hc => (h.lies c hc).allPlaced
  refine ⟨hplaced.allPlaced hchild, ?_, ?_⟩
  · rw [hspan]
    exact hfirst.start_le
  · rw [hspan]
    exact hlast.le_stop

/-- Items give a node up to `offset`, which is the place of the node if there are none. -/
theorem InTurn.concatenation {start stop offset : Nat} {items : List Node}
    (h : InTurn pattern start stop items) (hne : ∀ n ∈ items, ¬ n.IsEmpty) (hstart : start ≤ offset)
    (hstop : stop ≤ offset) (hoffset : Text.isBoundary pattern offset = true) :
    (Node.concatenation offset items).LiesIn pattern start offset := by
  match items with
  | [] => exact (Node.liesIn_empty hoffset).widen hstart (Nat.le_refl _)
  | [n] => exact (h.lies n (by simp)).widen (Nat.le_refl _) hstop
  | n :: m :: ns =>
    have hn := (h.lies n (by simp)).allPlaced.placed
    have hlast := List.getLast_mem (l := m :: ns) (by simp)
    have hlt : n.span.start < ((m :: ns).getLast (by simp)).span.stop := by
      have hnonempty : n.span.start ≠ n.span.stop := fun heq => hne n (by simp) (hn.empty_iff.1 heq)
      have hordered := (List.pairwise_cons.1 h.ordered).1 _ hlast
      have hle := (h.lies _ (List.mem_cons_of_mem n hlast)).allPlaced.placed.start_le
      have := hn.start_le
      omega
    have hframed : (Node.concatenation offset (n :: m :: ns)).Framed :=
      ⟨n, rfl, _, List.getLast?_eq_some_getLast (by simp), by simp [List.getLast_cons]⟩
    exact (h.liesIn_parent (by simp) rfl rfl hlt id hframed).widen (Nat.le_refl _) hstop

theorem Node.choice_of_ne_nil {first : Node} {others : List Node} (hne : others ≠ []) :
    choice first others = .alternation (first.spanTo (others.getLast hne)) (first :: others) := by
  cases others with
  | nil => contradiction
  | cons n ns => rfl

theorem InTurn.choice {start stop : Nat} {first : Node} {others : List Node}
    (h : InTurn pattern start stop (first :: others))
    (hlt : ∀ hne : others ≠ [], first.span.start < (others.getLast hne).span.stop) :
    (Node.choice first others).LiesIn pattern start stop := by
  by_cases hne : others = []
  · subst hne
    exact h.lies first (by simp)
  · rw [Node.choice_of_ne_nil hne]
    have hlast : (first :: others).getLast? = some (others.getLast hne) := by
      rw [List.getLast?_eq_some_getLast (by simp), List.getLast_cons hne]
    exact h.liesIn_parent hne rfl rfl (hlt hne) id ⟨first, rfl, _, hlast, rfl⟩

/-! What a builder holds. -/

/-- A level that begins at `start`, read up to `stop`. -/
structure Level.PlacedUpTo (pattern : Text) (start stop : Nat) (l : Level) : Prop where
  /-- All branches end before the bar after them does, and the items stand behind that. -/
  parts : ∃ bar, start ≤ bar ∧ bar ≤ stop ∧ InTurn pattern start bar l.branches.reverse ∧
    (∀ n ∈ l.branches, n.span.stop < bar) ∧ InTurn pattern bar stop l.items.reverse
  nonempty : ∀ n ∈ l.items, ¬ n.IsEmpty

theorem Level.placedUpTo_fresh (offset : Nat) : Level.fresh.PlacedUpTo pattern offset offset :=
  ⟨⟨offset, Nat.le_refl _, Nat.le_refl _, .nil _ _, by simp [fresh], .nil _ _⟩, by simp [fresh]⟩

namespace Level.PlacedUpTo

variable {start stop : Nat} {l : Level}

theorem widen {stop' : Nat} (h : l.PlacedUpTo pattern start stop) (hstop : stop ≤ stop') :
    l.PlacedUpTo pattern start stop' := by
  obtain ⟨⟨bar, hstart, hbar, hbranches, hlt, hitems⟩, hne⟩ := h
  exact ⟨⟨bar, hstart, Nat.le_trans hbar hstop, hbranches, hlt, hitems.widen hstop⟩, hne⟩

theorem push {mid : Nat} {n : Node} (h : l.PlacedUpTo pattern start mid) (hn : n.LiesIn pattern mid stop)
    (hempty : ¬ n.IsEmpty) : (l.push n).PlacedUpTo pattern start stop := by
  obtain ⟨⟨bar, hstart, hbar, hbranches, hlt, hitems⟩, hne⟩ := h
  refine ⟨⟨bar, hstart, Nat.le_trans hbar hn.le, hbranches, hlt, ?_⟩, ?_⟩
  · rw [Level.push, List.reverse_cons]
    exact hitems.append hbar hn
  · intro m hm
    rcases List.mem_cons.1 hm with rfl | hm
    · exact hempty
    · exact hne m hm

/-- The latest item can be taken back, and then the level is read up to where it began. -/
theorem of_push {n : Node} (h : (l.push n).PlacedUpTo pattern start stop) :
    l.PlacedUpTo pattern start n.span.start ∧ n.LiesIn pattern n.span.start stop := by
  obtain ⟨⟨bar, hstart, hbar, hbranches, hlt, hitems⟩, hne⟩ := h
  rw [Level.push, List.reverse_cons] at hitems
  have hn := hitems.lies n (by simp)
  have hbefore := List.pairwise_append.1 hitems.ordered
  refine ⟨⟨⟨bar, hstart, hn.start_le, hbranches, hlt, ?_, hbefore.1⟩, ?_⟩, ?_⟩
  · intro m hm
    have hm' := hitems.lies m (List.mem_append_left _ hm)
    exact ⟨hm'.allPlaced, hm'.start_le, hbefore.2.2 m hm n (by simp)⟩
  · exact fun m hm => hne m (List.mem_cons_of_mem n hm)
  · exact ⟨hn.allPlaced, Nat.le_refl _, hn.le_stop⟩

theorem branch {offset : Nat} (h : l.PlacedUpTo pattern start stop) (hstop : stop ≤ offset)
    (hoffset : Text.isBoundary pattern offset = true) :
    ∃ bar, start ≤ bar ∧ bar ≤ stop ∧ InTurn pattern start bar l.branches.reverse ∧
      (∀ n ∈ l.branches, n.span.stop < bar) ∧ (l.branch offset).LiesIn pattern bar offset := by
  obtain ⟨⟨bar, hstart, hbar, hbranches, hlt, hitems⟩, hne⟩ := h
  refine ⟨bar, hstart, hbar, hbranches, hlt, ?_⟩
  have hitemsNe : ∀ n ∈ l.items.reverse, ¬ n.IsEmpty := fun n hn => hne n (List.mem_reverse.1 hn)
  exact hitems.concatenation hitemsNe (Nat.le_trans hbar hstop) hstop hoffset

theorem separate {span : Span} (h : l.PlacedUpTo pattern start stop) (hstop : stop ≤ span.start)
    (hlt : span.start < span.stop) (hoffset : Text.isBoundary pattern span.start = true) :
    (l.separate span.start).PlacedUpTo pattern start span.stop := by
  obtain ⟨bar, hstart, hbar, hbranches, hbefore, hbranch⟩ := h.branch hstop hoffset
  have hall := hbranches.append hstart hbranch
  refine ⟨⟨span.stop, ?_, Nat.le_refl _, ?_, ?_, .nil _ _⟩, by simp [Level.separate]⟩
  · omega
  · rw [Level.separate, List.reverse_cons]
    exact hall.widen (Nat.le_of_lt hlt)
  · intro n hn
    have hle := (hall.lies n (by simpa [Level.separate, or_comm] using hn)).le_stop
    omega

theorem content {offset : Nat} (h : l.PlacedUpTo pattern start stop) (hstop : stop ≤ offset)
    (hoffset : Text.isBoundary pattern offset = true) :
    (l.content offset).LiesIn pattern start offset := by
  obtain ⟨bar, hstart, hbar, hbranches, hbefore, hbranch⟩ := h.branch hstop hoffset
  have hall := hbranches.append hstart hbranch
  rw [Level.content, Node.ofBranches, List.reverse_cons]
  match hrev : l.branches.reverse with
  | [] => exact hbranch.widen hstart (Nat.le_refl _)
  | first :: others =>
    rw [hrev, List.cons_append] at hall
    refine hall.choice fun hne => ?_
    -- a bar stands between the first branch and the last
    have hfirst := (hall.lies first (by simp)).allPlaced.placed.start_le
    have hbar := hbefore first (by rw [← List.mem_reverse, hrev]; simp)
    have hle := hbranch.start_le
    have := hbranch.allPlaced.placed.start_le
    rw [List.getLast_concat]
    omega

end Level.PlacedUpTo

/-- Open groups around a level that begins at `start`. -/
def OpenGroup.AllPlaced (pattern : Text) : Nat → List OpenGroup → Prop
  | _, [] => True
  | start, g :: outer => g.start < start ∧ Text.isBoundary pattern g.start = true ∧
    ∃ outerStart, g.outer.PlacedUpTo pattern outerStart g.start ∧ AllPlaced pattern outerStart outer

/-- The invariant of a builder that has read its pattern up to `stop`. -/
def Builder.PlacedUpTo (pattern : Text) (stop : Nat) (b : Builder) : Prop :=
  ∃ start, b.level.PlacedUpTo pattern start stop ∧ OpenGroup.AllPlaced pattern start b.pending

theorem Builder.placedUpTo_fresh : Builder.fresh.PlacedUpTo pattern 0 :=
  ⟨0, Level.placedUpTo_fresh 0, trivial⟩

/-- A token covers a stretch of the pattern behind `offset`. -/
structure Token.LiesBehind (pattern : Text) (offset : Nat) (t : Token) : Prop where
  behind : offset ≤ t.span.start
  nonempty : t.span.start < t.span.stop
  starts : Text.isBoundary pattern t.span.start = true
  stops : Text.isBoundary pattern t.span.stop = true

theorem Builder.Step.placedUpTo {b b' : Builder} {t : Token} {offset : Nat} (h : b.Step t b')
    (hb : b.PlacedUpTo pattern offset) (ht : t.LiesBehind pattern offset) :
    b'.PlacedUpTo pattern t.span.stop := by
  obtain ⟨start, hlevel, hpending⟩ := hb
  obtain ⟨hbehind, hnonempty, hstarts, hstops⟩ := ht
  have hstopLe := Text.le_byteLength_of_isBoundary hstops
  cases h with
  | atom l pending span a =>
    have hatom : (Node.atom span a).Placed pattern :=
      ⟨hstarts, hstops, Nat.le_of_lt hnonempty, hstopLe, ⟨fun h => absurd h (Nat.ne_of_lt hnonempty),
        False.elim⟩, by simp [Node.children], .nil, trivial⟩
    have hlies : (Node.atom span a).LiesIn pattern offset span.stop :=
      ⟨hatom.allPlaced (by simp [Node.children]), hbehind, Nat.le_refl _⟩
    exact ⟨start, hlevel.push hlies id, hpending⟩
  | bar l pending span => exact ⟨start, hlevel.separate hbehind hnonempty hstarts, hpending⟩
  | quantifier l n pending span q hn =>
    obtain ⟨hl, hbody⟩ := hlevel.of_push
    have hplaced := hbody.allPlaced.placed
    have hlt : n.span.stop < span.stop := by
      have hle := hbody.le_stop
      change offset ≤ span.start at hbehind
      change span.start < span.stop at hnonempty
      omega
    have hle : n.span.start < span.stop := Nat.lt_of_le_of_lt hplaced.start_le hlt
    have hquantified : (Node.quantified ⟨n.span.start, span.stop⟩ n q).Placed pattern :=
      ⟨hplaced.starts, hstops, Nat.le_of_lt hle, hstopLe, ⟨fun h => absurd h (Nat.ne_of_lt hle),
        False.elim⟩, by simpa [Node.children, Node.span] using Nat.le_of_lt hlt,
        List.pairwise_singleton _ _, rfl, hlt⟩
    have hlies : (Node.quantified ⟨n.span.start, span.stop⟩ n q).LiesIn pattern n.span.start span.stop :=
      ⟨hquantified.allPlaced (by simpa [Node.children] using hbody.allPlaced), Nat.le_refl _,
        Nat.le_refl _⟩
    exact ⟨start, hl.push hlies id, hpending⟩
  | groupOpen l pending span kind hdepth =>
    exact ⟨span.stop, Level.placedUpTo_fresh span.stop, hnonempty, hstarts, start,
      hlevel.widen hbehind, hpending⟩
  | groupClose l g pending span =>
    obtain ⟨hopen, hopenStarts, outerStart, houter, hpending⟩ := hpending
    have hbody := hlevel.content hbehind hstarts
    have hplaced := hbody.allPlaced.placed
    have hfirst : g.start < (l.content span.start).span.start := Nat.lt_of_lt_of_le hopen hbody.start_le
    have hlast : (l.content span.start).span.stop < span.stop :=
      Nat.lt_of_le_of_lt hbody.le_stop hnonempty
    have hlt : g.start < span.stop :=
      Nat.lt_of_lt_of_le hfirst (Nat.le_trans hplaced.start_le (Nat.le_of_lt hlast))
    have hgroup : (Node.group ⟨g.start, span.stop⟩ g.kind (l.content span.start)).Placed pattern :=
      ⟨hopenStarts, hstops, Nat.le_of_lt hlt, hstopLe, ⟨fun h => absurd h (Nat.ne_of_lt hlt),
        False.elim⟩, by simpa [Node.children, Node.span] using
          ⟨Nat.le_of_lt hfirst, Nat.le_of_lt hlast⟩, List.pairwise_singleton _ _, hfirst, hlast⟩
    have hlies : (Node.group ⟨g.start, span.stop⟩ g.kind (l.content span.start)).LiesIn pattern
        g.start span.stop :=
      ⟨hgroup.allPlaced (by simpa [Node.children] using hbody.allPlaced), Nat.le_refl _, Nat.le_refl _⟩
    exact ⟨outerStart, houter.push hlies id, hpending⟩

/-- Tokens that follow each other behind `offset`. -/
def FollowFrom (pattern : Text) (offset : Nat) (ts : List Token) : Prop :=
  (∀ t ∈ ts, t.LiesBehind pattern offset) ∧ ts.Pairwise fun t u => t.span.stop ≤ u.span.start

theorem FollowFrom.tail {offset : Nat} {t : Token} {ts : List Token}
    (h : FollowFrom pattern offset (t :: ts)) : FollowFrom pattern t.span.stop ts := by
  obtain ⟨hlies, hordered⟩ := h
  obtain ⟨hnext, hordered⟩ := List.pairwise_cons.1 hordered
  refine ⟨fun u hu => ?_, hordered⟩
  obtain ⟨-, hnonempty, hstarts, hstops⟩ := hlies u (List.mem_cons_of_mem t hu)
  exact ⟨hnext u hu, hnonempty, hstarts, hstops⟩

theorem Tiling.followFrom {start stop : Nat} {ts : List Token} (h : Tiling pattern start ts stop) :
    FollowFrom pattern 0 ts := by
  refine ⟨fun t ht => ?_, h.ordered⟩
  exact ⟨Nat.zero_le _, h.nonempty t ht, (h.boundaries t ht).1, (h.boundaries t ht).2⟩

theorem Builder.run_allPlaced {b : Builder} {ts : List Token} {tree : Node}
    (h : b.run (Text.byteLength pattern) ts = .ok tree) {offset : Nat}
    (hoffset : offset ≤ Text.byteLength pattern) (hb : b.PlacedUpTo pattern offset)
    (hts : FollowFrom pattern offset ts) : tree.AllPlaced pattern := by
  refine Builder.run_induct (P := fun b ts => ∀ offset, offset ≤ Text.byteLength pattern →
    b.PlacedUpTo pattern offset → FollowFrom pattern offset ts → tree.AllPlaced pattern)
    ?_ ?_ h offset hoffset hb hts
  · rintro l rfl offset hoffset ⟨start, hlevel, -⟩ -
    exact (hlevel.content hoffset (Text.isBoundary_byteLength pattern)).allPlaced
  · intro b b' t ts hstep ih offset hoffset hb hts
    have ht := hts.1 t (by simp)
    exact ih t.span.stop (Text.le_byteLength_of_isBoundary ht.stops) (hstep.placedUpTo hb ht) hts.tail

theorem allPlaced_of_parse {root : Node} (h : parse pattern = .ok root) : root.AllPlaced pattern := by
  obtain ⟨tokens, hlex, htree⟩ := parse_eq_ok_iff.1 h
  obtain ⟨read, after, hpattern, htiled, -⟩ := lexFrom_tiled false 0 pattern
  have htiling := htiled.tiling [] rfl after
  change Tiling _ _ (lex pattern).tokens _ at htiling
  rw [List.nil_append, ← hpattern, hlex] at htiling
  rw [buildTree_eq_run] at htree
  exact Builder.run_allPlaced htree (Nat.zero_le _) Builder.placedUpTo_fresh htiling.followFrom

end

theorem parse_placed {pattern : Text} {root : Node} (h : parse pattern = .ok root) :
    ∀ e ∈ root.preorder 0, e.2.Placed pattern ∧ (e.2.text? pattern).isSome = true := by
  intro e he
  have hplaced := allPlaced_of_parse h 0 e he
  exact ⟨hplaced, hplaced.isSome_text?⟩

/-- The empty branch stands at the bar that ends it, and no node covers the comment. -/
theorem parse_placed_empty_branch :
    let pattern : Text := ['é', '|', '(', '?', '#', '-', ')', '(', '|', '\\', 'Q', 'a', '\\', 'E', ')',
      '{', '2', '}']
    let root : Node := .alternation ⟨0, 19⟩ [.atom ⟨0, 2⟩ (.char 'é'),
      .quantified ⟨8, 19⟩ (.group ⟨8, 16⟩ .capturing (.alternation ⟨9, 13⟩
        [.empty 9, .atom ⟨12, 13⟩ (.escape (.literal 'a'))])) ⟨.between 2 2, .greedy⟩]
    parse pattern = .ok root ∧
      ∀ e ∈ root.preorder 0, e.2.Placed pattern ∧ (e.2.text? pattern).isSome = true := by
  intro pattern root
  have hlex : lex pattern = ⟨[⟨⟨0, 2⟩, .atom (.char 'é')⟩, ⟨⟨2, 3⟩, .bar⟩,
      ⟨⟨8, 9⟩, .groupOpen .capturing⟩, ⟨⟨9, 10⟩, .bar⟩, ⟨⟨12, 13⟩, .atom (.escape (.literal 'a'))⟩,
      ⟨⟨15, 16⟩, .groupClose⟩, ⟨⟨16, 19⟩, .quantifier ⟨.between 2 2, .greedy⟩⟩], none⟩ := by
    decide +kernel
  have h : parse pattern = .ok root := by
    rw [parse, tokenize_eq_ok_iff.2 hlex, ok_bind, buildTree_eq_run]
    rfl
  exact ⟨h, parse_placed h⟩

end PatternAudit.Grammar
