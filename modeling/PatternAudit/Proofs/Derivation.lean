import PatternAudit.Proofs.Relocation

set_option autoImplicit false

/-!
# What trees are made of

Rules that never speak of open groups also say which tokens make up a nesting level: items follow each
other, bars end branches, a quantifier repeats the last item, and a group is one item made of a whole
level. Every tree comes from a derivation by these rules (`exists_level_of_buildTree`), and every
derivation gives a tree as long as its groups keep to the limit (`Level.MadeOf.buildTree`). Since a part
of a derivation is one again, each node of a tree is itself the tree of some of the tokens
(`cutFrom_of_buildTree`).
-/
namespace PatternAudit.Grammar

/-- A nesting level is what these tokens make up. -/
inductive Level.MadeOf : Level → List Token → Prop where
  | fresh : MadeOf .fresh []
  | atom {l : Level} {ts : List Token} (span : Span) (a : Atom) (h : MadeOf l ts) :
    MadeOf (l.push (.atom span a)) (ts ++ [⟨span, .atom a⟩])
  | bar {l : Level} {ts : List Token} (span : Span) (h : MadeOf l ts) :
    MadeOf (l.separate span.start) (ts ++ [⟨span, .bar⟩])
  | quantifier {l : Level} {n : Node} {ts : List Token} (span : Span) (q : Quantifier)
      (hn : n.isQuantified = false) (h : MadeOf (l.push n) ts) :
    MadeOf (l.push (.quantified ⟨n.span.start, span.stop⟩ n q)) (ts ++ [⟨span, .quantifier q⟩])
  | group {l body : Level} {ts us : List Token} (opening closing : Span) (kind : GroupKind)
      (h : MadeOf l ts) (hbody : MadeOf body us) :
    MadeOf (l.push (.group ⟨opening.start, closing.stop⟩ kind (body.content closing.start)))
      (ts ++ (⟨opening, .groupOpen kind⟩ :: (us ++ [⟨closing, .groupClose⟩])))

/-! From derivations to trees. -/

theorem Level.nesting_push (l : Level) (n : Node) : (l.push n).nesting = max n.nesting l.nesting := by
  simp only [nesting, push, Node.nestingAll]
  omega

theorem Level.nesting_separate (l : Level) (offset : Nat) : (l.separate offset).nesting = l.nesting := by
  simp only [nesting, separate, branch, Node.nestingAll, Node.nesting_concatenation,
    Node.nestingAll_reverse]
  omega

/-- The tokens of a level lead a builder to it, whatever groups are open around. -/
theorem Level.MadeOf.run {l : Level} {ts : List Token} (h : l.MadeOf ts) {outer : List OpenGroup}
    (hfits : outer.length + l.nesting ≤ maxNesting) (stop : Nat) (rest : List Token) :
    Builder.run stop ⟨.fresh, outer⟩ (ts ++ rest) = Builder.run stop ⟨l, outer⟩ rest := by
  induction h generalizing outer rest with
  | fresh => rfl
  | @atom l ts span a h ih =>
    rw [Level.nesting_push] at hfits
    rw [List.append_assoc, ih (by omega)]
    exact (Builder.Step.atom l outer span a).run stop rest
  | @bar l ts span h ih =>
    rw [Level.nesting_separate] at hfits
    rw [List.append_assoc, ih hfits]
    exact (Builder.Step.bar l outer span).run stop rest
  | @quantifier l n ts span q hn h ih =>
    rw [Level.nesting_push] at ih hfits
    rw [List.append_assoc, ih hfits]
    exact (Builder.Step.quantifier l n outer span q hn).run stop rest
  | @group l body ts us opening closing kind h hbody ih ihBody =>
    rw [Level.nesting_push, Node.nesting, Level.nesting_content] at hfits
    let opened : OpenGroup := ⟨opening.start, kind, l⟩
    have hopen : Builder.Step ⟨l, outer⟩ ⟨opening, .groupOpen kind⟩ ⟨.fresh, opened :: outer⟩ :=
      .groupOpen l outer opening kind (by omega)
    have hclose := Builder.Step.groupClose body opened outer closing
    have hinside : (opened :: outer).length + body.nesting ≤ maxNesting := by
      rw [List.length_cons]
      omega
    rw [List.append_assoc, ih (by omega), List.cons_append, hopen.run, List.append_assoc, ihBody hinside]
    exact hclose.run stop rest

theorem Level.MadeOf.buildTree {l : Level} {ts : List Token} (h : l.MadeOf ts)
    (hfits : l.nesting ≤ maxNesting) (stop : Nat) : buildTree ts stop = .ok (l.content stop) := by
  have houter : ([] : List OpenGroup).length + l.nesting ≤ maxNesting := by simpa using hfits
  have hrun := h.run houter stop []
  rw [List.append_nil] at hrun
  rw [buildTree_eq_run]
  exact hrun

/-- Tokens that are read without a fault keep to the limit, and they lead to no other level. -/
theorem Level.MadeOf.run_of_ok {l : Level} {ts : List Token} (h : l.MadeOf ts) {outer : List OpenGroup}
    (hopen : outer.length ≤ maxNesting) {stop : Nat} {rest : List Token} {tree : Node}
    (hrun : Builder.run stop ⟨.fresh, outer⟩ (ts ++ rest) = .ok tree) :
    outer.length + l.nesting ≤ maxNesting ∧ Builder.run stop ⟨l, outer⟩ rest = .ok tree := by
  induction h generalizing outer rest with
  | fresh => exact ⟨hopen, hrun⟩
  | @atom l ts span a h ih =>
    rw [List.append_assoc] at hrun
    obtain ⟨hfits, hrun⟩ := ih hopen hrun
    refine ⟨?_, ((Builder.Step.atom l outer span a).run stop rest).symm.trans hrun⟩
    rw [Level.nesting_push, Node.nesting]
    omega
  | @bar l ts span h ih =>
    rw [List.append_assoc] at hrun
    obtain ⟨hfits, hrun⟩ := ih hopen hrun
    refine ⟨?_, ((Builder.Step.bar l outer span).run stop rest).symm.trans hrun⟩
    rwa [Level.nesting_separate]
  | @quantifier l n ts span q hn h ih =>
    rw [List.append_assoc] at hrun
    obtain ⟨hfits, hrun⟩ := ih hopen hrun
    refine ⟨?_, ((Builder.Step.quantifier l n outer span q hn).run stop rest).symm.trans hrun⟩
    rw [Level.nesting_push] at hfits ⊢
    exact hfits
  | @group l body ts us opening closing kind h hbody ih ihBody =>
    rw [List.append_assoc, List.cons_append, List.append_assoc] at hrun
    obtain ⟨hfits, hrun⟩ := ih hopen hrun
    obtain ⟨b, hstep, hrun⟩ := exists_of_bind_ok hrun
    cases Builder.step_of_ok hstep with
    | groupOpen _ _ _ _ hdepth =>
      have hopened : (OpenGroup.mk opening.start kind l :: outer).length ≤ maxNesting := hdepth
      obtain ⟨hinside, hrun⟩ := ihBody hopened hrun
      have hclose := Builder.Step.groupClose body ⟨opening.start, kind, l⟩ outer closing
      refine ⟨?_, (hclose.run stop rest).symm.trans hrun⟩
      rw [Level.nesting_push, Node.nesting, Level.nesting_content]
      rw [List.length_cons] at hinside
      omega

theorem Level.MadeOf.of_buildTree {l : Level} {ts : List Token} (h : l.MadeOf ts) {stop : Nat}
    {tree : Node} (ht : Grammar.buildTree ts stop = .ok tree) :
    l.nesting ≤ maxNesting ∧ l.content stop = tree := by
  rw [buildTree_eq_run, ← List.append_nil ts] at ht
  obtain ⟨hfits, hrun⟩ := h.run_of_ok (Nat.zero_le _) ht
  exact ⟨by simpa using hfits, Except.ok.inj hrun⟩

/-! From trees to derivations. -/

/-- What the open groups around a level are made of. -/
def OpenGroup.AllMadeOf : List OpenGroup → List Token → Prop
  | [], ts => ts = []
  | g :: outer, ts => ∃ before us opening, ts = before ++ (us ++ [⟨opening, .groupOpen g.kind⟩]) ∧
    g.start = opening.start ∧ AllMadeOf outer before ∧ g.outer.MadeOf us

/-- The invariant of a builder that has read these tokens. -/
def Builder.MadeOf (b : Builder) (ts : List Token) : Prop :=
  ∃ before us, ts = before ++ us ∧ OpenGroup.AllMadeOf b.pending before ∧ b.level.MadeOf us

theorem Builder.madeOf_fresh : Builder.fresh.MadeOf [] :=
  ⟨[], [], rfl, rfl, .fresh⟩

theorem Builder.Step.madeOf {b b' : Builder} {t : Token} {ts : List Token} (h : b.Step t b')
    (hb : b.MadeOf ts) : b'.MadeOf (ts ++ [t]) := by
  obtain ⟨before, us, rfl, hpending, hlevel⟩ := hb
  cases h with
  | atom l pending span a => exact ⟨before, _, List.append_assoc .., hpending, .atom span a hlevel⟩
  | bar l pending span => exact ⟨before, _, List.append_assoc .., hpending, .bar span hlevel⟩
  | quantifier l n pending span q hn =>
    exact ⟨before, _, List.append_assoc .., hpending, .quantifier span q hn hlevel⟩
  | groupOpen l pending span kind hdepth =>
    have hopened : OpenGroup.AllMadeOf (⟨span.start, kind, l⟩ :: pending)
        (before ++ us ++ [⟨span, .groupOpen kind⟩]) :=
      ⟨before, us, span, List.append_assoc .., rfl, hpending, hlevel⟩
    exact ⟨_, [], (List.append_nil _).symm, hopened, .fresh⟩
  | groupClose l g pending span =>
    obtain ⟨before, vs, opening, rfl, hstart, hpending, houter⟩ := hpending
    have hgroup := houter.group opening span g.kind hlevel
    rw [← hstart] at hgroup
    exact ⟨before, _, by simp, hpending, hgroup⟩

theorem exists_level_of_run {b : Builder} {stop : Nat} {ts : List Token} {tree : Node}
    (h : b.run stop ts = .ok tree) {before : List Token} (hb : b.MadeOf before) :
    ∃ l : Level, l.MadeOf (before ++ ts) ∧ l.content stop = tree := by
  refine Builder.run_induct (P := fun b ts => ∀ before, b.MadeOf before →
    ∃ l : Level, l.MadeOf (before ++ ts) ∧ l.content stop = tree) ?_ ?_ h before hb
  · rintro l hl before ⟨outer, us, rfl, hpending, hlevel⟩
    have hnone : outer = [] := hpending
    rw [hnone, List.nil_append, List.append_nil]
    exact ⟨l, hlevel, hl⟩
  · intro b b' t ts hstep ih before hb
    have hnext := ih (before ++ [t]) (hstep.madeOf hb)
    rwa [List.append_assoc] at hnext

theorem exists_level_of_buildTree {tokens : List Token} {length : Nat} {tree : Node}
    (h : buildTree tokens length = .ok tree) :
    ∃ l : Level, l.MadeOf tokens ∧ l.content length = tree := by
  rw [buildTree_eq_run] at h
  exact exists_level_of_run h Builder.madeOf_fresh

/-! Where the tree of a level begins and ends. -/

theorem nextOffset_append (stop : Nat) (ts us : List Token) :
    nextOffset stop (ts ++ us) = nextOffset (nextOffset stop us) ts := by
  cases ts <;> rfl

/-- Where the last of some tokens stops, or `start` if there are none. -/
def lastStop (start : Nat) : List Token → Nat
  | [] => start
  | t :: ts => lastStop t.span.stop ts

theorem lastStop_concat (start : Nat) (ts : List Token) (t : Token) :
    lastStop start (ts ++ [t]) = t.span.stop := by
  induction ts generalizing start with
  | nil => rfl
  | cons u ts ih => exact ih u.span.stop

theorem Node.start_concatenation (offset : Nat) (ns : List Node) :
    (concatenation offset ns).span.start = (ns.head?.map fun n => n.span.start).getD offset := by
  match ns with
  | [] | [_] | _ :: _ :: _ => rfl

theorem Node.start_choice (first : Node) (others : List Node) :
    (choice first others).span.start = first.span.start := by
  cases others <;> rfl

theorem Level.start_content (l : Level) (stop : Nat) :
    (l.content stop).span.start = (l.branches.getLast?.getD (l.branch stop)).span.start := by
  rw [content, Node.ofBranches, List.reverse_cons, ← List.head?_reverse]
  cases l.branches.reverse with
  | nil => rfl
  | cons first others => exact Node.start_choice first _

theorem Level.start_branch (l : Level) (stop : Nat) :
    (l.branch stop).span.start = (l.items.getLast?.map fun n => n.span.start).getD stop := by
  rw [branch, Node.start_concatenation, List.head?_reverse]

/-- Behind what is there already, an item changes the beginning of a level no more than the end of the
level at that place would. -/
theorem Level.start_content_push (l : Level) (n : Node) (stop : Nat) :
    ((l.push n).content stop).span.start = (l.content n.span.start).span.start := by
  rw [start_content, start_content, push]
  cases l.branches.getLast? with
  | some m => rfl
  | none =>
    simp only [Option.getD_none, start_branch, List.getLast?_cons]
    cases l.items.getLast? <;> rfl

theorem Level.start_content_separate (l : Level) (offset stop : Nat) :
    ((l.separate offset).content stop).span.start = (l.content offset).span.start := by
  rw [start_content, start_content, separate, List.getLast?_cons]
  rfl

/-- A level begins with its first token. -/
theorem Level.MadeOf.start_content {l : Level} {ts : List Token} (h : l.MadeOf ts) (stop : Nat) :
    (l.content stop).span.start = nextOffset stop ts := by
  induction h generalizing stop with
  | fresh => rfl
  | atom span a h ih => rw [Level.start_content_push, ih, nextOffset_append]; rfl
  | bar span h ih => rw [Level.start_content_separate, ih, nextOffset_append]; rfl
  | quantifier span q hn h ih =>
    have hbefore := ih span.start
    rw [Level.start_content_push] at hbefore ⊢
    rw [nextOffset_append]
    exact hbefore
  | group opening closing kind h hbody ih =>
    rw [Level.start_content_push, ih, nextOffset_append]
    rfl

theorem Node.stop_choice (first : Node) (others : List Node) (last : Node)
    (h : (first :: others).getLast? = some last) : (choice first others).span.stop = last.span.stop := by
  cases others with
  | nil =>
    cases h
    rfl
  | cons n ns =>
    rw [List.getLast?_cons_cons, List.getLast?_eq_some_getLast (by simp)] at h
    cases h
    rfl

theorem Level.stop_content (l : Level) (stop : Nat) :
    (l.content stop).span.stop = (l.branch stop).span.stop := by
  rw [content, Node.ofBranches, List.reverse_cons]
  cases h : l.branches.reverse with
  | nil => rfl
  | cons first others =>
    have hlast : (first :: (others ++ [l.branch stop])).getLast? = some (l.branch stop) := by
      rw [← List.cons_append, List.getLast?_concat]
    exact Node.stop_choice first _ _ hlast

theorem Level.stop_content_push (l : Level) (n : Node) (stop : Nat) :
    ((l.push n).content stop).span.stop = n.span.stop := by
  rw [stop_content, branch, push, List.reverse_cons]
  rcases l.items.reverse with _ | ⟨m, _ | ⟨k, ns⟩⟩
  · rfl
  · rfl
  · have hlast : (k :: (ns ++ [n])).getLast (by simp) = n := by
      simp only [← List.cons_append, List.getLast_concat]
    change ((k :: (ns ++ [n])).getLast (by simp)).span.stop = n.span.stop
    rw [hlast]

/-- A level whose last branch has items ends with its last token. -/
theorem Level.MadeOf.stop_content {l : Level} {ts : List Token} (h : l.MadeOf ts) (hitems : l.items ≠ [])
    (start stop : Nat) : (l.content stop).span.stop = lastStop start ts := by
  cases h with
  | fresh => contradiction
  | atom span a h => rw [stop_content_push, lastStop_concat]; rfl
  | bar span h => contradiction
  | quantifier span q hn h => rw [stop_content_push, lastStop_concat]; rfl
  | group opening closing kind h hbody =>
    rw [stop_content_push, ← List.cons_append, ← List.append_assoc, lastStop_concat]
    rfl

/-- Where a level ends matters to its tree only if its last branch is empty. -/
theorem Level.content_stop (l : Level) (stop : Nat) :
    l.content (l.content stop).span.stop = l.content stop := by
  rw [stop_content]
  match hitems : l.items with
  | [] => simp [branch, hitems, Node.concatenation, Node.span]
  | [n] => simp [content, branch, hitems, Node.concatenation]
  | n :: m :: ns =>
    have hsame (offset offset' : Nat) : l.branch offset = l.branch offset' := by
      rw [branch, branch]
      match hrev : l.items.reverse with
      | [] => simp [hitems] at hrev
      | [k] | k :: k' :: ks => rfl
    rw [content, content, hsame _ stop]

theorem Level.content_of_items (items : List Node) (stop : Nat) :
    Level.content ⟨[], items⟩ stop = .concatenation stop items.reverse := rfl

/-! Parts of derivations. -/

theorem Level.push_inj {l l' : Level} {n n' : Node} (h : l.push n = l'.push n') : l = l' ∧ n = n' := by
  obtain ⟨branches, items⟩ := l
  obtain ⟨branches', items'⟩ := l'
  cases h
  exact ⟨rfl, rfl⟩

/-- An item of a level is what these tokens make up. -/
inductive Node.ItemOf : Node → List Token → Prop where
  | atom (span : Span) (a : Atom) : ItemOf (.atom span a) [⟨span, .atom a⟩]
  | quantified {n : Node} {ts : List Token} (span : Span) (q : Quantifier) (hn : n.isQuantified = false)
      (h : ItemOf n ts) :
    ItemOf (.quantified ⟨n.span.start, span.stop⟩ n q) (ts ++ [⟨span, .quantifier q⟩])
  | group {body : Level} {ts : List Token} (opening closing : Span) (kind : GroupKind)
      (h : body.MadeOf ts) :
    ItemOf (.group ⟨opening.start, closing.stop⟩ kind (body.content closing.start))
      (⟨opening, .groupOpen kind⟩ :: (ts ++ [⟨closing, .groupClose⟩]))

theorem Level.MadeOf.push_item {l : Level} {n : Node} {ts us : List Token} (h : l.MadeOf ts)
    (hn : n.ItemOf us) : (l.push n).MadeOf (ts ++ us) := by
  induction hn with
  | atom span a => exact .atom span a h
  | quantified span q hn _ ih =>
    rw [← List.append_assoc]
    exact .quantifier span q hn ih
  | group opening closing kind hbody => exact .group opening closing kind h hbody

/-- The latest item of a level is made of the last tokens. -/
theorem Level.MadeOf.exists_item {l : Level} {n : Node} {ts : List Token} (h : (l.push n).MadeOf ts) :
    ∃ before us, ts = before ++ us ∧ l.MadeOf before ∧ n.ItemOf us := by
  generalize hpushed : l.push n = pushed at h
  induction h generalizing l n with
  | fresh => exact absurd (congrArg items hpushed) (List.cons_ne_nil _ _)
  | atom span a h =>
    obtain ⟨rfl, rfl⟩ := push_inj hpushed
    exact ⟨_, _, rfl, h, .atom span a⟩
  | bar span h => exact absurd (congrArg items hpushed) (List.cons_ne_nil _ _)
  | @quantifier l' m ts span q hm h ih =>
    obtain ⟨rfl, rfl⟩ := push_inj hpushed
    obtain ⟨before, us, rfl, hl, hitem⟩ := ih rfl
    exact ⟨before, _, List.append_assoc .., hl, .quantified span q hm hitem⟩
  | group opening closing kind h hbody =>
    obtain ⟨rfl, rfl⟩ := push_inj hpushed
    exact ⟨_, _, rfl, h, .group opening closing kind hbody⟩

theorem Level.MadeOf.of_push {l : Level} {n : Node} {ts : List Token} (h : (l.push n).MadeOf ts) :
    ∃ before us, ts = before ++ us ∧ l.MadeOf before ∧ (Level.fresh.push n).MadeOf us := by
  obtain ⟨before, us, hts, hl, hitem⟩ := h.exists_item
  exact ⟨before, us, hts, hl, Level.MadeOf.fresh.push_item hitem⟩

theorem Level.MadeOf.eq_nil {ts : List Token} (h : Level.fresh.MadeOf ts) : ts = [] := by
  generalize hl : Level.fresh = l at h
  cases h with
  | fresh => rfl
  | bar span h => exact absurd (congrArg branches hl).symm (List.cons_ne_nil _ _)
  | _ => exact absurd (congrArg items hl).symm (List.cons_ne_nil _ _)

/-- The items of a level are atoms, groups and repetitions. -/
theorem Level.MadeOf.isItem {l : Level} {ts : List Token} (h : l.MadeOf ts) :
    ∀ n ∈ l.items, n.IsItem := by
  induction h with
  | fresh => simp [Level.fresh]
  | atom span a h ih => exact List.forall_mem_cons.2 ⟨trivial, ih⟩
  | bar span h ih => simp [Level.separate]
  | quantifier span q hn h ih => exact List.forall_mem_cons.2 ⟨trivial, (List.forall_mem_cons.1 ih).2⟩
  | group opening closing kind h hbody ih => exact List.forall_mem_cons.2 ⟨trivial, ih⟩

theorem Node.IsItem.items {n : Node} (h : n.IsItem) : n.items = [n] := by
  cases n <;> first | rfl | exact h.elim

theorem Node.items_concatenation {ns : List Node} (h : ∀ n ∈ ns, n.IsItem) (offset : Nat) :
    (concatenation offset ns).items = ns := by
  match ns with
  | [] => rfl
  | [n] => exact (h n List.mem_cons_self).items
  | _ :: _ :: _ => rfl

/-- An alternation stands in a group or is the whole level. -/
theorem Node.branches?_concatenation {ns : List Node} (h : ∀ n ∈ ns, n.IsItem) (offset : Nat) :
    (concatenation offset ns).branches? = none := by
  match ns with
  | [] | _ :: _ :: _ => rfl
  | [n] =>
    have hitem := h n List.mem_cons_self
    cases n <;> first | rfl | exact hitem.elim

/-- Items one after the other are what these tokens make up. -/
inductive Node.ItemsOf : List Node → List Token → Prop where
  | nil : ItemsOf [] []
  | cons {n : Node} {ns : List Node} {ts us : List Token} (hn : n.ItemOf ts) (hns : ItemsOf ns us) :
    ItemsOf (n :: ns) (ts ++ us)

theorem Node.itemsOf_singleton {n : Node} {ts : List Token} : ItemsOf [n] ts ↔ n.ItemOf ts := by
  constructor
  · intro h
    cases h with
    | cons hn hnil =>
      cases hnil
      rwa [List.append_nil]
  · intro h
    have hone := ItemsOf.cons h .nil
    rwa [List.append_nil] at hone

theorem Node.itemsOf_append {ns ms : List Node} {ts : List Token} :
    ItemsOf (ns ++ ms) ts ↔ ∃ us vs, ts = us ++ vs ∧ ItemsOf ns us ∧ ItemsOf ms vs := by
  constructor
  · intro h
    induction ns generalizing ts with
    | nil => exact ⟨[], ts, rfl, .nil, h⟩
    | cons n ns ih =>
      cases h with
      | cons hn hrest =>
        obtain ⟨us, vs, rfl, hns, hms⟩ := ih hrest
        exact ⟨_, vs, (List.append_assoc ..).symm, .cons hn hns, hms⟩
  · rintro ⟨us, vs, rfl, hns, hms⟩
    induction hns with
    | nil => exact hms
    | cons hn _ ih =>
      rw [List.append_assoc]
      exact .cons hn ih

theorem Level.madeOf_iff_itemsOf {items : List Node} {ts : List Token} :
    Level.MadeOf ⟨[], items⟩ ts ↔ Node.ItemsOf items.reverse ts := by
  constructor
  · intro h
    induction items generalizing ts with
    | nil =>
      rw [h.eq_nil]
      exact .nil
    | cons n items ih =>
      obtain ⟨before, us, rfl, hl, hitem⟩ := MadeOf.exists_item (l := ⟨[], items⟩) h
      rw [List.reverse_cons, Node.itemsOf_append]
      exact ⟨before, us, rfl, ih hl, Node.itemsOf_singleton.2 hitem⟩
  · intro h
    induction items generalizing ts with
    | nil =>
      cases h
      exact .fresh
    | cons n items ih =>
      rw [List.reverse_cons, Node.itemsOf_append] at h
      obtain ⟨before, us, rfl, hns, hitem⟩ := h
      exact (ih hns).push_item (Node.itemsOf_singleton.1 hitem)

theorem Node.ItemsOf.madeOf {ns : List Node} {ts : List Token} (h : ItemsOf ns ts) :
    Level.MadeOf ⟨[], ns.reverse⟩ ts :=
  Level.madeOf_iff_itemsOf.2 (by rwa [List.reverse_reverse])

theorem Node.ItemsOf.isItem {ns : List Node} {ts : List Token} (h : ItemsOf ns ts) :
    ∀ n ∈ ns, n.IsItem :=
  fun n hn => h.madeOf.isItem n (List.mem_reverse.2 hn)

theorem Node.ItemsOf.buildTree {ns : List Node} {ts : List Token} (h : ItemsOf ns ts)
    (hfits : nestingAll ns ≤ maxNesting) (stop : Nat) :
    Grammar.buildTree ts stop = .ok (.concatenation stop ns) := by
  have hnesting : Level.nesting ⟨[], ns.reverse⟩ ≤ maxNesting := by
    simpa [Level.nesting, nestingAll, nestingAll_reverse] using hfits
  rw [h.madeOf.buildTree hnesting, Level.content_of_items, List.reverse_reverse]

/-- The same tokens make up no other items. -/
theorem Node.ItemsOf.unique {ns ms : List Node} {ts : List Token} (h : ItemsOf ns ts)
    (hfits : nestingAll ns ≤ maxNesting) (h' : ItemsOf ms ts) : ns = ms := by
  obtain ⟨-, hsame⟩ := h'.madeOf.of_buildTree (h.buildTree hfits 0)
  rw [Level.content_of_items, List.reverse_reverse] at hsame
  have hitems := congrArg Node.items hsame
  rwa [items_concatenation h'.isItem, items_concatenation h.isItem, eq_comm] at hitems

/-- What is read of a level is one branch, or a bar ends another level in front of the last branch. -/
theorem Level.MadeOf.last_bar {l : Level} {ts : List Token} (h : l.MadeOf ts) :
    l.branches = [] ∨ ∃ (earlier : Level) (before us : List Token) (bar : Span),
      ts = before ++ ⟨bar, .bar⟩ :: us ∧ earlier.MadeOf before ∧
        l.branches = (earlier.separate bar.start).branches ∧ Level.MadeOf ⟨[], l.items⟩ us := by
  obtain ⟨branches, items⟩ := l
  induction items generalizing ts with
  | nil =>
    generalize hl : (⟨branches, []⟩ : Level) = l at h
    cases h with
    | fresh => exact .inl rfl
    | bar span h => exact .inr ⟨_, _, [], span, rfl, h, rfl, .fresh⟩
    | _ => exact absurd (congrArg Level.items hl).symm (List.cons_ne_nil _ _)
  | cons n items ih =>
    obtain ⟨before, us, rfl, hl, hitem⟩ := exists_item (l := ⟨branches, items⟩) h
    rcases ih hl with hone | ⟨earlier, first, last, bar, rfl, hearlier, hbranches, hlast⟩
    · exact .inl hone
    · exact .inr ⟨earlier, first, last ++ us, bar, by simp, hearlier, hbranches, hlast.push_item hitem⟩

/-- The branch that is being read is made of the tokens after the last bar. -/
theorem Level.MadeOf.last_branch {l : Level} {ts : List Token} (h : l.MadeOf ts) :
    ∃ before us, ts = before ++ us ∧ Level.MadeOf ⟨[], l.items⟩ us := by
  rcases h.last_bar with hone | ⟨earlier, before, us, bar, rfl, -, -, hlast⟩
  · obtain ⟨branches, items⟩ := l
    cases hone
    exact ⟨[], ts, rfl, h⟩
  · exact ⟨before ++ [⟨bar, .bar⟩], us, by simp, hlast⟩

/-- A node is another node or stands somewhere below it. -/
inductive Node.IsIn (e : Node) : Node → Prop where
  | self : IsIn e e
  | child {n c : Node} (hc : c ∈ n.children) (h : IsIn e c) : IsIn e n

mutual

theorem Node.isIn_of_mem_preorder {n : Node} {depth : Nat} {e : Nat × Node} (he : e ∈ n.preorder depth) :
    e.2.IsIn n := by
  match n with
  | .empty _ | .atom _ _ =>
    rw [List.mem_singleton.1 he]
    exact .self
  | .group _ _ body | .quantified _ body _ =>
    rcases List.mem_cons.1 he with rfl | he
    · exact .self
    · exact .child List.mem_cons_self (isIn_of_mem_preorder he)
  | .sequence _ nodes | .alternation _ nodes =>
    rcases List.mem_cons.1 he with rfl | he
    · exact .self
    · obtain ⟨c, hc, hin⟩ := isIn_of_mem_preorderAll he
      exact .child hc hin

theorem Node.isIn_of_mem_preorderAll {ns : List Node} {depth : Nat} {e : Nat × Node}
    (he : e ∈ preorderAll depth ns) : ∃ n ∈ ns, e.2.IsIn n := by
  match ns with
  | [] => contradiction
  | n :: ns =>
    rcases List.mem_append.1 he with he | he
    · exact ⟨n, List.mem_cons_self, isIn_of_mem_preorder he⟩
    · obtain ⟨m, hm, hin⟩ := isIn_of_mem_preorderAll he
      exact ⟨m, List.mem_cons_of_mem n hm, hin⟩

end

theorem Node.IsIn.nesting_le {e n : Node} (h : e.IsIn n) : e.nesting ≤ n.nesting := by
  induction h with
  | self => exact Nat.le_refl _
  | @child n c hc h ih =>
    refine Nat.le_trans ih ?_
    match n with
    | .empty _ | .atom _ _ => contradiction
    | .group _ _ body =>
      rw [List.mem_singleton.1 hc]
      exact Nat.le_succ _
    | .quantified _ body _ =>
      rw [List.mem_singleton.1 hc]
      exact Nat.le_refl _
    | .sequence _ nodes | .alternation _ nodes => exact nestingAll_le_iff.1 (Nat.le_refl _) c hc

theorem Node.IsIn.of_concatenation {e : Node} {offset : Nat} {ns : List Node}
    (h : e.IsIn (concatenation offset ns)) : e = concatenation offset ns ∨ ∃ n ∈ ns, e.IsIn n := by
  match ns with
  | [n] => exact .inr ⟨n, List.mem_cons_self, h⟩
  | [] | _ :: _ :: _ =>
    cases h with
    | self => exact .inl rfl
    | child hc h => exact .inr ⟨_, hc, h⟩

theorem Node.IsIn.of_choice {e first : Node} {others : List Node} (h : e.IsIn (choice first others)) :
    e = choice first others ∨ ∃ n ∈ first :: others, e.IsIn n := by
  match others with
  | [] => exact .inr ⟨first, List.mem_cons_self, h⟩
  | _ :: _ =>
    cases h with
    | self => exact .inl rfl
    | child hc h => exact .inr ⟨_, hc, h⟩

theorem Level.isIn_content {e : Node} {l : Level} {stop : Nat} (h : e.IsIn (l.content stop)) :
    e = l.content stop ∨ e = l.branch stop ∨ ∃ n ∈ l.items ++ l.branches, e.IsIn n := by
  have hbranches : e = l.content stop ∨ ∃ n ∈ l.branch stop :: l.branches, e.IsIn n := by
    unfold content Node.ofBranches at h ⊢
    cases hrev : (l.branch stop :: l.branches).reverse with
    | nil => simp at hrev
    | cons first others =>
      rw [hrev] at h
      refine h.of_choice.imp_right fun ⟨n, hn, hin⟩ => ⟨n, ?_, hin⟩
      rwa [← hrev, List.mem_reverse] at hn
  rcases hbranches with heq | ⟨n, hn, hin⟩
  · exact .inl heq
  · rcases List.mem_cons.1 hn with rfl | hn
    · rcases hin.of_concatenation with heq | ⟨m, hm, hin⟩
      · exact .inr (.inl heq)
      · exact .inr (.inr ⟨m, List.mem_append_left _ (List.mem_reverse.1 hm), hin⟩)
    · exact .inr (.inr ⟨n, List.mem_append_right _ hn, hin⟩)

/-- A node is the tree of some of the tokens, which follow each other; all of them end at `stop`. -/
def Node.CutFrom (stop : Nat) (tokens : List Token) (n : Node) : Prop :=
  ∃ (before part after : List Token) (l : Level), tokens = before ++ (part ++ after) ∧ l.MadeOf part ∧
    n = l.content (nextOffset stop after)

theorem Node.CutFrom.extend {stop : Nat} {ts : List Token} {n : Node} (before after : List Token)
    (h : n.CutFrom (nextOffset stop after) ts) : n.CutFrom stop (before ++ (ts ++ after)) := by
  obtain ⟨before', part, after', l, rfl, hl, rfl⟩ := h
  refine ⟨before ++ before', part, after' ++ after, l, by simp, hl, ?_⟩
  rw [nextOffset_append]

theorem Level.MadeOf.cutFrom_item {n : Node} {ts : List Token} (h : (Level.fresh.push n).MadeOf ts)
    (stop : Nat) (before : List Token) : n.CutFrom stop (before ++ ts) :=
  ⟨before, ts, [], Level.fresh.push n, by rw [List.append_nil], h, rfl⟩

theorem Level.MadeOf.cutFrom_branch {l : Level} {ts : List Token} (h : l.MadeOf ts) (stop : Nat)
    (after : List Token) : (l.branch (nextOffset stop after)).CutFrom stop (ts ++ after) := by
  obtain ⟨before, us, rfl, hbranch⟩ := h.last_branch
  exact ⟨before, us, after, _, List.append_assoc .., hbranch, rfl⟩

/-- What stands in the items and branches of a level is cut from its tokens. -/
theorem Level.MadeOf.cutFrom_of_mem {l : Level} {ts : List Token} (h : l.MadeOf ts) :
    ∀ n ∈ l.items ++ l.branches, ∀ e : Node, e.IsIn n → ∀ stop, e.CutFrom stop ts := by
  -- a node is the one that the last rule made, or it was there before
  induction h with
  | fresh => simp [Level.fresh]
  | @atom l ts span a h ih =>
    intro n hn e he stop
    rcases List.mem_cons.1 hn with rfl | hn
    · cases he with
      | self => exact (MadeOf.atom span a .fresh).cutFrom_item stop ts
      | child hc => contradiction
    · exact (ih n hn e he _).extend [] _
  | @bar l ts span h ih =>
    intro n hn e he stop
    rcases List.mem_cons.1 hn with rfl | hn
    · rcases he.of_concatenation with rfl | ⟨m, hm, he⟩
      · exact h.cutFrom_branch stop [⟨span, .bar⟩]
      · exact (ih m (List.mem_append_left _ (List.mem_reverse.1 hm)) e he _).extend [] _
    · exact (ih n (List.mem_append_right _ hn) e he _).extend [] _
  | @quantifier l m ts span q hm h ih =>
    intro n hn e he stop
    rcases List.mem_cons.1 hn with rfl | hn
    · cases he with
      | self =>
        obtain ⟨before, us, rfl, -, hitem⟩ := h.of_push
        rw [List.append_assoc]
        exact (MadeOf.quantifier span q hm hitem).cutFrom_item stop before
      | child hc he =>
        rw [List.mem_singleton.1 hc] at he
        exact (ih m List.mem_cons_self e he _).extend [] _
    · exact (ih n (List.mem_cons_of_mem m hn) e he _).extend [] _
  | @group l body ts us opening closing kind h hbody ih ihBody =>
    intro n hn e he stop
    rcases List.mem_cons.1 hn with rfl | hn
    · cases he with
      | self => exact (MadeOf.group opening closing kind .fresh hbody).cutFrom_item stop ts
      | child hc he =>
        rw [List.mem_singleton.1 hc] at he
        have hinside : e.CutFrom closing.start us := by
          rcases Level.isIn_content he with rfl | rfl | ⟨m, hm, he⟩
          · exact ⟨[], us, [], body, by simp, hbody, rfl⟩
          · have hbranch := hbody.cutFrom_branch closing.start []
            rwa [List.append_nil] at hbranch
          · exact ihBody m hm e he closing.start
        have hcut : e.CutFrom (nextOffset stop [⟨closing, .groupClose⟩]) us := hinside
        have hcut := hcut.extend (ts ++ [⟨opening, .groupOpen kind⟩]) _
        rwa [List.append_assoc] at hcut
    · exact (ih n hn e he _).extend [] _

theorem cutFrom_of_buildTree {tokens : List Token} {length : Nat} {tree : Node}
    (h : buildTree tokens length = .ok tree) :
    ∀ e ∈ tree.preorder 0, e.2.CutFrom length tokens := by
  obtain ⟨l, hl, rfl⟩ := exists_level_of_buildTree h
  intro e he
  rcases Level.isIn_content (Node.isIn_of_mem_preorder he) with heq | heq | ⟨n, hn, hin⟩
  · rw [heq]
    exact ⟨[], tokens, [], l, by simp, hl, rfl⟩
  · have hbranch := hl.cutFrom_branch length []
    rw [List.append_nil] at hbranch
    rwa [heq]
  · exact hl.cutFrom_of_mem n hn e.2 hin length

end PatternAudit.Grammar
