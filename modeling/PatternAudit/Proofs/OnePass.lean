import PatternAudit.Grammar.Tree

set_option autoImplicit false

/-!
# Trees in one pass

The tree of a list of tokens can also be built in one pass that never looks ahead. A builder holds
the nesting level being read and, innermost first, the groups still open around it; each level holds
its finished branches and the items of the branch being read. `buildTree_eq_run` says that this pass
and the reading by descent always give the same tree or the same fault, so what a single token does
to a builder decides what is true of every tree.
-/
namespace PatternAudit.Grammar

/-- A nesting level while it is read; both lists have the latest node first. -/
structure Level where
  branches : List Node
  items : List Node
deriving Repr

def Level.fresh : Level := ⟨[], []⟩

/-- A group whose closing parenthesis has not come yet, and the level it stands in. -/
structure OpenGroup where
  start : Nat
  kind : GroupKind
  outer : Level
deriving Repr

structure Builder where
  level : Level
  pending : List OpenGroup
deriving Repr

def Builder.fresh : Builder := ⟨.fresh, []⟩

def Node.ofBranches (branches : List Node) : Node :=
  match branches.reverse with
  | [] => .empty 0
  | n :: ns => .choice n ns

def Level.branch (l : Level) (offset : Nat) : Node :=
  .concatenation offset l.items.reverse

def Level.content (l : Level) (offset : Nat) : Node :=
  .ofBranches (l.branch offset :: l.branches)

def Level.push (l : Level) (n : Node) : Level :=
  { l with items := n :: l.items }

def Level.separate (l : Level) (offset : Nat) : Level :=
  ⟨l.branch offset :: l.branches, []⟩

def Node.isQuantified : Node → Bool
  | .quantified .. => true
  | _ => false

/-- Repeats the latest item, if there is one and it is not a repetition itself. -/
def Level.repeatLast? (l : Level) (stop : Nat) (q : Quantifier) : Option Level :=
  match l.items with
  | [] => none
  | n :: ns =>
    if n.isQuantified then none
    else some { l with items := .quantified ⟨n.span.start, stop⟩ n q :: ns }

def Builder.step (b : Builder) (t : Token) : Except Fault Builder :=
  match t.kind with
  | .atom a => .ok { b with level := b.level.push (.atom t.span a) }
  | .bar => .ok { b with level := b.level.separate t.span.start }
  | .quantifier q =>
    match b.level.repeatLast? t.span.stop q with
    | some level => .ok { b with level }
    | none => .error ⟨t.span.start, .nothingToRepeat⟩
  | .groupOpen kind =>
    if b.pending.length < maxNesting then
      .ok ⟨.fresh, ⟨t.span.start, kind, b.level⟩ :: b.pending⟩
    else .error ⟨t.span.start, .nestingTooDeep maxNesting⟩
  | .groupClose =>
    match b.pending with
    | [] => .error ⟨t.span.start, .unmatchedClose⟩
    | g :: pending =>
      .ok ⟨g.outer.push (.group ⟨g.start, t.span.stop⟩ g.kind (b.level.content t.span.start)),
        pending⟩

/-- The whole tree, when the tokens end at `stop`. -/
def Builder.finish (b : Builder) (stop : Nat) : Except Fault Node :=
  match b.pending with
  | [] => .ok (b.level.content stop)
  | g :: _ => .error ⟨g.start, .unterminatedGroup⟩

/-- The tree of the tokens read before and the ones still to come, when these end at `stop`. -/
def Builder.run (stop : Nat) (b : Builder) : List Token → Except Fault Node
  | [] => b.finish stop
  | t :: ts => do
    let b ← b.step t
    b.run stop ts

/-! Where the readers stop. -/

/-- A branch can end before these tokens. -/
def AtBreak : List Token → Prop
  | [] => True
  | t :: _ => t.kind = .bar ∨ t.kind = .groupClose

/-- A nesting level can end before these tokens. -/
def AtEnd : List Token → Prop
  | [] => True
  | t :: _ => t.kind = .groupClose

theorem atEnd_nil : AtEnd [] := trivial

theorem atEnd_close (span : Span) (ts : List Token) : AtEnd (⟨span, .groupClose⟩ :: ts) := rfl

theorem readBranches_of_atEnd {limit stop depth : Nat} {first : Node} {more : List Node}
    {ts : List Token} {h : ts.length ≤ limit} (hts : AtEnd ts) :
    readBranches stop depth first more ts h = .ok ⟨.choice first more.reverse, ts, h⟩ := by
  cases ts with
  | nil => rw [readBranches.eq_def]
  | cons t ts =>
    obtain ⟨span, kind⟩ := t
    cases hts
    rw [readBranches.eq_def]

theorem readItems_rest {limit stop depth : Nat} {items : List Node} {ts : List Token}
    {h : ts.length ≤ limit} {r : Reading (List Node) limit}
    (hr : readItems stop depth items ts h = .ok r) :
    AtBreak r.rest ∧ items.length ≤ r.value.length := by
  cases ts with
  | nil =>
    rw [readItems] at hr
    cases hr
    simp [AtBreak]
  | cons t rest =>
    rw [readItems] at hr
    split at hr
    next ht =>
      cases hr
      simpa [AtBreak] using ht
    next =>
      obtain ⟨item, -, hr⟩ := exists_of_bind_ok hr
      have := item.rest_le
      obtain ⟨hrest, hlength⟩ := readItems_rest hr
      exact ⟨hrest, Nat.le_of_succ_le hlength⟩
termination_by ts.length
decreasing_by
  rw [‹ts = t :: rest›]
  exact Nat.lt_succ_of_le this

theorem readItems_rest_of_nil {limit stop depth : Nat} {ts : List Token} {h : ts.length ≤ limit}
    {r : Reading (List Node) limit} (hr : readItems stop depth [] ts h = .ok r)
    (hnil : r.value = []) : r.rest = ts := by
  cases ts with
  | nil =>
    rw [readItems] at hr
    cases hr
    rfl
  | cons t rest =>
    rw [readItems] at hr
    split at hr
    next =>
      cases hr
      rfl
    next =>
      obtain ⟨item, -, hr⟩ := exists_of_bind_ok hr
      have := (readItems_rest hr).2
      simp [hnil] at this

theorem readSequence_rest {stop depth : Nat} {ts : List Token} {r : Reading Node ts.length}
    (hr : readSequence stop depth ts = .ok r) : AtBreak r.rest := by
  rw [readSequence] at hr
  obtain ⟨items, hitems, hr⟩ := exists_of_bind_ok hr
  cases hr
  exact (readItems_rest hitems).1

theorem takeQuantifier_rest {limit stop : Nat} {n : Node} {ts : List Token}
    {h : ts.length ≤ limit} {r : Reading Node limit} (hr : takeQuantifier stop n ts h = .ok r) :
    startsWithQuantifier r.rest = false := by
  unfold takeQuantifier at hr
  split at hr
  next =>
    split at hr
    next => contradiction
    next hrest =>
      cases hr
      simpa using hrest
  next hne =>
    cases hr
    cases ts with
    | nil => rfl
    | cons t ts =>
      obtain ⟨span, kind⟩ := t
      cases kind with
      | quantifier q => exact (hne span q ts h rfl HEq.rfl).elim
      | _ => rfl

theorem readItem_rest {stop depth : Nat} {t : Token} {ts : List Token} {r : Reading Node ts.length}
    (hr : readItem stop depth t ts = .ok r) : startsWithQuantifier r.rest = false := by
  rw [readItem] at hr
  obtain ⟨atom, -, hr⟩ := exists_of_bind_ok hr
  exact takeQuantifier_rest hr

theorem closeGroup_value {limit start : Nat} {kind : GroupKind} {body : Node} {ts : List Token}
    {h : ts.length ≤ limit} {r : Reading Node limit}
    (hr : closeGroup start kind body ts h = .ok r) : r.value.isQuantified = false := by
  unfold closeGroup at hr
  split at hr
  next => cases hr; rfl
  next => contradiction

/-- Only a quantifier makes a repetition, so an atom or a group can still be repeated. -/
theorem readAtom_value {stop depth : Nat} {t : Token} {ts : List Token} {r : Reading Node ts.length}
    (hr : readAtom stop depth t ts = .ok r) : r.value.isQuantified = false := by
  rw [readAtom] at hr
  split at hr
  next =>
    rw [readGroup] at hr
    split at hr
    next => contradiction
    next =>
      obtain ⟨body, -, hr⟩ := exists_of_bind_ok hr
      exact closeGroup_value hr
  next => cases hr; rfl
  all_goals contradiction

/-! The builder where a reader hands over. -/

def Builder.leave (stop : Nat) (content : Node) :
    List OpenGroup → List Token → Except Fault Node
  | [], [] => .ok content
  | [], t :: _ => .error ⟨t.span.start, .unmatchedClose⟩
  | g :: pending, ⟨close, .groupClose⟩ :: ts =>
    run stop ⟨g.outer.push (.group ⟨g.start, close.stop⟩ g.kind content), pending⟩ ts
  | g :: _, _ => .error ⟨g.start, .unterminatedGroup⟩

/-- Goes on after a branch; `branches` are the ones read at its level, the latest first. -/
def Builder.next (stop : Nat) (branches : List Node) (pending : List OpenGroup) :
    List Token → Except Fault Node
  | ⟨_, .bar⟩ :: ts => run stop ⟨⟨branches, []⟩, pending⟩ ts
  | ts => leave stop (.ofBranches branches) pending ts

theorem Builder.run_cons (stop : Nat) (b : Builder) (t : Token) (ts : List Token) :
    b.run stop (t :: ts) = b.step t >>= fun b => b.run stop ts := rfl

theorem Builder.next_of_atEnd {stop : Nat} {branches : List Node} {pending : List OpenGroup}
    {ts : List Token} (h : AtEnd ts) :
    next stop branches pending ts = leave stop (.ofBranches branches) pending ts := by
  cases ts with
  | nil => rfl
  | cons t ts =>
    obtain ⟨span, kind⟩ := t
    cases h
    rfl

theorem Builder.run_of_atBreak (stop : Nat) (l : Level) (pending : List OpenGroup)
    {ts : List Token} (h : AtBreak ts) :
    run stop ⟨l, pending⟩ ts =
      next stop (l.branch (nextOffset stop ts) :: l.branches) pending ts := by
  cases ts with
  | nil => cases pending <;> rfl
  | cons t ts =>
    obtain ⟨span, kind⟩ := t
    rcases h with h | h
    · cases h
      rfl
    · cases h
      cases pending <;> rfl

theorem closeGroup_bind {limit : Nat} (stop : Nat) (g : OpenGroup) (pending : List OpenGroup)
    (body : Node) (ts : List Token) (h : ts.length ≤ limit) :
    (closeGroup g.start g.kind body ts h >>= fun r =>
      Builder.run stop ⟨g.outer.push r.value, pending⟩ r.rest) =
      Builder.leave stop body (g :: pending) ts := by
  cases ts with
  | nil => rfl
  | cons t ts =>
    obtain ⟨span, kind⟩ := t
    cases kind <;> rfl

theorem takeQuantifier_bind {limit : Nat} (stop : Nat) (l : Level) (pending : List OpenGroup)
    {n : Node} (hn : n.isQuantified = false) (ts : List Token) (h : ts.length ≤ limit) :
    (takeQuantifier stop n ts h >>= fun r =>
      Builder.run stop ⟨l.push r.value, pending⟩ r.rest) =
      Builder.run stop ⟨l.push n, pending⟩ ts := by
  match ts with
  | [] => rfl
  | ⟨_, .atom _⟩ :: _ | ⟨_, .groupOpen _⟩ :: _ => rfl
  | ⟨_, .groupClose⟩ :: _ | ⟨_, .bar⟩ :: _ => rfl
  | ⟨span, .quantifier q⟩ :: rest =>
    have hpush : (l.push n).repeatLast? span.stop q =
        some (l.push (.quantified ⟨n.span.start, span.stop⟩ n q)) := by
      simp [Level.push, Level.repeatLast?, hn]
    simp only [takeQuantifier, Builder.run_cons, Builder.step, hpush]
    match rest with
    | [] => rfl
    | ⟨_, .atom _⟩ :: _ | ⟨_, .groupOpen _⟩ :: _ => rfl
    | ⟨_, .groupClose⟩ :: _ | ⟨_, .bar⟩ :: _ => rfl
    | ⟨_, .quantifier _⟩ :: _ => rfl

/-! Each reader against the builder, by induction on the tokens left. -/

mutual

theorem run_eq_readAlternation (stop : Nat) (pending : List OpenGroup) (ts : List Token) :
    Builder.run stop ⟨.fresh, pending⟩ ts =
      readAlternation stop pending.length ts >>= fun r =>
        Builder.leave stop r.value pending r.rest := by
  rw [readAlternation, bind_assoc]
  refine (run_eq_readSequence stop pending [] ts).trans (bind_congr_ok fun first hfirst => ?_)
  have := first.rest_le
  exact next_eq_readBranches stop pending first.value [] first.rest first.rest_le
    (readSequence_rest hfirst)
termination_by (ts.length, 3)
decreasing_by
  · exact Prod.Lex.right _ (by decide)
  · exact Prod.Lex.right' _ this (by decide)

theorem next_eq_readBranches {limit : Nat} (stop : Nat) (pending : List OpenGroup) (first : Node)
    (more : List Node) (ts : List Token) (h : ts.length ≤ limit) (hts : AtBreak ts) :
    Builder.next stop (more ++ [first]) pending ts =
      readBranches stop pending.length first more ts h >>= fun r =>
        Builder.leave stop r.value pending r.rest := by
  have hread : Node.ofBranches (more ++ [first]) = .choice first more.reverse := by
    simp [Node.ofBranches]
  match ts with
  | [] => rw [Builder.next_of_atEnd atEnd_nil, readBranches_of_atEnd atEnd_nil, hread, ok_bind]
  | ⟨span, .groupClose⟩ :: rest =>
    have hend := atEnd_close span rest
    rw [Builder.next_of_atEnd hend, readBranches_of_atEnd hend, hread, ok_bind]
  | ⟨span, .bar⟩ :: rest =>
    rw [readBranches, bind_assoc]
    refine (run_eq_readSequence stop pending (more ++ [first]) rest).trans
      (bind_congr_ok fun branch hbranch => ?_)
    have := branch.rest_le
    exact next_eq_readBranches stop pending first (branch.value :: more) branch.rest _
      (readSequence_rest hbranch)
termination_by (ts.length, 2)

theorem run_eq_readSequence (stop : Nat) (pending : List OpenGroup) (branches : List Node)
    (ts : List Token) :
    Builder.run stop ⟨⟨branches, []⟩, pending⟩ ts =
      readSequence stop pending.length ts >>= fun r =>
        Builder.next stop (r.value :: branches) pending r.rest := by
  rw [readSequence, bind_assoc]
  refine (run_eq_readItems stop pending ⟨branches, []⟩ ts (Nat.le_refl _) (.inl rfl)).trans
    (bind_congr_ok fun r hr => ?_)
  rw [Builder.run_of_atBreak stop _ pending (readItems_rest hr).1, pure_bind]
  -- the place of a branch only matters when it is empty, and then no token was taken
  have hoffset : Node.concatenation (nextOffset stop r.rest) r.value =
      .concatenation (nextOffset stop ts) r.value := by
    cases hvalue : r.value with
    | nil => rw [readItems_rest_of_nil hr hvalue]
    | cons n ns => cases ns <;> rfl
  simp [Level.branch, hoffset]
termination_by (ts.length, 1)

theorem run_eq_readItems {limit : Nat} (stop : Nat) (pending : List OpenGroup) (l : Level)
    (ts : List Token) (h : ts.length ≤ limit)
    (hts : l.items = [] ∨ startsWithQuantifier ts = false) :
    Builder.run stop ⟨l, pending⟩ ts =
      readItems stop pending.length l.items ts h >>= fun r =>
        Builder.run stop ⟨⟨l.branches, r.value.reverse⟩, pending⟩ r.rest := by
  match ts with
  | [] =>
    rw [readItems]
    simp [ok_bind]
  | t :: rest =>
    rw [readItems]
    split
    next => simp [ok_bind]
    next hbreak =>
      rw [bind_assoc]
      refine (run_eq_readItem stop pending l t rest hbreak hts).trans
        (bind_congr_ok fun item hitem => ?_)
      have := item.rest_le
      exact run_eq_readItems stop pending (l.push item.value) item.rest _
        (.inr (readItem_rest hitem))
termination_by (ts.length, 0)

theorem run_eq_readItem (stop : Nat) (pending : List OpenGroup) (l : Level) (t : Token)
    (ts : List Token) (ht : ¬(t.kind = .bar ∨ t.kind = .groupClose))
    (hq : l.items = [] ∨ startsWithQuantifier (t :: ts) = false) :
    Builder.run stop ⟨l, pending⟩ (t :: ts) =
      readItem stop pending.length t ts >>= fun r =>
        Builder.run stop ⟨l.push r.value, pending⟩ r.rest := by
  rw [readItem, bind_assoc]
  refine (run_eq_readAtom stop pending l t ts ht hq).trans (bind_congr_ok fun atom hatom => ?_)
  exact (takeQuantifier_bind stop l pending (readAtom_value hatom) atom.rest atom.rest_le).symm
termination_by (ts.length, 6)

theorem run_eq_readAtom (stop : Nat) (pending : List OpenGroup) (l : Level) (t : Token)
    (ts : List Token) (ht : ¬(t.kind = .bar ∨ t.kind = .groupClose))
    (hq : l.items = [] ∨ startsWithQuantifier (t :: ts) = false) :
    Builder.run stop ⟨l, pending⟩ (t :: ts) =
      readAtom stop pending.length t ts >>= fun r =>
        Builder.run stop ⟨l.push r.value, pending⟩ r.rest := by
  obtain ⟨span, kind⟩ := t
  rw [readAtom]
  cases kind with
  | atom a => rfl
  | groupOpen kind => exact run_eq_readGroup stop pending l span kind ts
  | bar => simp at ht
  | groupClose => simp at ht
  | quantifier q =>
    have hitems : l.items = [] := by simpa [startsWithQuantifier] using hq
    simp [Builder.run_cons, Builder.step, Level.repeatLast?, hitems, bind, Except.bind]
termination_by (ts.length, 5)

theorem run_eq_readGroup (stop : Nat) (pending : List OpenGroup) (l : Level) (span : Span)
    (kind : GroupKind) (ts : List Token) :
    Builder.run stop ⟨l, pending⟩ (⟨span, .groupOpen kind⟩ :: ts) =
      readGroup stop pending.length span.start kind ts >>= fun r =>
        Builder.run stop ⟨l.push r.value, pending⟩ r.rest := by
  rw [readGroup]
  split
  next hdeep => simp [Builder.run_cons, Builder.step, Nat.not_lt.2 hdeep, bind, Except.bind]
  next hdeep =>
    have hstep : Builder.step ⟨l, pending⟩ ⟨span, .groupOpen kind⟩ =
        .ok ⟨.fresh, ⟨span.start, kind, l⟩ :: pending⟩ := by
      simp [Builder.step, Nat.lt_of_not_le hdeep]
    rw [Builder.run_cons, hstep, bind_assoc]
    refine (run_eq_readAlternation stop (⟨span.start, kind, l⟩ :: pending) ts).trans
      (bind_congr_ok fun body _ => ?_)
    have hclose := closeGroup_bind stop ⟨span.start, kind, l⟩ pending body.value body.rest body.rest_le
    exact hclose.symm
termination_by (ts.length, 4)

end

theorem buildTree_eq_run (tokens : List Token) (length : Nat) :
    buildTree tokens length = Builder.fresh.run length tokens := by
  refine Eq.trans ?_ (run_eq_readAlternation length [] tokens).symm
  refine bind_congr_ok fun r _ => ?_
  obtain ⟨root, rest, h⟩ := r
  cases rest <;> rfl

theorem parse_eq_buildTree {pattern : Text} {tokens : List Token} (h : lex pattern = ⟨tokens, none⟩) :
    parse pattern = buildTree tokens (Text.byteLength pattern) := by
  rw [parse, tokenize_eq_ok_iff.2 h, ok_bind]

theorem parse_eq_run {pattern : Text} {tokens : List Token} (h : lex pattern = ⟨tokens, none⟩) :
    parse pattern = Builder.fresh.run (Text.byteLength pattern) tokens := by
  rw [parse_eq_buildTree h, buildTree_eq_run]

/-- A pattern parses if it falls into tokens and these make up its tree. -/
theorem parse_eq_ok_iff {pattern : Text} {root : Node} :
    parse pattern = .ok root ↔ ∃ tokens, lex pattern = ⟨tokens, none⟩ ∧
      buildTree tokens (Text.byteLength pattern) = .ok root := by
  constructor
  · intro h
    obtain ⟨tokens, htokens, htree⟩ := exists_of_bind_ok h
    exact ⟨tokens, tokenize_eq_ok_iff.1 htokens, htree⟩
  · rintro ⟨tokens, hlex, htree⟩
    rw [parse_eq_buildTree hlex, htree]

/-! What a token can do to a builder. -/

/-- The steps that do not end in a fault, with all that is known when they are taken. -/
inductive Builder.Step : Builder → Token → Builder → Prop where
  | atom (l : Level) (pending : List OpenGroup) (span : Span) (a : Atom) :
    Step ⟨l, pending⟩ ⟨span, .atom a⟩ ⟨l.push (.atom span a), pending⟩
  | bar (l : Level) (pending : List OpenGroup) (span : Span) :
    Step ⟨l, pending⟩ ⟨span, .bar⟩ ⟨l.separate span.start, pending⟩
  | quantifier (l : Level) (n : Node) (pending : List OpenGroup) (span : Span) (q : Quantifier)
      (hn : n.isQuantified = false) :
    Step ⟨l.push n, pending⟩ ⟨span, .quantifier q⟩
      ⟨l.push (.quantified ⟨n.span.start, span.stop⟩ n q), pending⟩
  | groupOpen (l : Level) (pending : List OpenGroup) (span : Span) (kind : GroupKind)
      (hdepth : pending.length < maxNesting) :
    Step ⟨l, pending⟩ ⟨span, .groupOpen kind⟩
      ⟨.fresh, ⟨span.start, kind, l⟩ :: pending⟩
  | groupClose (l : Level) (g : OpenGroup) (pending : List OpenGroup) (span : Span) :
    Step ⟨l, g :: pending⟩ ⟨span, .groupClose⟩
      ⟨g.outer.push (.group ⟨g.start, span.stop⟩ g.kind (l.content span.start)), pending⟩

theorem Builder.step_of_ok {b b' : Builder} {t : Token} (h : b.step t = .ok b') : b.Step t b' := by
  obtain ⟨⟨branches, items⟩, pending⟩ := b
  obtain ⟨span, kind⟩ := t
  cases kind with
  | atom a =>
    cases h
    exact .atom _ pending span a
  | bar =>
    cases h
    exact .bar _ pending span
  | quantifier q =>
    cases items with
    | nil => contradiction
    | cons n ns =>
      cases hn : n.isQuantified with
      | true => simp [Builder.step, Level.repeatLast?, hn] at h
      | false =>
        simp only [Builder.step, Level.repeatLast?, hn, Bool.false_eq_true, ↓reduceIte,
          Except.ok.injEq] at h
        subst h
        exact .quantifier ⟨branches, ns⟩ n pending span q hn
  | groupOpen kind =>
    simp only [Builder.step] at h
    split at h
    next hdepth =>
      cases h
      exact .groupOpen _ pending span kind hdepth
    next => contradiction
  | groupClose =>
    cases pending with
    | nil => contradiction
    | cons g pending =>
      cases h
      exact .groupClose _ g pending span

/-- Reasons backwards along a run that gives a tree: from its end over each of its steps. -/
theorem Builder.run_induct {stop : Nat} {tree : Node} {P : Builder → List Token → Prop}
    (finish : ∀ l : Level, l.content stop = tree → P ⟨l, []⟩ [])
    (step : ∀ (b b' : Builder) (t : Token) (ts : List Token),
      b.Step t b' → P b' ts → P b (t :: ts))
    {b : Builder} {ts : List Token} (h : b.run stop ts = .ok tree) : P b ts := by
  induction ts generalizing b with
  | nil =>
    obtain ⟨l, pending⟩ := b
    cases pending with
    | nil => exact finish l (Except.ok.inj h)
    | cons g pending => contradiction
  | cons t ts ih =>
    obtain ⟨b', hstep, hrun⟩ := exists_of_bind_ok h
    exact step b b' t ts (step_of_ok hstep) (ih hrun)

end PatternAudit.Grammar
