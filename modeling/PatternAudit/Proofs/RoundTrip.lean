import Mathlib.Data.List.Basic
import PatternAudit.Proofs.NormalForm
import PatternAudit.Proofs.ReadBack
import PatternAudit.Proofs.Relocation
import PatternAudit.Proofs.Written

set_option autoImplicit false

/-!
# Trees written and read again

A tree of normal form is written by the texts of its tokens. Reading the text gives the same tree
except for the places of its nodes, and `parse_write` says so of all of them. The tokens decide the
tree up to places, so it is enough to follow a pass over tokens that all stand at the same place.
-/
namespace PatternAudit.Grammar

/-! Trees without their places. -/

mutual

/-- The same tree with all its nodes in one place. -/
def Node.bare : Node → Node
  | .empty _ => .empty 0
  | .atom _ a => .atom ⟨0, 0⟩ a
  | .group _ kind body => .group ⟨0, 0⟩ kind body.bare
  | .sequence _ items => .sequence ⟨0, 0⟩ (bareAll items)
  | .alternation _ branches => .alternation ⟨0, 0⟩ (bareAll branches)
  | .quantified _ body q => .quantified ⟨0, 0⟩ body.bare q

def Node.bareAll : List Node → List Node
  | [] => []
  | n :: ns => n.bare :: bareAll ns

end

mutual

theorem Node.bare_eq_move (n : Node) : n.bare = n.move fun _ => 0 := by
  match n with
  | .empty _ | .atom _ _ => rfl
  | .group _ _ body => rw [bare, move, body.bare_eq_move]; rfl
  | .quantified _ body _ => rw [bare, move, body.bare_eq_move]; rfl
  | .sequence _ items => rw [bare, move, bareAll_eq_moveAll items]; rfl
  | .alternation _ branches => rw [bare, move, bareAll_eq_moveAll branches]; rfl

theorem Node.bareAll_eq_moveAll (ns : List Node) : bareAll ns = moveAll (fun _ => 0) ns := by
  match ns with
  | [] => rfl
  | n :: ns => rw [bareAll, moveAll, n.bare_eq_move, bareAll_eq_moveAll ns]

end

theorem Node.map_bare_eq_move (ns : List Node) : ns.map bare = ns.map (move fun _ => 0) :=
  List.map_congr_left fun n _ => n.bare_eq_move

@[simp] theorem Node.bare_span (n : Node) : n.bare.span = ⟨0, 0⟩ := by
  rw [bare_eq_move, move_span]
  rfl

@[simp] theorem Node.isQuantified_bare (n : Node) : n.bare.isQuantified = n.isQuantified := by
  rw [bare_eq_move, isQuantified_move]

theorem Node.bare_concatenation (offset : Nat) (ns : List Node) :
    (concatenation offset ns).bare = concatenation 0 (ns.map bare) := by
  rw [bare_eq_move, move_concatenation, map_bare_eq_move]

theorem Node.bare_choice (n : Node) (ns : List Node) :
    (choice n ns).bare = choice n.bare (ns.map bare) := by
  rw [bare_eq_move, move_choice, bare_eq_move, map_bare_eq_move]

def TokenKind.bare (kind : TokenKind) : Token :=
  ⟨⟨0, 0⟩, kind⟩

def Level.bare (l : Level) : Level :=
  ⟨l.branches.map Node.bare, l.items.map Node.bare⟩

def OpenGroup.bare (g : OpenGroup) : OpenGroup :=
  ⟨0, g.kind, g.outer.bare⟩

def Builder.bare (b : Builder) : Builder :=
  ⟨b.level.bare, b.pending.map OpenGroup.bare⟩

theorem Level.bare_eq_move (l : Level) : l.bare = l.move fun _ => 0 := by
  rw [bare, move, Node.map_bare_eq_move, Node.map_bare_eq_move]

theorem OpenGroup.bare_eq_move (g : OpenGroup) : g.bare = g.move fun _ => 0 := by
  rw [bare, move, Level.bare_eq_move]

theorem Builder.bare_eq_move (b : Builder) : b.bare = b.move fun _ => 0 := by
  rw [bare, move, Level.bare_eq_move, List.map_congr_left fun g _ => g.bare_eq_move]

theorem Builder.bare_run (stop : Nat) (b : Builder) (ts : List Token) :
    (b.run stop ts).toOption.map Node.bare =
      (b.bare.run 0 (ts.map fun t => t.kind.bare)).toOption := by
  have hmove := b.run_move (fun _ => 0) stop ts
  rw [← bare_eq_move] at hmove
  refine Eq.trans ?_ (congrArg Except.toOption hmove).symm
  cases b.run stop ts with
  | error f => rfl
  | ok tree => exact congrArg some tree.bare_eq_move

/-! Following a pass over the tokens of a tree. -/

/-- Goes on with tokens of some kinds that all stand in one place. -/
def Builder.runKinds (b : Builder) (kinds : List TokenKind) : Except Fault Node :=
  b.run 0 (kinds.map TokenKind.bare)

theorem Builder.runKinds_cons (b : Builder) (kind : TokenKind) (kinds : List TokenKind) :
    b.runKinds (kind :: kinds) = b.step kind.bare >>= fun b => b.runKinds kinds := rfl

def Node.kindsOfItems : List Node → List TokenKind :=
  Node.readOffItems (fun _ a => [.atom a]) fun kind => [kind]

def Node.kindsOfBranches : List Node → List TokenKind :=
  Node.readOffBranches (fun _ a => [.atom a]) fun kind => [kind]

/-- The tokens of an item add the item to the level they are read at. -/
def Node.RunsAsItem (n : Node) : Prop :=
  ∀ (l : Level) (pending : List OpenGroup) (rest : List TokenKind),
    pending.length + n.nesting ≤ maxNesting →
    Builder.runKinds ⟨l, pending⟩ (n.kinds ++ rest) = Builder.runKinds ⟨l.push n.bare, pending⟩ rest

/-- The tokens of a branch make up a whole branch of the level they are read at. -/
def Node.RunsAsBranch (n : Node) : Prop :=
  ∀ (branches : List Node) (pending : List OpenGroup) (rest : List TokenKind),
    pending.length + n.nesting ≤ maxNesting →
    Builder.runKinds ⟨⟨branches, []⟩, pending⟩ (n.kinds ++ rest) =
      Builder.runKinds ⟨⟨branches, (n.items.map bare).reverse⟩, pending⟩ rest

/-- After the tokens of a tree the level holds the tree and nothing else. -/
def Node.RunsAsContent (n : Node) : Prop :=
  ∀ pending : List OpenGroup, pending.length + n.nesting ≤ maxNesting →
    ∃ l : Level, l.content 0 = n.bare ∧ ∀ rest : List TokenKind,
      Builder.runKinds ⟨.fresh, pending⟩ (n.kinds ++ rest) = Builder.runKinds ⟨l, pending⟩ rest

theorem Node.IsUnit.isItem {n : Node} (h : n.IsUnit) : n.IsItem := by
  cases n <;> trivial

theorem Node.IsUnit.isQuantified_eq_false {n : Node} (h : n.IsUnit) : n.isQuantified = false := by
  cases n <;> trivial

theorem Node.concatenation_items {n : Node} (hn : n.Normal) (hbranch : n.IsBranch) :
    concatenation 0 (n.items.map bare) = n.bare := by
  cases n with
  | empty offset => rfl
  | atom span a => rfl
  | group span kind body => rfl
  | quantified span body q => rfl
  | alternation span branches => contradiction
  | sequence span items =>
    match items, hn.1 with
    | x :: y :: ns, _ => exact (bare_concatenation 0 (x :: y :: ns)).symm

theorem Node.level_branch {n : Node} (hn : n.Normal) (hbranch : n.IsBranch) (branches : List Node) :
    Level.branch ⟨branches, (n.items.map bare).reverse⟩ 0 = n.bare := by
  rw [Level.branch, List.reverse_reverse, concatenation_items hn hbranch]

theorem Node.ofBranches_bare {span : Span} {branches : List Node}
    (hn : (Node.alternation span branches).Normal) :
    ofBranches (branches.map bare).reverse = (Node.alternation span branches).bare := by
  match branches, hn.1 with
  | x :: y :: ns, _ =>
    rw [ofBranches, List.reverse_reverse, List.map_cons]
    exact (bare_choice x (y :: ns)).symm

mutual

theorem Node.runsAsItem (n : Node) {depth : Nat} (hn : ∀ e ∈ n.preorder depth, e.2.Normal)
    (hitem : n.IsItem) : n.RunsAsItem := by
  intro l pending rest hnesting
  match n with
  | .atom span a => rfl
  | .group span kind body =>
    simp only [preorder, List.forall_mem_cons] at hn
    simp only [nesting] at hnesting
    have hdepth : pending.length < maxNesting := by omega
    obtain ⟨inner, hcontent, hrun⟩ := body.runsAsContent hn.2 (⟨0, kind, l⟩ :: pending)
      (by simp only [List.length_cons]; omega)
    have hopen : Builder.step ⟨l, pending⟩ (TokenKind.groupOpen kind).bare =
        .ok ⟨.fresh, ⟨0, kind, l⟩ :: pending⟩ := by
      simp [Builder.step, TokenKind.bare, hdepth]
    have hkinds : (Node.group span kind body).kinds ++ rest =
        .groupOpen kind :: (body.kinds ++ .groupClose :: rest) := by
      simp [kinds, readOff]
    -- the closing token takes the level back to the one the group stands in
    rw [hkinds, Builder.runKinds_cons, hopen, ok_bind, hrun, Builder.runKinds_cons, bare, ← hcontent]
    rfl
  | .quantified span body q =>
    simp only [preorder, List.forall_mem_cons] at hn
    have hbody := body.runsAsItem hn.2 hn.1.1.isItem l pending (.quantifier q :: rest) hnesting
    have hquantifier : Builder.step ⟨l.push body.bare, pending⟩ (TokenKind.quantifier q).bare =
        .ok ⟨l.push (.quantified ⟨0, 0⟩ body.bare q), pending⟩ := by
      simp [Builder.step, TokenKind.bare, Level.repeatLast?, Level.push, hn.1.1.isQuantified_eq_false]
    have hkinds : (Node.quantified span body q).kinds ++ rest =
        body.kinds ++ .quantifier q :: rest := by
      simp [kinds, readOff]
    rw [hkinds, hbody, Builder.runKinds_cons, hquantifier, ok_bind, bare]
  | .empty _ | .sequence .. | .alternation .. => contradiction
termination_by (sizeOf n, 0)

theorem Node.runsAsItems (ns : List Node) {depth : Nat} (hns : ∀ e ∈ preorderAll depth ns, e.2.Normal)
    (hitem : ∀ n ∈ ns, n.IsItem) (l : Level) (pending : List OpenGroup) (rest : List TokenKind)
    (hnesting : pending.length + nestingAll ns ≤ maxNesting) :
    Builder.runKinds ⟨l, pending⟩ (kindsOfItems ns ++ rest) =
      Builder.runKinds ⟨⟨l.branches, (ns.map bare).reverse ++ l.items⟩, pending⟩ rest := by
  match ns with
  | [] => rfl
  | n :: ns =>
    simp only [preorderAll, List.forall_mem_append] at hns
    simp only [nestingAll] at hnesting
    have hfirst := n.runsAsItem hns.1 (hitem n (by simp)) l pending (kindsOfItems ns ++ rest) (by omega)
    have hothers := runsAsItems ns hns.2 (fun m hm => hitem m (by simp [hm])) (l.push n.bare) pending
      rest (by omega)
    have hkinds : kindsOfItems (n :: ns) ++ rest = n.kinds ++ (kindsOfItems ns ++ rest) := by
      simp [kindsOfItems, kinds, readOffItems]
    rw [hkinds, hfirst, hothers]
    simp [Level.push]
termination_by (sizeOf ns, 0)

theorem Node.runsAsBranch (n : Node) {depth : Nat} (hn : ∀ e ∈ n.preorder depth, e.2.Normal)
    (hbranch : n.IsBranch) : n.RunsAsBranch := by
  intro branches pending rest hnesting
  match n with
  | .empty offset => rfl
  | .atom span a => exact runsAsItem (.atom span a) hn trivial ⟨branches, []⟩ pending rest hnesting
  | .group span kind body =>
    exact runsAsItem (.group span kind body) hn trivial ⟨branches, []⟩ pending rest hnesting
  | .quantified span body q =>
    exact runsAsItem (.quantified span body q) hn trivial ⟨branches, []⟩ pending rest hnesting
  | .sequence span items =>
    simp only [preorder, List.forall_mem_cons] at hn
    have hkinds : (Node.sequence span items).kinds = kindsOfItems items := rfl
    rw [hkinds, runsAsItems items hn.2 hn.1.2 ⟨branches, []⟩ pending rest hnesting, List.append_nil]
    rfl
  | .alternation span branches => contradiction
termination_by (sizeOf n, 1)

theorem Node.runsAsBranches (ns : List Node) {depth : Nat}
    (hns : ∀ e ∈ preorderAll depth ns, e.2.Normal) (hbranch : ∀ n ∈ ns, n.IsBranch) (hne : ns ≠ [])
    (branches : List Node) (pending : List OpenGroup)
    (hnesting : pending.length + nestingAll ns ≤ maxNesting) :
    ∃ l : Level, l.branch 0 :: l.branches = (ns.map bare).reverse ++ branches ∧
      ∀ rest : List TokenKind,
        Builder.runKinds ⟨⟨branches, []⟩, pending⟩ (kindsOfBranches ns ++ rest) =
          Builder.runKinds ⟨l, pending⟩ rest := by
  match ns with
  | [n] =>
    simp only [preorderAll, List.append_nil] at hns
    simp only [nestingAll] at hnesting
    have hlast := hbranch n (by simp)
    refine ⟨⟨branches, (n.items.map bare).reverse⟩, ?_, fun rest => ?_⟩
    · rw [level_branch (normal_of_preorder hns) hlast]
      rfl
    · exact n.runsAsBranch hns hlast branches pending rest (by omega)
  | n :: m :: ns =>
    rw [preorderAll, List.forall_mem_append] at hns
    rw [nestingAll] at hnesting
    have hfirst := hbranch n (by simp)
    obtain ⟨l, hl, hrun⟩ := runsAsBranches (m :: ns) hns.2 (fun x hx => hbranch x (by simp [hx]))
      (by simp) (n.bare :: branches) pending (by omega)
    refine ⟨l, by simpa using hl, fun rest => ?_⟩
    have hkinds : kindsOfBranches (n :: m :: ns) ++ rest =
        n.kinds ++ .bar :: (kindsOfBranches (m :: ns) ++ rest) := by
      simp [kindsOfBranches, kinds, readOffBranches]
    have hbar : Builder.step ⟨⟨branches, (n.items.map bare).reverse⟩, pending⟩ TokenKind.bar.bare =
        .ok ⟨⟨n.bare :: branches, []⟩, pending⟩ := by
      simp [Builder.step, TokenKind.bare, Level.separate, level_branch (normal_of_preorder hns.1) hfirst]
    rw [hkinds, n.runsAsBranch hns.1 hfirst branches pending _ (by omega), Builder.runKinds_cons, hbar,
      ok_bind, hrun]
termination_by (sizeOf ns, 2)

theorem Node.runsAsContent (n : Node) {depth : Nat} (hn : ∀ e ∈ n.preorder depth, e.2.Normal) :
    n.RunsAsContent := by
  intro pending hnesting
  have hnormal := normal_of_preorder hn
  match hshape : n.branches? with
  | none =>
    have hbranch : n.IsBranch := by
      cases n <;> trivial
    refine ⟨⟨[], (n.items.map bare).reverse⟩, ?_, fun rest => ?_⟩
    · rw [Level.content, level_branch hnormal hbranch]
      rfl
    · exact n.runsAsBranch hn hbranch [] pending rest hnesting
  | some branches =>
    obtain ⟨span, rfl⟩ : ∃ span, n = .alternation span branches := by
      cases n <;> simp_all [branches?]
    simp only [preorder, List.forall_mem_cons] at hn
    have hne : branches ≠ [] := by
      rintro rfl
      simp [Normal] at hnormal
    obtain ⟨l, hl, hrun⟩ := runsAsBranches branches hn.2 hnormal.2 hne [] pending hnesting
    refine ⟨l, ?_, hrun⟩
    rw [Level.content, hl, List.append_nil, ofBranches_bare hnormal]
termination_by (sizeOf n, 3)

end

/-! Writing and reading. -/

mutual

theorem Node.kinds_valid (n : Node) {depth : Nat} (hn : ∀ e ∈ n.preorder depth, e.2.Normal) :
    ∀ kind ∈ n.kinds, kind.Valid := by
  match n with
  | .empty offset => simp [kinds, readOff]
  | .atom span a =>
    have ha : a.Valid := normal_of_preorder hn
    simpa [kinds, readOff, TokenKind.Valid] using ha
  | .group span kind body =>
    simp only [preorder, List.forall_mem_cons] at hn
    have hbody := body.kinds_valid hn.2
    simpa [kinds, readOff, TokenKind.Valid, or_imp, forall_and] using ⟨hn.1, hbody⟩
  | .sequence span items =>
    simp only [preorder, List.forall_mem_cons] at hn
    exact kindsOfItems_valid items hn.2
  | .alternation span branches =>
    simp only [preorder, List.forall_mem_cons] at hn
    exact kindsOfBranches_valid branches hn.2
  | .quantified span body q =>
    simp only [preorder, List.forall_mem_cons] at hn
    have hbody := body.kinds_valid hn.2
    simpa [kinds, readOff, TokenKind.Valid, or_imp, forall_and] using ⟨hbody, hn.1.2⟩

theorem Node.kindsOfItems_valid (ns : List Node) {depth : Nat}
    (hns : ∀ e ∈ preorderAll depth ns, e.2.Normal) : ∀ kind ∈ kindsOfItems ns, kind.Valid := by
  match ns with
  | [] => simp [kindsOfItems, readOffItems]
  | n :: ns =>
    simp only [preorderAll, List.forall_mem_append] at hns
    have hfirst := n.kinds_valid hns.1
    have hothers := kindsOfItems_valid ns hns.2
    simp only [kindsOfItems, readOffItems, List.forall_mem_append]
    exact ⟨hfirst, hothers⟩

theorem Node.kindsOfBranches_valid (ns : List Node) {depth : Nat}
    (hns : ∀ e ∈ preorderAll depth ns, e.2.Normal) : ∀ kind ∈ kindsOfBranches ns, kind.Valid := by
  match ns with
  | [] => simp [kindsOfBranches, readOffBranches]
  | [n] =>
    simp only [preorderAll, List.append_nil] at hns
    exact n.kinds_valid hns
  | n :: m :: ns =>
    rw [preorderAll, List.forall_mem_append] at hns
    have hfirst := n.kinds_valid hns.1
    have hothers := kindsOfBranches_valid (m :: ns) hns.2
    simp only [kindsOfBranches, readOffBranches, List.forall_mem_append]
    exact ⟨⟨hfirst, by simp [TokenKind.Valid]⟩, hothers⟩

end

theorem Builder.runKinds_kinds {n : Node} (hn : ∀ e ∈ n.preorder 0, e.2.Normal)
    (hnesting : n.nesting ≤ maxNesting) : fresh.runKinds n.kinds = .ok n.bare := by
  obtain ⟨l, hl, hrun⟩ := n.runsAsContent hn [] (by simpa using hnesting)
  have h := hrun []
  rw [List.append_nil] at h
  rw [fresh, h, ← hl]
  rfl

/-- The tokens of a tree give that tree wherever they stand. -/
theorem buildTree_of_kinds {n : Node} (hn : ∀ e ∈ n.preorder 0, e.2.Normal)
    (hnesting : n.nesting ≤ maxNesting) {tokens : List Token} (htokens : tokens.map Token.kind = n.kinds)
    (length : Nat) : ∃ m, buildTree tokens length = .ok m ∧ m.bare = n.bare := by
  have hbare := Builder.fresh.bare_run length tokens
  have hkinds : (tokens.map fun t => t.kind.bare) = n.kinds.map TokenKind.bare := by
    rw [← htokens, List.map_map]
    rfl
  have hrun : Builder.fresh.bare.run 0 (n.kinds.map TokenKind.bare) = .ok n.bare :=
    Builder.runKinds_kinds hn hnesting
  rw [hkinds, hrun, ← buildTree_eq_run] at hbare
  cases htree : buildTree tokens length with
  | error f => simp [htree, Except.toOption] at hbare
  | ok m => exact ⟨m, rfl, by simpa [htree, Except.toOption] using hbare⟩

theorem parse_write {parted : TokenKind → Text → Bool} (hparted : PartsBraces parted) {n : Node}
    (hn : ∀ e ∈ n.preorder 0, e.2.Normal) (hnesting : n.nesting ≤ 250)
    (hwritable : ∀ kind ∈ n.kinds, kind.Writable) :
    ∃ m, parse (write parted n.kinds) = .ok m ∧ m.bare = n.bare := by
  obtain ⟨tokens, hlex, hkinds⟩ := lexFrom_write hparted (n.kinds_valid hn) hwritable 0
  rw [parse, tokenize_eq_ok_iff.2 hlex, ok_bind]
  exact buildTree_of_kinds hn hnesting hkinds _

theorem parse_write_brace_and_group :
    let parted : TokenKind → Text → Bool := fun kind after =>
      kind = .atom (.char '{') && (boundParts? after).isSome
    let place : Span := ⟨0, 0⟩
    let tree : Node := .sequence place [.atom place (.char '{'), .atom place (.char '2'),
      .atom place (.char '}'),
      .quantified place (.group place (.named ['n']) (.alternation place
        [.atom place (.charClass ⟨true, [.range 'a' 'f', .posix false ['a', 'l', 'p', 'h', 'a'],
          .set (.shorthand 'd'), .set (.property false ['L'])]⟩),
        .empty 0,
        .sequence place [.atom place (.escape (.literal '\n')),
          .atom place (.escape (.backreference ['n']))]])) ⟨.between 2 5, .lazy⟩]
    let text : Text := ['{', '(', '?', '#', ')', '2', '}', '(', '?', '<', 'n', '>', '[', '^', '\\', 'x', '{',
      '6', '1', '}', '-', '\\', 'x', '{', '6', '6', '}', '[', ':', 'a', 'l', 'p', 'h', 'a',
      ':', ']', '\\', 'd', '\\', 'P', '{', '^', 'L', '}', ']', '|', '|', '\\', 'x', '{', 'a',
      '}', '\\', 'k', '{', 'n', '}', ')', '{', '2', ',', '5', '}', '?']
    PartsBraces parted ∧ (∀ e ∈ tree.preorder 0, e.2.Normal) ∧ tree.nesting ≤ 250 ∧
      (∀ kind ∈ tree.kinds, kind.Writable) ∧ write parted tree.kinds = text ∧
      ∃ m, parse text = .ok m ∧ m.bare = tree.bare := by
  intro parted place tree text
  have hparted : PartsBraces parted := by
    intro after h
    simpa [parted] using h
  have hn : ∀ e ∈ tree.preorder 0, e.2.Normal := by
    simp [tree, Node.preorder, Node.preorderAll, Node.Normal, Node.IsItem, Node.IsBranch, Node.IsUnit,
      Atom.Valid, GroupKind.Valid, Bounds.Valid, CharClass.Valid, ClassItem.Valid, Escape.Valid,
      ValidName]
    exact Text.isAlphabetic_of_isAlpha rfl
  have hnesting : tree.nesting ≤ 250 := by decide
  have hwritable : ∀ kind ∈ tree.kinds, kind.Writable := by
    simp [tree, Node.kinds, Node.readOff, Node.readOffItems, Node.readOffBranches, TokenKind.Writable,
      metacharacters, ClassItem.Writable, Escape.Writable]
  have htext : write parted tree.kinds = text := by decide +kernel
  refine ⟨hparted, hn, hnesting, hwritable, htext, ?_⟩
  rw [← htext]
  exact parse_write hparted hn hnesting hwritable

end PatternAudit.Grammar
