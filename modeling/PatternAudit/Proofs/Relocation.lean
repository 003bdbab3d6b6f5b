import PatternAudit.Proofs.NormalForm

set_option autoImplicit false

/-!
# Trees in other places

Places only pass through the building of a tree: moving the places of all tokens by one function moves
the places of the tree by it and changes nothing else. `Builder.run_move` says so of every pass. Groups
that are open around the pass change nothing either, as long as all groups together keep to the limit
(`Builder.run_within`).
-/
namespace PatternAudit.Grammar

/-! Moving places. -/

def Span.move (f : Nat → Nat) (s : Span) : Span :=
  ⟨f s.start, f s.stop⟩

def Fault.move (f : Nat → Nat) (e : Fault) : Fault :=
  { e with offset := f e.offset }

def Token.move (f : Nat → Nat) (t : Token) : Token :=
  { t with span := t.span.move f }

section

variable (f : Nat → Nat)

mutual

def Node.move : Node → Node
  | .empty offset => .empty (f offset)
  | .atom span a => .atom (span.move f) a
  | .group span kind body => .group (span.move f) kind body.move
  | .sequence span items => .sequence (span.move f) (moveAll items)
  | .alternation span branches => .alternation (span.move f) (moveAll branches)
  | .quantified span body q => .quantified (span.move f) body.move q

def Node.moveAll : List Node → List Node
  | [] => []
  | n :: ns => n.move :: moveAll ns

end

theorem Node.moveAll_eq_map (ns : List Node) : moveAll f ns = ns.map (move f) := by
  induction ns with
  | nil => rfl
  | cons n ns ih => rw [moveAll, ih, List.map_cons]

@[simp] theorem Node.move_span (n : Node) : (n.move f).span = n.span.move f := by
  cases n <;> rfl

@[simp] theorem Node.isQuantified_move (n : Node) : (n.move f).isQuantified = n.isQuantified := by
  cases n <;> rfl

theorem Node.move_concatenation (offset : Nat) (ns : List Node) :
    (concatenation offset ns).move f = concatenation (f offset) (ns.map (move f)) := by
  match ns with
  | [] => rfl
  | [n] => rfl
  | n :: m :: ns =>
    have hlast : ((m :: ns).map (move f)).getLast (by simp) = ((m :: ns).getLast (by simp)).move f :=
      List.getLast_map _
    simp only [List.map_cons] at hlast
    simp only [concatenation, move, moveAll_eq_map, List.map_cons, hlast, spanTo, move_span]
    rfl

theorem Node.move_choice (n : Node) (ns : List Node) :
    (choice n ns).move f = choice (n.move f) (ns.map (move f)) := by
  match ns with
  | [] => rfl
  | m :: ns =>
    have hlast : ((m :: ns).map (move f)).getLast (by simp) = ((m :: ns).getLast (by simp)).move f :=
      List.getLast_map _
    simp only [List.map_cons] at hlast
    simp only [choice, move, moveAll_eq_map, List.map_cons, hlast, spanTo, move_span]
    rfl

theorem Node.move_ofBranches (n : Node) (ns : List Node) :
    (ofBranches (n :: ns)).move f = ofBranches ((n :: ns).map (move f)) := by
  simp only [ofBranches, ← List.map_reverse]
  cases h : (n :: ns).reverse with
  | nil => simp at h
  | cons m ms => exact move_choice f m ms

def Level.move (l : Level) : Level :=
  ⟨l.branches.map (Node.move f), l.items.map (Node.move f)⟩

def OpenGroup.move (g : OpenGroup) : OpenGroup :=
  ⟨f g.start, g.kind, g.outer.move f⟩

def Builder.move (b : Builder) : Builder :=
  ⟨b.level.move f, b.pending.map (OpenGroup.move f)⟩

theorem Level.move_push (l : Level) (n : Node) : (l.push n).move f = (l.move f).push (n.move f) := rfl

theorem Level.move_branch (l : Level) (offset : Nat) :
    (l.branch offset).move f = (l.move f).branch (f offset) := by
  rw [branch, Node.move_concatenation, List.map_reverse]
  rfl

theorem Level.move_content (l : Level) (offset : Nat) :
    (l.content offset).move f = (l.move f).content (f offset) := by
  rw [content, Node.move_ofBranches, List.map_cons, move_branch]
  rfl

theorem Level.move_separate (l : Level) (offset : Nat) :
    (l.separate offset).move f = (l.move f).separate (f offset) := by
  rw [separate, move, List.map_cons, move_branch]
  rfl

theorem mapError_ok {α ε δ : Type} (g : ε → δ) (a : α) :
    (Except.ok a : Except ε α).mapError g = .ok a := rfl

theorem mapError_error {α ε δ : Type} (g : ε → δ) (e : ε) :
    (Except.error e : Except ε α).mapError g = .error (g e) := rfl

/-- A step does the same to a builder whatever the places are. -/
theorem Builder.step_move (b : Builder) (t : Token) :
    (b.move f).step (t.move f) = ((b.step t).mapError (Fault.move f)).map (move f) := by
  obtain ⟨⟨branches, items⟩, pending⟩ := b
  obtain ⟨span, kind⟩ := t
  cases kind with
  | atom a => rfl
  | bar => simp [step, mapError_ok, Except.map, move, Token.move, Span.move, Level.move_separate]
  | quantifier q =>
    cases items with
    | nil => rfl
    | cons n ns =>
      cases hn : n.isQuantified <;>
        simp [step, Level.repeatLast?, mapError_ok, mapError_error, Except.map, move, Token.move,
          Span.move, Fault.move, Level.move, Node.move, hn]
  | groupOpen kind =>
    by_cases hdepth : pending.length < maxNesting <;>
      simp [step, mapError_ok, mapError_error, Except.map, move, Token.move, Span.move, Fault.move,
        Level.move, OpenGroup.move, Level.fresh, hdepth]
  | groupClose =>
    cases pending with
    | nil => rfl
    | cons g pending =>
      simp [step, mapError_ok, Except.map, move, Token.move, Span.move, Level.move_push, Node.move,
        Level.move_content, OpenGroup.move]

theorem Builder.run_move (stop : Nat) (b : Builder) (ts : List Token) :
    (b.move f).run (f stop) (ts.map (Token.move f)) =
      ((b.run stop ts).mapError (Fault.move f)).map (Node.move f) := by
  induction ts generalizing b with
  | nil =>
    obtain ⟨l, pending⟩ := b
    cases pending with
    | nil => simp [run, finish, move, mapError_ok, Except.map, Level.move_content]
    | cons g pending => rfl
  | cons t ts ih =>
    rw [List.map_cons, run_cons, run_cons, step_move]
    cases b.step t with
    | error e => rfl
    | ok b' => exact ih b'

theorem buildTree_move {tokens : List Token} {length : Nat} {tree : Node}
    (h : buildTree tokens length = .ok tree) :
    buildTree (tokens.map (Token.move f)) (f length) = .ok (tree.move f) := by
  have hmoved := Builder.run_move f length .fresh tokens
  rw [← buildTree_eq_run, h] at hmoved
  rw [buildTree_eq_run]
  exact hmoved

theorem exists_of_buildTree_move {tokens : List Token} {length : Nat} {moved : Node}
    (h : buildTree (tokens.map (Token.move f)) (f length) = .ok moved) :
    ∃ tree, buildTree tokens length = .ok tree ∧ moved = tree.move f := by
  have hmoved := Builder.run_move f length .fresh tokens
  change Builder.fresh.run (f length) _ = _ at hmoved
  rw [← buildTree_eq_run, ← buildTree_eq_run, h] at hmoved
  cases hbuilt : buildTree tokens length with
  | error e => simp [hbuilt, mapError_error, Except.map] at hmoved
  | ok tree =>
    rw [hbuilt] at hmoved
    exact ⟨tree, rfl, Except.ok.inj hmoved⟩

end

/-! Lexing. -/

def Lexing.move (f : Nat → Nat) (l : Lexing) : Lexing :=
  ⟨l.tokens.map (Token.move f), l.fault?.map (Fault.move f)⟩

/-- Text is read the same wherever it begins. -/
theorem lexFrom_move (quoting : Bool) (distance offset : Nat) (s : Text) :
    lexFrom quoting (distance + offset) s = (lexFrom quoting offset s).move (distance + ·) := by
  fun_induction lexFrom quoting offset s with
  | case1 => rw [lexFrom_nil]; rfl
  | case2 quoting offset c r e he =>
    rw [lexFrom_of_error he]
    simp [Lexing.move, Fault.move, Fault.shift, Nat.add_assoc]
  | case3 quoting offset c r p hp ih =>
    rw [lexFrom_of_ok hp, Nat.add_assoc, ih]
    unfold Lexing.prepend
    split
    next => simp [Lexing.move, Token.move, Span.move, Nat.add_assoc]
    next => rfl

/-! How deep the groups of a builder nest. -/

theorem Node.nestingAll_le_iff {k : Nat} {ns : List Node} :
    nestingAll ns ≤ k ↔ ∀ n ∈ ns, n.nesting ≤ k := by
  refine ⟨fun h n hn => ?_, nestingAll_le⟩
  induction ns with
  | nil => contradiction
  | cons m ns ih =>
    simp only [nestingAll] at h
    rcases List.mem_cons.1 hn with rfl | hn
    · omega
    · exact ih (by omega) hn

theorem Node.nestingAll_reverse (ns : List Node) : nestingAll ns.reverse = nestingAll ns := by
  apply Nat.le_antisymm
  · exact nestingAll_le fun n hn => nestingAll_le_iff.1 (Nat.le_refl _) n (List.mem_reverse.1 hn)
  · exact nestingAll_le fun n hn => nestingAll_le_iff.1 (Nat.le_refl _) n (List.mem_reverse.2 hn)

mutual

theorem Node.nesting_move (f : Nat → Nat) (n : Node) : (n.move f).nesting = n.nesting := by
  match n with
  | .empty _ | .atom _ _ => rfl
  | .group _ _ body => simp [move, nesting, body.nesting_move f]
  | .quantified _ body _ => simp [move, nesting, body.nesting_move f]
  | .sequence _ items => simp [move, nesting, nestingAll_moveAll f items]
  | .alternation _ branches => simp [move, nesting, nestingAll_moveAll f branches]

theorem Node.nestingAll_moveAll (f : Nat → Nat) (ns : List Node) :
    nestingAll (moveAll f ns) = nestingAll ns := by
  match ns with
  | [] => rfl
  | n :: ns => simp [moveAll, nestingAll, n.nesting_move f, nestingAll_moveAll f ns]

end

theorem Node.nesting_concatenation (offset : Nat) (ns : List Node) :
    (concatenation offset ns).nesting = nestingAll ns := by
  match ns with
  | [] => rfl
  | [n] => simp [concatenation, nestingAll]
  | n :: m :: ns => rfl

theorem Node.nesting_ofBranches (ns : List Node) : (ofBranches ns).nesting = nestingAll ns := by
  rw [← nestingAll_reverse, ofBranches]
  match ns.reverse with
  | [] => rfl
  | [n] => simp [choice, nestingAll]
  | n :: m :: ns => rfl

def Level.nesting (l : Level) : Nat :=
  max (Node.nestingAll l.items) (Node.nestingAll l.branches)

theorem Level.nesting_content (l : Level) (offset : Nat) : (l.content offset).nesting = l.nesting := by
  rw [content, Node.nesting_ofBranches, Node.nestingAll, branch, Node.nesting_concatenation,
    Node.nestingAll_reverse, nesting]

/-- How deep groups nest at a level around which some are open, if they nest `k` deep in it. -/
def OpenGroup.nestingAround : Nat → List OpenGroup → Nat
  | k, [] => k
  | k, g :: outer => nestingAround (max g.outer.nesting (k + 1)) outer

theorem OpenGroup.nestingAround_mono {k k' : Nat} (h : k ≤ k') (pending : List OpenGroup) :
    nestingAround k pending ≤ nestingAround k' pending := by
  induction pending generalizing k k' with
  | nil => exact h
  | cons g outer ih => exact ih (by omega)

theorem OpenGroup.length_le_nestingAround (k : Nat) (pending : List OpenGroup) :
    k + pending.length ≤ nestingAround k pending := by
  induction pending generalizing k with
  | nil => exact Nat.le_refl k
  | cons g outer ih =>
    have := ih (max g.outer.nesting (k + 1))
    rw [nestingAround, List.length_cons]
    omega

def Builder.nesting (b : Builder) : Nat :=
  OpenGroup.nestingAround b.level.nesting b.pending

theorem Builder.Step.nesting_le {b b' : Builder} {t : Token} (h : b.Step t b') :
    b.nesting ≤ b'.nesting := by
  cases h with
  | atom l pending span a =>
    refine OpenGroup.nestingAround_mono ?_ pending
    simp only [Level.nesting, Level.push, Node.nestingAll]
    omega
  | bar l pending span =>
    refine OpenGroup.nestingAround_mono ?_ pending
    simp only [Level.nesting, Level.separate, Level.branch, Node.nestingAll, Node.nesting_concatenation,
      Node.nestingAll_reverse]
    omega
  | quantifier l n pending span q hn => exact Nat.le_refl _
  | groupOpen l pending span kind hdepth =>
    refine OpenGroup.nestingAround_mono ?_ pending
    simp only [Level.nesting]
    omega
  | groupClose l g pending span =>
    refine OpenGroup.nestingAround_mono ?_ pending
    simp only [Level.nesting, Level.push, Node.nestingAll, Node.nesting, Level.nesting_content]
    omega

/-! Groups around a pass. -/

def Builder.within (outer : List OpenGroup) (b : Builder) : Builder :=
  { b with pending := b.pending ++ outer }

theorem Builder.Step.within {b b' : Builder} {t : Token} (h : b.Step t b') {outer : List OpenGroup}
    (hfits : b'.pending.length + outer.length ≤ maxNesting) :
    (b.within outer).Step t (b'.within outer) := by
  cases h with
  | atom l pending span a => exact .atom l _ span a
  | bar l pending span => exact .bar l _ span
  | quantifier l n pending span q hn => exact .quantifier l n _ span q hn
  | groupOpen l pending span kind hdepth =>
    refine .groupOpen l _ span kind ?_
    simp only [List.length_cons, List.length_append] at hfits ⊢
    omega
  | groupClose l g pending span => exact .groupClose l g _ span

theorem Builder.Step.run {b b' : Builder} {t : Token} (h : b.Step t b') (stop : Nat) (ts : List Token) :
    b.run stop (t :: ts) = b'.run stop ts := by
  have hstep : b.step t = .ok b' := by
    cases h with
    | quantifier l n pending span q hn => simp [step, Level.repeatLast?, Level.push, hn]
    | groupOpen l pending span kind hdepth => simp [step, hdepth]
    | _ => rfl
  rw [run_cons, hstep, ok_bind]

/-- The tokens of a whole tree leave the groups around them open and make up the level in them. -/
theorem Builder.run_within {b : Builder} {stop : Nat} {ts : List Token} {tree : Node}
    (h : b.run stop ts = .ok tree) {outer : List OpenGroup}
    (hfits : outer.length + tree.nesting ≤ maxNesting) :
    ∃ l : Level, l.content stop = tree ∧ ∀ (stop' : Nat) (rest : List Token),
      (b.within outer).run stop' (ts ++ rest) = Builder.run stop' ⟨l, outer⟩ rest := by
  refine (Builder.run_induct (P := fun b ts => b.nesting ≤ tree.nesting ∧ ∃ l : Level,
    l.content stop = tree ∧ ∀ (stop' : Nat) (rest : List Token),
      (b.within outer).run stop' (ts ++ rest) = Builder.run stop' ⟨l, outer⟩ rest) ?_ ?_ h).2
  · intro l hl
    refine ⟨?_, l, hl, fun _ _ => rfl⟩
    rw [← hl, Level.nesting_content]
    exact Nat.le_refl _
  · intro b b' t ts hstep ⟨hnesting, l, hl, hrun⟩
    refine ⟨Nat.le_trans hstep.nesting_le hnesting, l, hl, fun stop' rest => ?_⟩
    have hpending := OpenGroup.length_le_nestingAround b'.level.nesting b'.pending
    have hdepth : b'.pending.length ≤ b'.nesting := Nat.le_trans (Nat.le_add_left _ _) hpending
    have hstep' : (b.within outer).Step t (b'.within outer) := hstep.within (by omega)
    rw [List.cons_append, hstep'.run, hrun]

end PatternAudit.Grammar
