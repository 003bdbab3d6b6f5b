import PatternAudit.Lint.Findings
import PatternAudit.Proofs.NodePlaces
import PatternAudit.Proofs.Relocation
import PatternAudit.Proofs.UniversalTruth

set_option autoImplicit false

/-!
# Findings of moved trees

The checks look at the places of nodes only to report them, so what they find moves with the tree. What
the universal check finds is always a node of the tree, which is why its text can be shown.
-/
namespace PatternAudit.Grammar

@[simp] theorem Node.isAnchor_move (f : Nat → Nat) (side : Anchor) (n : Node) :
    (n.move f).isAnchor side = n.isAnchor side := by
  cases n with
  | atom span a => cases a <;> rfl
  | _ => rfl

@[simp] theorem Node.isOptions_move (f : Nat → Nat) (n : Node) : (n.move f).isOptions = n.isOptions := by
  cases n with
  | atom span a => cases a <;> rfl
  | _ => rfl

theorem Node.mem_preorder_self (n : Node) (depth : Nat) : (depth, n) ∈ n.preorder depth := by
  cases n <;> exact List.mem_cons_self

theorem Node.sizeOf_child {n c : Node} (hc : c ∈ n.children) : sizeOf c < sizeOf n := by
  cases n with
  | empty offset => contradiction
  | atom span a => contradiction
  | group span kind body =>
    rw [List.mem_singleton.1 hc]
    simp only [Node.group.sizeOf_spec]
    omega
  | quantified span body q =>
    rw [List.mem_singleton.1 hc]
    simp only [Node.quantified.sizeOf_spec]
    omega
  | sequence span nodes =>
    have hlt : sizeOf c < sizeOf nodes := List.sizeOf_lt_of_mem hc
    simp only [Node.sequence.sizeOf_spec]
    omega
  | alternation span nodes =>
    have hlt : sizeOf c < sizeOf nodes := List.sizeOf_lt_of_mem hc
    simp only [Node.alternation.sizeOf_spec]
    omega

theorem Node.preorder_child {n c : Node} (hc : c ∈ n.children) (depth : Nat) :
    c.preorder (depth + 1) ⊆ n.preorder depth := by
  cases n with
  | empty offset => contradiction
  | atom span a => contradiction
  | group span kind body =>
    rw [List.mem_singleton.1 hc]
    exact List.subset_cons_self _ _
  | quantified span body q =>
    rw [List.mem_singleton.1 hc]
    exact List.subset_cons_self _ _
  | sequence span nodes => exact List.Subset.trans (preorder_subset hc) (List.subset_cons_self _ _)
  | alternation span nodes => exact List.Subset.trans (preorder_subset hc) (List.subset_cons_self _ _)

end PatternAudit.Grammar

namespace PatternAudit.Lint

open Grammar (Bounds GroupKind Node Quantifier Span)

/-! Anchors. -/

section

variable (f : Nat → Nat)

theorem all_isOptions_map_move (ns : List Node) :
    (ns.map (Node.move f)).all Node.isOptions = ns.all Node.isOptions := by
  simp [Function.comp_def]

mutual

theorem misplacedAnchorIn_move (terminal : Bool) (n : Node) :
    misplacedAnchorIn terminal (n.move f) = (misplacedAnchorIn terminal n).map f := by
  match n with
  | .empty offset => rfl
  | .atom span (.anchor .finish) => cases terminal <;> rfl
  | .atom span (.anchor .start) | .atom span (.char _) | .atom span (.escape _) | .atom span .any
  | .atom span (.charClass _) | .atom span (.options _) => rfl
  | .group span kind body => exact misplacedAnchorIn_move terminal body
  | .quantified span body q => exact misplacedAnchorIn_move terminal body
  | .sequence span items =>
    rw [Node.move, Node.moveAll_eq_map]
    exact misplacedAnchorInItems_move terminal items
  | .alternation span branches =>
    rw [Node.move, Node.moveAll_eq_map]
    exact misplacedAnchorInBranches_move terminal branches

theorem misplacedAnchorInItems_move (terminal : Bool) (ns : List Node) :
    misplacedAnchorInItems terminal (ns.map (Node.move f)) =
      (misplacedAnchorInItems terminal ns).map f := by
  match ns with
  | [] => rfl
  | n :: ns =>
    rw [List.map_cons, misplacedAnchorInItems, misplacedAnchorInItems, misplacedAnchorIn_move,
      misplacedAnchorInItems_move, all_isOptions_map_move, Option.map_or]

theorem misplacedAnchorInBranches_move (terminal : Bool) (ns : List Node) :
    misplacedAnchorInBranches terminal (ns.map (Node.move f)) =
      (misplacedAnchorInBranches terminal ns).map f := by
  match ns with
  | [] => rfl
  | n :: ns =>
    rw [List.map_cons, misplacedAnchorInBranches, misplacedAnchorInBranches, misplacedAnchorIn_move,
      misplacedAnchorInBranches_move, List.isEmpty_map, Option.map_or]

end

end

/-! Universal parts. -/

def Core.map {α β : Type} (g : α → β) : Core α → Core β
  | .anchoredNothing => .anchoredNothing
  | .nothing => .nothing
  | .single x => .single (g x)
  | .several => .several

theorem dropStartAnchor_map {α β : Type} (node : α → Node) (node' : β → Node) (g : α → β)
    (hanchor : ∀ x side, (node' (g x)).isAnchor side = (node x).isAnchor side) (xs : List α) :
    dropStartAnchor node' (xs.map g) =
      ((dropStartAnchor node xs).1, (dropStartAnchor node xs).2.map g) := by
  cases xs with
  | nil => rfl
  | cons x xs => cases h : (node x).isAnchor .start <;> simp [dropStartAnchor, hanchor, h]

theorem dropEndAnchor_map {α β : Type} (node : α → Node) (node' : β → Node) (g : α → β)
    (hanchor : ∀ x side, (node' (g x)).isAnchor side = (node x).isAnchor side) (xs : List α) :
    dropEndAnchor node' (xs.map g) = ((dropEndAnchor node xs).1, (dropEndAnchor node xs).2.map g) := by
  rcases List.eq_nil_or_concat xs with rfl | ⟨ys, x, rfl⟩
  · rfl
  · cases h : (node x).isAnchor .finish <;> simp [dropEndAnchor, hanchor, h]

theorem coreOf_map {α β : Type} (node : α → Node) (node' : β → Node) (g : α → β)
    (hanchor : ∀ x side, (node' (g x)).isAnchor side = (node x).isAnchor side)
    (hoptions : ∀ x, (node' (g x)).isOptions = (node x).isOptions) (items : List α) :
    coreOf node' (items.map g) = (coreOf node items).map g := by
  have hfilter : (items.map g).filter (fun x => !(node' x).isOptions) =
      (items.filter fun x => !(node x).isOptions).map g := by
    simp [List.filter_map, Function.comp_def, hoptions]
  simp only [coreOf, hfilter, dropStartAnchor_map node node' g hanchor,
    dropEndAnchor_map node node' g hanchor]
  generalize dropEndAnchor node _ = ends
  generalize (dropStartAnchor node _).1 = started
  obtain ⟨ended, core⟩ := ends
  rcases core with _ | ⟨x, _ | ⟨y, ys⟩⟩
  · cases started <;> cases ended <;> rfl
  · rfl
  · rfl

theorem isAny_move (f : Nat → Nat) (n : Node) : isAny (n.move f) = isAny n := by
  cases n with
  | atom span a => cases a <;> rfl
  | _ => rfl

theorem isCompound_move (f : Nat → Nat) (n : Node) : isCompound (n.move f) = isCompound n := by
  cases n <;> rfl

section

variable {f : Nat → Nat}

theorem showable_move (hf : ∀ i j, f i = f j → i = j) (enclosing part : Node) :
    showable (enclosing.move f) (part.move f) = (showable enclosing part).move f := by
  by_cases h : part.span.start = part.span.stop
  · simp [showable, Span.move, h]
  · have hne : ¬ f part.span.start = f part.span.stop := fun heq => h (hf _ _ heq)
    simp [showable, Span.move, h, hne]

mutual

theorem universalPart?_move (hf : ∀ i j, f i = f j → i = j) (n : Node) :
    universalPart? (n.move f) = (universalPart? n).map (Node.move f) := by
  match n with
  | .empty offset => rfl
  | .atom span a => cases a <;> rfl
  | .group span kind body =>
    rw [universalPart?]
    split
    next hkind =>
      have hbody := universalPart?_move hf body
      rw [Node.move, universalPart?, if_pos hkind, hbody, Option.map_map, Option.map_map]
      refine Option.map_congr fun part _ => ?_
      exact showable_move hf (.group span kind body) part
    next hkind =>
      rw [Node.move, universalPart?, if_neg hkind]
      rfl
  | .quantified span body q =>
    simp only [Node.move, universalPart?, isAny_move]
    split <;> rfl
  | .sequence span items =>
    rw [Node.move, Node.moveAll_eq_map, universalPart?, universalPart?, universalItems_move hf items,
      coreOf_map Prod.fst Prod.fst _ (by simp) (by simp)]
    cases coreOf Prod.fst (universalItems items) with
    | nothing => simp [Core.map, Node.move, Node.moveAll_eq_map]
    | _ => rfl
  | .alternation span branches =>
    rw [universalPart?, Node.move, Node.moveAll_eq_map, universalPart?, firstUniversal?_move hf branches,
      Option.map_map, Option.map_map]
    refine Option.map_congr fun part _ => ?_
    have hshow := showable_move hf (.alternation span branches) part
    rw [Node.move, Node.moveAll_eq_map] at hshow
    exact hshow

theorem universalItems_move (hf : ∀ i j, f i = f j → i = j) (ns : List Node) :
    universalItems (ns.map (Node.move f)) =
      (universalItems ns).map (Prod.map (Node.move f) (Option.map (Node.move f))) := by
  match ns with
  | [] => rfl
  | n :: ns =>
    have hn := universalPart?_move hf n
    have hns := universalItems_move hf ns
    rw [List.map_cons, universalItems, universalItems, List.map_cons, hns, hn, isCompound_move]
    cases isCompound n <;> rfl

theorem firstUniversal?_move (hf : ∀ i j, f i = f j → i = j) (ns : List Node) :
    firstUniversal? (ns.map (Node.move f)) = (firstUniversal? ns).map (Node.move f) := by
  match ns with
  | [] => rfl
  | n :: ns =>
    rw [List.map_cons, firstUniversal?, firstUniversal?, universalPart?_move hf n,
      firstUniversal?_move hf ns, Option.map_or]

end

end

/-! The part that is found is a node of the tree. -/

theorem coreOf_single {α : Type} {node : α → Node} {items : List α} {x : α}
    (h : coreOf node items = .single x) : x ∈ items := by
  obtain ⟨start?, finish?, core, hsub, -, hcore⟩ := coreOf_eq node items
  rw [hcore] at h
  match core with
  | [] => cases hboth : start?.isSome && finish?.isSome <;> simp [hboth] at h
  | [y] =>
    cases h
    exact hsub (by simp)
  | _ :: _ :: _ => contradiction

theorem showable_eq_or (enclosing part : Node) :
    showable enclosing part = enclosing ∨ showable enclosing part = part := by
  unfold showable
  split
  next => exact .inl rfl
  next => exact .inr rfl

/-- What is found for a sequence is the whole sequence, or its only item can have a part and has it. -/
theorem universalPart?_sequence {span : Span} {items : List Node} {part : Node}
    (h : universalPart? (.sequence span items) = some part) :
    part = .sequence span items ∨ ∃ n ∈ items, isCompound n = true ∧ universalPart? n = some part := by
  rw [universalPart?] at h
  split at h
  next => contradiction
  next => exact .inl (Option.some.inj h).symm
  next n part? hcore =>
    have hmem := coreOf_single hcore
    rw [universalItems_eq, List.mem_map] at hmem
    obtain ⟨m, hm, hpair⟩ := hmem
    cases hpair
    split at h
    next hcompound => exact .inr ⟨_, hm, hcompound, h⟩
    next => contradiction
  next => contradiction

/-- What is found for a node is the node itself or is found for one of its children. -/
theorem universalPart?_cases {n part : Node} (h : universalPart? n = some part) :
    part = n ∨ ∃ c ∈ n.children, universalPart? c = some part := by
  have hshow {inner : Node} {c : Node} (hc : c ∈ n.children) (hinner : universalPart? c = some inner)
      (hpart : showable n inner = part) : part = n ∨ ∃ c ∈ n.children, universalPart? c = some part := by
    rcases showable_eq_or n inner with heq | heq
    · exact .inl (hpart.symm.trans heq)
    · rw [← hpart, heq]
      exact .inr ⟨c, hc, hinner⟩
  cases n with
  | empty offset => exact .inl (Option.some.inj h).symm
  | atom span a =>
    cases a with
    | anchor side => exact .inl (Option.some.inj h).symm
    | options flags => exact .inl (Option.some.inj h).symm
    | _ => contradiction
  | group span kind body =>
    rw [universalPart?] at h
    split at h
    next =>
      obtain ⟨inner, hinner, hpart⟩ := Option.map_eq_some_iff.1 h
      exact hshow List.mem_cons_self hinner hpart
    next => contradiction
  | quantified span body q =>
    rw [universalPart?] at h
    split at h
    next => exact .inl (Option.some.inj h).symm
    next => contradiction
  | sequence span items =>
    rcases universalPart?_sequence h with heq | ⟨m, hm, -, hpart⟩
    · exact .inl heq
    · exact .inr ⟨m, hm, hpart⟩
  | alternation span branches =>
    obtain ⟨inner, hinner, hpart⟩ := Option.map_eq_some_iff.1 h
    obtain ⟨m, hm, hfound⟩ := firstUniversal?_eq_some hinner
    exact hshow hm hfound hpart

theorem mem_preorder_of_universalPart? {n part : Node} (h : universalPart? n = some part) (depth : Nat) :
    ∃ depth', (depth', part) ∈ n.preorder depth := by
  rcases universalPart?_cases h with rfl | ⟨c, hc, hpart⟩
  · exact ⟨depth, part.mem_preorder_self depth⟩
  · obtain ⟨depth', hmem⟩ := mem_preorder_of_universalPart? hpart (depth + 1)
    exact ⟨depth', Node.preorder_child hc depth hmem⟩
termination_by sizeOf n
decreasing_by exact Node.sizeOf_child hc

/-- Validating never looks for the text of a part that cannot be cut out. -/
theorem isSome_text?_of_universalPart? {pattern : Text} {root part : Node}
    (hparse : Grammar.parse pattern = .ok root) (h : universalPart? root = some part) :
    (part.text? pattern).isSome = true := by
  obtain ⟨depth, hmem⟩ := mem_preorder_of_universalPart? h 0
  exact (Grammar.allPlaced_of_parse hparse 0 _ hmem).isSome_text?

/-- Whatever is found has a text. -/
theorem isSome_universalMatch? {pattern : Text} {root : Node} (h : Grammar.parse pattern = .ok root) :
    (universalMatch? pattern root).isSome = (universalPart? root).isSome := by
  cases hpart : universalPart? root with
  | none => simp [universalMatch?, hpart]
  | some part =>
    obtain ⟨text, htext⟩ := Option.isSome_iff_exists.1 (isSome_text?_of_universalPart? h hpart)
    simp [universalMatch?, hpart, htext]

end PatternAudit.Lint
