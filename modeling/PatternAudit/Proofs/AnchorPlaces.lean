import PatternAudit.Lint.MisplacedAnchor
import PatternAudit.Proofs.NormalForm
import PatternAudit.Proofs.ReadBack

set_option autoImplicit false

/-!
# Misplaced anchors among the tokens

The check for misplaced anchors walks a tree and knows of each node whether the pattern can end with
it. The same can be seen from the tokens alone, by looking at what comes after each end anchor.
`misplacedAnchor_eq_strayAnchor` says that both find the same anchor, or none.
-/
namespace PatternAudit.Lint

open Grammar (Atom Node Span Token TokenKind lex parse startsWithQuantifier)

/-- Whether a pattern can end before a token: closing parentheses and quantifiers take no
character, and neither do option settings, except that a repeated one counts as an item. -/
def canTrail (t : Token) (after : List Token) : Bool :=
  match t.kind with
  | .groupClose | .quantifier _ => true
  | .atom (.options _) => !startsWithQuantifier after
  | _ => false

def onlyTrailing : List Token → Bool
  | [] => true
  | t :: ts => canTrail t ts && onlyTrailing ts

/-- The start of the first end anchor that is followed by a token no pattern can end before. -/
def strayAnchor : List Token → Option Nat
  | [] => none
  | t :: ts =>
    if t.kind = .atom (.anchor .finish) ∧ onlyTrailing ts = false then some t.span.start
    else strayAnchor ts

/-! Tokens as a tree gives them back, where only atoms still know their place. -/

def placed (span : Span) (a : Atom) : List Token :=
  [⟨span, .atom a⟩]

def unplaced (kind : TokenKind) : List Token :=
  [⟨⟨0, 0⟩, kind⟩]

theorem startsWithQuantifier_flatMap (ts : List Token) :
    startsWithQuantifier (ts.flatMap (Token.readOff placed unplaced)) = startsWithQuantifier ts := by
  cases ts with
  | nil => rfl
  | cons t ts =>
    obtain ⟨span, kind⟩ := t
    cases kind <;> rfl

theorem onlyTrailing_flatMap (ts : List Token) :
    onlyTrailing (ts.flatMap (Token.readOff placed unplaced)) = onlyTrailing ts := by
  induction ts with
  | nil => rfl
  | cons t ts ih =>
    have hnext := startsWithQuantifier_flatMap ts
    obtain ⟨span, kind⟩ := t
    rw [List.flatMap_cons]
    cases kind with
    | atom a => cases a <;> simp [Token.readOff, placed, onlyTrailing, canTrail, hnext, ih]
    | _ => simp [Token.readOff, unplaced, onlyTrailing, canTrail, ih]

/-- The places of other tokens than end anchors do not matter. -/
theorem strayAnchor_flatMap (ts : List Token) :
    strayAnchor (ts.flatMap (Token.readOff placed unplaced)) = strayAnchor ts := by
  induction ts with
  | nil => rfl
  | cons t ts ih =>
    have htrailing := onlyTrailing_flatMap ts
    obtain ⟨span, kind⟩ := t
    rw [List.flatMap_cons]
    cases kind with
    | atom a => simp [Token.readOff, placed, strayAnchor, htrailing, ih]
    | _ => simp [Token.readOff, unplaced, strayAnchor, ih]

/-! What a tree gives back, in front of other tokens. -/

abbrev tokensOf (n : Node) : List Token :=
  n.readOff placed unplaced

abbrev tokensOfItems (ns : List Node) : List Token :=
  Node.readOffItems placed unplaced ns

abbrev tokensOfBranches (ns : List Node) : List Token :=
  Node.readOffBranches placed unplaced ns

theorem startsWithQuantifier_item {n : Node} (hitem : n.IsItem) (hnormal : n.Normal)
    (rest : List Token) : startsWithQuantifier (tokensOf n ++ rest) = false := by
  cases n with
  | atom span a => rfl
  | group span kind body => rfl
  | quantified span body q =>
    have hunit := hnormal.1
    cases body with
    | atom span a => rfl
    | group span kind body => rfl
    | _ => exact hunit.elim
  | _ => exact hitem.elim

/-- Of all items only an option setting lets the pattern end before it. -/
theorem onlyTrailing_item {n : Node} (hitem : n.IsItem) (hnormal : n.Normal) {rest : List Token}
    (hrest : startsWithQuantifier rest = false) :
    onlyTrailing (tokensOf n ++ rest) = (n.isOptions && onlyTrailing rest) := by
  cases n with
  | atom span a =>
    cases a with
    | options flags => simp [Node.readOff, placed, onlyTrailing, canTrail, hrest, Node.isOptions]
    | _ => rfl
  | group span kind body => rfl
  | quantified span body q =>
    have hunit := hnormal.1
    cases body with
    | atom span a => cases a <;> rfl
    | group span kind body => rfl
    | _ => exact hunit.elim
  | _ => exact hitem.elim

theorem startsWithQuantifier_items {ns : List Node} (hitem : ∀ n ∈ ns, n.IsItem)
    (hnormal : ∀ n ∈ ns, n.Normal) {rest : List Token} (hrest : startsWithQuantifier rest = false) :
    startsWithQuantifier (tokensOfItems ns ++ rest) = false := by
  cases ns with
  | nil => exact hrest
  | cons n ns =>
    rw [tokensOfItems, Node.readOffItems, List.append_assoc]
    exact startsWithQuantifier_item (hitem n (by simp)) (hnormal n (by simp)) _

theorem onlyTrailing_items {ns : List Node} (hitem : ∀ n ∈ ns, n.IsItem)
    (hnormal : ∀ n ∈ ns, n.Normal) {rest : List Token} (hrest : startsWithQuantifier rest = false) :
    onlyTrailing (tokensOfItems ns ++ rest) = (onlyTrailing rest && ns.all Node.isOptions) := by
  induction ns with
  | nil => simp [tokensOfItems, Node.readOffItems]
  | cons n ns ih =>
    have hitem' : ∀ m ∈ ns, m.IsItem := fun m hm => hitem m (by simp [hm])
    have hnormal' : ∀ m ∈ ns, m.Normal := fun m hm => hnormal m (by simp [hm])
    have hnext := startsWithQuantifier_items hitem' hnormal' hrest
    rw [tokensOfItems, Node.readOffItems, List.append_assoc,
      onlyTrailing_item (hitem n (by simp)) (hnormal n (by simp)) hnext, ih hitem' hnormal',
      List.all_cons, Bool.and_left_comm]

/-! The check on a node against the tokens of the node and of what comes after it. -/

mutual

/-- A quantifier right after a node would turn a last option setting of it into an item, so none
may follow, except after an atom or a group. -/
theorem strayAnchor_tokensOf (n : Node) (depth : Nat) (hn : ∀ e ∈ n.preorder depth, e.2.Normal)
    (rest : List Token) (hrest : n.IsUnit ∨ startsWithQuantifier rest = false) :
    strayAnchor (tokensOf n ++ rest) =
      (misplacedAnchorIn (onlyTrailing rest) n).or (strayAnchor rest) := by
  match n with
  | .empty offset => rfl
  | .atom span (.anchor .finish) =>
    cases htrailing : onlyTrailing rest <;>
      simp [tokensOf, Node.readOff, placed, strayAnchor, misplacedAnchorIn, htrailing]
  | .atom span (.anchor .start) | .atom span (.char _) | .atom span (.escape _)
  | .atom span .any | .atom span (.charClass _) | .atom span (.options _) => rfl
  | .group span kind body =>
    simp only [Node.preorder, List.forall_mem_cons] at hn
    have hbody := strayAnchor_tokensOf body (depth + 1) hn.2 (⟨⟨0, 0⟩, .groupClose⟩ :: rest) (.inr rfl)
    simpa [tokensOf, Node.readOff, unplaced, strayAnchor, misplacedAnchorIn, onlyTrailing, canTrail]
      using hbody
  | .sequence span items =>
    have hrest' : startsWithQuantifier rest = false := hrest.resolve_left id
    simp only [Node.preorder, List.forall_mem_cons] at hn
    exact strayAnchor_tokensOfItems items (depth + 1) hn.1.2 hn.2 rest hrest'
  | .alternation span branches =>
    have hrest' : startsWithQuantifier rest = false := hrest.resolve_left id
    simp only [Node.preorder, List.forall_mem_cons] at hn
    exact strayAnchor_tokensOfBranches branches (depth + 1) hn.2 rest hrest'
  | .quantified span body q =>
    simp only [Node.preorder, List.forall_mem_cons] at hn
    have hbody := strayAnchor_tokensOf body (depth + 1) hn.2 (⟨⟨0, 0⟩, .quantifier q⟩ :: rest)
      (.inl hn.1.1)
    simpa [tokensOf, Node.readOff, unplaced, strayAnchor, misplacedAnchorIn, onlyTrailing, canTrail]
      using hbody

theorem strayAnchor_tokensOfItems (ns : List Node) (depth : Nat) (hitem : ∀ n ∈ ns, n.IsItem)
    (hns : ∀ e ∈ Node.preorderAll depth ns, e.2.Normal) (rest : List Token)
    (hrest : startsWithQuantifier rest = false) :
    strayAnchor (tokensOfItems ns ++ rest) =
      (misplacedAnchorInItems (onlyTrailing rest) ns).or (strayAnchor rest) := by
  match ns with
  | [] => rfl
  | n :: ns =>
    have hitem' : ∀ m ∈ ns, m.IsItem := fun m hm => hitem m (by simp [hm])
    simp only [Node.preorderAll, List.forall_mem_append] at hns
    have hnormal := Node.normal_of_preorderAll hns.2
    have hnext := startsWithQuantifier_items hitem' hnormal hrest
    have hfirst := strayAnchor_tokensOf n depth hns.1 (tokensOfItems ns ++ rest) (.inr hnext)
    have hothers := strayAnchor_tokensOfItems ns depth hitem' hns.2 rest hrest
    rw [tokensOfItems, Node.readOffItems, List.append_assoc, hfirst, hothers,
      onlyTrailing_items hitem' hnormal hrest, misplacedAnchorInItems, Option.or_assoc]

theorem strayAnchor_tokensOfBranches (ns : List Node) (depth : Nat)
    (hns : ∀ e ∈ Node.preorderAll depth ns, e.2.Normal) (rest : List Token)
    (hrest : startsWithQuantifier rest = false) :
    strayAnchor (tokensOfBranches ns ++ rest) =
      (misplacedAnchorInBranches (onlyTrailing rest) ns).or (strayAnchor rest) := by
  match ns with
  | [] => rfl
  | [n] =>
    simp only [Node.preorderAll, List.append_nil] at hns
    have hlast := strayAnchor_tokensOf n depth hns rest (.inr hrest)
    simpa [tokensOfBranches, Node.readOffBranches, misplacedAnchorInBranches] using hlast
  | n :: m :: ns =>
    rw [Node.preorderAll, List.forall_mem_append] at hns
    have hfirst := strayAnchor_tokensOf n depth hns.1
      (⟨⟨0, 0⟩, .bar⟩ :: (tokensOfBranches (m :: ns) ++ rest)) (.inr rfl)
    have hothers := strayAnchor_tokensOfBranches (m :: ns) depth hns.2 rest hrest
    have hbar : strayAnchor (⟨⟨0, 0⟩, .bar⟩ :: (tokensOfBranches (m :: ns) ++ rest)) =
        strayAnchor (tokensOfBranches (m :: ns) ++ rest) := rfl
    rw [hbar, hothers] at hfirst
    simpa [tokensOfBranches, Node.readOffBranches, misplacedAnchorInBranches, unplaced,
      onlyTrailing, canTrail, Option.or_assoc] using hfirst

end

theorem misplacedAnchor_eq_strayAnchor {pattern : Text} {root : Node} (h : parse pattern = .ok root) :
    misplacedAnchor root = strayAnchor (lex pattern).tokens := by
  obtain ⟨tokens, htokens, htree⟩ := Grammar.exists_of_bind_ok h
  have hlex := Grammar.tokenize_eq_ok_iff.1 htokens
  have hvalid := Grammar.lex_valid pattern
  rw [hlex] at hvalid ⊢
  have hnormal := (Grammar.buildTree_normalWithin htree hvalid).normal 0
  have hroot := strayAnchor_tokensOf root 0 hnormal [] (.inr rfl)
  calc
    misplacedAnchor root = strayAnchor (tokensOf root) := by
      simpa [misplacedAnchor, onlyTrailing, strayAnchor] using hroot.symm
    _ = strayAnchor (tokens.flatMap (Token.readOff placed unplaced)) :=
      congrArg strayAnchor (Grammar.buildTree_readOff placed unplaced htree)
    _ = strayAnchor tokens := strayAnchor_flatMap tokens

/-- The setting that ends the group may follow its anchor, the repeated one after it may not. -/
theorem misplacedAnchor_eq_strayAnchor_repeated_options :
    let pattern : Text := ['(', 'a', '$', '(', '?', 'i', ')', ')', '+', '(', '?', 'm', ')', '*']
    let root : Node := .sequence ⟨0, 14⟩ [
      .quantified ⟨0, 9⟩ (.group ⟨0, 8⟩ .capturing (.sequence ⟨1, 7⟩ [.atom ⟨1, 2⟩ (.char 'a'),
        .atom ⟨2, 3⟩ (.anchor .finish), .atom ⟨3, 7⟩ (.options ['i'])])) ⟨.atLeast 1, .greedy⟩,
      .quantified ⟨9, 14⟩ (.atom ⟨9, 13⟩ (.options ['m'])) ⟨.atLeast 0, .greedy⟩]
    parse pattern = .ok root ∧ misplacedAnchor root = some 2 ∧
      misplacedAnchor root = strayAnchor (lex pattern).tokens := by
  intro pattern root
  have hlex : lex pattern = ⟨[⟨⟨0, 1⟩, .groupOpen .capturing⟩, ⟨⟨1, 2⟩, .atom (.char 'a')⟩,
      ⟨⟨2, 3⟩, .atom (.anchor .finish)⟩, ⟨⟨3, 7⟩, .atom (.options ['i'])⟩, ⟨⟨7, 8⟩, .groupClose⟩,
      ⟨⟨8, 9⟩, .quantifier ⟨.atLeast 1, .greedy⟩⟩, ⟨⟨9, 13⟩, .atom (.options ['m'])⟩,
      ⟨⟨13, 14⟩, .quantifier ⟨.atLeast 0, .greedy⟩⟩], none⟩ := by
    decide +kernel
  have h : parse pattern = .ok root := by
    rw [parse, Grammar.tokenize_eq_ok_iff.2 hlex, Grammar.ok_bind, Grammar.buildTree_eq_run]
    rfl
  exact ⟨h, rfl, misplacedAnchor_eq_strayAnchor h⟩

end PatternAudit.Lint
