import Mathlib.Data.List.Basic
import PatternAudit.Proofs.OnePass

set_option autoImplicit false

/-!
# Reading a tree back

A tree still holds every token it was built from, in order. `buildTree_readOff` says so for any way
to read something off atoms and off the other tokens; the kinds of the tokens and the spans of the
leaves are two such ways.
-/
namespace PatternAudit.Grammar

section readOff

variable {α : Type} (leaf : Span → Atom → List α) (mark : TokenKind → List α)

mutual

/-- What a tree gives from left to right when atoms give `leaf` and all other tokens give `mark`. -/
def Node.readOff : Node → List α
  | .empty _ => []
  | .atom span a => leaf span a
  | .group _ kind body => mark (.groupOpen kind) ++ body.readOff ++ mark .groupClose
  | .sequence _ items => readOffItems items
  | .alternation _ branches => readOffBranches branches
  | .quantified _ body q => body.readOff ++ mark (.quantifier q)

def Node.readOffItems : List Node → List α
  | [] => []
  | n :: ns => n.readOff ++ readOffItems ns

/-- Branches give a bar between each two. -/
def Node.readOffBranches : List Node → List α
  | [] => []
  | [n] => n.readOff
  | n :: m :: ns => n.readOff ++ mark .bar ++ readOffBranches (m :: ns)

end

def Token.readOff (t : Token) : List α :=
  match t.kind with
  | .atom a => leaf t.span a
  | kind => mark kind

theorem Node.readOffItems_append (ns ms : List Node) :
    readOffItems leaf mark (ns ++ ms) = readOffItems leaf mark ns ++ readOffItems leaf mark ms := by
  induction ns with
  | nil => rfl
  | cons n ns ih => simp [readOffItems, ih]

theorem Node.readOff_concatenation (offset : Nat) (ns : List Node) :
    (Node.concatenation offset ns).readOff leaf mark = readOffItems leaf mark ns := by
  match ns with
  | [] => rfl
  | [n] => simp [concatenation, readOffItems]
  | _ :: _ :: _ => simp [concatenation, readOff]

theorem Node.readOff_choice (n : Node) (ns : List Node) :
    (Node.choice n ns).readOff leaf mark = readOffBranches leaf mark (n :: ns) := by
  cases ns <;> simp [choice, readOff, readOffBranches]

/-- The last of some branches after the others, each of which has its bar. -/
theorem Node.readOffBranches_append_singleton (ns : List Node) (n : Node) :
    readOffBranches leaf mark (ns ++ [n]) =
      ns.flatMap (fun m => m.readOff leaf mark ++ mark .bar) ++ n.readOff leaf mark := by
  induction ns with
  | nil => rfl
  | cons m ns ih =>
    cases ns <;> simp_all [readOffBranches]

theorem Node.readOff_ofBranches (n : Node) (ns : List Node) :
    (Node.ofBranches (n :: ns)).readOff leaf mark =
      ns.reverse.flatMap (fun m => m.readOff leaf mark ++ mark .bar) ++ n.readOff leaf mark := by
  rw [← readOffBranches_append_singleton, ofBranches, List.reverse_cons]
  cases h : ns.reverse with
  | nil => rfl
  | cons m ms => exact readOff_choice leaf mark m (ms ++ [n])

def Level.readOff (l : Level) : List α :=
  l.branches.reverse.flatMap (fun n => n.readOff leaf mark ++ mark .bar) ++
    Node.readOffItems leaf mark l.items.reverse

@[simp] theorem Level.readOff_push (l : Level) (n : Node) :
    (l.push n).readOff leaf mark = l.readOff leaf mark ++ n.readOff leaf mark := by
  simp [readOff, push, Node.readOffItems_append, Node.readOffItems]

@[simp] theorem Level.readOff_separate (l : Level) (offset : Nat) :
    (l.separate offset).readOff leaf mark = l.readOff leaf mark ++ mark .bar := by
  simp [readOff, separate, branch, Node.readOff_concatenation, Node.readOffItems]

@[simp] theorem Level.readOff_content (l : Level) (offset : Nat) :
    (l.content offset).readOff leaf mark = l.readOff leaf mark := by
  rw [content, Node.readOff_ofBranches, branch, Node.readOff_concatenation]
  rfl

/-- What the levels around a nesting level give up to its opening parenthesis. -/
def OpenGroup.readOffAll : List OpenGroup → List α
  | [] => []
  | g :: outer => readOffAll outer ++ g.outer.readOff leaf mark ++ mark (.groupOpen g.kind)

def Builder.readOff (b : Builder) : List α :=
  OpenGroup.readOffAll leaf mark b.pending ++ b.level.readOff leaf mark

theorem Builder.Step.readOff {b b' : Builder} {t : Token} (h : b.Step t b') :
    b'.readOff leaf mark = b.readOff leaf mark ++ t.readOff leaf mark := by
  cases h with
  | atom l pending span a => simp [Builder.readOff, Token.readOff, Node.readOff]
  | bar l pending span => simp [Builder.readOff, Token.readOff]
  | quantifier l n pending span q hn => simp [Builder.readOff, Token.readOff, Node.readOff]
  | groupOpen l pending span kind hdepth =>
    simp [Builder.readOff, Token.readOff, OpenGroup.readOffAll, Level.readOff, Level.fresh,
      Node.readOffItems]
  | groupClose l g pending span =>
    simp [Builder.readOff, Token.readOff, OpenGroup.readOffAll, Node.readOff]

theorem buildTree_readOff {tokens : List Token} {length : Nat} {tree : Node}
    (h : buildTree tokens length = .ok tree) :
    tree.readOff leaf mark = tokens.flatMap (Token.readOff leaf mark) := by
  have hrun : tree.readOff leaf mark =
      Builder.fresh.readOff leaf mark ++ tokens.flatMap (Token.readOff leaf mark) := by
    rw [buildTree_eq_run] at h
    refine Builder.run_induct (P := fun b ts =>
      tree.readOff leaf mark = b.readOff leaf mark ++ ts.flatMap (Token.readOff leaf mark)) ?_ ?_ h
    · rintro l rfl
      simp [Builder.readOff, OpenGroup.readOffAll]
    · intro b b' t ts hstep ih
      rw [ih, hstep.readOff]
      simp
  have hfresh : Builder.fresh.readOff leaf mark = [] := by
    simp [Builder.readOff, OpenGroup.readOffAll, Builder.fresh, Level.fresh, Level.readOff,
      Node.readOffItems]
  rw [hrun, hfresh, List.nil_append]

end readOff

/-- The kinds of the tokens that a tree is written with. -/
def Node.kinds : Node → List TokenKind :=
  Node.readOff (fun _ a => [.atom a]) fun kind => [kind]

/-- The leaves of a tree that are not empty, with their spans. -/
def Node.leaves : Node → List (Span × Atom) :=
  Node.readOff (fun span a => [(span, a)]) fun _ => []

/-- The atom that a token is, with its span, if it is one. -/
def Token.leaf? (t : Token) : Option (Span × Atom) :=
  match t.kind with
  | .atom a => some (t.span, a)
  | _ => none

theorem Token.readOff_kind (t : Token) :
    t.readOff (fun _ a => [TokenKind.atom a]) (fun kind => [kind]) = [t.kind] := by
  obtain ⟨span, kind⟩ := t
  cases kind <;> rfl

theorem Token.readOff_leaf (t : Token) :
    t.readOff (fun span a => [(span, a)]) (fun _ => []) = t.leaf?.toList := by
  obtain ⟨span, kind⟩ := t
  cases kind <;> rfl

theorem buildTree_keeps_tokens {tokens : List Token} {length : Nat} {tree : Node}
    (h : buildTree tokens length = .ok tree) :
    tree.kinds = tokens.map Token.kind ∧ tree.leaves = tokens.filterMap Token.leaf? := by
  constructor
  · calc
      tree.kinds = tokens.flatMap (Token.readOff (fun _ a => [.atom a]) fun kind => [kind]) :=
        buildTree_readOff _ _ h
      _ = tokens.flatMap fun t => [t.kind] :=
        congrArg (List.flatMap · tokens) (funext Token.readOff_kind)
      _ = tokens.map Token.kind := List.map_eq_flatMap.symm
  · calc
      tree.leaves = tokens.flatMap (Token.readOff (fun span a => [(span, a)]) fun _ => []) :=
        buildTree_readOff _ _ h
      _ = tokens.flatMap fun t => t.leaf?.toList :=
        congrArg (List.flatMap · tokens) (funext Token.readOff_leaf)
      _ = tokens.filterMap Token.leaf? := (List.filterMap_eq_flatMap_toList _ _).symm

theorem buildTree_keeps_tokens_repeated_group :
    let tokens : List Token := [⟨⟨0, 1⟩, .atom (.char 'a')⟩, ⟨⟨1, 2⟩, .groupOpen .capturing⟩,
      ⟨⟨2, 4⟩, .atom (.escape (.literal '|'))⟩, ⟨⟨4, 5⟩, .bar⟩, ⟨⟨5, 6⟩, .groupClose⟩,
      ⟨⟨6, 7⟩, .quantifier ⟨.atLeast 0, .greedy⟩⟩]
    let tree : Node := .sequence ⟨0, 7⟩ [.atom ⟨0, 1⟩ (.char 'a'),
      .quantified ⟨1, 7⟩ (.group ⟨1, 6⟩ .capturing (.alternation ⟨2, 5⟩
        [.atom ⟨2, 4⟩ (.escape (.literal '|')), .empty 5])) ⟨.atLeast 0, .greedy⟩]
    buildTree tokens 7 = .ok tree ∧ tree.kinds = tokens.map Token.kind ∧
      tree.leaves = tokens.filterMap Token.leaf? := by
  intro tokens tree
  have h : buildTree tokens 7 = .ok tree := by
    rw [buildTree_eq_run]
    rfl
  exact ⟨h, buildTree_keeps_tokens h⟩

end PatternAudit.Grammar
