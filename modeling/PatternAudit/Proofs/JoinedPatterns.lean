import PatternAudit.Proofs.Continuation
import PatternAudit.Proofs.Derivation
import PatternAudit.Proofs.MovedFindings

set_option autoImplicit false

/-!
# Patterns joined by a bar

A bar between two patterns changes nothing in either. The tree of the whole is one alternation of the
branches of both, whether they are alternations themselves or not (`Grammar.parse_bar`), and the checks
for anchors and universal matches combine what they find in the two (`Lint.parse_joined`).
-/
namespace PatternAudit.Grammar

/-- The nodes a node is a choice of. All nodes but alternations are one of themselves. -/
def Node.alternatives (n : Node) : List Node :=
  n.branches?.getD [n]

theorem Node.nestingAll_alternatives (n : Node) : nestingAll n.alternatives = n.nesting := by
  cases n with
  | alternation span branches => rfl
  | _ => exact Nat.max_zero _

theorem Node.alternatives_move (f : Nat → Nat) (n : Node) :
    (n.move f).alternatives = n.alternatives.map (move f) := by
  cases n with
  | alternation span branches => exact moveAll_eq_map f branches
  | _ => rfl

theorem Node.eq_alternation {n : Node} (h : 2 ≤ n.alternatives.length) :
    n = .alternation n.span n.alternatives := by
  cases n with
  | alternation span branches => rfl
  | _ => exact absurd h (Nat.not_succ_le_self 1)

/-- The branches of a level are the alternatives of its tree. -/
theorem Level.MadeOf.alternatives_content {l : Level} {ts : List Token} (h : l.MadeOf ts) (stop : Nat) :
    (l.content stop).alternatives = l.branches.reverse ++ [l.branch stop] := by
  rw [content, Node.ofBranches, List.reverse_cons]
  cases l.branches.reverse with
  | nil =>
    have hlast : (l.branch stop).branches? = none :=
      Node.branches?_concatenation (fun n hn => h.isItem n (List.mem_reverse.1 hn)) stop
    change (l.branch stop).alternatives = [l.branch stop]
    rw [Node.alternatives, hlast]
    rfl
  | cons first others => cases others <;> rfl

/-- Behind a bar, tokens make up further branches as they do at the start. -/
theorem Level.MadeOf.append {l l' : Level} {ts us : List Token} (h : l.MadeOf ts) (hl : l.items = [])
    (h' : l'.MadeOf us) : MadeOf ⟨l'.branches ++ l.branches, l'.items⟩ (ts ++ us) := by
  induction h' with
  | fresh =>
    obtain ⟨branches, items⟩ := l
    subst hl
    rwa [List.append_nil]
  | atom span a _ ih =>
    rw [← List.append_assoc]
    exact .atom span a ih
  | bar span _ ih =>
    rw [← List.append_assoc]
    exact .bar span ih
  | @quantifier l' n us span q hn _ ih =>
    rw [← List.append_assoc]
    exact .quantifier (l := ⟨l'.branches ++ l.branches, l'.items⟩) span q hn ih
  | group opening closing kind _ hbody ih =>
    rw [← List.append_assoc]
    exact .group opening closing kind ih hbody

/-- A bar makes one alternation of the levels on both sides of it. -/
theorem Level.MadeOf.exists_joined {l l' : Level} {ts us : List Token} (h : l.MadeOf ts)
    (h' : l'.MadeOf us) (bar : Span) (stop : Nat) :
    ∃ joined : Level, joined.MadeOf (ts ++ ⟨bar, .bar⟩ :: us) ∧
      joined.content stop =
        .alternation ⟨(l.content bar.start).span.start, (l'.content stop).span.stop⟩
          ((l.content bar.start).alternatives ++ (l'.content stop).alternatives) := by
  let joined : Level := ⟨l'.branches ++ (l.separate bar.start).branches, l'.items⟩
  have hjoined : joined.MadeOf (ts ++ ⟨bar, .bar⟩ :: us) := by
    rw [← List.singleton_append, ← List.append_assoc]
    exact (h.bar bar).append rfl h'
  have halternatives : (joined.content stop).alternatives =
      (l.content bar.start).alternatives ++ (l'.content stop).alternatives := by
    rw [hjoined.alternatives_content, h.alternatives_content, h'.alternatives_content]
    simp [joined, Level.separate, Level.branch]
  have hstart : (joined.content stop).span.start = (l.content bar.start).span.start := by
    rw [hjoined.start_content, nextOffset_append, h.start_content]
    rfl
  have hstop : (joined.content stop).span.stop = (l'.content stop).span.stop := by
    rw [Level.stop_content, Level.stop_content]
    rfl
  refine ⟨joined, hjoined, ?_⟩
  rw [← hstart, ← hstop, ← halternatives]
  refine Node.eq_alternation ?_
  rw [halternatives, h.alternatives_content, h'.alternatives_content]
  simp only [List.length_append, List.length_singleton]
  omega

theorem lex_bar {p q : Text} {ts us : List Token} (hp : lex p = ⟨ts, none⟩) (hq : lex q = ⟨us, none⟩)
    (hquote : Reads false p false []) (hclosed : DirectivesClosed (ts.map Token.kind)) :
    let place := Text.byteLength p
    lex (p ++ '|' :: q) =
      ⟨ts ++ ⟨⟨place, place + 1⟩, .bar⟩ :: us.map (Token.move (place + 1 + ·)), none⟩ := by
  intro place
  have hends : EndsLexemes ('|' :: q) := by simp [EndsLexemes]
  have hbar : scanLexeme false '|' q = .ok ⟨.plain .bar, ['|'], q⟩ := rfl
  have hafter : lexFrom false (place + 1) q = (lex q).move (place + 1 + ·) :=
    lexFrom_move false (place + 1) 0 q
  rw [lex, lexFrom_append hp hquote hends (.inr hclosed), map_move_zero, Nat.zero_add, lexFrom_of_ok hbar]
  change ((lexFrom false (place + 1) q).prepend place _).after ts = _
  rw [hafter, hq]
  rfl

theorem parse_bar {p q : Text} {left right : Node} (hp : parse p = .ok left) (hq : parse q = .ok right)
    (hquote : Reads false p false []) :
    let behind := Text.byteLength p + 1
    parse (p ++ '|' :: q) = .ok (.alternation ⟨left.span.start, behind + right.span.stop⟩
      (left.alternatives ++ right.alternatives.map (Node.move (behind + ·)))) := by
  intro behind
  obtain ⟨ts, hlexp, hleft⟩ := parse_eq_ok_iff.1 hp
  obtain ⟨us, hlexq, hright⟩ := parse_eq_ok_iff.1 hq
  have hfits := (buildTree_normalWithin hleft (by simpa [hlexp] using lex_valid p)).nesting_le
  have hfits' := (buildTree_normalWithin hright (by simpa [hlexq] using lex_valid q)).nesting_le
  have hclosed := (Builder.directivesClosed (buildTree_eq_run ts _ ▸ hleft)).2
  obtain ⟨l, hl, rfl⟩ := exists_level_of_buildTree hleft
  obtain ⟨l', hl', hmoved⟩ := exists_level_of_buildTree (buildTree_move (behind + ·) hright)
  obtain ⟨joined, hjoined, hcontent⟩ :=
    hl.exists_joined hl' ⟨Text.byteLength p, behind⟩ (behind + Text.byteLength q)
  rw [hmoved, Node.move_span, Node.alternatives_move] at hcontent
  have hnesting : joined.nesting ≤ maxNesting := by
    rw [← joined.nesting_content (behind + Text.byteLength q), hcontent, Node.nesting,
      Node.nestingAll_le_iff]
    intro n hn
    rcases List.mem_append.1 hn with hn | hn
    · rw [← Node.nestingAll_alternatives, Node.nestingAll_le_iff] at hfits
      exact hfits n hn
    · obtain ⟨m, hm, rfl⟩ := List.mem_map.1 hn
      rw [← Node.nestingAll_alternatives, Node.nestingAll_le_iff] at hfits'
      rw [Node.nesting_move]
      exact hfits' m hm
  have hlength : Text.byteLength (p ++ '|' :: q) = behind + Text.byteLength q := by
    rw [Text.byteLength_append, Text.byteLength_cons, ← Nat.add_assoc]
    rfl
  rw [parse_eq_buildTree (lex_bar hlexp hlexq hquote hclosed), hlength, hjoined.buildTree hnesting,
    hcontent]
  rfl

theorem alternatives_ne_nil_of_parse {pattern : Text} {root : Node} (h : parse pattern = .ok root) :
    root.alternatives ≠ [] := by
  obtain ⟨tokens, -, htree⟩ := parse_eq_ok_iff.1 h
  obtain ⟨l, hl, rfl⟩ := exists_level_of_buildTree htree
  simp [hl.alternatives_content]

end PatternAudit.Grammar

namespace PatternAudit.Lint

open Grammar (Node Reads parse)

/-! Checks on alternatives. -/

/-- The place of the first end anchor among some nodes. -/
def firstEndAnchor? (nodes : List (Nat × Node)) : Option Nat :=
  (nodes.find? fun e => e.2.isAnchor .finish).map fun e => e.2.span.start

theorem firstEndAnchor?_append (ns ms : List (Nat × Node)) :
    firstEndAnchor? (ns ++ ms) = (firstEndAnchor? ns).or (firstEndAnchor? ms) := by
  rw [firstEndAnchor?, List.find?_append, Option.map_or]
  rfl

theorem firstEndAnchor?_cons {e : Nat × Node} (he : e.2.isAnchor .finish = false)
    (ns : List (Nat × Node)) : firstEndAnchor? (e :: ns) = firstEndAnchor? ns := by
  rw [firstEndAnchor?, List.find?_cons, he]
  rfl

mutual

/-- Where a node does not end the pattern, all end anchors in it are misplaced. -/
theorem misplacedAnchorIn_false (n : Node) (depth : Nat) :
    misplacedAnchorIn false n = firstEndAnchor? (n.preorder depth) := by
  match n with
  | .empty offset => rfl
  | .atom span (.anchor .finish) | .atom span (.anchor .start) | .atom span (.char _)
  | .atom span (.escape _) | .atom span .any | .atom span (.charClass _) | .atom span (.options _) => rfl
  | .group span kind body =>
    exact (misplacedAnchorIn_false body (depth + 1)).trans (firstEndAnchor?_cons rfl _).symm
  | .quantified span body q =>
    exact (misplacedAnchorIn_false body (depth + 1)).trans (firstEndAnchor?_cons rfl _).symm
  | .sequence span items =>
    exact (misplacedAnchorInItems_false items (depth + 1)).trans (firstEndAnchor?_cons rfl _).symm
  | .alternation span branches =>
    exact (misplacedAnchorInBranches_false branches (depth + 1)).trans (firstEndAnchor?_cons rfl _).symm

theorem misplacedAnchorInItems_false (ns : List Node) (depth : Nat) :
    misplacedAnchorInItems false ns = firstEndAnchor? (Node.preorderAll depth ns) := by
  match ns with
  | [] => rfl
  | n :: ns =>
    rw [misplacedAnchorInItems, Bool.false_and, misplacedAnchorIn_false n depth,
      misplacedAnchorInItems_false ns depth, Node.preorderAll, firstEndAnchor?_append]

theorem misplacedAnchorInBranches_false (ns : List Node) (depth : Nat) :
    misplacedAnchorInBranches false ns = firstEndAnchor? (Node.preorderAll depth ns) := by
  match ns with
  | [] => rfl
  | n :: ns =>
    rw [misplacedAnchorInBranches, Bool.false_and, misplacedAnchorIn_false n depth,
      misplacedAnchorInBranches_false ns depth, Node.preorderAll, firstEndAnchor?_append]

end

theorem misplacedAnchorInBranches_append (terminal : Bool) (ns : List Node) {ms : List Node}
    (hms : ms ≠ []) :
    misplacedAnchorInBranches terminal (ns ++ ms) =
      (misplacedAnchorInBranches false ns).or (misplacedAnchorInBranches terminal ms) := by
  induction ns with
  | nil => rfl
  | cons n ns ih =>
    have hmore : (ns ++ ms).isEmpty = false := by simp [hms]
    rw [List.cons_append, misplacedAnchorInBranches, misplacedAnchorInBranches, ih, hmore, Bool.and_false,
      Bool.false_and, Option.or_assoc]

theorem misplacedAnchorInBranches_alternatives (terminal : Bool) (n : Node) :
    misplacedAnchorInBranches terminal n.alternatives = misplacedAnchorIn terminal n := by
  cases n with
  | alternation span branches => rfl
  | _ => simp [Node.alternatives, Node.branches?, misplacedAnchorInBranches]

theorem firstUniversal?_append (ns ms : List Node) :
    firstUniversal? (ns ++ ms) = (firstUniversal? ns).or (firstUniversal? ms) := by
  induction ns with
  | nil => rfl
  | cons n ns ih => rw [List.cons_append, firstUniversal?, firstUniversal?, ih, Option.or_assoc]

theorem isSome_firstUniversal?_alternatives (n : Node) :
    (firstUniversal? n.alternatives).isSome = (universalPart? n).isSome := by
  cases n with
  | alternation span branches => simp [Node.alternatives, Node.branches?, universalPart?]
  | _ => simp [Node.alternatives, Node.branches?, firstUniversal?]

theorem parse_joined {p q : Text} {left right : Node} (hp : parse p = .ok left) (hq : parse q = .ok right)
    (hquote : Reads false p false []) :
    let behind := Text.byteLength p + 1
    let joined : Node := .alternation ⟨left.span.start, behind + right.span.stop⟩
      (left.alternatives ++ right.alternatives.map (Node.move (behind + ·)))
    parse (p ++ '|' :: q) = .ok joined ∧
      misplacedAnchor joined =
        (firstEndAnchor? (left.preorder 0)).or ((misplacedAnchor right).map (behind + ·)) ∧
      (universalMatch? (p ++ '|' :: q) joined).isSome =
        ((universalMatch? p left).isSome || (universalMatch? q right).isSome) := by
  intro behind joined
  have hjoined : parse (p ++ '|' :: q) = .ok joined := Grammar.parse_bar hp hq hquote
  refine ⟨hjoined, ?_, ?_⟩
  · have hne : right.alternatives.map (Node.move (behind + ·)) ≠ [] := by
      simpa using Grammar.alternatives_ne_nil_of_parse hq
    calc
      misplacedAnchor joined = misplacedAnchorInBranches true
          (left.alternatives ++ right.alternatives.map (Node.move (behind + ·))) := rfl
      _ = (misplacedAnchorIn false left).or (misplacedAnchorIn true (right.move (behind + ·))) := by
        rw [misplacedAnchorInBranches_append true _ hne, misplacedAnchorInBranches_alternatives,
          ← Node.alternatives_move, misplacedAnchorInBranches_alternatives]
      _ = (firstEndAnchor? (left.preorder 0)).or ((misplacedAnchor right).map (behind + ·)) := by
        rw [misplacedAnchorIn_false left 0, misplacedAnchorIn_move]
        rfl
  · rw [isSome_universalMatch? hjoined, isSome_universalMatch? hp, isSome_universalMatch? hq,
      universalPart?, Option.isSome_map, firstUniversal?_append, Option.isSome_or,
      ← Node.alternatives_move, isSome_firstUniversal?_alternatives, isSome_firstUniversal?_alternatives,
      universalPart?_move (fun i j h => Nat.add_left_cancel h), Option.isSome_map]

/-- An anchor that ends the left pattern does not end the whole. -/
theorem parse_joined_end_anchor :
    let p : Text := ['é', '$']
    let q : Text := ['b', '|', '.', '*']
    let left : Node := .sequence ⟨0, 3⟩ [.atom ⟨0, 2⟩ (.char 'é'), .atom ⟨2, 3⟩ (.anchor .finish)]
    let right : Node := .alternation ⟨0, 4⟩ [.atom ⟨0, 1⟩ (.char 'b'),
      .quantified ⟨2, 4⟩ (.atom ⟨2, 3⟩ .any) ⟨.atLeast 0, .greedy⟩]
    let joined : Node := .alternation ⟨0, 8⟩ [left, .atom ⟨4, 5⟩ (.char 'b'),
      .quantified ⟨6, 8⟩ (.atom ⟨6, 7⟩ .any) ⟨.atLeast 0, .greedy⟩]
    parse p = .ok left ∧ parse q = .ok right ∧ Reads false p false [] ∧
      parse (p ++ '|' :: q) = .ok joined ∧ misplacedAnchor joined = some 2 ∧
      (universalMatch? (p ++ '|' :: q) joined).isSome = true := by
  intro p q left right joined
  have hlexp : Grammar.lex p =
      ⟨[⟨⟨0, 2⟩, .atom (.char 'é')⟩, ⟨⟨2, 3⟩, .atom (.anchor .finish)⟩], none⟩ := by
    decide +kernel
  have hlexq : Grammar.lex q = ⟨[⟨⟨0, 1⟩, .atom (.char 'b')⟩, ⟨⟨1, 2⟩, .bar⟩, ⟨⟨2, 3⟩, .atom .any⟩,
      ⟨⟨3, 4⟩, .quantifier ⟨.atLeast 0, .greedy⟩⟩], none⟩ := by
    decide +kernel
  have hp : parse p = .ok left := by
    rw [parse, Grammar.tokenize_eq_ok_iff.2 hlexp, Grammar.ok_bind, Grammar.buildTree_eq_run]
    rfl
  have hq : parse q = .ok right := by
    rw [parse, Grammar.tokenize_eq_ok_iff.2 hlexq, Grammar.ok_bind, Grammar.buildTree_eq_run]
    rfl
  have hquote : Reads false p false [] :=
    .lexeme (c := 'é') (s := ['$']) (p := ⟨.plain (.atom (.char 'é')), ['é'], ['$']⟩) rfl rfl <|
    .lexeme (c := '$') (s := []) (p := ⟨.plain (.atom (.anchor .finish)), ['$'], []⟩) rfl rfl <|
    .here false []
  obtain ⟨hjoined, hanchor, huniversal⟩ := parse_joined hp hq hquote
  exact ⟨hp, hq, hquote, hjoined, hanchor, huniversal⟩

end PatternAudit.Lint
