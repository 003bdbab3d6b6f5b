import PatternAudit.Lint.Validation
import PatternAudit.Proofs.Continuation
import PatternAudit.Proofs.UniversalTruth

set_option autoImplicit false

/-!
# Texts written literally

A text can be written into a pattern so that the pattern stands for that text only: by a backslash
before every character that means something, or between two marks that switch quoting on and off.
`Lint.parse_literal` says that both ways give a tree of single characters and that no check finds
anything in it.
-/
namespace PatternAudit.Grammar

open Lint (escapeText escapeText_append isSignificant significantChars)

/-- A node is made of single characters that put together give a text. -/
def Node.Spells (n : Node) (t : Text) : Prop :=
  n.items.mapM Node.asChar = some t

def Token.asChar (t : Token) : Option Char :=
  match t.kind with
  | .atom a => a.asChar
  | _ => none

/-! Reading quoted and escaped text. -/

theorem mapM_cons_eq_some_iff {α β : Type} {f : α → Option β} {x : α} {xs : List α} {zs : List β} :
    (x :: xs).mapM f = some zs ↔ ∃ y ys, f x = some y ∧ xs.mapM f = some ys ∧ zs = y :: ys := by
  rw [List.mapM_cons]
  cases f x with
  | none => simp
  | some y => cases xs.mapM f <;> simp [eq_comm]

theorem mapM_cons_eq_some {α β : Type} {f : α → Option β} {x : α} {xs : List α} {y : β} {ys : List β}
    (hx : f x = some y) (hxs : xs.mapM f = some ys) : (x :: xs).mapM f = some (y :: ys) :=
  mapM_cons_eq_some_iff.2 ⟨y, ys, hx, hxs, rfl⟩

theorem lexFrom_quoted {t : Text} (ht : ¬ ['\\', 'E'] <:+: t) (offset : Nat) (rest : Text) :
    ∃ tokens : List Token, tokens.mapM Token.asChar = some t ∧
      lexFrom true offset (t ++ '\\' :: 'E' :: rest) =
        (lexFrom false (offset + Text.byteLength t + 2) rest).after tokens := by
  induction t generalizing offset with
  | nil => 
    refine ⟨[], rfl, ?_⟩
    have hscan : scanLexeme true '\\' ('E' :: rest) = .ok ⟨⟨none, false⟩, ['\\', 'E'], rest⟩ := rfl
    exact lexFrom_of_ok hscan offset
  | cons c t ih =>
    have hmark : ¬ ['\\', 'E'] <:+: t := fun h => ht (h.trans (List.infix_cons (List.infix_refl t)))
    obtain ⟨tokens, hchars, hlex⟩ := ih hmark (offset + c.utf8Size)
    have hscan : scanLexeme true c (t ++ '\\' :: 'E' :: rest) =
        .ok ⟨⟨some (.atom (.escape (.literal c))), true⟩, [c], t ++ '\\' :: 'E' :: rest⟩ := by
      refine congrArg Except.ok (scanQuoted_literal fun hc hE => ?_)
      cases t with
      | nil => simp at hE
      | cons d t =>
        cases hE
        exact ht ⟨[], t, by simp [hc]⟩
    refine ⟨⟨⟨offset, offset + c.utf8Size⟩, .atom (.escape (.literal c))⟩ :: tokens,
      mapM_cons_eq_some rfl hchars, ?_⟩
    rw [List.cons_append, lexFrom_of_ok hscan]
    simp only [Text.byteLength_cons, Text.byteLength_nil, Nat.add_zero, hlex]
    simp [Lexing.prepend, Lexing.after, Nat.add_assoc]

/-- An escaped character is one lexeme, whatever comes after it. -/
theorem readsAs_escapeText (c : Char) (rest : Text) :
    ∃ a : Atom, a.asChar = some c ∧ ReadsAs (escapeText [c]) (.plain (.atom a)) rest := by
  by_cases hc : isSignificant c = true
  · refine ⟨.escape (.literal c), rfl, '\\', [c], by simp [escapeText, hc], ?_⟩
    have hmem : c ∈ significantChars := List.contains_iff_mem.1 hc
    simp only [significantChars, List.mem_cons, List.not_mem_nil, or_false] at hmem
    rcases hmem with rfl | rfl | rfl | rfl | rfl | rfl | rfl | rfl | rfl | rfl | rfl | rfl | rfl | rfl <;>
      rfl
  · refine ⟨.char c, rfl, c, [], by simp [escapeText, hc], ?_⟩
    have hmem : c ∉ significantChars := fun hmem => hc (List.contains_iff_mem.2 hmem)
    have hmeta : c ∉ metacharacters := by
      simp only [significantChars, metacharacters, List.mem_cons, List.not_mem_nil, or_false,
        not_or] at hmem ⊢
      simp [hmem]
    have hescape : escapeText [c] = [c] := by simp [escapeText, hc]
    rw [hescape]
    refine scanUnquoted_char hmeta ?_
    rintro rfl
    exact absurd (by decide) hmem

theorem lexFrom_escapeText (t : Text) (offset : Nat) (rest : Text) :
    ∃ tokens : List Token, tokens.mapM Token.asChar = some t ∧
      lexFrom false offset (escapeText t ++ rest) =
        (lexFrom false (offset + Text.byteLength (escapeText t)) rest).after tokens := by
  induction t generalizing offset with
  | nil => exact ⟨[], rfl, rfl⟩
  | cons c t ih =>
    have hcons : escapeText (c :: t) = escapeText [c] ++ escapeText t := escapeText_append [c] t
    obtain ⟨a, ha, hreads⟩ := readsAs_escapeText c (escapeText t ++ rest)
    obtain ⟨tokens, hchars, hlex⟩ := ih (offset + Text.byteLength (escapeText [c]))
    refine ⟨⟨⟨offset, offset + Text.byteLength (escapeText [c])⟩, .atom a⟩ :: tokens,
      mapM_cons_eq_some ha hchars, ?_⟩
    rw [hcons, List.append_assoc, lexFrom_of_readsAs hreads]
    change (lexFrom false _ _).prepend _ _ = _
    rw [hlex, Text.byteLength_append, Nat.add_assoc]
    rfl

/-! Trees of single characters. -/

theorem Builder.run_chars {tokens : List Token} {t : Text} (h : tokens.mapM Token.asChar = some t) :
    ∃ nodes : List Node, nodes.mapM Node.asChar = some t ∧
      ∀ (stop : Nat) (l : Level) (pending : List OpenGroup) (rest : List Token),
        Builder.run stop ⟨l, pending⟩ (tokens ++ rest) =
          Builder.run stop ⟨⟨l.branches, nodes.reverse ++ l.items⟩, pending⟩ rest := by
  induction tokens generalizing t with
  | nil =>
    cases h
    exact ⟨[], rfl, fun _ _ _ _ => rfl⟩
  | cons u tokens ih =>
    obtain ⟨c, t, hc, hchars, rfl⟩ := mapM_cons_eq_some_iff.1 h
    obtain ⟨nodes, hnodes, hrun⟩ := ih hchars
    obtain ⟨span, kind⟩ := u
    cases kind with
    | atom a =>
      refine ⟨.atom span a :: nodes, mapM_cons_eq_some hc hnodes, fun stop l pending rest => ?_⟩
      refine (hrun stop (l.push (.atom span a)) pending rest).trans ?_
      simp [Level.push]
    | _ => contradiction

theorem Node.spells_concatenation {nodes : List Node} {t : Text} (h : nodes.mapM Node.asChar = some t)
    (offset : Nat) : (concatenation offset nodes).Spells t := by
  match nodes with
  | [] => exact h
  | [n] =>
    obtain ⟨c, -, hc, -⟩ := mapM_cons_eq_some_iff.1 h
    cases n with
    | atom span a => exact h
    | _ => contradiction
  | n :: m :: ns => exact h

theorem buildTree_spells {tokens : List Token} {t : Text} (h : tokens.mapM Token.asChar = some t)
    (length : Nat) : ∃ root, buildTree tokens length = .ok root ∧ root.Spells t := by
  obtain ⟨nodes, hnodes, hrun⟩ := Builder.run_chars h
  have htree := hrun length .fresh [] []
  rw [List.append_nil] at htree
  refine ⟨.concatenation length nodes, ?_, Node.spells_concatenation hnodes length⟩
  rw [buildTree_eq_run]
  refine htree.trans ?_
  simp [Builder.run, Builder.finish, Level.content, Level.branch, Level.fresh, Node.ofBranches,
    Node.choice]

theorem parse_escapeText (t : Text) : ∃ root, parse (escapeText t) = .ok root ∧ root.Spells t := by
  obtain ⟨tokens, hchars, hlex⟩ := lexFrom_escapeText t 0 []
  have hwhole : lex (escapeText t) = ⟨tokens, none⟩ := by
    rw [List.append_nil, lexFrom_nil] at hlex
    simpa [lex, Lexing.after] using hlex
  rw [parse_eq_buildTree hwhole]
  exact buildTree_spells hchars _

theorem parse_quoted {t : Text} (ht : ¬ ['\\', 'E'] <:+: t) :
    ∃ root, parse ('\\' :: 'Q' :: t ++ ['\\', 'E']) = .ok root ∧ root.Spells t := by
  obtain ⟨tokens, hchars, hlex⟩ := lexFrom_quoted ht 2 []
  have hopen : scanLexeme false '\\' ('Q' :: (t ++ ['\\', 'E'])) =
      .ok ⟨⟨none, true⟩, ['\\', 'Q'], t ++ ['\\', 'E']⟩ := rfl
  have hwhole : lex ('\\' :: 'Q' :: t ++ ['\\', 'E']) = ⟨tokens, none⟩ := by
    rw [lexFrom_nil] at hlex
    exact (lexFrom_of_ok hopen 0).trans (hlex.trans (by simp [Lexing.after]))
  rw [parse_eq_buildTree hwhole]
  exact buildTree_spells hchars _

end PatternAudit.Grammar

namespace PatternAudit.Lint

open Grammar (Node mapM_cons_eq_some_iff parse)

/-! No check finds anything in single characters. -/

theorem mem_of_mapM_eq_some {α β : Type} {f : α → Option β} {xs : List α} {ys : List β}
    (h : xs.mapM f = some ys) : ∀ x ∈ xs, ∃ y, f x = some y := by
  induction xs generalizing ys with
  | nil => simp
  | cons x xs ih =>
    obtain ⟨y, ys, hx, hxs, -⟩ := mapM_cons_eq_some_iff.1 h
    intro z hz
    rcases List.mem_cons.1 hz with rfl | hz
    · exact ⟨y, hx⟩
    · exact ih hxs z hz

/-- What is neither an anchor nor option settings nor made of other nodes. -/
structure IsPlain (n : Node) : Prop where
  anchor : ∀ side, n.isAnchor side = false
  options : n.isOptions = false
  compound : isCompound n = false

theorem isPlain_of_asChar {n : Node} {c : Char} (h : n.asChar = some c) : IsPlain n := by
  cases n with
  | atom span a => cases a <;> first | exact ⟨fun _ => rfl, rfl, rfl⟩ | contradiction
  | _ => contradiction

theorem misplacedAnchorIn_of_asChar {n : Node} {c : Char} (h : n.asChar = some c) (terminal : Bool) :
    misplacedAnchorIn terminal n = none := by
  cases n with
  | atom span a => cases a <;> first | rfl | contradiction
  | _ => contradiction

theorem misplacedAnchorInItems_eq_none {ns : List Node}
    (h : ∀ n ∈ ns, ∀ terminal, misplacedAnchorIn terminal n = none) (terminal : Bool) :
    misplacedAnchorInItems terminal ns = none := by
  induction ns with
  | nil => rfl
  | cons n ns ih =>
    rw [misplacedAnchorInItems, h n (by simp), ih fun m hm => h m (by simp [hm])]
    rfl

def Core.ofItems {α : Type} : List α → Core α
  | [] => .nothing
  | [x] => .single x
  | _ :: _ :: _ => .several

theorem coreOf_plain {α : Type} {node : α → Node} {items : List α} (h : ∀ x ∈ items, IsPlain (node x)) :
    coreOf node items = .ofItems items := by
  have hfilter : items.filter (fun x => !(node x).isOptions) = items :=
    List.filter_eq_self.2 fun x hx => by simp [(h x hx).options]
  have hstart : dropStartAnchor node items = (false, items) := by
    cases items with
    | nil => rfl
    | cons x xs => simp [dropStartAnchor, (h x (by simp)).anchor]
  have hfinish : dropEndAnchor node items = (false, items) := by
    unfold dropEndAnchor
    split
    next x hx => simp [(h x (List.mem_of_getLast? hx)).anchor]
    next hnone => rw [List.getLast?_eq_none_iff.1 hnone]
  simp only [coreOf, hfilter, hstart, hfinish]
  rcases items with _ | ⟨x, _ | ⟨y, ys⟩⟩ <;> rfl

section

variable {n : Node} {t : Text}

theorem misplacedAnchorIn_of_spells (h : n.Spells t) (terminal : Bool) :
    misplacedAnchorIn terminal n = none := by
  have hchars := mem_of_mapM_eq_some h
  cases n with
  | empty offset => rfl
  | sequence span items =>
    refine misplacedAnchorInItems_eq_none (fun m hm => ?_) terminal
    obtain ⟨c, hc⟩ := hchars m hm
    exact misplacedAnchorIn_of_asChar hc
  | _ =>
    obtain ⟨c, hc⟩ := hchars _ List.mem_cons_self
    exact misplacedAnchorIn_of_asChar hc terminal

theorem universalPart?_of_spells (h : n.Spells t) (ht : t ≠ []) : universalPart? n = none := by
  have hchars := mem_of_mapM_eq_some h
  cases n with
  | empty offset =>
    cases h
    contradiction
  | atom span a =>
    obtain ⟨c, hc⟩ := hchars _ List.mem_cons_self
    cases a <;> first | rfl | contradiction
  | sequence span items =>
    have hplain : ∀ m ∈ items, IsPlain m := by
      intro m hm
      obtain ⟨c, hc⟩ := hchars m hm
      exact isPlain_of_asChar hc
    have hitems : ∀ x ∈ universalItems items, IsPlain x.1 := by
      rw [universalItems_eq]
      simpa using hplain
    rw [universalPart?, coreOf_plain hitems]
    match items with
    | [] =>
      cases h
      contradiction
    | [m] => simp [universalItems, Core.ofItems, (hplain m (by simp)).compound]
    | m :: m' :: ms => rfl
  | _ =>
    obtain ⟨c, hc⟩ := hchars _ List.mem_cons_self
    contradiction

theorem topBranches_of_spells (h : n.Spells t) : topBranches n = [] := by
  cases n with
  | alternation span branches => contradiction
  | _ => rfl

theorem literalText?_of_spells (h : n.Spells t) :
    literalText? n = if t.isEmpty || t.any isSignificant then none else some t := by
  have hitems : n.items.mapM Node.asChar = some t := h
  rw [literalText?, hitems]
  rfl

end

theorem validate_of_spells {pattern : Text} {root : Node} {t : Text} (hparse : parse pattern = .ok root)
    (h : root.Spells t) (ht : t ≠ []) (resolve : TypeLookup) :
    validate resolve pattern = .ok ⟨[], none, none⟩ := by
  have hignored : ignoredTypes resolve root = [] := by
    rw [ignoredTypes, topBranches_of_spells h]
    rfl
  have hanchor : misplacedAnchor root = none := misplacedAnchorIn_of_spells h true
  have huniversal : universalMatch? pattern root = none := by
    rw [universalMatch?, universalPart?_of_spells h ht]
    rfl
  rw [validate, hparse, Grammar.ok_bind, analyze, hignored, hanchor, huniversal]
  rfl

theorem parse_literal (t : Text) :
    (∃ root, parse (escapeText t) = .ok root ∧ root.Spells t ∧
      ∀ s, literalText? root = some s ↔ s = t ∧ t ≠ [] ∧ ∀ c ∈ t, isSignificant c = false) ∧
    (¬ ['\\', 'E'] <:+: t → ∃ root, parse ('\\' :: 'Q' :: t ++ ['\\', 'E']) = .ok root ∧ root.Spells t) ∧
    (t ≠ [] → ∀ resolve, validate resolve (escapeText t) = .ok ⟨[], none, none⟩ ∧
      (¬ ['\\', 'E'] <:+: t →
        validate resolve ('\\' :: 'Q' :: t ++ ['\\', 'E']) = .ok ⟨[], none, none⟩)) := by
  obtain ⟨root, hparse, hspells⟩ := Grammar.parse_escapeText t
  refine ⟨⟨root, hparse, hspells, fun s => ?_⟩, Grammar.parse_quoted,
    fun ht resolve => ⟨?_, fun hmark => ?_⟩⟩
  · have hplain : (t.isEmpty || t.any isSignificant) = false ↔
        t ≠ [] ∧ ∀ c ∈ t, isSignificant c = false := by
      simp
    rw [literalText?_of_spells hspells, ← hplain]
    cases t.isEmpty || t.any isSignificant <;> simp [eq_comm]
  · exact validate_of_spells hparse hspells ht resolve
  · obtain ⟨root', hparse', hspells'⟩ := Grammar.parse_quoted hmark
    exact validate_of_spells hparse' hspells' ht resolve

theorem parse_literal_backslash :
    let t : Text := ['a', '|', '\\']
    let quoted : Text := ['\\', 'Q', 'a', '|', '\\', '\\', 'E']
    ¬ ['\\', 'E'] <:+: t ∧ t ≠ [] ∧ (∃ root, parse quoted = .ok root ∧ root.Spells t) ∧
      validate .builtin ['a', '\\', '|', '\\', '\\'] = .ok ⟨[], none, none⟩ ∧
      validate .builtin quoted = .ok ⟨[], none, none⟩ := by
  intro t quoted
  have hmark : ¬ ['\\', 'E'] <:+: t := by decide
  have hne : t ≠ [] := by simp [t]
  obtain ⟨-, hquoted, hclean⟩ := parse_literal t
  exact ⟨hmark, hne, hquoted hmark, (hclean hne .builtin).1, (hclean hne .builtin).2 hmark⟩

end PatternAudit.Lint
