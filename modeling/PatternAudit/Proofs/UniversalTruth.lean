import PatternAudit.Lint.UniversalMatch
import PatternAudit.Proofs.NormalForm

set_option autoImplicit false

/-!
# What a universal match is worth

Patterns are given their usual meaning as searches in messages of one line, and the check for
universal matches is held against it. `universalMatch_sound` says that every message but the empty
one contains a match of a pattern that the check finds, unless all it rests on is nothing between
both anchors. The check leaves `^$` alone for that reason but does not see it in `^()$`, which
matches the empty message only.
-/
namespace PatternAudit.Lint

open Grammar (Anchor Atom Bounds Node Span parse)

/-! Searches. Places in a message count its characters. -/

def Repeats (r : Nat → Nat → Prop) : Nat → Nat → Nat → Prop
  | 0, i, j => i = j
  | n + 1, i, j => ∃ k, r i k ∧ Repeats r n k j

def Allows (b : Bounds) (n : Nat) : Prop :=
  b.lo ≤ n ∧ ∀ hi ∈ b.hi?, n ≤ hi

section Matches

variable (msg : Text) (other : Node → Nat → Nat → Prop)

/-- An atom matches the part of a message from place `i` to place `j`. Atoms whose meaning does not
depend on single characters and places alone match what `other` says. -/
def AtomMatches (span : Span) (a : Atom) (i j : Nat) : Prop :=
  match a with
  | .char c | .escape (.literal c) => msg[i]? = some c ∧ j = i + 1
  | .any => i < msg.length ∧ j = i + 1
  | .anchor .start => i = 0 ∧ i = j
  | .anchor .finish => i = msg.length ∧ i = j
  | .options _ => i = j
  | a => other (.atom span a) i j

mutual

def Matches : Node → Nat → Nat → Prop
  | .empty _, i, j => i = j
  | .atom span a, i, j => AtomMatches msg other span a i j
  | .group span kind body, i, j =>
    if kind.isTransparent then Matches body i j else other (.group span kind body) i j
  | .sequence _ items, i, j => MatchesInTurn items i j
  | .alternation _ branches, i, j => MatchesSome branches i j
  | .quantified _ body q, i, j => ∃ n, Allows q.bounds n ∧ Repeats (Matches body) n i j

def MatchesInTurn : List Node → Nat → Nat → Prop
  | [], i, j => i = j
  | n :: ns, i, j => ∃ k, Matches n i k ∧ MatchesInTurn ns k j

def MatchesSome : List Node → Nat → Nat → Prop
  | [], _, _ => False
  | n :: ns, i, j => Matches n i j ∨ MatchesSome ns i j

end

/-- A message contains a match of a pattern. -/
def ContainsMatch (root : Node) : Prop :=
  ∃ i j, i ≤ j ∧ j ≤ msg.length ∧ Matches msg other root i j

end Matches

/-! What the check finds a node universal for. -/

/-- Any number of any characters, or nothing at all, and then whether it is between a start anchor
and whether it is before an end anchor. -/
inductive Ground where
  | anything
  | nothing (started ended : Bool)
deriving DecidableEq

def Ground.within (started ended : Bool) : Ground → Ground
  | .anything => .anything
  | .nothing s e => .nothing (started || s) (ended || e)

def anchorNodes (side : Anchor) (span? : Option Span) : List Node :=
  (span?.map fun span => .atom span (.anchor side)).toList

/-- The items of a concatenation that are no option settings. -/
def withoutOptions (ns : List Node) : List Node :=
  ns.filter fun n => !n.isOptions

inductive Rests : Node → Ground → Prop where
  | empty (offset : Nat) : Rests (.empty offset) (.nothing false false)
  | options (span : Span) (flags : Text) : Rests (.atom span (.options flags)) (.nothing false false)
  | anchor (span : Span) (side : Anchor) :
    Rests (.atom span (.anchor side)) (.nothing (side == .start) (side == .finish))
  | group {span : Span} {kind : Grammar.GroupKind} {body : Node} {g : Ground}
    (hkind : kind.isTransparent = true) (h : Rests body g) : Rests (.group span kind body) g
  | repetition {span : Span} {body : Node} {q : Grammar.Quantifier} (hany : isAny body = true)
    (hq : isBoundless q = true) : Rests (.quantified span body q) .anything
  | branch {span : Span} {branches : List Node} {n : Node} {g : Ground} (hn : n ∈ branches)
    (h : Rests n g) : Rests (.alternation span branches) g
  | bare {span : Span} {items : List Node} {start? finish? : Option Span}
    (hitems : withoutOptions items = anchorNodes .start start? ++ anchorNodes .finish finish?)
    (hone : (start?.isSome && finish?.isSome) = false) :
    Rests (.sequence span items) (.nothing start?.isSome finish?.isSome)
  | single {span : Span} {items : List Node} {n : Node} {g : Ground} {start? finish? : Option Span}
    (hitems : withoutOptions items = anchorNodes .start start? ++ n :: anchorNodes .finish finish?)
    (hn : isCompound n = true) (h : Rests n g) :
    Rests (.sequence span items) (g.within start?.isSome finish?.isSome)

/-! The check finds nothing else. -/

theorem eq_anchor_of_isAnchor {n : Node} {side : Anchor} (h : n.isAnchor side = true) :
    ∃ span, n = .atom span (.anchor side) := by
  unfold Node.isAnchor at h
  split at h
  next span a => exact ⟨span, by rw [beq_iff_eq.1 h]⟩
  next => contradiction

theorem dropStartAnchor_eq {α : Type} (node : α → Node) (xs : List α) :
    ∃ (start? : Option Span) (ys : List α), dropStartAnchor node xs = (start?.isSome, ys) ∧
      ys ⊆ xs ∧ xs.map node = anchorNodes .start start? ++ ys.map node := by
  cases xs with
  | nil => exact ⟨none, [], rfl, by simp, rfl⟩
  | cons x xs =>
    by_cases hx : (node x).isAnchor .start = true
    · obtain ⟨span, hspan⟩ := eq_anchor_of_isAnchor hx
      exact ⟨some span, xs, by simp [dropStartAnchor, hx], by simp, by simp [hspan, anchorNodes]⟩
    · exact ⟨none, x :: xs, by simp [dropStartAnchor, hx], by simp, by simp [anchorNodes]⟩

theorem dropEndAnchor_eq {α : Type} (node : α → Node) (xs : List α) :
    ∃ (finish? : Option Span) (ys : List α), dropEndAnchor node xs = (finish?.isSome, ys) ∧
      ys ⊆ xs ∧ xs.map node = ys.map node ++ anchorNodes .finish finish? := by
  rcases List.eq_nil_or_concat xs with rfl | ⟨ys, x, rfl⟩
  · exact ⟨none, [], rfl, by simp, rfl⟩
  · by_cases hx : (node x).isAnchor .finish = true
    · obtain ⟨span, hspan⟩ := eq_anchor_of_isAnchor hx
      exact ⟨some span, ys, by simp [dropEndAnchor, hx], by simp, by simp [hspan, anchorNodes]⟩
    · exact ⟨none, ys ++ [x], by simp [dropEndAnchor, hx], by simp, by simp [anchorNodes]⟩

/-- The core of some items and the anchors around it. -/
theorem coreOf_eq {α : Type} (node : α → Node) (items : List α) :
    ∃ (start? finish? : Option Span) (core : List α), core ⊆ items ∧
      withoutOptions (items.map node) =
        anchorNodes .start start? ++ core.map node ++ anchorNodes .finish finish? ∧
      coreOf node items = match core with
        | [] => if start?.isSome && finish?.isSome then .anchoredNothing else .nothing
        | [x] => .single x
        | _ :: _ :: _ => .several := by
  have hfilter : withoutOptions (items.map node) =
      (items.filter fun x => !(node x).isOptions).map node := by
    rw [withoutOptions, List.filter_map]
    rfl
  obtain ⟨start?, front, hstart, hfrontSub, hfront⟩ :=
    dropStartAnchor_eq node (items.filter fun x => !(node x).isOptions)
  obtain ⟨finish?, core, hfinish, hcoreSub, hback⟩ := dropEndAnchor_eq node front
  refine ⟨start?, finish?, core, ?_, ?_, ?_⟩
  · intro x hx
    exact (List.mem_filter.1 (hfrontSub (hcoreSub hx))).1
  · rw [hfilter, hfront, hback, List.append_assoc]
  · rcases core with _ | ⟨x, _ | ⟨y, ys⟩⟩ <;> simp only [coreOf, hstart, hfinish]

theorem universalItems_eq (ns : List Node) :
    universalItems ns = ns.map fun n => (n, if isCompound n then universalPart? n else none) := by
  induction ns with
  | nil => rfl
  | cons n ns ih => rw [universalItems, ih, List.map_cons]

theorem firstUniversal?_eq_some {ns : List Node} {part : Node} (h : firstUniversal? ns = some part) :
    ∃ n ∈ ns, universalPart? n = some part := by
  induction ns with
  | nil => contradiction
  | cons n ns ih =>
    rw [firstUniversal?, Option.or_eq_some_iff] at h
    rcases h with h | ⟨-, h⟩
    · exact ⟨n, by simp, h⟩
    · obtain ⟨m, hm, hpart⟩ := ih h
      exact ⟨m, by simp [hm], hpart⟩

theorem rests_sequence {span : Span} {items : List Node} {part : Node}
    (ih : ∀ n ∈ items, ∀ part, universalPart? n = some part → ∃ g, Rests n g)
    (h : universalPart? (.sequence span items) = some part) : ∃ g, Rests (.sequence span items) g := by
  have hmap : (universalItems items).map Prod.fst = items := by
    rw [universalItems_eq, List.map_map]
    exact List.map_id items
  obtain ⟨start?, finish?, core, hsub, hitems, hcore⟩ := coreOf_eq Prod.fst (universalItems items)
  rw [hmap] at hitems
  rw [universalPart?, hcore] at h
  match core with
  | [] =>
    cases hboth : start?.isSome && finish?.isSome with
    | true => simp [hboth] at h
    | false => exact ⟨_, .bare (by simpa using hitems) hboth⟩
  | [x] =>
    obtain ⟨n, hn, rfl⟩ : ∃ n ∈ items, (n, if isCompound n then universalPart? n else none) = x := by
      have hx : x ∈ universalItems items := hsub (by simp)
      rwa [universalItems_eq, List.mem_map] at hx
    cases hcompound : isCompound n with
    | false => simp [hcompound] at h
    | true =>
      rw [hcompound, if_pos rfl] at h
      obtain ⟨g, hg⟩ := ih n hn part h
      exact ⟨_, .single (by simpa using hitems) hcompound hg⟩
  | _ :: _ :: _ => contradiction

mutual

theorem rests_of_universalPart? (n : Node) (part : Node) (h : universalPart? n = some part) :
    ∃ g, Rests n g := by
  match n with
  | .empty offset => exact ⟨_, .empty offset⟩
  | .atom span (.options flags) => exact ⟨_, .options span flags⟩
  | .atom span (.anchor side) => exact ⟨_, .anchor span side⟩
  | .atom span (.char _) | .atom span (.escape _) | .atom span .any | .atom span (.charClass _) =>
    contradiction
  | .group span kind body =>
    rw [universalPart?] at h
    split at h
    next hkind =>
      obtain ⟨inner, hinner, -⟩ := Option.map_eq_some_iff.1 h
      obtain ⟨g, hg⟩ := rests_of_universalPart? body inner hinner
      exact ⟨g, .group hkind hg⟩
    next => contradiction
  | .quantified span body q =>
    rw [universalPart?] at h
    split at h
    next hq =>
      rw [Bool.and_eq_true] at hq
      exact ⟨_, .repetition hq.1 hq.2⟩
    next => contradiction
  | .sequence span items => exact rests_sequence (rests_of_mem items) h
  | .alternation span branches =>
    obtain ⟨inner, hinner, -⟩ := Option.map_eq_some_iff.1 h
    obtain ⟨m, hm, hpart⟩ := firstUniversal?_eq_some hinner
    obtain ⟨g, hg⟩ := rests_of_mem branches m hm inner hpart
    exact ⟨g, .branch hm hg⟩

theorem rests_of_mem (ns : List Node) : ∀ n ∈ ns, ∀ part, universalPart? n = some part →
    ∃ g, Rests n g := by
  match ns with
  | [] => simp
  | n :: ns =>
    intro m hm part h
    rcases List.mem_cons.1 hm with heq | hm
    · rw [heq] at h ⊢
      exact rests_of_universalPart? n part h
    · exact rests_of_mem ns m hm part h

end

/-! The grounds against the meaning of patterns. -/

section Meaning

variable {msg : Text} {other : Node → Nat → Nat → Prop}

theorem repeats_any {n : Node} (hany : isAny n = true) (k i : Nat) (h : i + k ≤ msg.length) :
    Repeats (Matches msg other n) k i (i + k) := by
  unfold isAny at hany
  split at hany
  next =>
    induction k generalizing i with
    | zero => rfl
    | succ k ih =>
      refine ⟨i + 1, ⟨by omega, rfl⟩, ?_⟩
      have hrest := ih (i + 1) (by omega)
      rwa [Nat.add_right_comm, Nat.add_assoc] at hrest
  next => contradiction

/-- Option settings take no characters. -/
theorem matchesInTurn_withoutOptions (ns : List Node) (i j : Nat) :
    MatchesInTurn msg other (withoutOptions ns) i j ↔ MatchesInTurn msg other ns i j := by
  induction ns generalizing i with
  | nil => rfl
  | cons n ns ih =>
    cases hn : n.isOptions with
    | false =>
      rw [withoutOptions, List.filter_cons_of_pos (by simp [hn])]
      exact exists_congr fun k => and_congr_right fun _ => ih k
    | true =>
      have hmatches : ∀ k, Matches msg other n i k ↔ i = k := by
        unfold Node.isOptions at hn
        split at hn
        next => exact fun k => Iff.rfl
        next => contradiction
      rw [withoutOptions, List.filter_cons_of_neg (by simp [hn])]
      refine (ih i).trans ⟨fun h => ⟨i, (hmatches i).2 rfl, h⟩, ?_⟩
      rintro ⟨k, hk, h⟩
      rwa [(hmatches k).1 hk]

theorem matchesInTurn_append (ns ms : List Node) (i j : Nat) :
    MatchesInTurn msg other (ns ++ ms) i j ↔
      ∃ k, MatchesInTurn msg other ns i k ∧ MatchesInTurn msg other ms k j := by
  induction ns generalizing i with
  | nil => exact ⟨fun h => ⟨i, rfl, h⟩, fun ⟨k, hk, h⟩ => by rwa [show i = k from hk]⟩
  | cons n ns ih =>
    constructor
    · rintro ⟨k, hn, h⟩
      obtain ⟨k', hns, hms⟩ := (ih k).1 h
      exact ⟨k', ⟨k, hn, hns⟩, hms⟩
    · rintro ⟨k', ⟨k, hn, hns⟩, hms⟩
      exact ⟨k, hn, (ih k).2 ⟨k', hns, hms⟩⟩

theorem matches_group {span : Span} {kind : Grammar.GroupKind} {body : Node}
    (hkind : kind.isTransparent = true) (i j : Nat) :
    Matches msg other (.group span kind body) i j ↔ Matches msg other body i j := by
  change (if kind.isTransparent = true then _ else _) ↔ _
  rw [if_pos hkind]

theorem matchesSome_iff (ns : List Node) (i j : Nat) :
    MatchesSome msg other ns i j ↔ ∃ n ∈ ns, Matches msg other n i j := by
  induction ns with
  | nil => exact ⟨False.elim, fun ⟨n, hn, _⟩ => by contradiction⟩
  | cons n ns ih =>
    constructor
    · intro h
      rcases h with h | h
      · exact ⟨n, by simp, h⟩
      · obtain ⟨m, hm, hmatch⟩ := ih.1 h
        exact ⟨m, by simp [hm], hmatch⟩
    · rintro ⟨m, hm, hmatch⟩
      rcases List.mem_cons.1 hm with rfl | hm
      · exact .inl hmatch
      · exact .inr (ih.2 ⟨m, hm, hmatch⟩)

theorem matchesInTurn_startAnchor (start? : Option Span) (i j : Nat) :
    MatchesInTurn msg other (anchorNodes .start start?) i j ↔
      i = j ∧ (start?.isSome = true → i = 0) := by
  cases start? with
  | none => exact ⟨fun h => ⟨h, by simp⟩, And.left⟩
  | some span =>
    constructor
    · rintro ⟨k, ⟨hi, rfl⟩, hij⟩
      exact ⟨hij, fun _ => hi⟩
    · rintro ⟨hij, hi⟩
      exact ⟨i, ⟨hi rfl, rfl⟩, hij⟩

theorem matchesInTurn_endAnchor (finish? : Option Span) (i j : Nat) :
    MatchesInTurn msg other (anchorNodes .finish finish?) i j ↔
      i = j ∧ (finish?.isSome = true → i = msg.length) := by
  cases finish? with
  | none => exact ⟨fun h => ⟨h, by simp⟩, And.left⟩
  | some span =>
    constructor
    · rintro ⟨k, ⟨hi, rfl⟩, hij⟩
      exact ⟨hij, fun _ => hi⟩
    · rintro ⟨hij, hi⟩
      exact ⟨i, ⟨hi rfl, rfl⟩, hij⟩

/-- What anchors around some items add to the meaning of the items. -/
theorem matches_sequence_iff {span : Span} {items core : List Node} {start? finish? : Option Span}
    (hitems : withoutOptions items = anchorNodes .start start? ++ core ++ anchorNodes .finish finish?)
    (i j : Nat) :
    Matches msg other (.sequence span items) i j ↔ MatchesInTurn msg other core i j ∧
      (start?.isSome = true → i = 0) ∧ (finish?.isSome = true → j = msg.length) := by
  change MatchesInTurn msg other items i j ↔ _
  rw [← matchesInTurn_withoutOptions, hitems, matchesInTurn_append]
  simp only [matchesInTurn_append, matchesInTurn_startAnchor, matchesInTurn_endAnchor]
  constructor
  · rintro ⟨k, ⟨k', ⟨rfl, hstart⟩, hcore⟩, rfl, hfinish⟩
    exact ⟨hcore, hstart, hfinish⟩
  · rintro ⟨hcore, hstart, hfinish⟩
    exact ⟨j, ⟨i, ⟨rfl, hstart⟩, hcore⟩, rfl, hfinish⟩

/-- Where a node with some ground matches. -/
def Ground.Holds (msg : Text) (g : Ground) (i j : Nat) : Prop :=
  match g with
  | .anything => msg ≠ [] ∧ i = 0 ∧ j = msg.length
  | .nothing started ended =>
    i = j ∧ (started = true → i = 0) ∧ (ended = true → i = msg.length)

theorem Rests.matches {n : Node} {g : Ground} (h : Rests n g) {i j : Nat} (hg : g.Holds msg i j) :
    Matches msg other n i j := by
  induction h generalizing i j with
  | empty offset => exact hg.1
  | options span flags => exact hg.1
  | anchor span side =>
    obtain ⟨rfl, hstart, hfinish⟩ := hg
    cases side with
    | start => exact ⟨hstart rfl, rfl⟩
    | finish => exact ⟨hfinish rfl, rfl⟩
  | @group span kind body g hkind h ih =>
    exact (matches_group hkind i j).2 (ih hg)
  | @repetition span body q hany hq =>
    obtain ⟨hmsg, rfl, rfl⟩ := hg
    simp only [isBoundless, Bool.and_eq_true, decide_eq_true_eq, Bounds.isUnbounded,
      Option.isNone_iff_eq_none] at hq
    have hlength := List.length_pos_iff.2 hmsg
    refine ⟨msg.length, ⟨by omega, by simp [hq.2]⟩, ?_⟩
    have hrepeat : Repeats (Matches msg other body) msg.length 0 (0 + msg.length) :=
      repeats_any hany msg.length 0 (by omega)
    rwa [Nat.zero_add] at hrepeat
  | branch hn h ih => exact (matchesSome_iff _ i j).2 ⟨_, hn, ih hg⟩
  | @bare span items start? finish? hitems hone =>
    obtain ⟨rfl, hstart, hfinish⟩ := hg
    have hitems' : withoutOptions items =
        anchorNodes .start start? ++ [] ++ anchorNodes .finish finish? := by
      rw [List.append_nil, hitems]
    exact (matches_sequence_iff hitems' i i).2 ⟨rfl, hstart, hfinish⟩
  | @single span items n g start? finish? hitems hn h ih =>
    have hitems' : withoutOptions items =
        anchorNodes .start start? ++ [n] ++ anchorNodes .finish finish? := by
      rw [hitems, List.append_assoc]
      rfl
    refine (matches_sequence_iff hitems' i j).2 ?_
    cases g with
    | anything =>
      obtain ⟨hmsg, rfl, rfl⟩ := hg
      exact ⟨⟨_, ih ⟨hmsg, rfl, rfl⟩, rfl⟩, fun _ => rfl, fun _ => rfl⟩
    | nothing started ended =>
      obtain ⟨rfl, hstart, hfinish⟩ := hg
      simp only [Bool.or_eq_true] at hstart hfinish
      have hn : Matches msg other n i i :=
        ih ⟨rfl, fun hs => hstart (.inr hs), fun he => hfinish (.inr he)⟩
      exact ⟨⟨i, hn, rfl⟩, fun hs => hstart (.inl hs), fun he => hfinish (.inl he)⟩

/-- A message that is not empty contains a match at its start, at its end or of all of it. -/
theorem Rests.containsMatch {n : Node} {g : Ground} (h : Rests n g)
    (hg : g ≠ .nothing true true) (hmsg : msg ≠ []) : ContainsMatch msg other n := by
  match g, hg with
  | .anything, _ => exact ⟨0, msg.length, by omega, Nat.le_refl _, h.matches ⟨hmsg, rfl, rfl⟩⟩
  | .nothing _ false, _ => exact ⟨0, 0, Nat.le_refl _, by omega, h.matches ⟨rfl, fun _ => rfl, by simp⟩⟩
  | .nothing false true, _ =>
    exact ⟨msg.length, msg.length, Nat.le_refl _, Nat.le_refl _, h.matches ⟨rfl, by simp, fun _ => rfl⟩⟩

/-- A node without alternatives that rests on nothing matches nowhere else. -/
theorem Rests.eq_of_matches {n : Node} {g : Ground} (h : Rests n g) {depth : Nat}
    (hchoice : ∀ e ∈ n.preorder depth, e.2.branches? = none) {started ended : Bool}
    (hg : g = .nothing started ended) {i j : Nat} (hn : Matches msg other n i j) :
    i = j ∧ (started = true → i = 0) ∧ (ended = true → i = msg.length) := by
  induction h generalizing i j started ended depth with
  | empty offset =>
    cases hg
    exact ⟨hn, by simp, by simp⟩
  | options span flags =>
    cases hg
    exact ⟨hn, by simp, by simp⟩
  | anchor span side =>
    cases hg
    cases side with
    | start => exact ⟨hn.2, fun _ => hn.1, by simp⟩
    | finish => exact ⟨hn.2, by simp, fun _ => hn.1⟩
  | group hkind h ih =>
    simp only [Node.preorder, List.forall_mem_cons] at hchoice
    exact ih hchoice.2 hg ((matches_group hkind i j).1 hn)
  | repetition hany hq => contradiction
  | branch hm h ih =>
    simp only [Node.preorder, List.forall_mem_cons] at hchoice
    exact absurd hchoice.1 (by simp [Node.branches?])
  | @bare span items start? finish? hitems hone =>
    cases hg
    have hitems' : withoutOptions items =
        anchorNodes .start start? ++ [] ++ anchorNodes .finish finish? := by
      rw [List.append_nil, hitems]
    obtain ⟨hcore, hstart, hfinish⟩ := (matches_sequence_iff hitems' i j).1 hn
    have hij : i = j := hcore
    exact ⟨hij, hstart, fun he => hij.trans (hfinish he)⟩
  | @single span items n g start? finish? hitems hm h ih =>
    have hitems' : withoutOptions items =
        anchorNodes .start start? ++ [n] ++ anchorNodes .finish finish? := by
      rw [hitems, List.append_assoc]
      rfl
    obtain ⟨⟨k, hbody, rfl⟩, hstart, hfinish⟩ := (matches_sequence_iff hitems' i j).1 hn
    cases g with
    | anything => contradiction
    | nothing s e =>
      cases hg
      have hmem : n ∈ items := by
        have hn : n ∈ withoutOptions items := by simp [hitems]
        exact (List.mem_filter.1 hn).1
      simp only [Node.preorder, List.forall_mem_cons] at hchoice
      have hchild : ∀ e ∈ n.preorder (depth + 1), e.2.branches? = none :=
        fun e he => hchoice.2 e (Node.preorder_subset hmem he)
      obtain ⟨rfl, hs, he⟩ := ih hchild rfl hbody
      refine ⟨rfl, ?_, ?_⟩
      · rw [Bool.or_eq_true]
        exact fun h => h.elim hstart hs
      · rw [Bool.or_eq_true]
        exact fun h => h.elim hfinish he

end Meaning

/-- The exception is one of patterns like `^()$`: when such a pattern has no alternatives, what the
check finds is never true. -/
theorem universalMatch_sound {pattern : Text} {root : Node} {found : UniversalMatch}
    (hfound : universalMatch? pattern root = some found) (other : Node → Nat → Nat → Prop) :
    (∀ msg ≠ [], ContainsMatch msg other root) ∨
      (∀ g, Rests root g → g = .nothing true true) ∧
        ((∀ e ∈ root.preorder 0, e.2.branches? = none) →
          ∀ msg ≠ [], ¬ ContainsMatch msg other root) := by
  obtain ⟨part, hpart, -⟩ := Option.bind_eq_some_iff.1 hfound
  obtain ⟨g, hg⟩ := rests_of_universalPart? root part hpart
  by_cases hgood : ∃ g, Rests root g ∧ g ≠ .nothing true true
  · obtain ⟨g', hg', hne⟩ := hgood
    exact .inl fun msg hmsg => hg'.containsMatch hne hmsg
  · have honly : ∀ g, Rests root g → g = .nothing true true := fun g hg =>
      Decidable.byContradiction fun hne => hgood ⟨g, hg, hne⟩
    refine .inr ⟨honly, fun hchoice msg hmsg hmatch => ?_⟩
    obtain ⟨i, j, -, -, hmatch⟩ := hmatch
    obtain ⟨-, hstart, hfinish⟩ := hg.eq_of_matches hchoice (honly g hg) hmatch
    have hlength := List.length_pos_iff.2 hmsg
    have hzero := hstart rfl
    have hend := hfinish rfl
    omega

theorem universalMatch_sound_alternative :
    let pattern : Text := ['^', '(', 'a', '|', '.', '+', '?', ')', '$']
    let group : Node := .group ⟨1, 8⟩ .capturing (.alternation ⟨2, 7⟩ [.atom ⟨2, 3⟩ (.char 'a'),
      .quantified ⟨4, 7⟩ (.atom ⟨4, 5⟩ .any) ⟨.atLeast 1, .lazy⟩])
    let items : List Node := [.atom ⟨0, 1⟩ (.anchor .start), group, .atom ⟨8, 9⟩ (.anchor .finish)]
    let root : Node := .sequence ⟨0, 9⟩ items
    let found : UniversalMatch := ⟨['.', '+', '?'], ['\\', '.', '\\', '+', '\\', '?']⟩
    universalMatch? pattern root = some found ∧
      ∀ msg ≠ [], ContainsMatch msg (fun _ _ _ => False) root := by
  intro pattern group items root found
  have hfound : universalMatch? pattern root = some found := by decide
  have hitems : withoutOptions items =
      anchorNodes .start (some ⟨0, 1⟩) ++ group :: anchorNodes .finish (some ⟨8, 9⟩) := rfl
  have hgroup : Rests group .anything :=
    .group rfl (.branch (List.mem_cons_of_mem _ List.mem_cons_self) (.repetition rfl rfl))
  have hroot : Rests root .anything := .single hitems rfl hgroup
  refine ⟨hfound, ?_⟩
  rcases universalMatch_sound hfound fun _ _ _ => False with h | ⟨honly, -⟩
  · exact h
  · exact absurd (honly .anything hroot) (by decide)

theorem universalMatch_empty_message_only :
    let pattern : Text := ['^', '(', ')', '$']
    let root : Node := .sequence ⟨0, 4⟩ [.atom ⟨0, 1⟩ (.anchor .start),
      .group ⟨1, 3⟩ .capturing (.empty 2), .atom ⟨3, 4⟩ (.anchor .finish)]
    parse pattern = .ok root ∧
      universalMatch? pattern root = some ⟨['(', ')'], ['\\', '(', '\\', ')']⟩ ∧
      ∀ other, ¬ ContainsMatch ['a'] other root := by
  intro pattern root
  have hlex : Grammar.lex pattern = ⟨[⟨⟨0, 1⟩, .atom (.anchor .start)⟩,
      ⟨⟨1, 2⟩, .groupOpen .capturing⟩, ⟨⟨2, 3⟩, .groupClose⟩,
      ⟨⟨3, 4⟩, .atom (.anchor .finish)⟩], none⟩ := by
    decide +kernel
  refine ⟨?_, by decide, ?_⟩
  · rw [parse, Grammar.tokenize_eq_ok_iff.2 hlex, Grammar.ok_bind, Grammar.buildTree_eq_run]
    rfl
  · rintro other ⟨i, j, -, -, _, ⟨rfl, rfl⟩, _, hgroup, _, ⟨hend, -⟩, -⟩
    have hempty : 0 = _ := hgroup
    rw [← hempty] at hend
    contradiction

end PatternAudit.Lint
