import Mathlib.Data.List.Basic
import PatternAudit.Proofs.JoinedPatterns
import PatternAudit.Proofs.TextUnion

set_option autoImplicit false

/-!
# Branches among the tokens

The bars that stand outside all groups cut the tokens of a pattern into segments, one for each branch of
its tree, and a branch is a plain literal exactly when its segment is. The check for types can therefore
be read off the tokens, without a tree (`Lint.ignoredTypes_eq_segments`).
-/
namespace PatternAudit.Grammar

/-- The stretches of some tokens between the bars outside all groups, when `depth` groups are open in
front of them. -/
def segments (depth : Nat) : List Token → List (List Token)
  | [] => [[]]
  | t :: ts =>
    match t.kind, depth with
    | .bar, 0 => [] :: segments 0 ts
    | .groupOpen _, _ => (segments (depth + 1) ts).modifyHead (t :: ·)
    | .groupClose, _ => (segments (depth - 1) ts).modifyHead (t :: ·)
    | _, _ => (segments depth ts).modifyHead (t :: ·)

/-- The text of a segment of nothing but plain characters and literal escapes. -/
def spelling? (segment : List Token) : Option Text :=
  segment.mapM Token.asChar

def Node.spelling? (n : Node) : Option Text :=
  n.items.mapM Node.asChar

/-! Spellings. -/

theorem mapM_eq_none {α β : Type} {f : α → Option β} {xs : List α} {x : α} (hx : x ∈ xs)
    (h : f x = none) : xs.mapM f = none := by
  cases hxs : xs.mapM f with
  | none => rfl
  | some ys =>
    obtain ⟨y, hy⟩ := Lint.mem_of_mapM_eq_some hxs x hx
    rw [h] at hy
    contradiction

theorem modifyHead_nil_append {α : Type} (xss : List (List α)) :
    (xss.modifyHead fun xs => [] ++ xs) = xss := by
  cases xss <;> rfl

/-- Items that stand for the same character, or for none, go on a spelling alike. -/
theorem spelling?_concat {segment : List Token} {items : List Node} {t : Token} {n : Node}
    (h : spelling? segment = items.mapM Node.asChar) (hlast : t.asChar = n.asChar) :
    spelling? (segment ++ [t]) = (items ++ [n]).mapM Node.asChar := by
  rw [spelling?] at h ⊢
  simp [List.mapM_append, h, hlast]

theorem Level.MadeOf.spelling?_branch {l : Level} {ts : List Token} (h : l.MadeOf ts) (offset : Nat) :
    (l.branch offset).spelling? = l.items.reverse.mapM Node.asChar := by
  rw [Node.spelling?, branch,
    Node.items_concatenation fun n hn => h.isItem n (List.mem_reverse.1 hn)]

/-! Segments and levels. -/

/-- Inside a group no bar counts. -/
theorem Level.MadeOf.segments_inside {l : Level} {ts : List Token} (h : l.MadeOf ts) (depth : Nat)
    (rest : List Token) :
    segments (depth + 1) (ts ++ rest) = (segments (depth + 1) rest).modifyHead (ts ++ ·) := by
  induction h generalizing depth rest with
  | fresh => rw [modifyHead_nil_append, List.nil_append]
  | atom span a h ih | bar span h ih | quantifier span q hn h ih =>
    rw [List.append_assoc, ih]
    simp [segments, Function.comp_def]
  | group opening closing kind h hbody ih ihBody =>
    simp only [List.append_assoc, List.cons_append, ih]
    simp [segments, ihBody, Function.comp_def]

/-- What is read of a level is cut into its branches and a last segment that goes on with the rest. -/
theorem Level.MadeOf.segments_outside {l : Level} {ts : List Token} (h : l.MadeOf ts) :
    ∃ done last, done.map spelling? = l.branches.reverse.map Node.spelling? ∧
      spelling? last = l.items.reverse.mapM Node.asChar ∧
      ∀ rest, segments 0 (ts ++ rest) = done ++ (segments 0 rest).modifyHead (last ++ ·) := by
  induction h with
  | fresh => exact ⟨[], [], rfl, rfl, fun rest => (modifyHead_nil_append _).symm⟩
  | @atom l ts span a h ih =>
    obtain ⟨done, last, hdone, hlast, hcut⟩ := ih
    refine ⟨done, last ++ [⟨span, .atom a⟩], hdone, ?_, fun rest => ?_⟩
    · rw [push, List.reverse_cons]
      exact spelling?_concat hlast rfl
    · rw [List.append_assoc, hcut]
      simp [segments, Function.comp_def]
  | @bar l ts span h ih =>
    obtain ⟨done, last, hdone, hlast, hcut⟩ := ih
    refine ⟨done ++ [last], [], ?_, rfl, fun rest => ?_⟩
    · rw [separate, List.reverse_cons, List.map_append, List.map_append, hdone]
      simp [hlast, h.spelling?_branch]
    · rw [List.append_assoc, hcut, modifyHead_nil_append]
      simp [segments]
  | @quantifier l n ts span q hn h ih =>
    obtain ⟨done, last, hdone, hlast, hcut⟩ := ih
    refine ⟨done, last ++ [⟨span, .quantifier q⟩], hdone, ?_, fun rest => ?_⟩
    · -- neither the quantifier nor the repeated item stands for a character
      rw [spelling?, mapM_eq_none (x := ⟨span, .quantifier q⟩) (by simp) rfl]
      exact (mapM_eq_none (x := .quantified ⟨n.span.start, span.stop⟩ n q) (by simp [push]) rfl).symm
    · rw [List.append_assoc, hcut]
      simp [segments, Function.comp_def]
  | @group l body ts us opening closing kind h hbody ih ihBody =>
    obtain ⟨done, last, hdone, hlast, hcut⟩ := ih
    refine ⟨done, last ++ ⟨opening, .groupOpen kind⟩ :: (us ++ [⟨closing, .groupClose⟩]), hdone, ?_,
      fun rest => ?_⟩
    · rw [spelling?, mapM_eq_none (x := ⟨opening, .groupOpen kind⟩) (by simp) rfl]
      exact (mapM_eq_none (x := .group ⟨opening.start, closing.stop⟩ kind (body.content closing.start))
        (by simp [push]) rfl).symm
    · simp only [List.append_assoc, List.cons_append, hcut]
      simp [segments, hbody.segments_inside, Function.comp_def]

/-- Each alternative of a tree is spelled as its segment is. -/
theorem spelling?_segments_of_buildTree {tokens : List Token} {length : Nat} {root : Node}
    (h : buildTree tokens length = .ok root) :
    (segments 0 tokens).map spelling? = root.alternatives.map Node.spelling? := by
  obtain ⟨l, hl, rfl⟩ := exists_level_of_buildTree h
  obtain ⟨done, last, hdone, hlast, hcut⟩ := hl.segments_outside
  have hwhole := hcut []
  rw [List.append_nil] at hwhole
  rw [hwhole, hl.alternatives_content, List.map_append, List.map_append, hdone]
  simp [segments, hlast, hl.spelling?_branch]

theorem spelling?_segments {pattern : Text} {root : Node} (h : parse pattern = .ok root) :
    (segments 0 (lex pattern).tokens).map spelling? = root.alternatives.map Node.spelling? := by
  obtain ⟨tokens, hlex, htree⟩ := parse_eq_ok_iff.1 h
  rw [hlex]
  exact spelling?_segments_of_buildTree htree

end PatternAudit.Grammar

namespace PatternAudit.Lint

open Grammar (Node lex parse segments spelling? spelling?_segments)

theorem topBranches_eq (root : Node) :
    topBranches root =
      if 2 ≤ root.alternatives.length then root.alternatives.map Branch.ofNode else [] := by
  cases root with
  | alternation span branches =>
    match branches with
    | [] | [_] | _ :: _ :: _ => rfl
  | _ => rfl

/-- Literals are spellings that can be read back as they are. -/
theorem filterMap_literal? (nodes : List Node) :
    (nodes.map Branch.ofNode).filterMap Branch.literal? =
      ((nodes.map Node.spelling?).filterMap id).filter fun t => !t.isEmpty && !t.any isSignificant := by
  rw [List.filterMap_map, List.filterMap_map, List.filter_filterMap]
  refine List.filterMap_congr fun n _ => ?_
  change n.spelling?.bind (fun t => if t.isEmpty || t.any isSignificant then none else some t) =
    n.spelling?.filter fun t => !t.isEmpty && !t.any isSignificant
  cases n.spelling? with
  | none => rfl
  | some t =>
    rw [Option.bind_some, Option.filter_some]
    cases t.isEmpty <;> cases t.any isSignificant <;> rfl

theorem ignoredTypes_eq_segments {pattern : Text} {root : Node} (h : parse pattern = .ok root)
    (resolve : TypeLookup) :
    let parts := segments 0 (lex pattern).tokens
    ignoredTypes resolve root =
      if 2 ≤ parts.length then
        ((parts.filterMap spelling?).filter fun t =>
          !t.isEmpty && !t.any isSignificant && (resolve t).isSome).eraseDups.filterMap
            fun t => (resolve t).map (IgnoredType.mk t)
      else [] := by
  intro parts
  have hspelling : parts.map spelling? = root.alternatives.map Node.spelling? := spelling?_segments h
  have hlength : parts.length = root.alternatives.length := by
    simpa using congrArg List.length hspelling
  rw [ignoredTypes, topBranches_eq, hlength]
  split
  next =>
    rw [filterMap_literal?, ← hspelling, List.filterMap_map, resolveNew_eq, List.filter_filter]
    simp [Bool.and_comm]
  next => rfl

theorem ignoredTypes_eq_segments_grouped_bar :
    let pattern : Text :=
      ['B', '|', '(', 'x', '|', 'B', ')', '|', '[', '|', ']', '|', '\\', '|', '|', '|', 'B']
    let resolve : TypeLookup := fun name => if name = ['x'] then none else some ⟨'A' :: name, .alias⟩
    (segments 0 (lex pattern).tokens).map spelling? =
        [some ['B'], none, none, some ['|'], some [], some ['B']] ∧
      ∃ root, parse pattern = .ok root ∧
        ignoredTypes resolve root = [⟨['B'], ⟨['A', 'B'], .alias⟩⟩] := by
  intro pattern resolve
  have hlex : lex pattern = ⟨[⟨⟨0, 1⟩, .atom (.char 'B')⟩, ⟨⟨1, 2⟩, .bar⟩,
      ⟨⟨2, 3⟩, .groupOpen .capturing⟩, ⟨⟨3, 4⟩, .atom (.char 'x')⟩, ⟨⟨4, 5⟩, .bar⟩,
      ⟨⟨5, 6⟩, .atom (.char 'B')⟩, ⟨⟨6, 7⟩, .groupClose⟩, ⟨⟨7, 8⟩, .bar⟩,
      ⟨⟨8, 11⟩, .atom (.charClass ⟨false, [.literal '|']⟩)⟩, ⟨⟨11, 12⟩, .bar⟩,
      ⟨⟨12, 14⟩, .atom (.escape (.literal '|'))⟩, ⟨⟨14, 15⟩, .bar⟩, ⟨⟨15, 16⟩, .bar⟩,
      ⟨⟨16, 17⟩, .atom (.char 'B')⟩], none⟩ := by
    decide +kernel
  obtain ⟨root, hroot⟩ : ∃ root, parse pattern = .ok root := by
    rw [Grammar.parse_eq_run hlex]
    exact ⟨_, rfl⟩
  refine ⟨?_, root, hroot, ?_⟩
  · rw [hlex]
    decide
  · rw [ignoredTypes_eq_segments hroot, hlex]
    decide

end PatternAudit.Lint
