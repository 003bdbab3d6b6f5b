import PatternAudit.Proofs.OnePass

set_option autoImplicit false

/-!
# Which lists of tokens have a tree

A scan from left to right that builds nothing and remembers only where the open groups start and
whether the token just read can be repeated. It stops at the first mistake.
`buildTree_accepts_like_scan` says that tokens have a tree exactly when the scan finds no mistake,
and that the fault of the others is the scan's.
-/
namespace PatternAudit.Grammar

/-- The starts of the open groups, innermost first, and whether the latest token is an atom or has
closed a group. -/
structure Scan where
  opens : List Nat
  repeatable : Bool
deriving DecidableEq, Repr

namespace Scan

def fresh : Scan := ⟨[], false⟩

def step (s : Scan) (t : Token) : Except Fault Scan :=
  match t.kind with
  | .atom _ => .ok { s with repeatable := true }
  | .bar => .ok { s with repeatable := false }
  | .quantifier _ =>
    if s.repeatable then .ok { s with repeatable := false }
    else .error ⟨t.span.start, .nothingToRepeat⟩
  | .groupOpen _ =>
    if s.opens.length < 250 then .ok ⟨t.span.start :: s.opens, false⟩
    else .error ⟨t.span.start, .nestingTooDeep 250⟩
  | .groupClose =>
    match s.opens with
    | [] => .error ⟨t.span.start, .unmatchedClose⟩
    | _ :: outer => .ok ⟨outer, true⟩

def finish (s : Scan) : Except Fault Unit :=
  match s.opens with
  | [] => .ok ()
  | start :: _ => .error ⟨start, .unterminatedGroup⟩

def run (s : Scan) : List Token → Except Fault Unit
  | [] => s.finish
  | t :: ts => do
    let s ← s.step t
    s.run ts

end Scan

/-- Whether the latest item of a level can be repeated. -/
def Level.repeatable (l : Level) : Bool :=
  match l.items with
  | [] => false
  | n :: _ => !n.isQuantified

def Builder.scan (b : Builder) : Scan :=
  ⟨b.pending.map OpenGroup.start, b.level.repeatable⟩

theorem Level.repeatLast?_of_repeatable {l : Level} (h : l.repeatable = true) (stop : Nat)
    (q : Quantifier) : ∃ l', l.repeatLast? stop q = some l' ∧ l'.repeatable = false := by
  obtain ⟨branches, items⟩ := l
  cases items with
  | nil => contradiction
  | cons n ns =>
    have hn : n.isQuantified = false := by simpa [repeatable] using h
    refine ⟨⟨branches, .quantified ⟨n.span.start, stop⟩ n q :: ns⟩, ?_, rfl⟩
    simp [repeatLast?, hn]

theorem Level.repeatLast?_of_not_repeatable {l : Level} (h : l.repeatable = false) (stop : Nat)
    (q : Quantifier) : l.repeatLast? stop q = none := by
  obtain ⟨branches, items⟩ := l
  cases items with
  | nil => rfl
  | cons n ns =>
    have hn : n.isQuantified = true := by simpa [repeatable] using h
    simp [repeatLast?, hn]

theorem Builder.step_scan (b : Builder) (t : Token) :
    (b.step t).map Builder.scan = b.scan.step t := by
  obtain ⟨level, pending⟩ := b
  obtain ⟨span, kind⟩ := t
  cases kind with
  | atom a => rfl
  | bar => rfl
  | groupOpen kind =>
    by_cases hdeep : pending.length < 250
    · simp [Builder.step, Scan.step, Builder.scan, maxNesting, hdeep, Except.map, Level.fresh,
        Level.repeatable]
    · simp [Builder.step, Scan.step, Builder.scan, maxNesting, hdeep, Except.map]
  | groupClose => cases pending <;> rfl
  | quantifier q =>
    cases h : level.repeatable with
    | true =>
      obtain ⟨l', hl', hrepeat⟩ := Level.repeatLast?_of_repeatable h span.stop q
      simp [Builder.step, Scan.step, Builder.scan, hl', h, hrepeat, Except.map]
    | false =>
      have hl := Level.repeatLast?_of_not_repeatable h span.stop q
      simp [Builder.step, Scan.step, Builder.scan, hl, h, Except.map]

theorem Builder.finish_scan (b : Builder) (stop : Nat) :
    (b.finish stop).map (fun _ => ()) = b.scan.finish := by
  obtain ⟨level, pending⟩ := b
  cases pending <;> rfl

theorem Builder.run_scan (b : Builder) (stop : Nat) (ts : List Token) :
    (b.run stop ts).map (fun _ => ()) = b.scan.run ts := by
  induction ts generalizing b with
  | nil => exact b.finish_scan stop
  | cons t ts ih =>
    have hstep := b.step_scan t
    rw [Builder.run, Scan.run, ← hstep]
    cases b.step t with
    | error f => rfl
    | ok b' => exact ih b'

theorem buildTree_accepts_like_scan (tokens : List Token) (length : Nat) :
    (buildTree tokens length).map (fun _ => ()) = Scan.fresh.run tokens := by
  rw [buildTree_eq_run]
  exact Builder.run_scan .fresh length tokens

end PatternAudit.Grammar
