import PatternAudit.Proofs.Attempts
import PatternAudit.Proofs.EditRuns
import PatternAudit.Proofs.Outcomes

set_option autoImplicit false

/-!
# Iterations of a fuzzing run

An iteration draws a pattern of the corpus and a number of edits and makes them. Validating what they leave never
gives cause for complaint, so a run goes through all its iterations (`Fuzz.report_cases`); only a draw that never ends
can keep it from that.
-/
namespace PatternAudit.Fuzz

open Grammar (Attempt Halt)
open Lint (Findings TypeLookup attemptValidate)

/-! Outcomes. -/

theorem run_attemptValidate (resolve : TypeLookup) (pattern : Text) :
    ∃ outcome, (attemptValidate resolve pattern).run = some outcome ∧ verdict? pattern outcome = none := by
  have hcalm := complaint?_eq_none_iff.2 (holdsUp_validate resolve pattern)
  rw [Lint.attemptValidate_eq]
  cases houtcome : Lint.validate resolve pattern with
  | error f =>
    rw [houtcome] at hcalm
    exact ⟨.error (.fault f), rfl, hcalm⟩
  | ok findings =>
    rw [houtcome] at hcalm
    exact ⟨.ok findings, rfl, hcalm⟩

theorem stocked_mixedEdits : mixedEdits.Stocked := by
  have hcharset : "ab|$^.*+?()[]\x7b\x7d\\:<>=!#,-0123456789é".toList ≠ [] := by decide
  refine .anyOf (by simp) ?_
  simp only [List.forall_mem_cons]
  exact ⟨.append trivial, .insert trivial, .insert hcharset, .erase, .splice trivial, by simp⟩

theorem corpus_ne_nil : corpus ≠ [] := by
  decide

/-- A pattern of the corpus, the edits made to it one after the other, and what they leave. -/
structure Mutation where
  origin : Text
  edits : List Edit
  pattern : Text

section

variable {σ : Type} [Generator σ]

/-- Draws a mutation from a generator and leaves it in another state. -/
inductive Mutates (limit : UInt64) : σ → Mutation → σ → Prop where
  | drawn {g g₁ g₂ g₃ : σ} {m : Mutation} (horigin : Draw.choice corpus g = .ok (m.origin, g₁))
      (hcount : editCount limit g₁ = .ok (m.edits.length, g₂))
      (hedits : EditRun mixedEdits m.origin g₂ m.edits m.pattern g₃) : Mutates limit g m g₃

/-- The mutations of iterations made one after the other. -/
inductive Iterations (limit : UInt64) : σ → List Mutation → σ → Prop where
  | done (g : σ) : Iterations limit g [] g
  | next {g g' g'' : σ} {m : Mutation} {ms : List Mutation} (hm : Mutates limit g m g')
      (h : Iterations limit g' ms g'') : Iterations limit g (m :: ms) g''

variable {limit : UInt64} {g g' : σ} {m : Mutation} {ms : List Mutation}

theorem Mutates.mutant_eq (h : Mutates limit g m g') : mutant limit g = .ok (m.pattern, g') := by
  obtain ⟨horigin, hcount, hedits⟩ := h
  rw [mutant, Drawing.bind_of_ok horigin, Drawing.bind_of_ok hcount]
  exact hedits.mutateTimes

/-- No iteration stops a run. -/
theorem Mutates.runFrom_succ (h : Mutates limit g m g') (iteration remaining : Nat) :
    runFrom limit iteration (remaining + 1) g = runFrom limit (iteration + 1) remaining g' := by
  obtain ⟨outcome, hrun, hcalm⟩ := run_attemptValidate knownResolver m.pattern
  rw [runFrom, Drawing.bind_of_ok h.mutant_eq, hrun]
  dsimp only
  rw [hcalm]

/-- A run validates the patterns of its iterations, and goes on behind them. -/
theorem Iterations.runFrom_eq (h : Iterations limit g ms g') (iteration remaining : Nat) :
    runFrom limit iteration (ms.length + remaining) g = runFrom limit (iteration + ms.length) remaining g' := by
  induction h generalizing iteration with
  | done g => rw [List.length_nil, Nat.zero_add, Nat.add_zero]
  | @next _ _ _ m ms hm _ ih =>
    rw [List.length_cons, Nat.add_right_comm, hm.runFrom_succ]
    exact (ih (iteration + 1)).trans (by rw [Nat.add_assoc, Nat.add_comm 1])

end

section

variable {σ : Type} [Generator σ] [LawfulGenerator σ]

theorem Mutates.origin_mem {limit : UInt64} {g g' : σ} {m : Mutation} (h : Mutates limit g m g') :
    m.origin ∈ corpus := by
  obtain ⟨horigin, -, -⟩ := h
  exact ((Draw.choice_gives corpus_ne_nil).of_ok horigin).1

theorem Mutates.reaches {limit : UInt64} {g g' : σ} {m : Mutation} (h : Mutates limit g m g') : Reaches g g' := by
  obtain ⟨horigin, hcount, hedits⟩ := h
  have horigin := ((Draw.choice_gives corpus_ne_nil).of_ok horigin).2
  have hcount := ((Draw.range_gives 1 (limit + 1).toNat).of_ok hcount).2
  exact horigin.trans (hcount.trans (hedits.reaches stocked_mixedEdits))

theorem Iterations.reaches {limit : UInt64} {g g' : σ} {ms : List Mutation} (h : Iterations limit g ms g') :
    Reaches g g' := by
  induction h with
  | done g => exact .refl g
  | next hm _ ih => exact hm.reaches.trans ih

theorem exists_mutates (limit : UInt64) (g : σ) :
    (∃ m g', Mutates limit g m g') ∨ mutant limit g = .error .endless ∧ Stalls g := by
  obtain ⟨origin, g₁, horigin, -, hg₁⟩ | ⟨hendless, hstalls⟩ := Draw.choice_gives corpus_ne_nil g
  · obtain ⟨n, g₂, hcount, -, hg₂⟩ | ⟨hendless, hstalls⟩ := Draw.range_gives 1 (limit + 1).toNat g₁
    · obtain ⟨es, pattern, g₃, hedits, rfl⟩ | ⟨hendless, hstalls⟩ := exists_editRun stocked_mixedEdits n origin g₂
      · exact .inl ⟨⟨origin, es, pattern⟩, g₃, .drawn horigin hcount hedits⟩
      · refine .inr ⟨?_, hstalls.of_reaches (hg₁.trans hg₂)⟩
        rw [mutant, Drawing.bind_of_ok horigin, editCount, Drawing.bind_of_ok hcount]
        exact hendless
    · refine .inr ⟨?_, hstalls.of_reaches hg₁⟩
      rw [mutant, Drawing.bind_of_ok horigin]
      exact Drawing.bind_of_error hendless
  · exact .inr ⟨Drawing.bind_of_error hendless, hstalls⟩

/-- As many iterations are made as are asked for, unless a draw among them never ends. -/
theorem exists_iterations (limit : UInt64) (n : Nat) (g : σ) :
    (∃ ms g', Iterations limit g ms g' ∧ ms.length = n) ∨
      Draw.repeated (mutant limit) n g = .error .endless ∧
        (∀ iteration, runFrom limit iteration n g = .error .endless) ∧ Stalls g := by
  induction n generalizing g with
  | zero => exact .inl ⟨[], g, .done g, rfl⟩
  | succ n ih =>
    obtain ⟨m, g₁, hm⟩ | ⟨hendless, hstalls⟩ := exists_mutates limit g
    · obtain ⟨ms, g', h, hlength⟩ | ⟨hdrawn, hrun, hstalls⟩ := ih g₁
      · exact .inl ⟨m :: ms, g', .next hm h, by rw [List.length_cons, hlength]⟩
      · refine .inr ⟨?_, fun iteration => ?_, hstalls.of_reaches hm.reaches⟩
        · rw [Draw.repeated, Drawing.bind_of_ok hm.mutant_eq]
          exact Drawing.bind_of_error hdrawn
        · rw [hm.runFrom_succ]
          exact hrun (iteration + 1)
    · exact .inr ⟨Drawing.bind_of_error hendless, fun _ => Drawing.bind_of_error hendless, hstalls⟩

end

section

variable {σ : Type} [Generator σ] (clock : UInt64) (o : Options)

theorem report_of_runFrom {x : Except Mishap (Option Stop × σ)}
    (h : runFrom o.edits 0 o.iterations.toNat (Generator.ofSeed (o.seed?.getD clock)) = x) :
    report σ clock o =
      match x with
      | .ok (stop?, _) => .ran (o.seed?.getD clock) o.iterations stop?
      | .error mishap => .broken (o.seed?.getD clock) mishap := by
  have hrun : (runFrom o.edits 0 o.iterations.toNat).run' (Generator.ofSeed (o.seed?.getD clock) : σ) =
      x.map Prod.fst := congrArg (Except.map Prod.fst) h
  unfold report
  dsimp only
  rw [hrun]
  cases x <;> rfl

variable [LawfulGenerator σ]

/-- A run goes through all its iterations, unless a draw among them never ends. -/
theorem report_cases :
    (∃ ms g, Iterations o.edits (Generator.ofSeed (o.seed?.getD clock) : σ) ms g ∧ ms.length = o.iterations.toNat ∧
        report σ clock o = .ran (o.seed?.getD clock) o.iterations none) ∨
      report σ clock o = .broken (o.seed?.getD clock) .endless ∧
        Stalls (Generator.ofSeed (o.seed?.getD clock) : σ) := by
  obtain ⟨ms, g, h, hlength⟩ | ⟨-, hrun, hstalls⟩ :=
    exists_iterations o.edits o.iterations.toNat (Generator.ofSeed (o.seed?.getD clock) : σ)
  · exact .inl ⟨ms, g, h, hlength, report_of_runFrom clock o (hlength ▸ h.runFrom_eq 0 0)⟩
  · exact .inr ⟨report_of_runFrom clock o (hrun 0), hstalls⟩

/-- A run whose draws end goes through all its iterations. -/
theorem report_of_drawn
    (h : (Draw.repeated (mutant o.edits) o.iterations.toNat
      (Generator.ofSeed (o.seed?.getD clock) : σ)).toOption.isSome = true) :
    report σ clock o = .ran (o.seed?.getD clock) o.iterations none := by
  obtain ⟨ms, g, hms, hlength⟩ | ⟨hendless, -⟩ :=
    exists_iterations o.edits o.iterations.toNat (Generator.ofSeed (o.seed?.getD clock) : σ)
  · exact report_of_runFrom clock o (hlength ▸ hms.runFrom_eq 0 0)
  · rw [hendless] at h
    contradiction

end

end PatternAudit.Fuzz
