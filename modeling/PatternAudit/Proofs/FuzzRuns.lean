import PatternAudit.Fuzz.Source
import PatternAudit.Proofs.Iterations

set_option autoImplicit false

/-!
# Fuzzing runs find nothing

Every edit of a run can be made, no attempt to validate a pattern panics and no outcome gives cause for complaint, so
a run whose draws end prints its two lines (`Fuzz.report_validates`). This holds for every generator whose numbers are
of the ranges it is asked for, and for whatever the run is asked for.
-/
namespace PatternAudit.Fuzz

open Grammar (Attempt)
open Lint (TypeLookup attemptValidate validate)

/-- Edits made to a text one after the other: each replaces a part of what the one before left. -/
inductive Edits : Text → List Edit → Text → Prop where
  | none (s : Text) : Edits s [] s
  | next {s t u : Text} {e : Edit} {es : List Edit} (hreplaces : e.Replaces s) (hmade : e.apply? s = some t)
      (h : Edits t es u) : Edits s (e :: es) u

/-- What an iteration does: all its edits are made, and the pattern that they leave holds up. -/
structure Mutation.Validated (m : Mutation) : Prop where
  origin : m.origin ∈ corpus
  edits : Edits m.origin m.edits m.pattern
  calm : ∃ outcome, (attemptValidate knownResolver m.pattern).run = some outcome ∧ verdict? m.pattern outcome = none

section

variable {σ : Type} [Generator σ] [LawfulGenerator σ]

theorem EditRun.edits {strategy : EditStrategy} (hstocked : strategy.Stocked) {s t : Text} {g g' : σ} {es : List Edit}
    (h : EditRun strategy s g es t g') : Edits s es t := by
  induction h with
  | done s => exact .none s
  | @edit s _ _ _ _ _ _ _ hchosen hmade _ ih =>
    exact .next ((hstocked.edit_gives s).of_ok hchosen).1.replacesIn hmade ih

theorem Mutates.validated {limit : UInt64} {g g' : σ} {m : Mutation} (h : Mutates limit g m g') : m.Validated := by
  have horigin := h.origin_mem
  obtain ⟨-, -, hedits⟩ := h
  exact ⟨horigin, hedits.edits stocked_mixedEdits, run_attemptValidate knownResolver m.pattern⟩

theorem Iterations.validated {limit : UInt64} {g g' : σ} {ms : List Mutation} (h : Iterations limit g ms g') :
    ∀ m ∈ ms, m.Validated := by
  induction h with
  | done => simp
  | next hm _ ih => exact List.forall_mem_cons.2 ⟨hm.validated, ih⟩

end

/-- A run goes through all its iterations and prints two lines, unless a draw among them never ends. Each of its
iterations makes its edits and validates what they leave; so does every iteration that a run can come to. -/
theorem report_validates {σ : Type} [Generator σ] [LawfulGenerator σ] (clock : UInt64) (o : Options) :
    let seed := o.seed?.getD clock
    let start : σ := Generator.ofSeed seed
    ((∃ ms g, Iterations o.edits start ms g ∧ ms.length = o.iterations.toNat ∧
        report σ clock o = .ran seed o.iterations none ∧
        (report σ clock o).stdout =
          "Fuzzing with seed ".toList ++ Text.decimal seed.toNat ++ ['\n'] ++
            Text.decimal o.iterations.toNat ++ " patterns validated\n".toList ∧
        (report σ clock o).exitCode? = some 0) ∨
      report σ clock o = .broken seed .endless ∧ Stalls start) ∧
    (∀ ms g, Iterations o.edits start ms g → (∀ m ∈ ms, m.Validated) ∧
      (∀ iteration remaining, runFrom o.edits iteration (ms.length + remaining) start =
        runFrom o.edits (iteration + ms.length) remaining g) ∧
      ((∃ m g', Mutates o.edits g m g') ∨ mutant o.edits g = .error .endless ∧ Stalls start)) ∧
    (∀ s : Text, (mixedEdits.mutate s : Drawing σ (Edit × Text)).Gives
      fun p => p.1.Replaces s ∧ Edit.apply? p.1 s = some p.2) ∧
    ∀ (resolve : TypeLookup) (pattern : Text),
      attemptValidate resolve pattern = Attempt.ofExcept (validate resolve pattern) ∧
        HoldsUp pattern (validate resolve pattern) ∧ complaint? pattern (validate resolve pattern) = none := by
  intro seed start
  refine ⟨?_, fun ms g hms => ⟨hms.validated, hms.runFrom_eq, ?_⟩, fun s => ?_, fun resolve pattern => ?_⟩
  · obtain ⟨ms, g, hms, hlength, hreport⟩ | hbroken := @report_cases σ _ clock o _
    · refine .inl ⟨ms, g, hms, hlength, hreport, ?_, ?_⟩
      · rw [hreport]
        rfl
      · rw [hreport]
        rfl
    · exact .inr hbroken
  · obtain hm | ⟨hendless, hstalls⟩ := exists_mutates o.edits g
    · exact .inl hm
    · exact .inr ⟨hendless, hstalls.of_reaches hms.reaches⟩
  · exact (stocked_mixedEdits.mutate_gives s).weaken fun _ hp => ⟨hp.1.replacesIn, hp.2⟩
  · have hholds := holdsUp_validate resolve pattern
    exact ⟨Lint.attemptValidate_eq resolve pattern, hholds, complaint?_eq_none_iff.2 hholds⟩

theorem report_validates_twice :
    let o : Options := ⟨some 7, 2, 3⟩
    (report Source 0 o).stdout = "Fuzzing with seed 7\n2 patterns validated\n".toList ∧
      (report Source 0 o).exitCode? = some 0 ∧
      ∃ ms g, Iterations 3 (Generator.ofSeed 7 : Source) ms g ∧ ms.length = 2 ∧ ∀ m ∈ ms, m.Validated := by
  intro o
  have hreport : report Source 0 o = .ran 7 2 none := report_of_drawn 0 o (by decide +kernel)
  obtain ⟨⟨ms, g, hms, hlength, -, hstdout, hexit⟩ | ⟨hbroken, -⟩, hall, -⟩ := @report_validates Source _ _ 0 o
  · refine ⟨?_, hexit, ms, g, hms, hlength, (hall ms g hms).1⟩
    rw [hstdout]
    decide +kernel
  · cases hreport.symm.trans hbroken

end PatternAudit.Fuzz
