import PatternAudit.Fuzz.Source
import PatternAudit.Proofs.Iterations

set_option autoImplicit false

/-!
# How many edits a pattern gets

Every pattern that a fuzzing run validates is one of the corpus with at least one edit made to it, and with no more
edits than the run allows. Two limits make an exception, as they leave no number to draw from: 0 and the largest
one, behind which there is none of 64 bits. With both of them every pattern gets one edit, and for 0 that is one
too many (`Fuzz.report_edits`).
-/
namespace PatternAudit.Fuzz

/-! Numbers of edits. -/

theorem toNat_add_one (limit : UInt64) : (limit + 1).toNat = (limit.toNat + 1) % UInt64.size := by
  rw [UInt64.toNat_add]
  rfl

theorem toNat_add_one_eq_iff {limit : UInt64} :
    (limit + 1).toNat = limit.toNat + 1 ↔ limit.toNat + 1 < UInt64.size := by
  rw [toNat_add_one]
  exact ⟨fun h => h ▸ Nat.mod_lt _ (by decide), Nat.mod_eq_of_lt⟩

/-- Limits that leave no number to draw from. -/
def NoneToDraw (limit : UInt64) : Prop :=
  limit = 0 ∨ limit.toNat + 1 = UInt64.size

theorem noneToDraw_iff {limit : UInt64} : NoneToDraw limit ↔ (limit + 1).toNat ≤ 1 := by
  have hlt : limit.toNat < UInt64.size := limit.toNat_lt_size
  have hzero : limit = 0 ↔ limit.toNat = 0 := UInt64.toNat_inj.symm
  rw [NoneToDraw, hzero, toNat_add_one]
  by_cases hlast : limit.toNat + 1 = UInt64.size
  · simp [hlast]
  · rw [Nat.mod_eq_of_lt (by omega)]
    omega

/-- How many edits a pattern may get. -/
structure Allowed (limit : UInt64) (edits : Nat) : Prop where
  atLeastOne : 1 ≤ edits
  atMost : limit ≠ 0 → edits ≤ limit.toNat
  onlyOne : NoneToDraw limit → edits = 1

/-- The pattern comes from the corpus by as many edits as are allowed. -/
structure Mutation.Made (σ : Type) [Generator σ] (limit : UInt64) (m : Mutation) : Prop where
  origin : m.origin ∈ corpus
  edited : ∃ g g' : σ, EditRun mixedEdits m.origin g m.edits m.pattern g'
  allowed : Allowed limit m.edits.length

section

variable {σ : Type} [Generator σ] [LawfulGenerator σ]

theorem editCount_gives (limit : UInt64) : (editCount limit : Drawing σ Nat).Gives (Allowed limit) := by
  by_cases hnone : NoneToDraw limit
  · rw [editCount, Draw.range_of_le (noneToDraw_iff.1 hnone)]
    refine .pure ⟨Nat.le_refl 1, fun hne => ?_, fun _ => rfl⟩
    exact Nat.pos_of_ne_zero fun h => hne (UInt64.toNat_inj.1 h)
  · have hone : 1 < (limit + 1).toNat := Nat.lt_of_not_le (mt noneToDraw_iff.2 hnone)
    have hle : (limit + 1).toNat ≤ limit.toNat + 1 := by
      rw [toNat_add_one]
      exact Nat.mod_le _ _
    refine (Draw.range_gives 1 _).weaken fun n hn => ⟨hn.1, fun _ => ?_, fun h => absurd h hnone⟩
    have hlt := hn.2 hone
    omega

theorem Mutates.made {limit : UInt64} {g g' : σ} {m : Mutation} (h : Mutates limit g m g') : m.Made σ limit := by
  have horigin := h.origin_mem
  obtain ⟨-, hcount, hedits⟩ := h
  exact ⟨horigin, ⟨_, _, hedits⟩, ((editCount_gives limit).of_ok hcount).1⟩

theorem Iterations.made {limit : UInt64} {g g' : σ} {ms : List Mutation} (h : Iterations limit g ms g') :
    ∀ m ∈ ms, m.Made σ limit := by
  induction h with
  | done => simp
  | next hm _ ih => exact List.forall_mem_cons.2 ⟨hm.made, ih⟩

end

/-- A run makes as many iterations as it is asked for, unless a draw among them never ends, and each of them
validates a pattern of the corpus after as many edits as are allowed. The number behind the limit is the one meant,
unless the limit is the largest. -/
theorem report_edits {σ : Type} [Generator σ] [LawfulGenerator σ] (clock : UInt64) (o : Options) :
    let seed := o.seed?.getD clock
    let start : σ := Generator.ofSeed seed
    ((∃ ms g, Iterations o.edits start ms g ∧ ms.length = o.iterations.toNat ∧
        report σ clock o = .ran seed o.iterations none) ∨
      report σ clock o = .broken seed .endless ∧ Stalls start) ∧
    (∀ ms g, Iterations o.edits start ms g →
      (∀ iteration remaining, runFrom o.edits iteration (ms.length + remaining) start =
        runFrom o.edits (iteration + ms.length) remaining g) ∧ ∀ m ∈ ms, m.Made σ o.edits) ∧
    ((o.edits + 1).toNat = o.edits.toNat + 1 ↔ o.edits.toNat + 1 < UInt64.size) := by
  intro seed start
  exact ⟨report_cases clock o, fun ms g hms => ⟨hms.runFrom_eq, hms.made⟩, toNat_add_one_eq_iff⟩

theorem report_edits_three :
    let o : Options := ⟨some 9, 2, 3⟩
    report Source 0 o = .ran 9 2 none ∧
      ∃ ms g, Iterations 3 (Generator.ofSeed 9 : Source) ms g ∧ ms.length = 2 ∧
        ∀ m ∈ ms, m.origin ∈ corpus ∧ 1 ≤ m.edits.length ∧ m.edits.length ≤ 3 := by
  intro o
  have hreport : report Source 0 o = .ran 9 2 none := report_of_drawn 0 o (by decide +kernel)
  obtain ⟨⟨ms, g, hms, hlength, -⟩ | ⟨hbroken, -⟩, hmade, -⟩ := @report_edits Source _ _ 0 o
  · refine ⟨hreport, ms, g, hms, hlength, fun m hm => ?_⟩
    obtain ⟨horigin, -, hallowed⟩ := (hmade ms g hms).2 m hm
    exact ⟨horigin, hallowed.atLeastOne, hallowed.atMost (by decide)⟩
  · cases hreport.symm.trans hbroken

/-- Whatever the generator, a run that allows no edit makes one for every pattern that it validates; and the number
behind the largest limit is not the one meant. -/
theorem report_edits_despite_zero :
    (∀ (σ : Type) [Generator σ] [LawfulGenerator σ] (g g' : σ) (m : Mutation), Mutates 0 g m g' →
        m.edits.length = 1) ∧
      (∃ m g, Iterations 0 (Generator.ofSeed 1 : Source) [m] g ∧ m.origin = ['.', '*'] ∧
        m.pattern = ['.', '*', '=', '.'] ∧ ¬ m.edits.length ≤ (0 : UInt64).toNat) ∧
      ((18446744073709551615 : UInt64) + 1).toNat ≠ (18446744073709551615 : UInt64).toNat + 1 := by
  have hone {σ : Type} [Generator σ] [LawfulGenerator σ] {g g' : σ} {m : Mutation} (hm : Mutates 0 g m g') :
      m.edits.length = 1 := hm.made.allowed.onlyOne (.inl rfl)
  refine ⟨fun σ _ _ g g' m hm => hone hm, ?_, by decide⟩
  have horigin : (Draw.choice corpus (Generator.ofSeed 1 : Source)).toOption.map Prod.fst = some ['.', '*'] := by
    decide +kernel
  have hpattern : (mutant 0 (Generator.ofSeed 1 : Source)).toOption.map Prod.fst = some ['.', '*', '=', '.'] := by
    decide +kernel
  obtain ⟨m, g, hm⟩ | ⟨hendless, -⟩ := exists_mutates 0 (Generator.ofSeed 1 : Source)
  · rw [hm.mutant_eq] at hpattern
    refine ⟨m, g, .next hm (.done g), ?_, Option.some.inj hpattern, by rw [hone hm]; decide⟩
    obtain ⟨hchoice, -, -⟩ := hm
    rw [hchoice] at horigin
    exact Option.some.inj horigin
  · rw [hendless] at hpattern
    contradiction

end PatternAudit.Fuzz
