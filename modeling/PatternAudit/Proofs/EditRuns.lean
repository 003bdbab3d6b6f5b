import PatternAudit.Fuzz.Run
import PatternAudit.Fuzz.Source
import PatternAudit.Proofs.Draws

set_option autoImplicit false

/-!
# Runs of edits

A run of edits chooses each edit for the text that the one before left and makes it there. No run comes to a
text for which there is no next edit, or to an edit that cannot be made: every edit stands between two places
of its text, in order, and keeps all the text outside them (`Fuzz.editRun_goes_on`). The generator can be any that
draws from the ranges it is asked for, in any state; only a draw that never ends keeps a run from going on.
-/
namespace PatternAudit.Fuzz

/-- An edit of a text starts and ends at places of it and changes nothing but what is between them. -/
structure Edit.Replaces (e : Edit) (s : Text) : Prop where
  ordered : e.start ≤ e.stop
  inside : e.stop ≤ s.byteLength
  start : s.isBoundary e.start = true
  stop : s.isBoundary e.stop = true
  made : ∃ before part after t, s = before ++ part ++ after ∧ Text.byteLength before = e.start ∧
    Text.byteLength (before ++ part) = e.stop ∧ e.apply? s = some t ∧ t = before ++ e.text ++ after ∧
      t.byteLength = s.byteLength - (e.stop - e.start) + e.text.byteLength

theorem Edit.Fits.replacesIn {e : Edit} {s : Text} (h : e.Fits s) : e.Replaces s where
  ordered := h.ordered
  inside := Text.le_byteLength_of_isBoundary h.stop
  start := h.start
  stop := h.stop
  made := by
    obtain ⟨before, part, after, rfl, hstart, hstop, hmade⟩ := h.replaces
    refine ⟨before, part, after, _, rfl, hstart, hstop, hmade, rfl, ?_⟩
    rw [← hstart, ← hstop]
    simp only [Text.byteLength_append]
    omega

variable {σ : Type} [Generator σ]

/-- Edits made one after the other, from a text and a generator to the text and the generator that they leave. -/
inductive EditRun (strategy : EditStrategy) : Text → σ → List Edit → Text → σ → Prop where
  | done (s : Text) (g : σ) : EditRun strategy s g [] s g
  | edit {s t u : Text} {g g' g'' : σ} {e : Edit} {es : List Edit}
      (hchosen : strategy.edit s g = .ok (e, g')) (hmade : e.apply? s = some t)
      (h : EditRun strategy t g' es u g'') : EditRun strategy s g (e :: es) u g''

section

variable {strategy : EditStrategy} {s t : Text} {g g' : σ}

theorem EditStrategy.mutate_eq {e : Edit} (hchosen : strategy.edit s g = .ok (e, g'))
    (hmade : e.apply? s = some t) : strategy.mutate s g = .ok ((e, t), g') := by
  rw [mutate, Drawing.bind_of_ok hchosen, hmade]
  rfl

/-- Making several edits is running through them. -/
theorem EditRun.mutateTimes {es : List Edit} (h : EditRun strategy s g es t g') :
    Fuzz.mutateTimes strategy es.length s g = .ok (t, g') := by
  induction h with
  | done => rfl
  | edit hchosen hmade _ ih =>
    rw [List.length_cons, Fuzz.mutateTimes, Drawing.bind_of_ok (EditStrategy.mutate_eq hchosen hmade)]
    exact ih

end

section

variable [LawfulGenerator σ] {strategy : EditStrategy} (hstocked : strategy.Stocked)
include hstocked

/-- There is a next edit, and it can be made. -/
theorem EditStrategy.Stocked.exists_edit (s : Text) (g : σ) :
    (∃ e g', strategy.edit s g = .ok (e, g') ∧ e.Replaces s) ∨ strategy.edit s g = .error .endless ∧ Stalls g := by
  obtain ⟨e, g', hchosen, hfits, -⟩ | hendless := hstocked.edit_gives s g
  · exact .inl ⟨e, g', hchosen, hfits.replacesIn⟩
  · exact .inr hendless

theorem EditRun.reaches {s t : Text} {g g' : σ} {es : List Edit} (h : EditRun strategy s g es t g') :
    Reaches g g' := by
  induction h with
  | done => exact .refl _
  | @edit s _ _ _ _ _ _ _ hchosen _ _ ih => exact ((hstocked.edit_gives s).of_ok hchosen).2.trans ih

theorem exists_editRun (n : Nat) (s : Text) (g : σ) :
    (∃ es t g', EditRun strategy s g es t g' ∧ es.length = n) ∨
      mutateTimes strategy n s g = .error .endless ∧ Stalls g := by
  induction n generalizing s g with
  | zero => exact .inl ⟨[], s, g, .done s g, rfl⟩
  | succ n ih =>
    obtain ⟨e, g', hchosen, hfits, hg'⟩ | ⟨hendless, hstalls⟩ := hstocked.edit_gives s g
    · obtain ⟨before, part, after, -, -, -, hmade⟩ := hfits.replaces
      obtain ⟨es, u, g'', hrun, hlength⟩ | ⟨hendless, hstalls⟩ := ih (before ++ e.text ++ after) g'
      · exact .inl ⟨e :: es, u, g'', .edit hchosen hmade hrun, by rw [List.length_cons, hlength]⟩
      · refine .inr ⟨?_, hstalls.of_reaches hg'⟩
        rw [mutateTimes, Drawing.bind_of_ok (EditStrategy.mutate_eq hchosen hmade)]
        exact hendless
    · exact .inr ⟨Drawing.bind_of_error (Drawing.bind_of_error hendless), hstalls⟩

end

/-- From every text and every state of a generator runs of any length are made, and wherever a run has come to, the
next edit replaces part of the text there; unless the draws lead to one that never ends. -/
theorem editRun_goes_on [LawfulGenerator σ] {strategy : EditStrategy} (hstocked : strategy.Stocked) (s : Text)
    (g : σ) :
    (∀ n, (∃ es t g', EditRun strategy s g es t g' ∧ es.length = n ∧ mutateTimes strategy n s g = .ok (t, g')) ∨
        mutateTimes strategy n s g = .error .endless ∧ Stalls g) ∧
      ∀ es t g', EditRun strategy s g es t g' →
        (∃ e g'', strategy.edit t g' = .ok (e, g'') ∧ e.Replaces t) ∨
          strategy.edit t g' = .error .endless ∧ Stalls g := by
  refine ⟨fun n => ?_, fun es t g' hrun => ?_⟩
  · obtain ⟨es, t, g', hrun, rfl⟩ | hendless := exists_editRun hstocked n s g
    · exact .inl ⟨es, t, g', hrun, rfl, hrun.mutateTimes⟩
    · exact .inr hendless
  · obtain hchosen | ⟨hendless, hstalls⟩ := hstocked.exists_edit t g'
    · exact .inl hchosen
    · exact .inr ⟨hendless, hstalls.of_reaches (hrun.reaches hstocked)⟩

theorem editRun_goes_on_nested :
    let strategy : EditStrategy :=
      .anyOf [.erase, .anyOf [.splice (.random 0 3 ['é', '|']), .insert (.random 5 1 ['|'])], .append .fragments]
    let s : Text := ['é', 'é', '|', 'é']
    let g : Source := Generator.ofSeed 7
    let e : Edit := ⟨7, 7, ['\x7b', '9', '9', '9', '9', '9', '\x7d']⟩
    strategy.Stocked ∧
      (∃ es t g', EditRun strategy s g es t g' ∧ es.length = 3 ∧ mutateTimes strategy 3 s g = .ok (t, g')) ∧
      (∃ g', strategy.edit s g = .ok (e, g')) ∧ e.Replaces s := by
  intro strategy s g e
  have hstocked : strategy.Stocked := by
    refine .anyOf (by simp) (List.forall_mem_cons.2 ⟨.erase, List.forall_mem_cons.2 ⟨.anyOf (by simp) ?_, ?_⟩⟩)
    · simp only [List.forall_mem_cons]
      exact ⟨.splice (List.cons_ne_nil _ _), .insert (List.cons_ne_nil _ _), by simp⟩
    · exact List.forall_mem_cons.2 ⟨.append trivial, by simp⟩
  have hthree : (mutateTimes strategy 3 s g).toOption.isSome = true := by decide +kernel
  have hfirst : (strategy.edit s g).toOption.map Prod.fst = some e := by decide +kernel
  obtain ⟨hruns, hnext⟩ := editRun_goes_on hstocked s g
  refine ⟨hstocked, ?_, ?_⟩
  · obtain hrun | ⟨hendless, -⟩ := hruns 3
    · exact hrun
    · rw [hendless] at hthree
      contradiction
  · obtain ⟨e', g', hchosen, hreplaces⟩ | ⟨hendless, -⟩ := hnext [] s g (.done s g)
    · rw [hchosen] at hfirst
      obtain rfl : e' = e := Option.some.inj hfirst
      exact ⟨⟨g', hchosen⟩, hreplaces⟩
    · rw [hendless] at hfirst
      contradiction

end PatternAudit.Fuzz
