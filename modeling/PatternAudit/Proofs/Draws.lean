import PatternAudit.Fuzz.Edit

set_option autoImplicit false

/-!
# Draws and edits

Nothing that is drawn from a lawful generator breaks off, unless a draw never ends: no choice is made among nothing,
and every edit that a strategy chooses for a text starts and ends where a character does
(`EditStrategy.Stocked.edit_gives`, `EditStrategy.Stocked.mutate_gives`).
-/
namespace PatternAudit.Fuzz

variable {σ : Type}

section

variable {α β : Type} {d : Drawing σ α} {f : α → Drawing σ β} {g : σ}

theorem Drawing.bind_of_ok {x : α} {g' : σ} (h : d g = .ok (x, g')) : (d >>= f) g = f x g' := by
  change (d g >>= fun p => f p.1 p.2) = _
  rw [h]
  rfl

theorem Drawing.bind_of_error {m : Mishap} (h : d g = .error m) : (d >>= f) g = .error m := by
  change (d g >>= fun p => f p.1 p.2) = _
  rw [h]
  rfl

end

variable [Generator σ]

/-- Whatever the generator, something with the property `P` is drawn, or the draws lead to one that never ends. -/
def Drawing.Gives {α : Type} (d : Drawing σ α) (P : α → Prop) : Prop :=
  ∀ g : σ, (∃ x g', d g = .ok (x, g') ∧ P x ∧ Reaches g g') ∨ d g = .error .endless ∧ Stalls g

namespace Drawing.Gives

variable {α β : Type} {P Q : α → Prop} {R : β → Prop}

theorem of_ok {d : Drawing σ α} (h : d.Gives P) {g g' : σ} {x : α} (hd : d g = .ok (x, g')) :
    P x ∧ Reaches g g' := by
  obtain ⟨y, t, hy, hP⟩ | ⟨herror, -⟩ := h g
  · cases hd.symm.trans hy
    exact hP
  · cases hd.symm.trans herror

theorem weaken {d : Drawing σ α} (h : d.Gives P) (himp : ∀ x, P x → Q x) : d.Gives Q := by
  intro g
  obtain ⟨x, g', hd, hx, hg'⟩ | hendless := h g
  · exact .inl ⟨x, g', hd, himp x hx, hg'⟩
  · exact .inr hendless

theorem pure {x : α} (h : P x) : (Pure.pure x : Drawing σ α).Gives P :=
  fun g => .inl ⟨x, g, rfl, h, .refl g⟩

theorem bind {d : Drawing σ α} {f : α → Drawing σ β} (h : d.Gives P) (hf : ∀ x, P x → (f x).Gives R) :
    (d >>= f).Gives R := by
  intro g
  obtain ⟨x, g', hd, hx, hg'⟩ | ⟨hendless, hstalls⟩ := h g
  · rw [bind_of_ok hd]
    obtain ⟨y, g'', hfx, hy, hg''⟩ | ⟨hendless, hstalls⟩ := hf x hx g'
    · exact .inl ⟨y, g'', hfx, hy, hg'.trans hg''⟩
    · exact .inr ⟨hendless, hstalls.of_reaches hg'⟩
  · exact .inr ⟨bind_of_error hendless, hstalls⟩

end Drawing.Gives

namespace Draw

theorem range_of_le {lo hi : Nat} (h : hi ≤ lo) : (range lo hi : Drawing σ Nat) = pure lo :=
  funext fun _ => if_pos h

theorem repeated_gives {α : Type} {P : α → Prop} {d : Drawing σ α} (h : d.Gives P) (n : Nat) :
    (repeated d n).Gives fun xs => xs.length = n ∧ ∀ x ∈ xs, P x := by
  induction n with
  | zero => exact .pure ⟨rfl, by simp⟩
  | succ n ih =>
    refine h.bind fun x hx => ih.bind fun xs hxs => .pure ⟨?_, ?_⟩
    · rw [List.length_cons, hxs.1]
    · exact List.forall_mem_cons.2 ⟨hx, hxs.2⟩

section

variable [LawfulGenerator σ]

/-- A drawn number is in the range, and at its start if there is none in it. -/
theorem range_gives (lo hi : Nat) : (range lo hi : Drawing σ Nat).Gives fun n => lo ≤ n ∧ (lo < hi → n < hi) := by
  intro g
  by_cases hle : hi ≤ lo
  · exact .inl ⟨lo, g, if_pos hle, ⟨Nat.le_refl lo, fun hlt => absurd hlt (Nat.not_lt.2 hle)⟩, .refl g⟩
  · have hlt : lo < hi := Nat.lt_of_not_le hle
    rw [range, if_neg hle]
    split
    next drawn hdrawn =>
      obtain ⟨hlo, hhi⟩ := LawfulGenerator.mem_of_between? hlt hdrawn
      exact .inl ⟨drawn.1, drawn.2, rfl, ⟨hlo, fun _ => hhi⟩, .draw hlt hdrawn (.refl _)⟩
    next hnone => exact .inr ⟨rfl, g, lo, hi, .refl g, hlt, hnone⟩

theorem choice_gives {α : Type} {xs : List α} (h : xs ≠ []) : (choice xs : Drawing σ α).Gives (· ∈ xs) := by
  rw [choice, if_neg (by simpa using h)]
  refine (range_gives 0 xs.length).bind fun i hi => ?_
  have hlt : i < xs.length := hi.2 (List.length_pos_iff.2 h)
  rw [List.getElem?_eq_getElem hlt]
  exact .pure (List.getElem_mem hlt)

theorem text_gives (lo hi : Nat) {charset : Text} (h : charset ≠ []) :
    (text lo hi charset : Drawing σ Text).Gives fun t =>
      lo ≤ t.length ∧ (lo < hi → t.length < hi) ∧ ∀ c ∈ t, c ∈ charset :=
  (range_gives lo hi).bind fun _ hlength => (repeated_gives (choice_gives h) _).weaken fun _ ht =>
    ⟨ht.1 ▸ hlength.1, ht.1 ▸ hlength.2, ht.2⟩

/-- A drawn place is one where the text can be cut. -/
theorem boundary_gives {s : Text} {lo : Nat} (hlo : lo ≤ s.byteLength) (hi : Nat) :
    (boundary s lo hi : Drawing σ Nat).Gives fun n => s.isBoundary n = true ∧ lo ≤ n := by
  rw [boundary]
  split
  next => exact .pure ⟨s.isBoundary_byteLength, hlo⟩
  next places hne =>
    refine (choice_gives hne).weaken fun n hn => ?_
    obtain ⟨hboundary, hrange⟩ := List.mem_filter.1 hn
    rw [Bool.and_eq_true, decide_eq_true_eq] at hrange
    exact ⟨Text.mem_boundaries.1 hboundary, hrange.1⟩

end

end Draw

/-! Edits. -/

/-- Both ends of what an edit replaces are places where the text can be cut, in order. -/
structure Edit.Fits (e : Edit) (s : Text) : Prop where
  start : s.isBoundary e.start = true
  stop : s.isBoundary e.stop = true
  ordered : e.start ≤ e.stop

/-- An edit that fits replaces what is between its ends, and keeps all the rest. -/
theorem Edit.Fits.replaces {e : Edit} {s : Text} (h : e.Fits s) :
    ∃ before part after, s = before ++ part ++ after ∧ Text.byteLength before = e.start ∧
      Text.byteLength (before ++ part) = e.stop ∧ e.apply? s = some (before ++ e.text ++ after) := by
  obtain ⟨part, hpart⟩ := Option.isSome_iff_exists.1 (Text.isSome_slice? h.ordered h.start h.stop)
  obtain ⟨before, after, rfl, hstart, hstop⟩ := Text.slice?_eq_some hpart
  refine ⟨before, part, after, rfl, hstart, hstop, ?_⟩
  have hbefore := Text.splitAt?_append before (part ++ after)
  have hafter := Text.splitAt?_append (before ++ part) after
  rw [← List.append_assoc, hstart] at hbefore
  rw [hstop] at hafter
  unfold Edit.apply?
  rw [hbefore, Option.bind_eq_bind, Option.bind_some, hafter]
  rfl

def TextGenerator.Stocked : TextGenerator → Prop
  | .fragments => True
  | .random _ _ charset => charset ≠ []

theorem TextGenerator.Stocked.generate_gives [LawfulGenerator σ] {t : TextGenerator} (h : t.Stocked) :
    (t.generate : Drawing σ Text).Gives fun _ => True := by
  cases t with
  | fragments =>
    have hne : Fuzz.fragments ≠ [] := by decide
    exact (Draw.choice_gives hne).weaken fun _ _ => trivial
  | random lo hi charset => exact (Draw.text_gives lo hi h).weaken fun _ _ => trivial

namespace EditStrategy

/-- Wherever the strategy chooses, there is something to choose from. -/
inductive Stocked : EditStrategy → Prop
  | append {g : TextGenerator} (h : g.Stocked) : Stocked (.append g)
  | insert {g : TextGenerator} (h : g.Stocked) : Stocked (.insert g)
  | erase : Stocked .erase
  | splice {g : TextGenerator} (h : g.Stocked) : Stocked (.splice g)
  | anyOf {strategies : List EditStrategy} (hne : strategies ≠ [])
      (h : ∀ strategy ∈ strategies, Stocked strategy) : Stocked (.anyOf strategies)

theorem editBy_eq (s : Text) {i : Nat} {strategies : List EditStrategy} (h : i < strategies.length) :
    (editBy s i strategies : Drawing σ Edit) = edit s strategies[i] := by
  induction strategies generalizing i with
  | nil => contradiction
  | cons strategy strategies ih =>
    cases i with
    | zero => rfl
    | succ i => exact ih (Nat.lt_of_succ_lt_succ h)

variable [LawfulGenerator σ]

theorem stretch_gives (s : Text) :
    (stretch s : Drawing σ (Nat × Nat)).Gives fun p => s.isBoundary p.1 = true ∧ s.isBoundary p.2 = true ∧ p.1 ≤ p.2 :=
  (Draw.boundary_gives (Nat.zero_le _) _).bind fun _ hstart =>
    (Draw.boundary_gives (Text.le_byteLength_of_isBoundary hstart.1) _).bind fun _ hstop =>
      .pure ⟨hstart.1, hstop.1, hstop.2⟩

/-- A strategy chooses for every text an edit that fits. -/
theorem Stocked.edit_gives {strategy : EditStrategy} (h : strategy.Stocked) (s : Text) :
    (strategy.edit s : Drawing σ Edit).Gives fun e => e.Fits s := by
  induction h with
  | append hg =>
    rw [edit]
    exact hg.generate_gives.bind fun _ _ =>
      .pure ⟨s.isBoundary_byteLength, s.isBoundary_byteLength, Nat.le_refl _⟩
  | insert hg =>
    rw [edit]
    exact (Draw.boundary_gives (Nat.zero_le _) _).bind fun _ hplace => hg.generate_gives.bind fun _ _ =>
      .pure ⟨hplace.1, hplace.1, Nat.le_refl _⟩
  | erase =>
    rw [edit]
    exact (stretch_gives s).bind fun _ hp => .pure ⟨hp.1, hp.2.1, hp.2.2⟩
  | splice hg =>
    rw [edit]
    exact (stretch_gives s).bind fun _ hp => hg.generate_gives.bind fun _ _ =>
      .pure ⟨hp.1, hp.2.1, hp.2.2⟩
  | anyOf hne h ih =>
    rw [edit, if_neg (by simpa using hne)]
    refine (Draw.range_gives 0 _).bind fun i hi => ?_
    have hlt := hi.2 (List.length_pos_iff.2 hne)
    rw [editBy_eq s hlt]
    exact ih _ (List.getElem_mem hlt)

/-- An edit is made as it was chosen. -/
theorem Stocked.mutate_gives {strategy : EditStrategy} (h : strategy.Stocked) (s : Text) :
    (strategy.mutate s : Drawing σ (Edit × Text)).Gives fun p => p.1.Fits s ∧ Edit.apply? p.1 s = some p.2 := by
  refine (h.edit_gives s).bind fun e he => ?_
  obtain ⟨before, part, after, -, -, -, happly⟩ := he.replaces
  rw [happly]
  exact .pure ⟨he, happly⟩

end EditStrategy

end PatternAudit.Fuzz
