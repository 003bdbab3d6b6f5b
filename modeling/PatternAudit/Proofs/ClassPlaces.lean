import PatternAudit.Proofs.Continuation
import PatternAudit.Proofs.FaultPlaces

set_option autoImplicit false

/-!
# Places in classes

What was read of a class only decides which members stand in front; the members behind are read as they
are anywhere (`ReadInClass.scanClass_eq`). A fault of an escape is therefore the fault of the whole
pattern, whether the escape begins a member or is the upper end of a range
(`Reads.tokenize_class_error`).
-/
namespace PatternAudit.Grammar

theorem map_map {ε α β γ : Type} (x : Except ε α) (f : α → β) (g : β → γ) :
    (x.map f).map g = x.map fun a => g (f a) := by
  cases x <;> rfl

theorem scanMembers_of_ok {c : Char} {s : Text} {p : Piece ClassItem} (hc : c ≠ ']')
    (h : scanMember c s = .ok p) (offset : Nat) :
    scanMembers offset (c :: s) =
      (scanMembers (offset + Text.byteLength p.text) p.rest).map fun q =>
        (q.after p.text).map (p.value :: ·) := by
  rw [scanMembers, if_neg hc]
  split
  next f hf => simp [h] at hf
  next q hq =>
    rw [h] at hq
    cases hq
    rfl

theorem scanMembers_of_error {c : Char} {s : Text} {f : Fault} (hc : c ≠ ']')
    (h : scanMember c s = .error f) (offset : Nat) :
    scanMembers offset (c :: s) = .error (f.shift offset) := by
  rw [scanMembers, if_neg hc]
  split
  next g hg =>
    rw [h] at hg
    cases hg
    rfl
  next q hq => simp [h] at hq

/-- The members read so far are the first ones of the class. -/
theorem ReadInClass.scanClass_eq {before rest : Text} (h : ReadInClass before rest) :
    ∃ s negated items, before = '[' :: s ∧
      scanClass (s ++ rest) = (scanMembers (Text.byteLength before) rest).map fun p =>
        (p.after s).map fun more => ⟨negated, items ++ more⟩ := by
  induction h with
  | @opening rest h =>
    refine ⟨[], false, [], rfl, ?_⟩
    rw [List.nil_append]
    unfold scanClass
    split
    next r => exact absurd rfl (h (']' :: r)).1
    next r _ => exact absurd rfl (h r).1
    next r => exact absurd rfl (h r).2
    next => rfl
  | @negated rest h =>
    refine ⟨['^'], true, [], rfl, ?_⟩
    change scanClass ('^' :: rest) = _
    unfold scanClass
    split
    next r heq => exact absurd (List.cons.inj heq).2 (h r)
    next r _ heq =>
      cases heq
      rfl
    next heq => exact absurd (List.cons.inj heq).1 (by decide)
    next hcaret _ => exact absurd rfl (hcaret rest)
  | bracket rest => exact ⟨[']'], false, [.literal ']'], rfl, rfl⟩
  | negatedBracket rest => exact ⟨['^', ']'], true, [.literal ']'], rfl, rfl⟩
  | @member before s c p h hc hp ih =>
    obtain ⟨t, negated, items, rfl, hclass⟩ := ih
    have hsplits : p.text ++ p.rest = c :: s := (scanMember_splits hp).1
    refine ⟨t ++ p.text, negated, items ++ [p.value], rfl, ?_⟩
    rw [List.append_assoc, hsplits, hclass, scanMembers_of_ok hc hp, map_map, Text.byteLength_append]
    simp [Piece.after, Piece.map]

/-! Faults. -/

/-- What was read of a class before a place where a character stands: a member begins there, or the
upper end of a range. -/
inductive ReadToChar : Text → Text → Prop where
  | member {before rest : Text} (h : ReadInClass before rest) : ReadToChar before rest
  | upper {before low rest : Text} {lo : Char} (h : ReadInClass before (low ++ '-' :: rest))
      (hlow : WritesChar lo low ('-' :: rest)) : ReadToChar (before ++ low ++ ['-']) rest

/-- Text for a character that a dash follows is a member of its own. -/
theorem WritesChar.scanSimpleMember {lo : Char} {low rest : Text} (h : WritesChar lo low ('-' :: rest)) :
    ∃ c s, low = c :: s ∧ c ≠ ']' ∧
      scanSimpleMember c (s ++ '-' :: rest) = .ok ⟨.literal lo, low, '-' :: rest⟩ := by
  cases h with
  | plain hc =>
    refine ⟨lo, [], rfl, hc.2, ?_⟩
    have hposix : scanPosix? ('-' :: rest) = none := rfl
    simp [Grammar.scanSimpleMember, hc.1, hposix]
  | @escaped body _ hbody =>
    refine ⟨'\\', body, rfl, by decide, ?_⟩
    simp only [Grammar.scanSimpleMember, hbody]
    rfl

/-- An escape for a set is no upper end, so the character in front of the dash is a member of its own. -/
theorem WritesChar.scanMember_dropped {lo : Char} {low s : Text} {e : Piece Escape}
    (h : WritesChar lo low ('-' :: '\\' :: s)) (he : scanEscape true s = .ok e) (hset : e.value.asChar = none) :
    ∃ c t, low = c :: t ∧ c ≠ ']' ∧
      scanMember c (t ++ '-' :: '\\' :: s) = .ok ⟨.literal lo, low, '-' :: '\\' :: s⟩ := by
  obtain ⟨c, t, rfl, hc, hsimple⟩ := h.scanSimpleMember
  have hend : scanRangeEnd '\\' s = .ok none := by
    simp [scanRangeEnd, he, Except.map, hset]
  exact ⟨c, t, rfl, hc, by simp [scanMember, hsimple, extendRange, hend]⟩

theorem ReadToChar.scanClass_error {before s : Text} {r : Reason} (h : ReadToChar before ('\\' :: s))
    (hs : scanEscape true s = .error r) :
    ∃ t, before = '[' :: t ∧ scanClass (t ++ '\\' :: s) = .error ⟨Text.byteLength before, r⟩ := by
  generalize hrest : '\\' :: s = rest at h
  cases h with
  | member h =>
    subst hrest
    obtain ⟨t, negated, items, rfl, hclass⟩ := h.scanClass_eq
    have hmember : scanMember '\\' s = .error ⟨0, r⟩ := by
      simp [scanMember, scanSimpleMember, hs, Except.map]
    exact ⟨t, rfl, by rw [hclass, scanMembers_of_error (by decide) hmember]; rfl⟩
  | @upper before low _ lo h hlow =>
    subst hrest
    obtain ⟨t, negated, items, rfl, hclass⟩ := h.scanClass_eq
    obtain ⟨c, u, rfl, hc, hsimple⟩ := hlow.scanSimpleMember
    have hmember : scanMember c (u ++ '-' :: '\\' :: s) = .error ⟨Text.byteLength (c :: u) + 1, r⟩ := by
      simp [scanMember, hsimple, extendRange, scanRangeEnd, hs, Except.map]
    refine ⟨t ++ (c :: u) ++ ['-'], by simp, ?_⟩
    rw [List.cons_append, scanMembers_of_error hc hmember] at hclass
    have hdash : '-'.utf8Size = 1 := rfl
    refine (congrArg scanClass (by simp)).trans (hclass.trans ?_)
    simp [Except.map, Fault.shift, Nat.add_assoc, hdash]

/-- A fault at a place that the lexer reaches is the fault of the pattern. -/
theorem Reads.tokenize_error {before s : Text} {c : Char} {f : Fault} (h : Reads false before false (c :: s))
    (hscan : scanUnquoted c s = .error f) :
    tokenize (before ++ c :: s) = .error (f.shift (Text.byteLength before)) := by
  obtain ⟨tokens, -, -, hlex, -⟩ := h.exists_tokens
  have hfault : scanLexeme false c s = .error f := hscan
  rw [tokenize, lex, hlex 0, lexFrom_of_error hfault, Nat.zero_add]
  rfl

theorem Reads.tokenize_class_error {before inside s : Text} {r : Reason}
    (h : Reads false before false (inside ++ '\\' :: s)) (hinside : ReadToChar inside ('\\' :: s))
    (hs : scanEscape true s = .error r) :
    tokenize (before ++ (inside ++ '\\' :: s)) = .error ⟨Text.byteLength (before ++ inside), r⟩ := by
  obtain ⟨t, rfl, hclass⟩ := hinside.scanClass_error hs
  have hscan : scanUnquoted '[' (t ++ '\\' :: s) = .error ⟨Text.byteLength ('[' :: t), r⟩ := by
    simp [scanUnquoted, hclass, Except.map]
  rw [Text.byteLength_append]
  exact h.tokenize_error hscan

end PatternAudit.Grammar
