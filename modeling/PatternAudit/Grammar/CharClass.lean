import PatternAudit.Grammar.Escape

set_option autoImplicit false

/-!
# Bracketed classes

Reading a class after its opening bracket. A range is tried at every single character that a dash follows; when
what stands after the dash is no single character the attempt is dropped and the dash is read as a member of its
own. Each member takes at least one character, which is why reading ends.
-/
namespace PatternAudit.Grammar

/-- A named set such as `:alpha:]`, read after its bracket. -/
def scanPosix? : Text → Option (Piece ClassItem)
  | ':' :: '^' :: s => close true [':', '^'] s
  | ':' :: s => close false [':'] s
  | _ => none
where
  close (negated : Bool) (lead s : Text) : Option (Piece ClassItem) :=
    match s.takeWhile Char.isAlpha, s.dropWhile Char.isAlpha with
    | [], _ => none
    | name, ':' :: ']' :: rest => some ⟨.posix negated name, lead ++ name ++ [':', ']'], rest⟩
    | _, _ => none

/-- A class member that begins with `c`, before it is known whether it begins a range. -/
def scanSimpleMember (c : Char) (s : Text) : Except Reason (Piece ClassItem) :=
  if c = '[' then
    match scanPosix? s with
    | some p => .ok (p.after [c])
    | none => .ok ⟨.literal c, [c], s⟩
  else if c = '\\' then
    (scanEscape true s).map fun p => (p.after [c]).map fun
      | .literal d => .literal d
      | e => .set e
  else .ok ⟨.literal c, [c], s⟩

/-- The upper end of a range, read after the dash; nothing if no single character stands there. -/
def scanRangeEnd (c : Char) (s : Text) : Except Reason (Option (Piece Char)) :=
  if c = '\\' then
    (scanEscape true s).map fun p => p.value.asChar.map fun d => ⟨d, c :: p.text, p.rest⟩
  else .ok (some ⟨c, [c], s⟩)

/-- Extends a member to a range where a dash and an upper end follow it. -/
def extendRange (p : Piece ClassItem) : Except Fault (Piece ClassItem) :=
  match p.value, p.rest with
  | .literal lo, '-' :: c :: s =>
    if c = ']' then .ok p
    else
      match scanRangeEnd c s with
      | .error reason => .error ⟨Text.byteLength p.text + 1, reason⟩
      | .ok none => .ok p
      | .ok (some q) =>
        if q.value < lo then .error ⟨0, .rangeOutOfOrder⟩
        else .ok ⟨.range lo q.value, p.text ++ '-' :: q.text, q.rest⟩
  | _, _ => .ok p

/-- No range begins at the member: it is no single character, or no dash with an upper end comes after it. -/
def StandsAlone (p : Piece ClassItem) : Prop :=
  ∀ lo c s, p.value = .literal lo → p.rest = '-' :: c :: s → c = ']' ∨ scanRangeEnd c s = .ok none

theorem extendRange_of_standsAlone {p : Piece ClassItem} (h : StandsAlone p) : extendRange p = .ok p := by
  unfold extendRange
  split
  next lo c s hvalue hrest =>
    split
    next => rfl
    next hc => rw [(h lo c s hvalue hrest).resolve_left hc]
  next => rfl

/-- A member stays as it is or becomes the lower end of a range. -/
theorem extendRange_cases {p r : Piece ClassItem} (h : extendRange p = .ok r) :
    StandsAlone p ∧ r = p ∨
      ∃ lo c s q, p.value = .literal lo ∧ p.rest = '-' :: c :: s ∧ c ≠ ']' ∧
        scanRangeEnd c s = .ok (some q) ∧ lo ≤ q.value ∧
        r = ⟨.range lo q.value, p.text ++ '-' :: q.text, q.rest⟩ := by
  have hkept {c : Char} {s : Text} (hrest : p.rest = '-' :: c :: s)
      (hend : c = ']' ∨ scanRangeEnd c s = .ok none) : StandsAlone p := by
    intro lo' c' s' _ hrest'
    cases hrest.symm.trans hrest'
    exact hend
  unfold extendRange at h
  split at h
  next lo c s hvalue hrest =>
    split at h
    next hc => exact .inl ⟨hkept hrest (.inl hc), (Except.ok.inj h).symm⟩
    next hc =>
      split at h
      next => contradiction
      next hend => exact .inl ⟨hkept hrest (.inr hend), (Except.ok.inj h).symm⟩
      next q hq =>
        split at h
        next => contradiction
        next hle => exact .inr ⟨lo, c, s, q, hvalue, hrest, hc, hq, Char.not_lt.1 hle, (Except.ok.inj h).symm⟩
  next hne => exact .inl ⟨fun lo c s hvalue hrest => absurd hrest (hne lo c s hvalue), (Except.ok.inj h).symm⟩

def scanMember (c : Char) (s : Text) : Except Fault (Piece ClassItem) :=
  match scanSimpleMember c s with
  | .error reason => .error ⟨0, reason⟩
  | .ok p => extendRange p

theorem scanPosix?_splits {s : Text} {p : Piece ClassItem} (h : scanPosix? s = some p) : p.Splits s := by
  have close_splits {negated : Bool} {lead s : Text} {p : Piece ClassItem}
      (h : scanPosix?.close negated lead s = some p) : p.Splits (lead ++ s) := by
    have hs := List.takeWhile_append_dropWhile (p := Char.isAlpha) (l := s)
    unfold scanPosix?.close at h
    split at h
    next => contradiction
    next rest hrest _ =>
      cases h
      rw [hrest] at hs
      simpa [Piece.Splits] using hs
    next => contradiction
  unfold scanPosix? at h
  split at h
  next => exact close_splits h
  next => exact close_splits h
  next => contradiction

theorem scanSimpleMember_splits {c : Char} {s : Text} {p : Piece ClassItem}
    (h : scanSimpleMember c s = .ok p) : p.Splits (c :: s) ∧ p.text ≠ [] := by
  unfold scanSimpleMember at h
  split at h
  next =>
    split at h
    next q hq =>
      cases h
      exact ⟨(scanPosix?_splits hq).after [c], by simp [Piece.after]⟩
    next => cases h; exact ⟨rfl, by simp⟩
  next =>
    split at h
    next =>
      obtain ⟨q, hq, rfl⟩ := exists_of_map_ok h
      exact ⟨((scanEscape_splits hq).after [c]).map _, by simp [Piece.after, Piece.map]⟩
    next => cases h; exact ⟨rfl, by simp⟩

theorem scanRangeEnd_splits {c : Char} {s : Text} {q : Piece Char}
    (h : scanRangeEnd c s = .ok (some q)) : q.Splits (c :: s) := by
  unfold scanRangeEnd at h
  split at h
  next =>
    cases he : scanEscape true s with
    | error e => simp [he, Except.map] at h
    | ok p =>
      simp only [he, Except.map, Except.ok.injEq, Option.map_eq_some_iff] at h
      obtain ⟨d, _, rfl⟩ := h
      exact congrArg (c :: ·) (scanEscape_splits he)
  next => cases h; rfl

theorem extendRange_splits {p r : Piece ClassItem} {s : Text} (hp : p.Splits s)
    (h : extendRange p = .ok r) : r.Splits s ∧ p.text.length ≤ r.text.length := by
  obtain ⟨-, rfl⟩ | ⟨lo, c, t, q, -, hrest, -, hq, -, rfl⟩ := extendRange_cases h
  · exact ⟨hp, Nat.le_refl _⟩
  · refine ⟨?_, by simp⟩
    have hq' : q.text ++ q.rest = c :: t := scanRangeEnd_splits hq
    rw [← hp]
    simp [Piece.Splits, hrest, hq']

theorem scanMember_splits {c : Char} {s : Text} {p : Piece ClassItem} (h : scanMember c s = .ok p) :
    p.Splits (c :: s) ∧ p.text ≠ [] := by
  unfold scanMember at h
  split at h
  next => contradiction
  next q hq =>
    obtain ⟨hsplit, hne⟩ := scanSimpleMember_splits hq
    obtain ⟨hr, hle⟩ := extendRange_splits hsplit h
    refine ⟨hr, fun hnil => hne ?_⟩
    rw [hnil] at hle
    exact List.eq_nil_of_length_eq_zero (Nat.le_zero.1 hle)

theorem scanMember_rest_lt {c : Char} {s : Text} {p : Piece ClassItem} (h : scanMember c s = .ok p) :
    p.rest.length < (c :: s).length :=
  (scanMember_splits h).1.rest_lt (scanMember_splits h).2

/-- The members up to the closing bracket. Faults are placed relative to the opening bracket, which stands
`offset` bytes before `s`. -/
def scanMembers (offset : Nat) (s : Text) : Except Fault (Piece (List ClassItem)) :=
  match s with
  | [] => .error ⟨0, .unterminatedClass⟩
  | c :: r =>
    if c = ']' then .ok ⟨[], [c], r⟩
    else
      match _h : scanMember c r with
      | .error f => .error (f.shift offset)
      | .ok p =>
        (scanMembers (offset + Text.byteLength p.text) p.rest).map fun q =>
          (q.after p.text).map (p.value :: ·)
termination_by s.length
decreasing_by exact scanMember_rest_lt _h

/-- Reads the text after an opening bracket. A closing bracket in first place is a member. -/
def scanClass (s : Text) : Except Fault (Piece CharClass) :=
  match s with
  | '^' :: ']' :: r => finish true ['^', ']'] [.literal ']'] r
  | '^' :: r => finish true ['^'] [] r
  | ']' :: r => finish false [']'] [.literal ']'] r
  | r => finish false [] [] r
where
  finish (negated : Bool) (lead : Text) (items : List ClassItem) (r : Text) : Except Fault (Piece CharClass) :=
    (scanMembers (1 + Text.byteLength lead) r).map fun p =>
      (p.after lead).map fun more => ⟨negated, items ++ more⟩

theorem scanMembers_splits {offset : Nat} {s : Text} {p : Piece (List ClassItem)}
    (h : scanMembers offset s = .ok p) : p.Splits s := by
  fun_induction scanMembers offset s generalizing p with
  | case1 => contradiction
  | case2 => cases h; rfl
  | case3 => contradiction
  | case4 offset c r _ q hq ih =>
    obtain ⟨t, ht, rfl⟩ := exists_of_map_ok h
    rw [← (scanMember_splits hq).1]
    exact ((ih ht).after q.text).map _

theorem scanClass_splits {s : Text} {p : Piece CharClass} (h : scanClass s = .ok p) : p.Splits s := by
  have finish_splits {negated : Bool} {lead r : Text} {items : List ClassItem} {p : Piece CharClass}
      (h : scanClass.finish negated lead items r = .ok p) : p.Splits (lead ++ r) := by
    obtain ⟨q, hq, rfl⟩ := exists_of_map_ok h
    exact ((scanMembers_splits hq).after lead).map _
  unfold scanClass at h
  split at h <;> exact finish_splits h

end PatternAudit.Grammar
