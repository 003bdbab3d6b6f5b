import PatternAudit.Proofs.FaultPlaces
import PatternAudit.Proofs.Relocation
import PatternAudit.Proofs.Written

set_option autoImplicit false

/-!
# Lexemes and the text after them

Some lexemes look at the text after them, to see whether a number goes on, a repetition is lazy or a
brace makes a bound. This module says which other text may stand there without a change to the
lexeme.
-/
namespace PatternAudit.Grammar

/-- Text before which every lexeme ends: a parenthesis or a bar, or the end of the pattern. -/
def EndsLexemes (t : Text) : Prop :=
  ∀ c ∈ t.head?, c ∈ ['(', ')', '|']

/-- As far as the first character goes, `rest'` can stand in the place of `rest`. -/
def MayReplace (rest rest' : Text) : Prop :=
  rest'.head? = rest.head? ∨ EndsLexemes rest'

/-- The same piece with other text after it. -/
def Piece.before {α : Type} (rest : Text) (p : Piece α) : Piece α :=
  { p with rest }

theorem mayReplace_append {read rest rest' : Text} (h : read ≠ []) :
    MayReplace (read ++ rest) (read ++ rest') := by
  cases read with
  | nil => contradiction
  | cons c s => exact .inl rfl

theorem MayReplace.append_left {rest rest' : Text} (h : MayReplace rest rest') (read : Text) :
    MayReplace (read ++ rest) (read ++ rest') := by
  cases read with
  | nil => exact h
  | cons c s => exact .inl rfl

theorem MayReplace.ne_cons {rest rest' : Text} {c : Char} (h : MayReplace rest rest')
    (hrest : ∀ s, rest = c :: s → False) (hc : c ∉ ['(', ')', '|']) (s : Text) : rest' ≠ c :: s := by
  rintro rfl
  rcases h with h | h
  · obtain ⟨t, ht⟩ := List.head?_eq_some_iff.1 h.symm
    exact hrest t ht
  · exact hc (h c rfl)

/-- What is not true of the first character of a rest is not true of the one that replaces it, unless
it is true of a parenthesis or a bar. -/
theorem MayReplace.head {rest rest' : Text} {p : Char → Bool} (h : MayReplace rest rest')
    (hrest : ∀ c ∈ rest.head?, p c = false) (hmarks : ∀ c ∈ ['(', ')', '|'], p c = false) :
    ∀ c ∈ rest'.head?, p c = false := by
  rcases h with h | h
  · rwa [h]
  · exact fun c hc => hmarks c (h c hc)

/-- A text without parentheses and bars stands in front of the place where lexemes end. -/
theorem append_of_endsLexemes {part after s rest : Text} (h : part ++ after = s ++ rest)
    (hpart : ∀ c ∈ part, c ∉ ['(', ')', '|']) (hends : EndsLexemes rest) : ∃ more, s = part ++ more := by
  rcases List.append_eq_append_iff.1 h with ⟨more, hs, -⟩ | ⟨more, rfl, hrest⟩
  · exact ⟨more, hs⟩
  · cases more with
    | nil => exact ⟨[], by simp⟩
    | cons c more => exact absurd (hends c (by simp [hrest])) (hpart c (by simp))

/-- Digits end where they ended before. -/
theorem digits_replace {s rest' : Text} (h : MayReplace (s.dropWhile Char.isDigit) rest') :
    (s.takeWhile Char.isDigit ++ rest').takeWhile Char.isDigit = s.takeWhile Char.isDigit ∧
      (s.takeWhile Char.isDigit ++ rest').dropWhile Char.isDigit = rest' := by
  have hhead := h.head (head_dropWhile s) (by simp [Char.isDigit])
  exact ⟨takeWhile_append_of_head (mem_takeWhile s) hhead,
    dropWhile_append_of_head (mem_takeWhile s) hhead⟩

/-! Escapes. -/

theorem isDigitOf_mark (base : Nat) : ∀ c ∈ ['(', ')', '|'], Text.isDigitOf base c = false := by
  simp [Text.isDigitOf, Text.digitValue?]

theorem leadingDigits_replace {base limit : Nat} {s digits rest rest' : Text}
    (h : leadingDigits base limit s = (digits, rest)) (hr : MayReplace rest rest') :
    leadingDigits base limit (digits ++ rest') = (digits, rest') := by
  have hstop {limit : Nat} {t : Text} (ht : ∀ c ∈ t.head?, Text.isDigitOf base c = false) :
      leadingDigits base limit t = ([], t) := by
    cases limit with
    | zero => rw [leadingDigits]; simp
    | succ limit =>
      cases t with
      | nil => rw [leadingDigits]; simp
      | cons c t => rw [leadingDigits, ht c rfl]; simp
  induction limit generalizing s digits with
  | zero =>
    rw [leadingDigits] at h
    · cases h
      rw [List.nil_append, leadingDigits]
      simp
    · simp
  | succ limit ih =>
    cases s with
    | nil =>
      rw [leadingDigits] at h
      · cases h
        exact hstop (hr.head (by simp) (isDigitOf_mark base))
      · simp
    | cons c s =>
      rw [leadingDigits] at h
      split at h
      next hc =>
        cases hs : leadingDigits base limit s with
        | mk digits' rest'' =>
          rw [hs] at h
          cases h
          rw [List.cons_append, leadingDigits, if_pos hc, ih hs]
      next hc =>
        cases h
        exact hstop (hr.head (by simpa using hc) (isDigitOf_mark base))

theorem scanBracedCode_replace {base : Nat} {s rest' : Text} {p : Piece Escape}
    (h : scanBracedCode base s = .ok p) :
    scanBracedCode base (p.text ++ rest') = .ok (p.before rest') := by
  unfold scanBracedCode at h
  split at h
  next s =>
    split at h
    next digits rest hs =>
      obtain ⟨e, he, rfl⟩ := exists_of_map_ok h
      have hsplit := splitFirst?_append (Text.splitFirst?_not_mem hs) rest'
      simp only [List.cons_append, List.append_assoc, List.nil_append, scanBracedCode, hsplit, he]
      rfl
    next => contradiction
  next => contradiction

theorem scanShortCode_replace {base limit : Nat} {s rest' : Text} {p : Piece Escape}
    (h : scanShortCode base limit s = .ok p) (hr : MayReplace p.rest rest') :
    scanShortCode base limit (p.text ++ rest') = .ok (p.before rest') := by
  unfold scanShortCode at h
  cases hdigits : leadingDigits base limit s with
  | mk digits rest =>
    rw [hdigits] at h
    obtain ⟨e, he, rfl⟩ := exists_of_map_ok h
    simp only [scanShortCode, leadingDigits_replace hdigits hr, he]
    rfl

theorem scanHexCode_replace {s rest' : Text} {p : Piece Escape} (h : scanHexCode s = .ok p)
    (hr : MayReplace p.rest rest') : scanHexCode (p.text ++ rest') = .ok (p.before rest') := by
  have hsplits : p.text ++ p.rest = s := scanHexCode_splits h
  unfold scanHexCode at h
  split at h
  next s =>
    have hbraced : scanBracedCode 16 (p.text ++ rest') = .ok (p.before rest') :=
      scanBracedCode_replace h
    obtain ⟨t, ht⟩ : ∃ t, p.text ++ rest' = '{' :: t := by
      unfold scanBracedCode at h
      split at h
      next heq =>
        split at h
        next =>
          obtain ⟨e, -, rfl⟩ := exists_of_map_ok h
          exact ⟨_, rfl⟩
        next => contradiction
      next => contradiction
    rw [ht] at hbraced ⊢
    exact hbraced
  next hbrace =>
    have hshort := scanShortCode_replace h hr
    have hr' := hr.append_left p.text
    rw [hsplits] at hr'
    rw [scanHexCode]
    · exact hshort
    · exact fun t ht => hr'.ne_cons hbrace (by decide) t ht

theorem scanControl_replace {s rest' : Text} {p : Piece Escape} (h : scanControl s = .ok p) :
    scanControl (p.text ++ rest') = .ok (p.before rest') := by
  unfold scanControl at h
  split at h
  next => contradiction
  next c s =>
    split at h
    next hc =>
      obtain ⟨e, he, rfl⟩ := exists_of_map_ok h
      simp only [List.singleton_append, scanControl, if_pos hc, he]
      rfl
    next => contradiction

theorem scanProperty_replace {negated : Bool} {s rest' : Text} {p : Piece Escape}
    (h : scanProperty negated s = .ok p) :
    scanProperty negated (p.text ++ rest') = .ok (p.before rest') := by
  unfold scanProperty at h
  split at h
  next s =>
    split at h
    next c name rest hs =>
      cases h
      have hsplit := splitFirst?_append (Text.splitFirst?_not_mem hs) rest'
      simp only [List.cons_append, List.append_assoc, List.nil_append] at hsplit ⊢
      simp only [scanProperty, hsplit]
      rfl
    next => contradiction
    next => contradiction
    next => contradiction
    next c name rest _ _ hs =>
      cases h
      have hsplit := splitFirst?_append (Text.splitFirst?_not_mem hs) rest'
      simp only [List.cons_append, List.append_assoc, List.nil_append] at hsplit ⊢
      simp [scanProperty, hsplit, Piece.before]
  next c s _ =>
    split at h
    next hc =>
      cases h
      simp [scanProperty, hc, Piece.before]
    next => contradiction
  next => contradiction

theorem scanNumber_replace {sign s rest' : Text} {p : Piece Escape} (h : scanNumber sign s = .ok p)
    (hr : MayReplace p.rest rest') :
    ∃ c digits, p.text = sign ++ c :: digits ∧ c.isDigit = true ∧
      scanNumber sign (c :: digits ++ rest') = .ok (p.before rest') := by
  unfold scanNumber at h
  split at h
  next => contradiction
  next hne =>
    cases h
    obtain ⟨htake, hdrop⟩ := digits_replace hr
    obtain ⟨c, digits, hdigits⟩ := List.exists_cons_of_ne_nil hne
    refine ⟨c, digits, by rw [hdigits], mem_takeWhile s c (by simp [hdigits]), ?_⟩
    rw [hdigits] at htake hdrop
    simp only [scanNumber, htake, hdrop, hdigits]
    rfl

theorem scanNumberReference_replace {s rest' : Text} {p : Piece Escape}
    (h : scanNumberReference s = .ok p) (hr : MayReplace p.rest rest') :
    p.text ≠ [] ∧ scanNumberReference (p.text ++ rest') = .ok (p.before rest') := by
  unfold scanNumberReference at h
  split at h
  next =>
    obtain ⟨c, digits, htext, -, hnumber⟩ := scanNumber_replace h hr
    rw [htext]
    exact ⟨by simp, hnumber⟩
  next =>
    obtain ⟨c, digits, htext, -, hnumber⟩ := scanNumber_replace h hr
    rw [htext]
    exact ⟨by simp, hnumber⟩
  next =>
    obtain ⟨c, digits, htext, hc, hnumber⟩ := scanNumber_replace h hr
    rw [htext, List.nil_append]
    refine ⟨by simp, ?_⟩
    rw [List.cons_append] at hnumber ⊢
    rw [scanNumberReference]
    · exact hnumber
    · rintro t ht
      rw [(List.cons.inj ht).1] at hc
      contradiction
    · rintro t ht
      rw [(List.cons.inj ht).1] at hc
      contradiction

theorem scanReference_replace {s rest' : Text} {p : Piece Escape} (h : scanReference s = .ok p)
    (hr : MayReplace p.rest rest') : scanReference (p.text ++ rest') = .ok (p.before rest') := by
  unfold scanReference at h
  split at h
  next => contradiction
  next c s =>
    split at h
    next hclosing =>
      obtain ⟨hne, hnumber⟩ := scanNumberReference_replace h hr
      have hsplits : p.text ++ p.rest = c :: s := scanNumberReference_splits h
      obtain ⟨d, t, htext⟩ := List.exists_cons_of_ne_nil hne
      rw [htext, List.cons_append] at hsplits hnumber ⊢
      obtain ⟨rfl, -⟩ := List.cons.inj hsplits
      simp only [scanReference, hclosing]
      exact hnumber
    next close hclosing =>
      split at h
      next => contradiction
      next => contradiction
      next target rest hne hs =>
        cases h
        have hsplit := splitFirst?_append (Text.splitFirst?_not_mem hs) rest'
        obtain ⟨d, t, rfl⟩ := List.exists_cons_of_ne_nil hne
        simp only [List.cons_append, List.append_assoc, List.nil_append] at hsplit ⊢
        simp only [scanReference, hclosing, hsplit]
        rfl

theorem scanEscapeTail_replace {inClass : Bool} {c : Char} {s rest' : Text} {p : Piece Escape}
    (h : scanEscapeTail inClass c s = .ok p) (hr : MayReplace p.rest rest') :
    scanEscapeTail inClass c (p.text ++ rest') = .ok (p.before rest') := by
  unfold scanEscapeTail at h
  split at h
  next => exact scanHexCode_replace h hr
  next => exact scanBracedCode_replace h
  next => exact scanShortCode_replace h hr
  next => exact scanControl_replace h
  next => exact scanProperty_replace h
  next => exact scanProperty_replace h
  next =>
    unfold scanEscapeTail
    split
    all_goals try contradiction
    split at h
    next hreference =>
      rw [if_pos hreference]
      exact scanReference_replace h hr
    next hreference =>
      rw [if_neg hreference]
      split at h
      next hdigit =>
        rw [if_pos hdigit]
        cases h
        obtain ⟨htake, hdrop⟩ := digits_replace hr
        rw [htake, hdrop]
        rfl
      next hdigit =>
        rw [if_neg hdigit]
        cases h
        rfl

theorem scanEscape_replace {inClass : Bool} {s rest' : Text} {p : Piece Escape}
    (h : scanEscape inClass s = .ok p) (hr : MayReplace p.rest rest') :
    scanEscape inClass (p.text ++ rest') = .ok (p.before rest') := by
  unfold scanEscape at h
  split at h
  next => contradiction
  next c s =>
    split at h
    next e he =>
      cases h
      simp [scanEscape, he, Piece.before]
    next he =>
      obtain ⟨q, hq, rfl⟩ := exists_of_map_ok h
      have htail := scanEscapeTail_replace hq hr
      simp only [Piece.after, List.cons_append, List.nil_append, scanEscape, he, htail]
      rfl

/-! Classes. A class ends at its own bracket, so any text may follow it. -/

theorem scanPosix?_text {s : Text} {p : Piece ClassItem} (h : scanPosix? s = some p) :
    ∃ negated name, p.value = .posix negated name ∧ name ≠ [] ∧ (∀ c ∈ name, c.isAlpha = true) ∧
      p.text = ':' :: caret negated ++ name ++ [':', ']'] := by
  have close_text {negated : Bool} {s : Text}
      (h : scanPosix?.close negated (':' :: caret negated) s = some p) :
      ∃ name, p.value = .posix negated name ∧ name ≠ [] ∧ (∀ c ∈ name, c.isAlpha = true) ∧
        p.text = ':' :: caret negated ++ name ++ [':', ']'] := by
    unfold scanPosix?.close at h
    split at h
    next => contradiction
    next hne =>
      cases h
      exact ⟨_, rfl, hne, mem_takeWhile s, rfl⟩
    next => contradiction
  unfold scanPosix? at h
  split at h
  next => exact ⟨true, close_text h⟩
  next => exact ⟨false, close_text h⟩
  next => contradiction

theorem scanPosix?_replace {s : Text} {p : Piece ClassItem} (h : scanPosix? s = some p) (t : Text) :
    scanPosix? (p.text ++ t) = some (p.before t) := by
  obtain ⟨negated, name, hvalue, hne, hname, htext⟩ := scanPosix?_text h
  have hwritten := scanPosix?_written negated hne hname t
  rw [← hvalue] at hwritten
  simpa [htext, Piece.before] using hwritten

/-- What begins no named set before the end of a class begins none with other text after it. -/
theorem scanPosix?_replace_none {s rest : Text} (h : scanPosix? (s ++ rest) = none) (hs : ']' ∈ s)
    (t : Text) : scanPosix? (s ++ t) = none := by
  rw [Option.eq_none_iff_forall_not_mem]
  intro p hp
  obtain ⟨negated, name, -, -, hname, htext⟩ := scanPosix?_text hp
  obtain ⟨body, more, rfl, hbody⟩ := List.eq_append_cons_of_mem hs
  have hset : ']' ∉ ':' :: caret negated ++ name ++ [':'] := by
    have hnot : ']' ∉ name := fun hmem => absurd (hname _ hmem) (by decide)
    cases negated <;> simp [caret, hnot]
  have hsplits : p.text ++ p.rest = body ++ ']' :: more ++ t := scanPosix?_splits hp
  have hsplit := splitFirst?_append hset p.rest
  have heq : ':' :: caret negated ++ name ++ [':'] ++ ']' :: p.rest = body ++ ']' :: (more ++ t) := by
    rw [htext] at hsplits
    simpa using hsplits
  rw [heq, splitFirst?_append hbody] at hsplit
  have hpart : p.text = body ++ [']'] := by
    rw [htext, (Prod.mk.inj (Option.some.inj hsplit)).1]
    simp
  have hsome := scanPosix?_replace hp (more ++ rest)
  rw [hpart] at hsome
  simp only [List.append_assoc, List.cons_append, List.nil_append] at hsome h
  rw [h] at hsome
  contradiction

theorem scanSimpleMember_replace {c : Char} {s rest' : Text} {p : Piece ClassItem}
    (h : scanSimpleMember c s = .ok p) (hr : MayReplace p.rest rest')
    (hposix : scanPosix? p.rest = none → scanPosix? rest' = none) :
    ∃ t, p.text = c :: t ∧ scanSimpleMember c (t ++ rest') = .ok (p.before rest') := by
  unfold scanSimpleMember at h
  split at h
  next hbracket =>
    split at h
    next q hq =>
      cases h
      refine ⟨q.text, rfl, ?_⟩
      simp only [scanSimpleMember, if_pos hbracket, scanPosix?_replace hq rest']
      rfl
    next hnone =>
      cases h
      refine ⟨[], rfl, ?_⟩
      simp only [scanSimpleMember, if_pos hbracket, List.nil_append, hposix hnone]
      rfl
  next hbracket =>
    split at h
    next hbackslash =>
      obtain ⟨q, hq, rfl⟩ := exists_of_map_ok h
      refine ⟨q.text, rfl, ?_⟩
      simp only [scanSimpleMember, if_neg hbracket, if_pos hbackslash, scanEscape_replace hq hr]
      rfl
    next hbackslash =>
      cases h
      refine ⟨[], rfl, ?_⟩
      simp only [scanSimpleMember, if_neg hbracket, if_neg hbackslash]
      rfl

theorem scanRangeEnd_replace {c : Char} {s rest' : Text} {q : Piece Char}
    (h : scanRangeEnd c s = .ok (some q)) (hr : MayReplace q.rest rest') :
    ∃ t, q.text = c :: t ∧ scanRangeEnd c (t ++ rest') = .ok (some (q.before rest')) := by
  unfold scanRangeEnd at h
  split at h
  next hbackslash =>
    obtain ⟨p, hp, hq⟩ := exists_of_map_ok h
    obtain ⟨d, hd, rfl⟩ := Option.map_eq_some_iff.1 hq
    refine ⟨p.text, rfl, ?_⟩
    simp only [scanRangeEnd, if_pos hbackslash, scanEscape_replace hp hr, Piece.before, Except.map, hd]
    rfl
  next hbackslash =>
    cases h
    refine ⟨[], rfl, ?_⟩
    simp only [scanRangeEnd, if_neg hbackslash]
    rfl

theorem scanRangeEnd_none {c : Char} {s : Text} (h : scanRangeEnd c s = .ok none) :
    c = '\\' ∧ ∃ e, scanEscape true s = .ok e ∧ e.value.asChar = none := by
  unfold scanRangeEnd at h
  split at h
  next hbackslash =>
    obtain ⟨e, he, hnone⟩ := exists_of_map_ok h
    exact ⟨hbackslash, e, he, by simpa using hnone⟩
  next => simp at h

theorem scanMembers_cons {offset : Nat} {c : Char} {s : Text} {p : Piece (List ClassItem)}
    (h : scanMembers offset (c :: s) = .ok p) (hc : c ≠ ']') :
    ∃ q more, scanMember c s = .ok q ∧
      scanMembers (offset + Text.byteLength q.text) q.rest = .ok more ∧
      p = (more.after q.text).map (q.value :: ·) := by
  rw [scanMembers, if_neg hc] at h
  split at h
  next => contradiction
  next q hq =>
    obtain ⟨more, hmore, rfl⟩ := exists_of_map_ok h
    exact ⟨q, more, hq, hmore, rfl⟩

theorem scanMembers_close {offset : Nat} {s : Text} {p : Piece (List ClassItem)}
    (h : scanMembers offset s = .ok p) : ']' ∈ p.text := by
  fun_induction scanMembers offset s generalizing p with
  | case1 => contradiction
  | case2 => cases h; simp
  | case3 => contradiction
  | case4 offset c r _ q hq ih =>
    obtain ⟨more, hmore, rfl⟩ := exists_of_map_ok h
    exact List.mem_append_right q.text (ih hmore)

/-- A dash before the end of a class or before an escape is a member of its own. -/
theorem scanMembers_dash {offset : Nat} {c : Char} {s : Text} {p : Piece (List ClassItem)}
    (h : scanMembers offset ('-' :: c :: s) = .ok p) (hc : c ≠ '-') :
    ∃ offset' more, scanMembers offset' (c :: s) = .ok more ∧ p.text = '-' :: more.text := by
  obtain ⟨q, more, hq, hmore, rfl⟩ := scanMembers_cons h (by decide)
  have hself : extendRange ⟨.literal '-', ['-'], c :: s⟩ = .ok ⟨.literal '-', ['-'], c :: s⟩ :=
    extendRange_of_standsAlone fun _ _ _ _ hrest => absurd (List.cons.inj hrest).1 hc
  have hdash : scanMember '-' (c :: s) = .ok ⟨.literal '-', ['-'], c :: s⟩ := hself
  rw [hdash] at hq
  cases hq
  exact ⟨_, more, hmore, rfl⟩

/-- What stands for no single character is a member of its own. -/
theorem scanMember_set {s : Text} {e : Piece Escape} (he : scanEscape true s = .ok e)
    (hset : e.value.asChar = none) :
    scanMember '\\' s = .ok ⟨.set e.value, '\\' :: e.text, e.rest⟩ := by
  have hmember : scanSimpleMember '\\' s = .ok ⟨.set e.value, '\\' :: e.text, e.rest⟩ := by
    obtain ⟨e, text, rest⟩ := e
    simp only [scanSimpleMember, he]
    cases e <;> first | rfl | contradiction
  rw [scanMember, hmember]
  exact extendRange_of_standsAlone fun _ _ _ hvalue => by contradiction

theorem scanMembers_set {offset : Nat} {s : Text} {p : Piece (List ClassItem)} {e : Piece Escape}
    (h : scanMembers offset ('\\' :: s) = .ok p) (he : scanEscape true s = .ok e)
    (hset : e.value.asChar = none) :
    ∃ offset' more, scanMembers offset' e.rest = .ok more ∧
      p.text = '\\' :: e.text ++ more.text := by
  obtain ⟨q, more, hq, hmore, rfl⟩ := scanMembers_cons h (by decide)
  rw [scanMember_set he hset] at hq
  cases hq
  exact ⟨_, more, hmore, rfl⟩

/-- What comes after the class makes no range of a member that stands alone in it. -/
theorem StandsAlone.replace {p : Piece ClassItem} {offset : Nat} {more : Piece (List ClassItem)}
    (h : StandsAlone p) (hmore : scanMembers offset p.rest = .ok more) (t : Text) :
    StandsAlone (p.before (more.text ++ t)) := by
  intro lo c s hvalue hrest
  have hclose := scanMembers_close hmore
  have hsplits : more.text ++ more.rest = p.rest := scanMembers_splits hmore
  -- the class goes on after a dash, so the dash and what comes after it stood there before
  have htext : ∃ u, more.text = '-' :: c :: u ∧ s = u ++ t := by
    have hrest' : more.text ++ t = '-' :: c :: s := hrest
    match hfirst : more.text with
    | [] => simp [hfirst] at hclose
    | [d] =>
      rw [hfirst] at hrest' hclose
      cases (List.cons.inj hrest').1
      simp at hclose
    | d :: d' :: u =>
      rw [hfirst] at hrest'
      cases hrest'
      exact ⟨u, rfl, rfl⟩
  obtain ⟨u, hu, rfl⟩ := htext
  have hdash : p.rest = '-' :: c :: (u ++ more.rest) := by
    rw [← hsplits, hu]
    rfl
  rcases h lo c _ hvalue hdash with hc | hend
  · exact .inl hc
  · obtain ⟨rfl, e, he, hset⟩ := scanRangeEnd_none hend
    rw [hdash] at hmore
    obtain ⟨_, dashed, hdashed, htext⟩ := scanMembers_dash hmore (by decide)
    obtain ⟨_, others, hothers, hset'⟩ := scanMembers_set hdashed he hset
    have hescape : scanEscape true (e.text ++ (others.text ++ t)) = .ok (e.before (others.text ++ t)) := by
      refine scanEscape_replace he ?_
      rw [← scanMembers_splits hothers]
      exact mayReplace_append (List.ne_nil_of_mem (scanMembers_close hothers))
    have hbody : u ++ t = e.text ++ (others.text ++ t) := by
      have hu' : u = e.text ++ others.text := by simpa [hset', hu] using htext
      rw [hu', List.append_assoc]
    exact .inr (by simp [scanRangeEnd, hbody, hescape, Except.map, Piece.before, hset])

/-- Whether a member goes on to a range is seen inside the class. -/
theorem extendRange_replace {p r : Piece ClassItem} {offset : Nat} {more : Piece (List ClassItem)}
    (h : extendRange p = .ok r) (hmore : scanMembers offset r.rest = .ok more) (t : Text) :
    ∃ ext, r.text = p.text ++ ext ∧ MayReplace p.rest (ext ++ (more.text ++ t)) ∧
      (scanPosix? p.rest = none → scanPosix? (ext ++ (more.text ++ t)) = none) ∧
      extendRange (p.before (ext ++ (more.text ++ t))) = .ok (r.before (more.text ++ t)) := by
  have hclose := scanMembers_close hmore
  have hsplits : more.text ++ more.rest = r.rest := scanMembers_splits hmore
  have hr : MayReplace r.rest (more.text ++ t) := by
    rw [← hsplits]
    exact mayReplace_append (List.ne_nil_of_mem hclose)
  obtain ⟨halone, rfl⟩ | ⟨lo, c, s, q, hvalue, hrest, hc, hq, hle, rfl⟩ := extendRange_cases h
  · refine ⟨[], by simp, hr, ?_, extendRange_of_standsAlone (halone.replace hmore t)⟩
    rw [← hsplits]
    exact fun hnone => scanPosix?_replace_none hnone hclose t
  · obtain ⟨u, htext, hend⟩ := scanRangeEnd_replace hq hr
    refine ⟨'-' :: q.text, rfl, ?_, fun _ => rfl, ?_⟩
    · rw [hrest]
      exact .inl rfl
    · simp only [htext, extendRange, Piece.before, hvalue, List.cons_append, if_neg hc, hend,
        if_neg (Char.not_lt.2 hle)]

theorem scanMember_replace {c : Char} {s : Text} {p : Piece ClassItem} {offset : Nat}
    {more : Piece (List ClassItem)} (h : scanMember c s = .ok p)
    (hmore : scanMembers offset p.rest = .ok more) (t : Text) :
    ∃ u, p.text = c :: u ∧ scanMember c (u ++ (more.text ++ t)) = .ok (p.before (more.text ++ t)) := by
  unfold scanMember at h
  split at h
  next => contradiction
  next q hq =>
    obtain ⟨ext, htext, hr, hposix, hextend⟩ := extendRange_replace h hmore t
    obtain ⟨u, hu, hmember⟩ := scanSimpleMember_replace hq hr hposix
    refine ⟨u ++ ext, by rw [htext, hu, List.cons_append], ?_⟩
    rw [List.append_assoc, scanMember, hmember]
    exact hextend

theorem scanMembers_replace {offset : Nat} {s : Text} {p : Piece (List ClassItem)}
    (h : scanMembers offset s = .ok p) (t : Text) :
    scanMembers offset (p.text ++ t) = .ok (p.before t) := by
  fun_induction scanMembers offset s generalizing p with
  | case1 => contradiction
  | case2 offset r =>
    cases h
    rw [List.singleton_append, scanMembers, if_pos rfl]
    rfl
  | case3 => contradiction
  | case4 offset c r hc q hq ih =>
    obtain ⟨more, hmore, rfl⟩ := exists_of_map_ok h
    obtain ⟨u, hu, hmember⟩ := scanMember_replace hq hmore t
    have htext : ((more.after q.text).map (q.value :: ·)).text ++ t = c :: (u ++ (more.text ++ t)) := by
      simp [Piece.map, Piece.after, hu]
    rw [htext, scanMembers, if_neg hc]
    split
    next f hf => simp [hmember] at hf
    next q' hq' =>
      rw [hmember] at hq'
      cases hq'
      simp only [Piece.before, ih hmore]
      rfl

theorem scanClass_replace {s : Text} {p : Piece CharClass} (h : scanClass s = .ok p) (t : Text) :
    scanClass (p.text ++ t) = .ok (p.before t) := by
  have finish_replace {negated : Bool} {lead r : Text} {items : List ClassItem} {p : Piece CharClass}
      (h : scanClass.finish negated lead items r = .ok p) :
      ∃ c u v, p.text = lead ++ c :: u ∧ r = c :: v ∧
        scanClass.finish negated lead items (c :: u ++ t) = .ok (p.before t) := by
    obtain ⟨q, hq, rfl⟩ := exists_of_map_ok h
    have hsplits : q.text ++ q.rest = r := scanMembers_splits hq
    have hmembers := scanMembers_replace hq t
    obtain ⟨c, u, hu⟩ := List.exists_cons_of_ne_nil (List.ne_nil_of_mem (scanMembers_close hq))
    rw [hu] at hsplits hmembers
    refine ⟨c, u, u ++ q.rest, by simp [Piece.map, Piece.after, hu], hsplits.symm, ?_⟩
    rw [scanClass.finish, hmembers]
    rfl
  unfold scanClass at h
  split at h
  next r =>
    obtain ⟨c, u, v, htext, -, hfinish⟩ := finish_replace h
    rw [htext]
    exact hfinish
  next r hbracket =>
    obtain ⟨c, u, v, htext, rfl, hfinish⟩ := finish_replace h
    have hc : c ≠ ']' := fun hc => hbracket v (by rw [hc])
    rw [htext]
    simpa [scanClass, hc] using hfinish
  next r =>
    obtain ⟨c, u, v, htext, -, hfinish⟩ := finish_replace h
    rw [htext]
    exact hfinish
  next r _ hcaret hbracket =>
    obtain ⟨c, u, v, htext, rfl, hfinish⟩ := finish_replace h
    have hc : c ≠ '^' := fun hc => hcaret v (by rw [hc])
    have hc' : c ≠ ']' := fun hc => hbracket v (by rw [hc])
    rw [htext]
    simpa [scanClass, hc, hc'] using hfinish

/-! Repetitions. -/

theorem boundParts?_replace {s lo text rest : Text} {hi? : Option Text}
    (h : boundParts? s = some (lo, hi?, text, rest)) (t : Text) :
    boundParts? (text ++ t) = some (lo, hi?, text, t) ∧ ∀ c ∈ text, c ∉ ['(', ')', '|'] := by
  obtain ⟨inner, hinner, rfl, -⟩ := boundParts?_eq_some_iff.1 h
  refine ⟨by simpa using hinner.boundParts? t, fun c hc hmem => ?_⟩
  have hmarks : ['(', ')', '|'].all fun d => !isBoundMark d && d != '}' := by decide
  have hc' := List.all_eq_true.1 hmarks c hmem
  rcases List.mem_append.1 hc with hc | hc
  · simp [hinner.isBoundMark c hc] at hc'
  · simp [List.mem_singleton.1 hc] at hc'

/-- What opens no bound before a parenthesis, a bar or the end opens none with other text there. -/
theorem boundParts?_replace_none {s rest rest' : Text} (h : boundParts? (s ++ rest) = none)
    (hends : EndsLexemes rest') : boundParts? (s ++ rest') = none := by
  rw [Option.eq_none_iff_forall_not_mem]
  rintro ⟨lo, hi?, text, after⟩ hsome
  have hsplits : text ++ after = s ++ rest' := boundParts?_splits hsome
  obtain ⟨hbound, hmarks⟩ := boundParts?_replace hsome rest'
  obtain ⟨more, rfl⟩ := append_of_endsLexemes hsplits hmarks hends
  have hbound := (boundParts?_replace hsome (more ++ rest)).1
  rw [← List.append_assoc, h] at hbound
  contradiction

theorem scanBounds_replace {s : Text} {p : Piece Bounds} (h : scanBounds s = .ok (some p)) (t : Text) :
    scanBounds (p.text ++ t) = .ok (some (p.before t)) := by
  unfold scanBounds at h
  split at h
  next => simp at h
  next lo hi? text rest hparts =>
    obtain ⟨b, hb, heq⟩ := exists_of_map_ok h
    cases heq
    simp only [scanBounds, (boundParts?_replace hparts t).1, hb]
    rfl

theorem scanGreed_replace {bounds : Bounds} {s rest' : Text}
    (hr : MayReplace (scanGreed bounds s).rest rest') :
    scanGreed bounds ((scanGreed bounds s).text ++ rest') = (scanGreed bounds s).before rest' := by
  unfold scanGreed at hr ⊢
  split at hr
  next => rfl
  next => rfl
  next hlazy hpossessive =>
    rw [List.nil_append]
    split
    next => exact absurd rfl (hr.ne_cons hlazy (by decide) _)
    next => exact absurd rfl (hr.ne_cons hpossessive (by decide) _)
    next => rfl

theorem scanMark_replace {c : Char} {bounds : Bounds} {s rest' : Text}
    (hr : MayReplace (scanMark c bounds s).rest rest') :
    ∃ t, (scanMark c bounds s).text = c :: t ∧
      scanMark c bounds (t ++ rest') = (scanMark c bounds s).before rest' := by
  refine ⟨(scanGreed bounds s).text, rfl, ?_⟩
  rw [scanMark, scanGreed_replace hr]
  rfl

theorem scanBrace_replace {s rest' : Text} {p : Piece Lexeme} (h : scanBrace s = .ok p)
    (hr : MayReplace p.rest rest') (hbound : boundParts? p.rest = none → boundParts? rest' = none) :
    ∃ t, p.text = '{' :: t ∧ scanBrace (t ++ rest') = .ok (p.before rest') := by
  unfold scanBrace at h
  split at h
  next => contradiction
  next hnone =>
    cases h
    have hparts : boundParts? s = none := by
      unfold scanBounds at hnone
      split at hnone
      next hparts => exact hparts
      next =>
        obtain ⟨b, -, hb⟩ := exists_of_map_ok hnone
        contradiction
    refine ⟨[], rfl, ?_⟩
    have hbounds : scanBounds rest' = .ok none := by
      rw [scanBounds, hbound hparts]
    rw [List.nil_append, scanBrace, hbounds]
    rfl
  next q hq =>
    cases h
    refine ⟨q.text ++ (scanGreed q.value q.rest).text, rfl, ?_⟩
    rw [List.append_assoc, scanBrace, scanBounds_replace hq]
    simp only [Piece.before, scanGreed_replace hr]
    rfl

/-! Openings. -/

theorem scanGroupName_replace {lead s : Text} {close : Char} {p : Piece (Option TokenKind)}
    (h : scanGroupName lead close s = .ok p) (t : Text) :
    ∃ name, isGroupName name = true ∧ p.value = some (.groupOpen (.named name)) ∧
      p.text = lead ++ name ++ [close] ∧
      scanGroupName lead close (name ++ close :: t) = .ok (p.before t) := by
  unfold scanGroupName at h
  split at h
  next name rest hs =>
    split at h
    next hname =>
      cases h
      refine ⟨name, hname, rfl, rfl, ?_⟩
      simp only [scanGroupName, splitFirst?_append (Text.splitFirst?_not_mem hs) t, if_pos hname]
      rfl
    next => contradiction
  next => contradiction

/-- After a parenthesis and a question mark, text that explains neither. -/
def OpensDirective (s : Text) : Prop :=
  scanMarkedOpening s = .ok ⟨some (.groupOpen .directive), ['?'], s⟩

theorem scanMarkedOpening_replace {s rest' : Text} {p : Piece (Option TokenKind)}
    (h : scanMarkedOpening s = .ok p)
    (hdirective : p.value = some (.groupOpen .directive) → OpensDirective p.rest →
      OpensDirective rest') :
    ∃ t, p.text = '?' :: t ∧ scanMarkedOpening (t ++ rest') = .ok (p.before rest') := by
  have hopens : p = ⟨some (.groupOpen .directive), ['?'], s⟩ →
      ∃ t, p.text = '?' :: t ∧ scanMarkedOpening (t ++ rest') = .ok (p.before rest') := by
    rintro rfl
    exact ⟨[], rfl, hdirective rfl h⟩
  unfold scanMarkedOpening at h
  split at h
  next => contradiction
  next s =>
    split at h
    next note rest hs =>
      cases h
      refine ⟨'#' :: note ++ [')'], rfl, ?_⟩
      have hsplit := splitFirst?_append (Text.splitFirst?_not_mem hs) rest'
      simp only [List.append_assoc, List.cons_append, List.nil_append] at hsplit ⊢
      simp only [scanMarkedOpening, hsplit]
      rfl
    next => contradiction
  all_goals try (cases h; exact ⟨_, rfl, rfl⟩)
  next =>
    obtain ⟨name, hname, hvalue, htext, hscan⟩ := scanGroupName_replace h rest'
    refine ⟨'<' :: name ++ ['>'], htext, ?_⟩
    rw [List.append_assoc]
    exact (scanMarkedOpening_named (validName_of_isGroupName hname) _).trans hscan
  next =>
    obtain ⟨name, hname, hvalue, htext, hscan⟩ := scanGroupName_replace h rest'
    refine ⟨'\x27' :: name ++ ['\x27'], htext, ?_⟩
    rw [List.append_assoc]
    exact hscan
  next =>
    obtain ⟨name, hname, hvalue, htext, hscan⟩ := scanGroupName_replace h rest'
    refine ⟨'P' :: '<' :: name ++ ['>'], htext, ?_⟩
    rw [List.append_assoc]
    exact hscan
  next c s _ _ _ _ _ _ _ _ _ _ _ =>
    split at h
    next hc =>
      have hflags := validFlags_takeWhile hc s
      have hletters := isOptionLetter_of_mem hflags
      unfold scanOptions at h
      simp only at h
      split at h
      next rest _ =>
        cases h
        refine ⟨(c :: s).takeWhile isOptionLetter ++ [')'], rfl, ?_⟩
        rw [List.append_assoc, List.singleton_append]
        exact scanOpening_options hflags rest'
      next rest _ =>
        cases h
        refine ⟨(c :: s).takeWhile isOptionLetter ++ [':'], rfl, ?_⟩
        have htake := takeWhile_until hletters (show isOptionLetter ':' = false from rfl) rest'
        have hdrop := dropWhile_until hletters (show isOptionLetter ':' = false from rfl) rest'
        rw [List.append_assoc, List.singleton_append, scanMarkedOpening_flags hflags]
        simp only [scanOptions, htake, hdrop]
        rfl
      next => exact hopens (Except.ok.inj h).symm
    next => exact hopens (Except.ok.inj h).symm

theorem scanGroupName_ne_directive {lead s : Text} {close : Char} {p : Piece (Option TokenKind)}
    (h : scanGroupName lead close s = .ok p) : p.value ≠ some (.groupOpen .directive) := by
  obtain ⟨name, -, hvalue, -⟩ := scanGroupName_replace h []
  simp [hvalue]

/-- The characters that explain a question mark after a parenthesis, each by itself. -/
def openingMarks : Text := ['#', ':', '|', '>', '=', '!', '<', '\x27']

theorem scanMarkedOpening_unmarked {c : Char} {s : Text} (hc : c ∉ openingMarks)
    (hname : c = 'P' → s.head? ≠ some '<') :
    scanMarkedOpening (c :: s) =
      if isOptionLetter c then .ok (scanOptions (c :: s))
      else .ok ⟨some (.groupOpen .directive), ['?'], c :: s⟩ := by
  simp only [openingMarks, List.mem_cons, List.not_mem_nil, or_false, not_or] at hc
  have hP (t : Text) (hcP : c = 'P') (hs : s = '<' :: t) : False := hname hcP (by rw [hs]; rfl)
  rw [scanMarkedOpening] <;> simp [hc]
  exact hP

theorem opensDirective_iff {c : Char} {s : Text} :
    OpensDirective (c :: s) ↔ c ∉ openingMarks ∧ (c = 'P' → s.head? ≠ some '<') ∧
      (isOptionLetter c = true →
        ∀ d ∈ ((c :: s).dropWhile isOptionLetter).head?, d ≠ ')' ∧ d ≠ ':') := by
  constructor
  · intro h
    have hshape : c ∉ openingMarks ∧ (c = 'P' → s.head? ≠ some '<') := by
      unfold OpensDirective scanMarkedOpening at h
      split at h
      next hnil => contradiction
      next => split at h <;> simp at h
      all_goals try exact absurd h (by simp)
      next => exact absurd rfl (scanGroupName_ne_directive h)
      next => exact absurd rfl (scanGroupName_ne_directive h)
      next => exact absurd rfl (scanGroupName_ne_directive h)
      next hP heq =>
        cases heq
        refine ⟨by simp_all [openingMarks], fun hcP hs => ?_⟩
        obtain ⟨t, ht⟩ := List.head?_eq_some_iff.1 hs
        exact hP t hcP ht
    refine ⟨hshape.1, hshape.2, fun hletter d hd => ?_⟩
    rw [OpensDirective, scanMarkedOpening_unmarked hshape.1 hshape.2, if_pos hletter, scanOptions] at h
    obtain ⟨t, ht⟩ := List.head?_eq_some_iff.1 hd
    constructor
    · rintro rfl
      simp [ht] at h
    · rintro rfl
      simp [ht] at h
  · rintro ⟨hc, hname, hflags⟩
    rw [OpensDirective, scanMarkedOpening_unmarked hc hname]
    split
    next hletter =>
      have hstop := hflags hletter
      simp only [scanOptions]
      split
      next hdrop => exact absurd rfl (hstop ')' (by rw [hdrop]; rfl)).1
      next hdrop => exact absurd rfl (hstop ':' (by rw [hdrop]; rfl)).2
      next => rfl
    next => rfl

theorem scanOpening_replace {s rest' : Text} {p : Piece (Option TokenKind)}
    (h : scanOpening s = .ok p) (hr : MayReplace p.rest rest')
    (hdirective : p.value = some (.groupOpen .directive) → OpensDirective p.rest →
      OpensDirective rest') :
    scanOpening (p.text ++ rest') = .ok (p.before rest') := by
  unfold scanOpening at h
  split at h
  next =>
    cases h
    rfl
  next =>
    obtain ⟨t, htext, hscan⟩ := scanMarkedOpening_replace h hdirective
    rw [htext]
    exact hscan
  next hstar hmark =>
    cases h
    rw [List.nil_append]
    unfold scanOpening
    split
    next => exact absurd rfl (hr.ne_cons hstar (by decide) _)
    next => exact absurd rfl (hr.ne_cons hmark (by decide) _)
    next => rfl

/-! Lexemes. -/

theorem scanQuoted_literal {c : Char} {s : Text} (h : c = '\\' → s.head? ≠ some 'E') :
    scanQuoted c s = ⟨⟨some (.atom (.escape (.literal c))), true⟩, [c], s⟩ := by
  unfold scanQuoted
  split
  next => exact absurd rfl (h rfl)
  next => rfl

theorem scanQuoted_replace {c : Char} {s rest' : Text} (hr : MayReplace (scanQuoted c s).rest rest') :
    ∃ t, (scanQuoted c s).text = c :: t ∧ scanQuoted c (t ++ rest') = (scanQuoted c s).before rest' := by
  by_cases hend : c = '\\' ∧ s.head? = some 'E'
  · obtain ⟨rfl, hE⟩ := hend
    obtain ⟨r, rfl⟩ := List.head?_eq_some_iff.1 hE
    exact ⟨['E'], rfl, rfl⟩
  · have hliteral := scanQuoted_literal fun hc hE => hend ⟨hc, hE⟩
    rw [hliteral] at hr ⊢
    refine ⟨[], rfl, scanQuoted_literal fun hc hE => ?_⟩
    obtain ⟨r, hr'⟩ := List.head?_eq_some_iff.1 hE
    exact hr.ne_cons (fun t ht => hend ⟨hc, congrArg List.head? ht⟩) (by decide) r hr'

theorem scanEscape_text {inClass : Bool} {s : Text} {p : Piece Escape}
    (h : scanEscape inClass s = .ok p) : ∃ c t r, p.text = c :: t ∧ s = c :: r := by
  unfold scanEscape at h
  split at h
  next => contradiction
  next c s =>
    split at h
    next =>
      cases h
      exact ⟨c, [], s, rfl, rfl⟩
    next =>
      obtain ⟨q, -, rfl⟩ := exists_of_map_ok h
      exact ⟨c, q.text, s, rfl, rfl⟩

theorem scanBackslash_replace {s rest' : Text} {p : Piece Lexeme} (h : scanBackslash s = .ok p)
    (hr : MayReplace p.rest rest') :
    ∃ t, p.text = '\\' :: t ∧ scanBackslash (t ++ rest') = .ok (p.before rest') := by
  unfold scanBackslash at h
  split at h
  next =>
    cases h
    exact ⟨['Q'], rfl, rfl⟩
  next =>
    cases h
    exact ⟨['E'], rfl, rfl⟩
  next hQ hE =>
    split at h
    next q hq =>
      cases h
      refine ⟨q.text, rfl, ?_⟩
      have hescape := scanEscape_replace hq hr
      obtain ⟨c, t, r, htext, rfl⟩ := scanEscape_text hq
      have hc : c ≠ 'Q' := fun hc => hQ r (by rw [hc])
      have hc' : c ≠ 'E' := fun hc => hE r (by rw [hc])
      rw [htext, List.cons_append] at hescape ⊢
      exact scanBackslash_of_escape hc hc' hescape
    next => contradiction

/-- A lexeme reads the same before other text: nothing that it looks at changes. -/
structure Piece.MayPrecede (p : Piece Lexeme) (rest' : Text) : Prop where
  head : MayReplace p.rest rest'
  bound : boundParts? p.rest = none → boundParts? rest' = none
  directive : p.value.token? = some (.groupOpen .directive) → OpensDirective p.rest →
    OpensDirective rest'

theorem scanUnquoted_replace {c : Char} {s rest' : Text} {p : Piece Lexeme}
    (h : scanUnquoted c s = .ok p) (hr : p.MayPrecede rest') :
    ∃ t, p.text = c :: t ∧ scanUnquoted c (t ++ rest') = .ok (p.before rest') := by
  unfold scanUnquoted at h
  split at h
  next => exact scanBackslash_replace h hr.head
  next =>
    obtain ⟨q, hq, rfl⟩ := exists_of_map_ok h
    refine ⟨q.text, rfl, ?_⟩
    simp only [scanUnquoted, scanClass_replace hq rest']
    rfl
  next =>
    split at h
    next q hq =>
      cases h
      refine ⟨q.text, rfl, ?_⟩
      simp only [scanUnquoted, scanOpening_replace hq hr.head hr.directive]
      rfl
    next => contradiction
  all_goals try (cases h; exact ⟨[], rfl, rfl⟩)
  next =>
    cases h
    obtain ⟨t, htext, hmark⟩ := scanMark_replace hr.head
    exact ⟨t, htext, congrArg Except.ok hmark⟩
  next =>
    cases h
    obtain ⟨t, htext, hmark⟩ := scanMark_replace hr.head
    exact ⟨t, htext, congrArg Except.ok hmark⟩
  next =>
    cases h
    obtain ⟨t, htext, hmark⟩ := scanMark_replace hr.head
    exact ⟨t, htext, congrArg Except.ok hmark⟩
  next => exact scanBrace_replace h hr.head hr.bound
  next =>
    cases h
    refine ⟨[], rfl, ?_⟩
    unfold scanUnquoted
    split <;> first | contradiction | rfl

theorem scanLexeme_replace {quoting : Bool} {c : Char} {s rest' : Text} {p : Piece Lexeme}
    (h : scanLexeme quoting c s = .ok p) (hr : p.MayPrecede rest') :
    ∃ t, p.text = c :: t ∧ scanLexeme quoting c (t ++ rest') = .ok (p.before rest') := by
  cases quoting with
  | false => exact scanUnquoted_replace h hr
  | true =>
    cases h
    obtain ⟨t, htext, hquoted⟩ := scanQuoted_replace hr.head
    exact ⟨t, htext, congrArg Except.ok hquoted⟩

/-! Runs of lexemes. -/

theorem EndsLexemes.head_ne {rest : Text} (h : EndsLexemes rest) {c : Char} (hc : c ∉ ['(', ')', '|']) :
    rest.head? ≠ some c :=
  fun hhead => hc (h c hhead)

/-- A directive stays one before a parenthesis that opens, and where it is closed already. -/
theorem OpensDirective.replace {s rest rest' : Text} (h : OpensDirective (s ++ rest))
    (hends : EndsLexemes rest') (hclosed : rest'.head? = some '(' ∨ ')' ∈ s) :
    OpensDirective (s ++ rest') := by
  cases s with
  | nil =>
    obtain ⟨r, rfl⟩ := List.head?_eq_some_iff.1 (hclosed.resolve_right List.not_mem_nil)
    rw [List.nil_append, opensDirective_iff]
    exact ⟨by decide, by simp, by simp [isOptionLetter, optionLetters]⟩
  | cons c s =>
    rw [List.cons_append, opensDirective_iff] at h ⊢
    obtain ⟨hc, hname, hflags⟩ := h
    refine ⟨hc, fun hcP => ?_, fun hletter d hd => ?_⟩
    · cases s with
      | nil => exact hends.head_ne (by decide)
      | cons d s => exact hname hcP
    · rw [← List.cons_append, List.dropWhile_append] at hd hflags
      cases hdrop : (c :: s).dropWhile isOptionLetter with
      | nil =>
        -- the text is option letters only, so it does not close the directive
        have hletters := mem_takeWhile (p := isOptionLetter) (c :: s)
        have hall := List.takeWhile_append_dropWhile (p := isOptionLetter) (l := c :: s)
        rw [hdrop, List.append_nil] at hall
        rw [hall] at hletters
        obtain ⟨r, rfl⟩ := List.head?_eq_some_iff.1
          (hclosed.resolve_right fun hmem => absurd (hletters _ hmem) (by decide))
        rw [hdrop] at hd
        cases hd
        decide
      | cons e t =>
        rw [hdrop] at hd hflags
        exact hflags hletter d hd

theorem Piece.mayPrecede {p : Piece Lexeme} {s rest rest' : Text} (hp : p.rest = s ++ rest)
    (hends : EndsLexemes rest')
    (hclosed : p.value.token? = some (.groupOpen .directive) → rest'.head? = some '(' ∨ ')' ∈ s) :
    p.MayPrecede (s ++ rest') := by
  constructor
  · have hrest : MayReplace rest rest' := .inr hends
    rw [hp]
    exact hrest.append_left s
  · rw [hp]
    exact fun h => boundParts?_replace_none h hends
  · rw [hp]
    exact fun hopen h => h.replace hends (hclosed hopen)

/-- Every directive is followed by a closing token. -/
def DirectivesClosed : List TokenKind → Prop
  | [] => True
  | kind :: kinds => (kind = .groupOpen .directive → .groupClose ∈ kinds) ∧ DirectivesClosed kinds

/-- Every group that tokens open or find open is closed by one of them if they make up a tree. -/
theorem Builder.directivesClosed {b : Builder} {stop : Nat} {ts : List Token} {tree : Node}
    (h : b.run stop ts = .ok tree) :
    (b.pending ≠ [] → .groupClose ∈ ts.map Token.kind) ∧ DirectivesClosed (ts.map Token.kind) := by
  refine Builder.run_induct (P := fun b ts => (b.pending ≠ [] → .groupClose ∈ ts.map Token.kind) ∧
    DirectivesClosed (ts.map Token.kind)) ?_ ?_ h
  · exact fun l _ => ⟨fun hne => absurd rfl hne, trivial⟩
  · intro b b' t ts hstep ⟨hclose, hclosed⟩
    rw [List.map_cons]
    cases hstep with
    | atom l pending span a =>
      exact ⟨fun hne => List.mem_cons_of_mem _ (hclose hne), by simp, hclosed⟩
    | bar l pending span =>
      exact ⟨fun hne => List.mem_cons_of_mem _ (hclose hne), by simp, hclosed⟩
    | quantifier l n pending span q hn =>
      exact ⟨fun hne => List.mem_cons_of_mem _ (hclose hne), by simp, hclosed⟩
    | groupOpen l pending span kind hdepth =>
      have hmem := hclose (by simp)
      exact ⟨fun _ => List.mem_cons_of_mem _ hmem, fun _ => hmem, hclosed⟩
    | groupClose l g pending span => exact ⟨fun _ => List.mem_cons_self, by simp, hclosed⟩

/-- Other tokens in front of those that were read. -/
def Lexing.after (tokens : List Token) (l : Lexing) : Lexing :=
  { l with tokens := tokens ++ l.tokens }

theorem Lexing.prepend_after (p : Piece Lexeme) (tokens : List Token) (offset : Nat) (l : Lexing) :
    (l.after (tokens.map (Token.move (offset + Text.byteLength p.text + ·)))).prepend offset p =
      l.after ((prepend 0 p ⟨tokens.map (Token.move (Text.byteLength p.text + ·)), none⟩).tokens.map
        (Token.move (offset + ·))) := by
  unfold prepend
  split
  next => simp [after, Token.move, Span.move, Nat.add_assoc]
  next => simp [after, Token.move, Span.move, Nat.add_assoc]

theorem Lexing.kinds_prepend (p : Piece Lexeme) (tokens : List Token) (offset : Nat) (f : Nat → Nat) :
    (prepend offset p ⟨tokens.map (Token.move f), none⟩).tokens.map Token.kind =
      p.value.token?.toList ++ tokens.map Token.kind := by
  have hmove : Token.kind ∘ Token.move f = Token.kind := rfl
  unfold prepend
  split
  next kind hkind => simp [hkind, hmove]
  next hnone => simp [hnone, hmove]

theorem Lexing.stop_le_prepend (p : Piece Lexeme) {tokens : List Token} {read : Text}
    (h : ∀ t ∈ tokens, t.span.stop ≤ Text.byteLength read) :
    ∀ t ∈ (prepend 0 p ⟨tokens.map (Token.move (Text.byteLength p.text + ·)), none⟩).tokens,
      t.span.stop ≤ Text.byteLength (p.text ++ read) := by
  have hlater : ∀ t ∈ tokens.map (Token.move (Text.byteLength p.text + ·)),
      t.span.stop ≤ Text.byteLength (p.text ++ read) := by
    intro t ht
    obtain ⟨u, hu, rfl⟩ := List.mem_map.1 ht
    rw [Text.byteLength_append]
    exact Nat.add_le_add_left (h u hu) _
  unfold prepend
  split
  next => exact List.forall_mem_cons.2 ⟨by simp, hlater⟩
  next => exact hlater

/-- What is read from a text is read from it before every other text that ends lexemes, if that text
opens a group or all directives are closed. -/
theorem Reads.exists_tokens {quoting quoting' : Bool} {read rest : Text}
    (h : Reads quoting read quoting' rest) :
    ∃ tokens : List Token, (.groupClose ∈ tokens.map Token.kind → ')' ∈ read) ∧
      (∀ t ∈ tokens, t.span.stop ≤ Text.byteLength read) ∧
      (∀ offset, lexFrom quoting offset (read ++ rest) =
        (lexFrom quoting' (offset + Text.byteLength read) rest).after
          (tokens.map (Token.move (offset + ·)))) ∧
      ∀ rest', EndsLexemes rest' →
        rest'.head? = some '(' ∨ DirectivesClosed (tokens.map Token.kind) →
        ∀ offset, lexFrom quoting offset (read ++ rest') =
          (lexFrom quoting' (offset + Text.byteLength read) rest').after
            (tokens.map (Token.move (offset + ·))) := by
  induction h with
  | here quoting rest => exact ⟨[], by simp, by simp, fun _ => rfl, fun _ _ _ _ => rfl⟩
  | @lexeme quoting quoting' c s read rest p hp hrest h ih =>
    obtain ⟨tokens, hclose, hstops, hlex, hreplace⟩ := ih
    have hsplits : p.text ++ p.rest = c :: s := (scanLexeme_splits hp).1
    refine ⟨(Lexing.prepend 0 p ⟨tokens.map (Token.move (Text.byteLength p.text + ·)), none⟩).tokens,
      ?_, ?_, fun offset => ?_, fun rest' hends hclosed offset => ?_⟩
    · rw [Lexing.kinds_prepend, List.mem_append, List.mem_append]
      rintro (hmem | hmem)
      · have hc : c = ')' := scanLexeme_beginsWith hp _ (Option.mem_toList.1 hmem)
        obtain ⟨d, t, htext⟩ := List.exists_cons_of_ne_nil (scanLexeme_splits hp).2
        rw [htext, List.cons_append] at hsplits
        rw [htext, (List.cons.inj hsplits).1, hc]
        exact .inl (by simp)
      · exact .inr (hclose hmem)
    · exact Lexing.stop_le_prepend p hstops
    · rw [List.append_assoc, ← hrest, hsplits, lexFrom_of_ok hp, hrest, hlex, Lexing.prepend_after,
        Text.byteLength_append, Nat.add_assoc]
    · rw [Lexing.kinds_prepend] at hclosed
      have hprecede : p.MayPrecede (read ++ rest') := by
        refine Piece.mayPrecede hrest hends fun hopen => hclosed.imp_right fun hclosed => ?_
        rw [hopen] at hclosed
        exact hclose (hclosed.1 rfl)
      have hlater : rest'.head? = some '(' ∨ DirectivesClosed (tokens.map Token.kind) := by
        refine hclosed.imp_right fun hclosed => ?_
        cases hkind : p.value.token? with
        | none => rwa [hkind] at hclosed
        | some kind =>
          rw [hkind] at hclosed
          exact hclosed.2
      obtain ⟨t, htext, hscan⟩ := scanLexeme_replace hp hprecede
      have hfirst : lexFrom quoting offset (p.text ++ (read ++ rest')) =
          (lexFrom p.value.quoting (offset + Text.byteLength p.text) (read ++ rest')).prepend offset p :=
        (congrArg (lexFrom quoting offset) (by rw [htext, List.cons_append])).trans
          (lexFrom_of_ok hscan offset)
      rw [List.append_assoc, hfirst, hreplace rest' hends hlater, Lexing.prepend_after,
        Text.byteLength_append, Nat.add_assoc]

theorem Token.move_zero (t : Token) : t.move (0 + ·) = t := by
  obtain ⟨⟨start, stop⟩, kind⟩ := t
  simp [Token.move, Span.move]

theorem map_move_zero (ts : List Token) : ts.map (Token.move (0 + ·)) = ts := by
  rw [List.map_congr_left fun t _ => t.move_zero, List.map_id']

/-- A pattern that is not quoting at its end is read in front of other text as it is alone. -/
theorem lexFrom_append {pattern : Text} {tokens : List Token} (hlex : lex pattern = ⟨tokens, none⟩)
    (hquote : Reads false pattern false []) {rest : Text} (hends : EndsLexemes rest)
    (hclosed : rest.head? = some '(' ∨ DirectivesClosed (tokens.map Token.kind)) (offset : Nat) :
    lexFrom false offset (pattern ++ rest) =
      (lexFrom false (offset + Text.byteLength pattern) rest).after
        (tokens.map (Token.move (offset + ·))) := by
  obtain ⟨read, -, -, halone, hreplace⟩ := hquote.exists_tokens
  have hwhole := halone 0
  rw [List.append_nil, map_move_zero, lexFrom_nil] at hwhole
  have hread : read = tokens := by
    have htokens := hwhole.symm.trans hlex
    simpa [Lexing.after] using htokens
  rw [← hread] at hclosed ⊢
  exact hreplace rest hends hclosed offset

end PatternAudit.Grammar
