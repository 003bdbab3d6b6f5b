import PatternAudit.Proofs.Cursors

set_option autoImplicit false

/-!
# Escapes by position

Digits cut out of a pattern and read as a word of 32 bits give the same character as digits read one by one, and so
every escape reads the same by position as from the front of a text (`Cursor.escape_comesTo`).
-/
namespace PatternAudit.Grammar

theorem utf8Size_of_lt {c : Char} (h : c.toNat < 0x80) : c.utf8Size = 1 := by
  have hle : c.val ≤ 0x7f := UInt32.le_iff_toNat_le.2 (Nat.le_of_lt_succ h)
  simp [Char.utf8Size, hle]

theorem toNat_lt_of_isDigitOf {base : Nat} {c : Char} (h : Text.isDigitOf base c = true) : c.toNat < 0x80 := by
  have hlast {a z : Char} (hc : a ≤ c ∧ c ≤ z) : c.toNat ≤ z.toNat := UInt32.le_iff_toNat_le.1 hc.2
  apply Decidable.byContradiction
  intro hlarge
  have hnone {a z : Char} (hz : z.toNat < 0x80) : ¬ (a ≤ c ∧ c ≤ z) := fun hc => by
    have := hlast hc
    omega
  rw [Text.isDigitOf, Text.digitValue?, if_neg (hnone (by decide)), if_neg (hnone (by decide)),
    if_neg (hnone (by decide)), if_neg (Nat.lt_irrefl base)] at h
  contradiction

theorem toNat_lt_of_isDigit {c : Char} (h : c.isDigit = true) : c.toNat < 0x80 := by
  simp only [Char.isDigit, Bool.and_eq_true, decide_eq_true_eq] at h
  exact Nat.lt_of_le_of_lt (UInt32.le_iff_toNat_le.1 h.2) (by decide)

theorem isDigitOf_of_mem_leadingDigits {base limit : Nat} {s : Text} :
    ∀ c ∈ (leadingDigits base limit s).1, Text.isDigitOf base c = true := by
  fun_induction leadingDigits base limit s <;> simp_all

theorem word?_eq_none_iff {base : Nat} (hbase : 0 < base) {s : Text} :
    Text.word? base s = none ↔ ∀ n, Text.signedNumeral? base s = some n → UInt32.size ≤ n := by
  rw [Option.eq_none_iff_forall_ne_some]
  refine forall_congr' fun n => ?_
  rw [ne_eq, Text.word?_eq_some_iff hbase, not_and, Nat.not_lt]

theorem charOfCode?_eq_none {n : Nat} (h : UInt32.size ≤ n) : Text.charOfCode? n = none := by
  have hsize : UInt32.size = 4294967296 := rfl
  refine dif_neg fun hvalid => ?_
  rcases hvalid with hlow | ⟨-, hhigh⟩ <;> omega

/-- No character has a code too large for a word. -/
theorem literalOf_word? {base : Nat} (hbase : 0 < base) (s : Text) :
    literalOf (Text.word? base s) = literalOf (Text.signedNumeral? base s) := by
  cases hword : Text.word? base s with
  | some n => rw [((Text.word?_eq_some_iff hbase).1 hword).1]
  | none =>
    cases hnumeral : Text.signedNumeral? base s with
    | none => rfl
    | some n =>
      have hlarge := (word?_eq_none_iff hbase).1 hword n hnumeral
      rw [literalOf, literalOf, Option.bind_some, charOfCode?_eq_none hlarge]
      rfl

theorem signedNumeral?_of_digits {base : Nat} {s : Text} (hne : s ≠ []) (h : ∀ c ∈ s, Text.isDigitOf base c = true) :
    Text.signedNumeral? base s = Text.numeralFrom? base 0 s := by
  obtain ⟨c, t, rfl⟩ := List.exists_cons_of_ne_nil hne
  unfold Text.signedNumeral?
  split
  next t heq =>
    cases heq
    have hplus := h '+' List.mem_cons_self
    simp [Text.isDigitOf, Text.digitValue?] at hplus
  next => rfl

namespace Cursor

theorem literal_comesTo (start : Nat) (n? : Option Nat) {b b' t : Text} (s : Text) (h : b' = b ++ t) :
    ComesTo (literal start n?) ⟨b', s⟩ (readAt start b ((literalOf n?).map fun e => ⟨e, t, s⟩)) := by
  unfold literal literalOf
  cases n?.bind Text.charOfCode? with
  | some c => exact .of_eq _ s h
  | none => exact .fail _ _ _

theorem bracedCode_comesTo (start : Nat) {base : Nat} (hbase : 0 < base) (b s : Text) :
    ComesTo (bracedCode start base) ⟨b, s⟩ (readAt start b (scanBracedCode base s)) := by
  unfold scanBracedCode
  split
  next s =>
    refine eat_then ?_
    cases hdigits : Text.splitFirst? '}' s with
    | none => exact (takeUntil?_of_none _ hdigits).bind (.fail _ _ _)
    | some parts =>
      refine (takeUntil?_comesTo _ hdigits).bind ?_
      dsimp only
      split
      next hnil =>
        rw [List.isEmpty_iff.1 hnil]
        exact .fail _ _ _
      next =>
        rw [← literalOf_word? hbase]
        exact literal_comesTo start _ _ (by simp)
  next hbrace => exact eat_else (head_ne hbrace) (.fail _ _ _)

theorem skipHexDigitsWithin_comesTo (limit : Nat) {begin n : Nat} (b s : Text) (h : b.byteLength + limit = begin + 2)
    (hn : s.length < n) :
    ComesTo (skipHexDigitsWithin begin n) ⟨b, s⟩
      (.ok ((), ⟨b ++ (leadingDigits 16 limit s).1, (leadingDigits 16 limit s).2⟩)) := by
  obtain ⟨n, rfl⟩ := Nat.exists_eq_add_one_of_ne_zero (Nat.ne_zero_of_lt hn)
  rw [skipHexDigitsWithin]
  induction limit generalizing b s n with
  | zero =>
    have hdigits : leadingDigits 16 0 s = ([], s) := by simp [leadingDigits]
    rw [hdigits]
    refine .get_bind ?_
    rw [if_neg (by dsimp only [Place.index]; omega)]
    exact .of_eq _ s (by simp)
  | succ limit ih =>
    refine .get_bind ?_
    rw [if_pos (by dsimp only [Place.index]; omega)]
    refine (peek_comesTo b s).bind ?_
    cases s with
    | nil => exact .of_eq _ [] (by simp [leadingDigits])
    | cons c s =>
      dsimp only [List.head?_cons]
      rw [leadingDigits]
      split
      next hc =>
        obtain ⟨n, rfl⟩ := Nat.exists_eq_add_one_of_ne_zero (Nat.ne_zero_of_lt (Nat.lt_of_succ_lt_succ hn))
        have hsize := utf8Size_of_lt (toNat_lt_of_isDigitOf hc)
        have hrest := ih (b ++ [c]) s (by simp [hsize]; omega) n (Nat.lt_of_succ_lt_succ hn)
        rw [List.append_assoc, List.singleton_append] at hrest
        exact (bump_comesTo b s c).bind hrest
      next => exact .of_eq _ _ (by simp)

theorem scanShortCode_eq (base limit : Nat) (s : Text) :
    scanShortCode base limit s =
      (literalOf (Text.numeralFrom? base 0 (leadingDigits base limit s).1)).map fun e =>
        ⟨e, (leadingDigits base limit s).1, (leadingDigits base limit s).2⟩ :=
  rfl

theorem hexCode_comesTo (start : Nat) (b s : Text) :
    ComesTo (hexCode start) ⟨b, s⟩ (readAt start b (scanHexCode s)) := by
  refine (peek_comesTo b s).bind ?_
  unfold scanHexCode
  split
  next hbrace =>
    obtain ⟨s, rfl⟩ := List.head?_eq_some_iff.1 hbrace
    exact bracedCode_comesTo start (by decide) b _
  next hbrace =>
    split
    next => exact absurd rfl hbrace
    next =>
      have hdigits : ∀ c ∈ (leadingDigits 16 2 s).1, Text.isDigitOf 16 c = true := isDigitOf_of_mem_leadingDigits
      refine .get_bind (rounds_bind b s fun n hn => (skipHexDigitsWithin_comesTo 2 b s rfl hn).bind
        ((since_comesTo b _ _).bind ?_))
      rw [scanShortCode_eq]
      split
      next hnil =>
        rw [List.isEmpty_iff.1 hnil]
        exact .of_eq _ _ rfl
      next hne =>
        rw [← signedNumeral?_of_digits (mt List.isEmpty_iff.2 hne) hdigits, ← literalOf_word? (by decide)]
        exact literal_comesTo start _ _ rfl

theorem lt_of_digitValue? {base d : Nat} {c : Char} (h : Text.digitValue? base c = some d) : d < base := by
  simp only [Text.digitValue?, Option.ite_none_right_eq_some, Option.some.injEq] at h
  exact h.2 ▸ h.1

/-- Digits read one by one give the number that they spell. -/
theorem octalDigits_comesTo (limit value : Nat) (b s : Text) :
    ∃ n, Text.numeralFrom? 8 value (leadingDigits 8 limit s).1 = some n ∧ n < (value + 1) * Nat.pow 8 limit ∧
      ComesTo (octalDigits limit value) ⟨b, s⟩
        (.ok (n, ⟨b ++ (leadingDigits 8 limit s).1, (leadingDigits 8 limit s).2⟩)) := by
  have hvalue (limit value : Nat) : value < (value + 1) * Nat.pow 8 limit :=
    Nat.lt_of_lt_of_le (Nat.lt_succ_self value) (Nat.le_mul_of_pos_right _ (Nat.pow_pos (by decide)))
  induction limit generalizing value b s with
  | zero =>
    rw [show leadingDigits 8 0 s = ([], s) by simp [leadingDigits]]
    exact ⟨value, rfl, hvalue 0 value, .of_eq _ _ (by simp)⟩
  | succ limit ih =>
    rw [octalDigits]
    cases s with
    | nil =>
      rw [show leadingDigits 8 (limit + 1) [] = ([], []) by simp [leadingDigits]]
      exact ⟨value, rfl, hvalue _ value, (peek_comesTo b []).bind (.of_eq _ _ (by simp))⟩
    | cons c s =>
      rw [leadingDigits, Text.isDigitOf]
      cases hd : Text.digitValue? 8 c with
      | none =>
        refine ⟨value, rfl, hvalue _ value, (peek_comesTo b (c :: s)).bind ?_⟩
        rw [List.head?_cons, Option.bind_some, hd]
        exact .of_eq _ _ (by simp)
      | some d =>
        obtain ⟨n, hn, hlt, hrest⟩ := ih (value * 8 + d) (b ++ [c]) s
        rw [List.append_assoc, List.singleton_append] at hrest
        refine ⟨n, ?_, Nat.lt_of_lt_of_le hlt ?_, (peek_comesTo b (c :: s)).bind ?_⟩
        · change Text.numeralFrom? 8 value (c :: (leadingDigits 8 limit s).1) = some n
          rw [Text.numeralFrom?, hd]
          exact hn
        · have hd8 := lt_of_digitValue? hd
          rw [show Nat.pow 8 (limit + 1) = 8 * Nat.pow 8 limit from Nat.pow_succ', ← Nat.mul_assoc]
          exact Nat.mul_le_mul_right _ (by omega)
        · rw [List.head?_cons, Option.bind_some, hd]
          exact (bump_comesTo b s c).bind hrest

theorem charOfCode?_of_lt {n : Nat} (h : n < 0x80) : Text.charOfCode? n = some (Char.ofNat n) := by
  have hvalid : n.isValidChar := .inl (by omega)
  rw [Text.charOfCode?, dif_pos hvalid, Char.ofNat, dif_pos hvalid]

theorem octalCode_comesTo (start : Nat) (b s : Text) :
    ComesTo octalCode ⟨b, s⟩ (readAt start b (scanShortCode 8 2 s)) := by
  obtain ⟨n, hn, hlt, hread⟩ := octalDigits_comesTo 2 0 b s
  have hcode := charOfCode?_of_lt (Nat.lt_of_lt_of_le hlt (by decide))
  have hliteral : literalOf (some n) = .ok (.literal (Char.ofNat n)) := by
    rw [literalOf, Option.bind_some, hcode]
  rw [scanShortCode_eq, hn, hliteral]
  refine hread.bind ?_
  rw [hcode]
  exact .of_eq _ _ rfl

theorem control_comesTo (start : Nat) (b s : Text) :
    ComesTo (control start) ⟨b, s⟩ (readAt start b (scanControl s)) := by
  cases s with
  | nil => exact (bump_at_end b).bind (.fail _ _ _)
  | cons c s =>
    rw [scanControl]
    refine (bump_comesTo b s c).bind ?_
    dsimp only
    split
    next hc =>
      have hcapitals : ∀ n < 128, (Char.ofNat n).toUpper.toNat < 0x80 := by decide +kernel
      have hupper := hcapitals c.toNat hc
      rw [Char.ofNat_toNat] at hupper
      have hcode := charOfCode?_of_lt (Nat.xor_lt_two_pow (n := 7) hupper (by decide : 0x40 < 2 ^ 7))
      rw [literalOf, Option.bind_some, hcode]
      exact .of_eq _ _ rfl
    next => exact .fail _ _ _

theorem property_comesTo (start : Nat) (complement : Bool) (b s : Text) :
    ComesTo (property start complement) ⟨b, s⟩ (readAt start b (scanProperty complement s)) := by
  unfold scanProperty
  split
  next s =>
    refine eat_then ?_
    split
    next c name rest hname =>
      refine (takeUntil?_comesTo _ hname).bind ?_
      cases complement <;> exact .of_eq _ _ (by simp)
    next hname => exact (takeUntil?_comesTo _ hname).bind (.fail _ _ _)
    next hname => exact (takeUntil?_comesTo _ hname).bind (.fail _ _ _)
    next hname => exact (takeUntil?_of_none _ hname).bind (.fail _ _ _)
    next c name rest hcaret hcaret' hname =>
      have hc : c ≠ '^' := by
        rintro rfl
        cases name with
        | nil => exact hcaret' rfl rfl
        | cons d name => exact hcaret d name rfl rfl
      refine (takeUntil?_comesTo _ hname).bind ?_
      have hhead : ((c :: name).head? == some '^') = false := by simpa using hc
      simp only [hhead]
      cases complement <;> exact .of_eq _ _ (by simp)
  next c s hbrace =>
    have hc : (c :: s).head? ≠ some '{' := by simpa using hbrace
    refine eat_else hc ((bump_comesTo b s c).bind ?_)
    dsimp only
    split
    next => exact .ok _ _
    next => exact .fail _ _ _
  next => exact eat_else (by simp) ((bump_at_end b).bind (.fail _ _ _))

/-- A number behind a sign, with the cursor between them. -/
theorem number_comesTo (start : Nat) (b sign s : Text) :
    ComesTo (do
      let digits ← get
      skipWhile Char.isDigit
      if (← get) = digits then fail start .invalidEscape else return .backreference (← since b.byteLength))
      ⟨b ++ sign, s⟩ (readAt start b (scanNumber sign s)) := by
  refine .get_bind ((skipWhile_comesTo Char.isDigit _ s).bind (.get_bind ?_))
  unfold scanNumber
  have hindex : (⟨b ++ sign ++ s.takeWhile Char.isDigit, s.dropWhile Char.isDigit⟩ : Place).index =
      (⟨b ++ sign, s⟩ : Place).index + Text.byteLength (s.takeWhile Char.isDigit) := Place.index_append _ _ _
  rw [hindex]
  cases hdigits : s.takeWhile Char.isDigit with
  | nil =>
    rw [Text.byteLength_nil, if_pos (Nat.add_zero _)]
    exact .fail _ _ _
  | cons d digits =>
    have hpos := Text.byteLength_pos (List.cons_ne_nil d digits)
    rw [if_neg (by omega), List.append_assoc]
    exact (since_comesTo b _ _).bind (.ok _ _)

theorem eatSign_then {c : Char} (hc : c = '-' ∨ c = '+') (b s : Text) :
    ComesTo eatSign ⟨b, c :: s⟩ (.ok ((), ⟨b ++ [c], s⟩)) := by
  refine (peek_comesTo b (c :: s)).bind ?_
  rcases hc with rfl | rfl <;> exact (bump_comesTo b s _).bind (.ok _ _)

theorem eatSign_else {s : Text} (hminus : s.head? ≠ some '-') (hplus : s.head? ≠ some '+') (b : Text) :
    ComesTo eatSign ⟨b, s⟩ (.ok ((), ⟨b, s⟩)) := by
  refine (peek_comesTo b s).bind ?_
  split
  next h => exact absurd h hminus
  next h => exact absurd h hplus
  next => exact .ok _ _

theorem numberReference_comesTo (start : Nat) (b s : Text) :
    ComesTo (do
      let begin ← get
      eatSign
      let digits ← get
      skipWhile Char.isDigit
      if (← get) = digits then fail start .invalidEscape else return .backreference (← since begin))
      ⟨b, s⟩ (readAt start b (scanNumberReference s)) := by
  refine .get_bind ?_
  unfold scanNumberReference
  split
  next s => exact (eatSign_then (.inl rfl) b s).bind (number_comesTo start b ['-'] s)
  next s => exact (eatSign_then (.inr rfl) b s).bind (number_comesTo start b ['+'] s)
  next hminus hplus =>
    have hnumber := number_comesTo start b [] s
    rw [List.append_nil] at hnumber
    exact (eatSign_else (head_ne hminus) (head_ne hplus) b).bind hnumber

theorem reference_comesTo (start : Nat) (b s : Text) :
    ComesTo (reference start) ⟨b, s⟩ (readAt start b (scanReference s)) := by
  refine (peek_comesTo b s).bind ?_
  cases s with
  | nil => exact numberReference_comesTo start b []
  | cons c s =>
    rw [List.head?_cons, Option.bind_some, scanReference]
    cases hclose : referenceClosing? c with
    | none => exact numberReference_comesTo start b (c :: s)
    | some close =>
      refine (bump_comesTo b s c).bind ?_
      dsimp only
      split
      next hname => exact (takeUntil?_comesTo _ hname).bind (.fail _ _ _)
      next hname => exact (takeUntil?_of_none _ hname).bind (.fail _ _ _)
      next target rest hne hname =>
        have htarget : ¬ target.isEmpty = true := fun h => hne (List.isEmpty_iff.1 h)
        refine (takeUntil?_comesTo _ hname).bind ?_
        dsimp only
        rw [if_neg htarget]
        exact .of_eq _ _ (by simp)

/-- An escape reads the same by position as from the front of a text. -/
theorem escape_comesTo (start : Nat) (inClass : Bool) (b s : Text) :
    ComesTo (escape start inClass) ⟨b, s⟩ (readAt start b (scanEscape inClass s)) := by
  cases s with
  | nil => exact (bump_at_end b).bind (.fail _ _ _)
  | cons c s =>
    refine (bump_comesTo b s c).bind ?_
    rw [scanEscape]
    dsimp only
    cases letterEscape? inClass c with
    | some e => exact .ok _ _
    | none =>
      dsimp only
      rw [readAt_after]
      split
      next => exact hexCode_comesTo start _ s
      next => exact bracedCode_comesTo start (by decide) _ s
      next => exact octalCode_comesTo start _ s
      next => exact control_comesTo start _ s
      next => exact property_comesTo start false _ s
      next => exact property_comesTo start true _ s
      next hx ho hzero hc hp hP =>
        rw [scanEscapeTail] <;> try assumption
        split
        next => exact reference_comesTo start _ s
        next =>
          split
          next hdigit =>
            have hsize := utf8Size_of_lt (toNat_lt_of_isDigit (Bool.and_eq_true_iff.1 hdigit).2)
            refine .get_bind ?_
            have hindex : (⟨b ++ [c], s⟩ : Place).index - 1 = b.byteLength := by
              rw [Place.index_append]
              simp [hsize]
            rw [hindex]
            refine (skipWhile_comesTo Char.isDigit _ s).bind ?_
            rw [List.append_assoc]
            exact (since_comesTo b _ _).bind (.of_eq _ _ (by simp))
          next => exact .of_eq _ _ (by simp)

end Cursor

end PatternAudit.Grammar
