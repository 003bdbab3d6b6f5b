import PatternAudit.Grammar.Fault
import PatternAudit.Grammar.Piece
import PatternAudit.Grammar.Token
import PatternAudit.Text.Numeral

set_option autoImplicit false

/-!
# Repetition

Reading braced bounds and the suffix that says how greedily a repetition matches. A brace that opens no
well-formed bound is a plain character, so "no bound" is an answer here and not a fault.
-/
namespace PatternAudit.Grammar

/-- A count of 32 bits that is not too large. -/
def repeatCount (digits : Text) : Except Reason Nat :=
  match Text.word? 10 digits with
  | some n => if n ≤ maxRepeat then .ok n else .error .quantifierTooLarge
  | none => .error .quantifierTooLarge

/-- The bounds written by a lower count and, after a comma, perhaps an upper one. -/
def boundsOf (lo : Text) (hi? : Option Text) : Except Reason Bounds := do
  let n ← repeatCount lo
  match hi? with
  | none => return .between n n
  | some [] => return .atLeast n
  | some hi =>
    let m ← repeatCount hi
    if n ≤ m then return .between n m else throw .quantifierOutOfOrder

def isBoundMark (c : Char) : Bool :=
  c.isDigit || c == ','

def isDigits (s : Text) : Bool :=
  !s.isEmpty && s.all Char.isDigit

/-- The texts of the counts, parted by the first comma. -/
def countTexts (inner : Text) : Text × Option Text :=
  match Text.splitFirst? ',' inner with
  | some (lo, hi) => (lo, some hi)
  | none => (inner, none)

/-- The written parts of a bound after its brace: the lower count, the upper one if there is a comma, the whole
text up to the closing brace, and what follows it. Only digits and commas after the brace are looked at. -/
def boundParts? (s : Text) : Option (Text × Option Text × Text × Text) :=
  match s.dropWhile isBoundMark with
  | '}' :: rest =>
    let inner := s.takeWhile isBoundMark
    let counts := countTexts inner
    if isDigits counts.1 && counts.2.all fun hi => hi.isEmpty || isDigits hi then
      some (counts.1, counts.2, inner ++ ['}'], rest)
    else none
  | _ => none

def scanBounds (s : Text) : Except Reason (Option (Piece Bounds)) :=
  match boundParts? s with
  | none => .ok none
  | some (lo, hi?, text, rest) => (boundsOf lo hi?).map fun b => some ⟨b, text, rest⟩

/-- Reads the suffix of a repetition whose bounds are known. -/
def scanGreed (bounds : Bounds) : Text → Piece Quantifier
  | '?' :: s => ⟨⟨bounds, .lazy⟩, ['?'], s⟩
  | '+' :: s => ⟨⟨bounds, .possessive⟩, ['+'], s⟩
  | s => ⟨⟨bounds, .greedy⟩, [], s⟩

/-! What opens a bound. -/

theorem isDigits_iff {s : Text} : isDigits s = true ↔ s ≠ [] ∧ ∀ c ∈ s, c.isDigit = true := by
  simp [isDigits]

/-- A text between braces that is a bound: a count, perhaps with a comma and a second count or none behind it. -/
inductive BoundText : Text → Option Text → Text → Prop where
  | one {lo : Text} (hlo : isDigits lo = true) : BoundText lo none lo
  | two {lo hi : Text} (hlo : isDigits lo = true) (hhi : ∀ c ∈ hi, c.isDigit = true) :
    BoundText lo (some hi) (lo ++ ',' :: hi)

theorem comma_not_mem {s : Text} (h : ∀ c ∈ s, c.isDigit = true) : ',' ∉ s :=
  fun hmem => absurd (h ',' hmem) (by decide)

theorem BoundText.countTexts {lo inner : Text} {hi? : Option Text} (h : BoundText lo hi? inner) :
    countTexts inner = (lo, hi?) := by
  cases h with
  | one hlo =>
    have hnone : Text.splitFirst? ',' lo = none := Text.splitFirst?_eq_none (comma_not_mem (isDigits_iff.1 hlo).2)
    rw [Grammar.countTexts, hnone]
  | two hlo hhi => rw [Grammar.countTexts, splitFirst?_append (comma_not_mem (isDigits_iff.1 hlo).2)]

theorem BoundText.isBoundMark {lo inner : Text} {hi? : Option Text} (h : BoundText lo hi? inner) :
    ∀ c ∈ inner, isBoundMark c = true := by
  have hdigits {s : Text} (hs : ∀ c ∈ s, c.isDigit = true) : ∀ c ∈ s, Grammar.isBoundMark c = true :=
    fun c hc => by simp [Grammar.isBoundMark, hs c hc]
  cases h with
  | one hlo => exact hdigits (isDigits_iff.1 hlo).2
  | two hlo hhi =>
    exact List.forall_mem_append.2 ⟨hdigits (isDigits_iff.1 hlo).2, List.forall_mem_cons.2 ⟨rfl, hdigits hhi⟩⟩

theorem boundText_of_countTexts {lo inner : Text} {hi? : Option Text} (h : countTexts inner = (lo, hi?))
    (hlo : isDigits lo = true) (hhi : hi?.all (fun hi => hi.isEmpty || isDigits hi) = true) :
    BoundText lo hi? inner := by
  unfold countTexts at h
  split at h
  next lo hi hsplit =>
    cases h
    rw [← Text.splitFirst?_eq_some hsplit]
    refine .two hlo fun c hc => ?_
    rcases Bool.or_eq_true_iff.1 hhi with hnil | hdigits
    · rw [List.isEmpty_iff.1 hnil] at hc
      contradiction
    · exact (isDigits_iff.1 hdigits).2 c hc
  next =>
    cases h
    exact .one hlo

/-- The scan of digits and commas finds a bound wherever one is written, and nowhere else. -/
theorem boundParts?_eq_some_iff {s lo text rest : Text} {hi? : Option Text} :
    boundParts? s = some (lo, hi?, text, rest) ↔
      ∃ inner, BoundText lo hi? inner ∧ text = inner ++ ['}'] ∧ s = inner ++ '}' :: rest := by
  constructor
  · intro h
    have hs := List.takeWhile_append_dropWhile (p := isBoundMark) (l := s)
    unfold boundParts? at h
    split at h
    next rest' hrest =>
      rw [hrest] at hs
      dsimp only at h
      split at h
      next hcounts =>
        cases h
        obtain ⟨hlo, hhi⟩ := Bool.and_eq_true_iff.1 hcounts
        exact ⟨_, boundText_of_countTexts rfl hlo hhi, rfl, hs.symm⟩
      next => contradiction
    next => contradiction
  · rintro ⟨inner, hinner, rfl, rfl⟩
    have htake := takeWhile_until hinner.isBoundMark (show isBoundMark '}' = false from rfl) rest
    have hdrop := dropWhile_until hinner.isBoundMark (show isBoundMark '}' = false from rfl) rest
    have hcounts : isDigits lo = true ∧ hi?.all (fun hi => hi.isEmpty || isDigits hi) = true := by
      cases hinner with
      | one hlo => exact ⟨hlo, rfl⟩
      | two hlo hhi =>
        refine ⟨hlo, ?_⟩
        rw [Option.all_some, Bool.or_eq_true_iff, List.isEmpty_iff, isDigits_iff]
        exact Decidable.or_iff_not_imp_left.2 fun hne => ⟨hne, hhi⟩
    simp only [boundParts?, htake, hdrop, hinner.countTexts, hcounts.1, hcounts.2, Bool.and_self, if_true]

theorem boundParts?_splits {s lo text rest : Text} {hi? : Option Text}
    (h : boundParts? s = some (lo, hi?, text, rest)) : text ++ rest = s := by
  obtain ⟨inner, -, rfl, rfl⟩ := boundParts?_eq_some_iff.1 h
  rw [List.append_assoc, List.singleton_append]

theorem scanBounds_splits {s : Text} {p : Piece Bounds} (h : scanBounds s = .ok (some p)) : p.Splits s := by
  unfold scanBounds at h
  split at h
  next => simp at h
  next lo hi? text rest hs =>
    cases hb : boundsOf lo hi? with
    | error e => simp [hb, Except.map] at h
    | ok b =>
      simp only [hb, Except.map, Except.ok.injEq, Option.some.injEq] at h
      subst h
      exact boundParts?_splits hs

theorem scanGreed_splits (bounds : Bounds) (s : Text) : (scanGreed bounds s).Splits s := by
  unfold scanGreed
  split <;> rfl

end PatternAudit.Grammar
