import PatternAudit.Proofs.BracedCodes

set_option autoImplicit false

/-!
# Bounds in braces

A brace opens a bound if one count, a count and a comma, or two counts with a comma between them stand
behind it up to a closing brace, each count in digits. The counts are taken as numbers of any size and only
then checked. `Grammar.lex_brace` says what such a brace comes to anywhere in a pattern, and that every other
brace is a plain character behind which reading goes on at once.
-/
namespace PatternAudit.Text

theorem isDigitOf_ten_iff {c : Char} : isDigitOf 10 c = true ↔ c.isDigit = true := by
  constructor
  · intro h
    obtain ⟨d, hd⟩ := Option.isSome_iff_exists.1 h
    obtain ⟨hlt, hc⟩ := (digitValue?_eq_some_iff (by decide)).1 hd
    have hdigits : ∀ d < 10, d.digitChar.isDigit = true ∧ d.digitChar.toUpper.isDigit = true := by decide
    rcases hc with rfl | rfl
    · exact (hdigits d hlt).1
    · exact (hdigits d hlt).2
  · intro h
    simp only [Char.isDigit, Bool.and_eq_true, decide_eq_true_eq] at h
    have hrange : '0' ≤ c ∧ c ≤ '9' := h
    have hlast : c.toNat ≤ 57 := UInt32.le_iff_toNat_le.1 h.2
    have hlt : c.toNat - 0x30 < 10 := by omega
    simp [isDigitOf, digitValue?, hrange, hlt]

/-- Digits write a number, and only digits do. -/
theorem exists_writes_iff {s : Text} : (∃ n, Writes 10 s n) ↔ s ≠ [] ∧ ∀ c ∈ s, c.isDigit = true := by
  constructor
  · rintro ⟨n, h⟩
    have hnumeral := (numeral?_eq_some_iff (by decide)).2 h
    cases s with
    | nil => contradiction
    | cons c t =>
      refine ⟨List.cons_ne_nil c t, fun e he => ?_⟩
      exact isDigitOf_ten_iff.1 (Grammar.isDigitOf_of_numeralFrom? hnumeral e he)
  · rintro ⟨hne, hs⟩
    have htotal : ∀ high, ∃ n, numeralFrom? 10 high s = some n := by
      clear hne
      induction s with
      | nil => exact fun high => ⟨high, rfl⟩
      | cons c t ih =>
        obtain ⟨hc, ht⟩ := List.forall_mem_cons.1 hs
        obtain ⟨d, hd⟩ := Option.isSome_iff_exists.1 (isDigitOf_ten_iff.2 hc)
        intro high
        rw [numeralFrom?, hd]
        exact ih ht _
    obtain ⟨n, hn⟩ := htotal 0
    obtain ⟨c, t, rfl⟩ := List.exists_cons_of_ne_nil hne
    exact ⟨n, (numeral?_eq_some_iff (by decide)).1 hn⟩

end PatternAudit.Text

namespace PatternAudit.Grammar

/-! What a bound says. -/

/-- The counts of a bound: one alone, one with a comma behind it, or two with a comma between them. -/
inductive Counts where
  | exactly (m : Nat)
  | atLeast (m : Nat)
  | between (m n : Nat)

inductive Counts.WrittenAs : Counts → Text → Prop where
  | exactly {m : Nat} {lo : Text} (hlo : Text.Writes 10 lo m) : WrittenAs (.exactly m) lo
  | atLeast {m : Nat} {lo : Text} (hlo : Text.Writes 10 lo m) : WrittenAs (.atLeast m) (lo ++ [','])
  | between {m n : Nat} {lo hi : Text} (hlo : Text.Writes 10 lo m) (hhi : Text.Writes 10 hi n) :
    WrittenAs (.between m n) (lo ++ ',' :: hi)

/-- A brace in front of `s` opens a bound with these counts, and `rest` stands behind its closing brace. -/
def OpensBound (s : Text) (counts : Counts) (rest : Text) : Prop :=
  ∃ text, counts.WrittenAs text ∧ s = text ++ '}' :: rest

/-- The bounds that counts stand for. A count that is too large is a fault before their order is one. -/
def Counts.bounds : Counts → Except Reason Bounds
  | .exactly m => if 65535 < m then .error .quantifierTooLarge else .ok (.between m m)
  | .atLeast m => if 65535 < m then .error .quantifierTooLarge else .ok (.atLeast m)
  | .between m n =>
    if 65535 < m ∨ 65535 < n then .error .quantifierTooLarge
    else if n < m then .error .quantifierOutOfOrder
    else .ok (.between m n)

/-- How greedily a repetition matches, from the text behind its bounds, and what is left of that text. -/
inductive EndsGreed : Text → Greed → Text → Prop where
  | lazy (after : Text) : EndsGreed ('?' :: after) .lazy after
  | possessive (after : Text) : EndsGreed ('+' :: after) .possessive after
  | greedy {after : Text} (h : ∀ s, after ≠ '?' :: s ∧ after ≠ '+' :: s) : EndsGreed after .greedy after

/-! Reading bounds. -/

theorem repeatCount_of_writes {s : Text} {n : Nat} (h : Text.Writes 10 s n) :
    repeatCount s = if 65535 < n then .error .quantifierTooLarge else .ok n := by
  have hnumeral : Text.signedNumeral? 10 s = some n := (Text.signedNumeral?_eq_some_iff (by decide)).2 ⟨s, .inl rfl, h⟩
  have hword {m : Nat} : Text.word? 10 s = some m ↔ n = m ∧ m < UInt32.size := by
    rw [Text.word?_eq_some_iff (by decide), hnumeral, Option.some_inj]
  have hlimit : maxRepeat = 65535 := rfl
  by_cases hn : 65535 < n
  · rw [if_pos hn, repeatCount]
    split
    next m hm =>
      obtain ⟨rfl, -⟩ := hword.1 hm
      exact if_neg (by omega)
    next => rfl
  · have hsize : UInt32.size = 4294967296 := rfl
    rw [if_neg hn, repeatCount, hword.2 ⟨rfl, by omega⟩]
    exact if_pos (by omega)

section

variable {m n : Nat} {lo hi : Text} (hlo : Text.Writes 10 lo m)
include hlo

theorem boundsOf_exactly : boundsOf lo none = Counts.bounds (.exactly m) := by
  rw [boundsOf, repeatCount_of_writes hlo, Counts.bounds]
  split <;> rfl

theorem boundsOf_atLeast : boundsOf lo (some []) = Counts.bounds (.atLeast m) := by
  rw [boundsOf, repeatCount_of_writes hlo, Counts.bounds]
  split <;> rfl

theorem boundsOf_between (hhi : Text.Writes 10 hi n) :
    boundsOf lo (some hi) = Counts.bounds (.between m n) := by
  have hcount := repeatCount_of_writes hhi
  obtain ⟨hne, -⟩ := Text.exists_writes_iff.1 ⟨n, hhi⟩
  obtain ⟨c, t, rfl⟩ := List.exists_cons_of_ne_nil hne
  rw [boundsOf, repeatCount_of_writes hlo, Counts.bounds]
  by_cases hm : 65535 < m
  · rw [if_pos hm, if_pos (.inl hm)]
    rfl
  · rw [if_neg hm, ok_bind]
    simp only [hcount]
    by_cases hn : 65535 < n
    · rw [if_pos hn, if_pos (.inr hn)]
      rfl
    · rw [if_neg hn, if_neg (not_or.2 ⟨hm, hn⟩), ok_bind]
      by_cases hle : m ≤ n
      · rw [if_pos hle, if_neg (Nat.not_lt.2 hle)]
        rfl
      · rw [if_neg hle, if_pos (Nat.not_le.1 hle)]
        rfl

end

theorem isDigits_of_writes {s : Text} {n : Nat} (h : Text.Writes 10 s n) : isDigits s = true :=
  isDigits_iff.2 (Text.exists_writes_iff.1 ⟨n, h⟩)

/-- Counts are written as the text of a bound, and stand for its bounds. -/
theorem Counts.WrittenAs.boundText {counts : Counts} {text : Text} (h : counts.WrittenAs text) :
    ∃ lo hi?, BoundText lo hi? text ∧ boundsOf lo hi? = counts.bounds := by
  cases h with
  | exactly hlo => exact ⟨text, none, .one (isDigits_of_writes hlo), boundsOf_exactly hlo⟩
  | atLeast hlo => exact ⟨_, some [], .two (isDigits_of_writes hlo) (by simp), boundsOf_atLeast hlo⟩
  | between hlo hhi =>
    have hdigits := isDigits_iff.1 (isDigits_of_writes hhi)
    exact ⟨_, some _, .two (isDigits_of_writes hlo) hdigits.2, boundsOf_between hlo hhi⟩

theorem BoundText.exists_counts {lo inner : Text} {hi? : Option Text} (h : BoundText lo hi? inner) :
    ∃ counts : Counts, counts.WrittenAs inner := by
  have hwrites {s : Text} (hs : isDigits s = true) : ∃ n, Text.Writes 10 s n :=
    Text.exists_writes_iff.2 (isDigits_iff.1 hs)
  cases h with
  | one hlo =>
    obtain ⟨m, hm⟩ := hwrites hlo
    exact ⟨.exactly m, .exactly hm⟩
  | @two hi hlo hhi =>
    obtain ⟨m, hm⟩ := hwrites hlo
    by_cases hne : hi = []
    · subst hne
      exact ⟨.atLeast m, .atLeast hm⟩
    · obtain ⟨n, hn⟩ := hwrites (isDigits_iff.2 ⟨hne, hhi⟩)
      exact ⟨.between m n, .between hm hn⟩

theorem exists_opensBound {s lo text rest : Text} {hi? : Option Text}
    (h : boundParts? s = some (lo, hi?, text, rest)) : ∃ counts, OpensBound s counts rest := by
  obtain ⟨inner, hinner, -, rfl⟩ := boundParts?_eq_some_iff.1 h
  obtain ⟨counts, hcounts⟩ := hinner.exists_counts
  exact ⟨counts, inner, hcounts, rfl⟩

theorem EndsGreed.scanGreed {rest after : Text} {greed : Greed} (h : EndsGreed rest greed after)
    (bounds : Bounds) :
    (scanGreed bounds rest).value = ⟨bounds, greed⟩ ∧ (scanGreed bounds rest).rest = after := by
  cases h with
  | lazy => exact ⟨rfl, rfl⟩
  | possessive => exact ⟨rfl, rfl⟩
  | greedy hplain =>
    unfold Grammar.scanGreed
    split
    next s => exact absurd rfl (hplain s).1
    next s => exact absurd rfl (hplain s).2
    next => exact ⟨rfl, rfl⟩

/-! Braces. -/

section

variable {s : Text} {counts : Counts} {rest : Text} (h : OpensBound s counts rest)
include h

theorem OpensBound.scanBrace_error {reason : Reason} (hfault : counts.bounds = .error reason) :
    scanBrace s = .error ⟨0, reason⟩ := by
  obtain ⟨text, hwritten, rfl⟩ := h
  obtain ⟨lo, hi?, hbound, hbounds⟩ := hwritten.boundText
  simp only [scanBrace, scanBounds, hbound.boundParts? rest, hbounds, hfault]
  rfl

theorem OpensBound.scanBrace_ok {bounds : Bounds} (hbounds : counts.bounds = .ok bounds) {greed : Greed}
    {after : Text} (hgreed : EndsGreed rest greed after) :
    ∃ p, scanBrace s = .ok p ∧ p.value = .plain (.quantifier ⟨bounds, greed⟩) ∧ p.rest = after := by
  obtain ⟨text, hwritten, rfl⟩ := h
  obtain ⟨lo, hi?, hbound, hcounts⟩ := hwritten.boundText
  obtain ⟨hvalue, hafter⟩ := hgreed.scanGreed bounds
  have hscan : scanBounds (text ++ '}' :: rest) = .ok (some ⟨bounds, text ++ ['}'], rest⟩) := by
    simp only [scanBounds, hbound.boundParts? rest, hcounts, hbounds]
    rfl
  refine ⟨_, by rw [scanBrace, hscan], ?_, hafter⟩
  simp only [Piece.map, Piece.after, hvalue]

end

theorem scanBrace_of_not_opensBound {s : Text} (h : ∀ counts rest, ¬ OpensBound s counts rest) :
    scanBrace s = .ok ⟨.plain (.atom (.char '{')), ['{'], s⟩ := by
  have hparts : boundParts? s = none := by
    refine Option.eq_none_iff_forall_ne_some.2 fun ⟨lo, hi?, text, rest⟩ hparts => ?_
    obtain ⟨counts, hopens⟩ := exists_opensBound hparts
    exact h counts rest hopens
  simp only [scanBrace, scanBounds, hparts]

/-- The tokens in front of a place that the lexer reaches, with all else read from there. -/
theorem Reads.exists_lex {before rest : Text} (h : Reads false before false rest) :
    ∃ tokens : List Token, (∀ t ∈ tokens, t.span.stop ≤ Text.byteLength before) ∧
      lex (before ++ rest) = (lexFrom false (Text.byteLength before) rest).after tokens := by
  obtain ⟨tokens, -, hstops, hlex, -⟩ := h.exists_tokens
  refine ⟨tokens, hstops, ?_⟩
  rw [lex, hlex 0, map_move_zero, Nat.zero_add]

theorem Piece.Splits.stop {α : Type} {p : Piece α} {before s : Text} (h : p.Splits s) :
    Text.byteLength before + Text.byteLength p.text + Text.byteLength p.rest =
      Text.byteLength (before ++ s) := by
  rw [Text.byteLength_append, ← h, Text.byteLength_append, Nat.add_assoc]

/-- What an unquoted brace outside a class comes to, whatever stands behind it. -/
theorem lex_brace {before s : Text} (h : Reads false before false ('{' :: s)) :
    let pattern := before ++ '{' :: s
    let place := Text.byteLength before
    ∃ tokens : List Token, (∀ t ∈ tokens, t.span.stop ≤ place) ∧
      (∀ counts rest, OpensBound s counts rest →
        (∀ reason, counts.bounds = .error reason → lex pattern = ⟨tokens, some ⟨place, reason⟩⟩) ∧
          ∀ bounds greed after, counts.bounds = .ok bounds → EndsGreed rest greed after →
            ∃ stop, stop + Text.byteLength after = Text.byteLength pattern ∧
              lex pattern = (lexFrom false stop after).after
                (tokens ++ [⟨⟨place, stop⟩, .quantifier ⟨bounds, greed⟩⟩])) ∧
      ((∀ counts rest, ¬ OpensBound s counts rest) →
        lex pattern = (lexFrom false (place + 1) s).after
          (tokens ++ [⟨⟨place, place + 1⟩, .atom (.char '{')⟩])) := by
  intro pattern place
  obtain ⟨tokens, hstops, hlex⟩ := h.exists_lex
  have hscan : scanLexeme false '{' s = scanBrace s := rfl
  -- a brace that is a token by itself or opens one, and all that is read behind it
  have htoken {p : Piece Lexeme} {kind : TokenKind} (hp : scanBrace s = .ok p)
      (hkind : p.value = .plain kind) :
      lex pattern = (lexFrom false (place + Text.byteLength p.text) p.rest).after
        (tokens ++ [⟨⟨place, place + Text.byteLength p.text⟩, kind⟩]) := by
    rw [hlex, lexFrom_of_ok (hscan.trans hp), hkind]
    simp [Lexing.prepend, Lexing.after, hkind, Lexeme.plain, place]
  refine ⟨tokens, hstops, fun counts rest hopens => ⟨fun reason hfault => ?_, ?_⟩, fun hnone => ?_⟩
  · rw [hlex, lexFrom_of_error (hscan.trans (hopens.scanBrace_error hfault))]
    simp [Lexing.after, Fault.shift, place]
  · intro bounds greed after hbounds hgreed
    obtain ⟨p, hp, hvalue, rfl⟩ := hopens.scanBrace_ok hbounds hgreed
    exact ⟨_, (scanBrace_splits hp).1.stop, htoken hp hvalue⟩
  · have hbrace : Text.byteLength ['{'] = 1 := rfl
    have hplain := htoken (scanBrace_of_not_opensBound hnone) rfl
    rwa [hbrace] at hplain

/-- Zeros in front count for nothing, a suffix belongs to the bound, and a count must come first. -/
theorem lex_brace_bound_fault_and_plain :
    let bound : Text := ['0', '2', ',', '3', '}', '+', 'b']
    let backward : Text := ['3', ',', '0', '1', '}']
    let plain : Text := [',', '4', '}']
    (Reads false ['a'] false ('{' :: bound) ∧ OpensBound bound (.between 2 3) ['+', 'b'] ∧
      Counts.bounds (.between 2 3) = .ok (.between 2 3) ∧ EndsGreed ['+', 'b'] .possessive ['b'] ∧
      ∃ tokens stop, stop + Text.byteLength ['b'] = Text.byteLength (['a'] ++ '{' :: bound) ∧
        lex (['a'] ++ '{' :: bound) = (lexFrom false stop ['b']).after
          (tokens ++ [⟨⟨1, stop⟩, .quantifier ⟨.between 2 3, .possessive⟩⟩])) ∧
      (Reads false ['a'] false ('{' :: backward) ∧ OpensBound backward (.between 3 1) [] ∧
        Counts.bounds (.between 3 1) = .error .quantifierOutOfOrder ∧
        ∃ tokens, lex (['a'] ++ '{' :: backward) = ⟨tokens, some ⟨1, .quantifierOutOfOrder⟩⟩) ∧
      Reads false ['a'] false ('{' :: plain) ∧ (∀ counts rest, ¬ OpensBound plain counts rest) ∧
        ∃ tokens, lex (['a'] ++ '{' :: plain) = (lexFrom false 2 plain).after
          (tokens ++ [⟨⟨1, 2⟩, .atom (.char '{')⟩]) := by
  intro bound backward plain
  have hreads : ∀ s, Reads false ['a'] false ('{' :: s) := fun s =>
    .lexeme (c := 'a') (s := '{' :: s) (p := ⟨.plain (.atom (.char 'a')), ['a'], '{' :: s⟩) rfl rfl
      (.here false _)
  have hdigit : ∀ d < 10, Text.Writes 10 [d.digitChar] d := fun d hd => .digit hd (.inl rfl)
  have htwo : Text.Writes 10 ['0', '2'] 2 := .behind (d := 2) (hdigit 0 (by decide)) (by decide) (.inl rfl)
  have hone : Text.Writes 10 ['0', '1'] 1 := .behind (d := 1) (hdigit 0 (by decide)) (by decide) (.inl rfl)
  have hbound : OpensBound bound (.between 2 3) ['+', 'b'] :=
    ⟨['0', '2', ',', '3'], .between htwo (hdigit 3 (by decide)), rfl⟩
  have hbackward : OpensBound backward (.between 3 1) [] :=
    ⟨['3', ',', '0', '1'], .between (hdigit 3 (by decide)) hone, rfl⟩
  have hplain : ∀ counts rest, ¬ OpensBound plain counts rest := by
    rintro counts rest ⟨text, hwritten, htext⟩
    obtain ⟨lo, hi?, hbound, -⟩ := hwritten.boundText
    have hparts := hbound.boundParts? rest
    rw [← htext] at hparts
    contradiction
  obtain ⟨tokens, -, hopens, -⟩ := lex_brace (hreads bound)
  obtain ⟨tokens', -, hopens', -⟩ := lex_brace (hreads backward)
  obtain ⟨tokens'', -, -, hnone⟩ := lex_brace (hreads plain)
  have hgreed : EndsGreed ['+', 'b'] .possessive ['b'] := .possessive ['b']
  obtain ⟨stop, hstop, hlex⟩ := (hopens _ _ hbound).2 (.between 2 3) _ _ rfl hgreed
  exact ⟨⟨hreads bound, hbound, rfl, hgreed, tokens, stop, hstop, hlex⟩,
    ⟨hreads backward, hbackward, rfl, tokens', (hopens' _ _ hbackward).1 _ rfl⟩,
    hreads plain, hplain, tokens'', hnone hplain⟩

end PatternAudit.Grammar
