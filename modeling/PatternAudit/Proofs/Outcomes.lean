import PatternAudit.Fuzz.Outcome
import PatternAudit.Lint.Validation
import PatternAudit.Proofs.OptionSettings

set_option autoImplicit false

/-!
# Outcomes hold up

Nothing is ever wrong with the outcome of validating a pattern: a fault stands at a place of the pattern, a
misplaced anchor is a dollar sign of the pattern and a universal part is cut out of it
(`Fuzz.holdsUp_validate`).
-/
namespace PatternAudit.Grammar

/-! End anchors among the tokens. -/

theorem scanLexeme_endAnchor {quoting : Bool} {c : Char} {s : Text} {p : Piece Lexeme}
    (h : scanLexeme quoting c s = .ok p) (htoken : p.value.token? = some (.atom (.anchor .finish))) :
    c = '$' := by
  cases quoting with
  | true =>
    obtain rfl : scanQuoted c s = p := Except.ok.inj h
    unfold scanQuoted at htoken
    split at htoken <;> simp at htoken
  | false =>
    change scanUnquoted c s = .ok p at h
    unfold scanUnquoted at h
    split at h
    next =>
      unfold scanBackslash at h
      split at h
      next => cases h; simp at htoken
      next => cases h; simp at htoken
      next =>
        split at h
        next => cases h; cases htoken
        next => contradiction
    next =>
      obtain ⟨q, -, rfl⟩ := exists_of_map_ok h
      cases htoken
    next =>
      split at h
      next q hq =>
        cases h
        exact (scanOpening_opens hq _ htoken).elim
      next => contradiction
    all_goals try (cases h; cases htoken)
    next => rfl
    next =>
      unfold scanBrace at h
      split at h
      next => contradiction
      next => cases h; cases htoken
      next => cases h; cases htoken

/-- An end anchor stands where the pattern has a dollar sign. -/
theorem slice?_of_endAnchor {pattern : Text} {t : Token} (ht : t ∈ (lex pattern).tokens)
    (hkind : t.kind = .atom (.anchor .finish)) :
    pattern.slice? t.span.start (t.span.start + 1) = some ['$'] := by
  obtain ⟨before, c, after, quoting, p, rfl, hstart, hp, htoken⟩ := exists_lexeme false 0 pattern t ht
  rw [hkind] at htoken
  obtain rfl := scanLexeme_endAnchor hp htoken
  rw [hstart, Nat.zero_add]
  have hslice := Text.slice?_append before ['$'] after
  rwa [List.append_assoc] at hslice

/-- A fault stands at a character of the pattern. -/
theorem exists_char_of_parse_error {pattern : Text} {f : Fault} (h : parse pattern = .error f) :
    ∃ before c after, pattern = before ++ c :: after ∧ f.offset = Text.byteLength before := by
  cases htokens : tokenize pattern with
  | error g =>
    rw [parse, htokens] at h
    cases h
    obtain ⟨before, c, after, hpattern, hoffset, -⟩ := tokenize_fault htokens
    exact ⟨before, c, after, hpattern, hoffset⟩
  | ok tokens =>
    rw [parse, htokens, ok_bind] at h
    obtain ⟨t, ht, hoffset, -⟩ := buildTree_fault h
    have htokens' : t ∈ (lex pattern).tokens := by
      rwa [tokenize_eq_ok_iff.1 htokens]
    obtain ⟨before, c, after, hpattern, hstart, -⟩ := lexFrom_starts false 0 pattern t htokens'
    exact ⟨before, c, after, hpattern, by rw [hoffset, hstart, Nat.zero_add]⟩

end PatternAudit.Grammar

namespace PatternAudit.Lint

open Grammar (Node Token lex parse)

theorem mem_of_strayAnchor {ts : List Token} {offset : Nat} (h : strayAnchor ts = some offset) :
    ∃ t ∈ ts, t.kind = .atom (.anchor .finish) ∧ t.span.start = offset := by
  induction ts with
  | nil => contradiction
  | cons t ts ih =>
    rw [strayAnchor] at h
    split at h
    next hstray => exact ⟨t, List.mem_cons_self, hstray.1, Option.some.inj h⟩
    next =>
      obtain ⟨u, hu, hanchor⟩ := ih h
      exact ⟨u, List.mem_cons_of_mem t hu, hanchor⟩

theorem slice?_of_misplacedAnchor {pattern : Text} {root : Node} {offset : Nat}
    (hparse : parse pattern = .ok root) (h : misplacedAnchor root = some offset) :
    pattern.slice? offset (offset + 1) = some ['$'] := by
  obtain ⟨tokens, hlex, htree⟩ := Grammar.parse_eq_ok_iff.1 hparse
  have hvalid := Grammar.lex_valid pattern
  rw [hlex] at hvalid
  rw [misplacedAnchor_of_buildTree htree hvalid] at h
  obtain ⟨t, ht, hkind, rfl⟩ := mem_of_strayAnchor h
  refine Grammar.slice?_of_endAnchor ?_ hkind
  rwa [hlex]

theorem infix_of_universalMatch? {pattern : Text} {root : Node} {m : UniversalMatch}
    (h : universalMatch? pattern root = some m) : m.found <:+: pattern := by
  obtain ⟨part, -, h⟩ := Option.bind_eq_some_iff.1 h
  obtain ⟨text, htext, h⟩ := Option.bind_eq_some_iff.1 h
  cases h
  obtain ⟨before, after, hpattern, -⟩ := Text.slice?_eq_some htext
  exact ⟨before, after, hpattern.symm⟩

end PatternAudit.Lint

namespace PatternAudit.Fuzz

open Grammar (Fault)
open Lint (Findings TypeLookup)

/-- What must hold for the outcome of validating a pattern. -/
def HoldsUp (pattern : Text) : Except Fault Findings → Prop
  | .error f => pattern.isBoundary f.offset = true
  | .ok findings =>
    (∀ offset, findings.anchor? = some offset → pattern.slice? offset (offset + 1) = some ['$']) ∧
      ∀ m, findings.universal? = some m → m.found <:+: pattern

theorem complaint?_eq_none_iff {pattern : Text} {outcome : Except Fault Findings} :
    complaint? pattern outcome = none ↔ HoldsUp pattern outcome := by
  cases outcome with
  | error f => simp [complaint?, HoldsUp]
  | ok findings =>
    simp [complaint?, HoldsUp, anchorComplaint?, universalComplaint?, Option.or_eq_none_iff,
      Option.bind_eq_none_iff, Text.occursIn_iff]

theorem holdsUp_validate (resolve : TypeLookup) (pattern : Text) :
    HoldsUp pattern (Lint.validate resolve pattern) := by
  cases hparse : Grammar.parse pattern with
  | error f =>
    obtain ⟨before, c, after, rfl, hoffset⟩ := Grammar.exists_char_of_parse_error hparse
    rw [Lint.validate, hparse]
    change Text.isBoundary _ f.offset = true
    rw [hoffset]
    exact Text.isBoundary_append before (c :: after)
  | ok root =>
    rw [Lint.validate, hparse, Grammar.ok_bind]
    exact ⟨fun _ => Lint.slice?_of_misplacedAnchor hparse, fun _ => Lint.infix_of_universalMatch?⟩

end PatternAudit.Fuzz
