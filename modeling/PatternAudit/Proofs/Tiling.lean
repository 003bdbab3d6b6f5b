import PatternAudit.Grammar.Lexeme

set_option autoImplicit false

/-!
# Tokens tile a pattern

Tokens cover non-empty stretches of a pattern that follow each other without overlap, and what lies
outside them is silent: quote marks and whole comments. `lex_tiles` says so up to the end of the
pattern, or up to the lexeme that has the first fault, so no byte before that place is lost, read
twice or given to two tokens.
-/
namespace PatternAudit.Grammar

/-- Text that stands for no token: marks that switch quoting on and off, and comments. -/
inductive Silent : Text → Prop where
  | nil : Silent []
  | quoteOn {s : Text} (h : Silent s) : Silent ('\\' :: 'Q' :: s)
  | quoteOff {s : Text} (h : Silent s) : Silent ('\\' :: 'E' :: s)
  | comment {note s : Text} (hnote : ')' ∉ note) (h : Silent s) :
    Silent ('(' :: '?' :: '#' :: note ++ ')' :: s)

theorem Silent.append {s t : Text} (hs : Silent s) (ht : Silent t) : Silent (s ++ t) := by
  induction hs with
  | nil => exact ht
  | quoteOn _ ih => exact .quoteOn ih
  | quoteOff _ ih => exact .quoteOff ih
  | comment hnote _ ih => simpa using Silent.comment hnote ih

/-! Lexemes without a token. -/

theorem scanGroupName_token {lead s : Text} {close : Char} {p : Piece (Option TokenKind)}
    (h : scanGroupName lead close s = .ok p) : p.value ≠ none := by
  unfold scanGroupName at h
  split at h
  next =>
    split at h
    next => cases h; simp
    next => contradiction
  next => contradiction

theorem scanOptions_token (s : Text) : (scanOptions s).value ≠ none := by
  unfold scanOptions
  dsimp only
  split <;> simp

/-- Of all that can follow an opening parenthesis only a comment is no token. -/
theorem scanMarkedOpening_silent {s : Text} {p : Piece (Option TokenKind)}
    (h : scanMarkedOpening s = .ok p) (hnone : p.value = none) : Silent ('(' :: p.text) := by
  unfold scanMarkedOpening at h
  split at h
  next => contradiction
  next s =>
    split at h
    next note rest hs =>
      cases h
      exact .comment (Text.splitFirst?_not_mem hs) .nil
    next => contradiction
  all_goals try (cases h; contradiction)
  next => exact absurd hnone (scanGroupName_token h)
  next => exact absurd hnone (scanGroupName_token h)
  next => exact absurd hnone (scanGroupName_token h)
  next =>
    split at h
    next =>
      cases h
      exact absurd hnone (scanOptions_token _)
    next => cases h; contradiction

theorem scanOpening_silent {s : Text} {p : Piece (Option TokenKind)} (h : scanOpening s = .ok p)
    (hnone : p.value = none) : Silent ('(' :: p.text) := by
  unfold scanOpening at h
  split at h
  next => cases h; contradiction
  next => exact scanMarkedOpening_silent h hnone
  next => cases h; contradiction

theorem scanBackslash_silent {s : Text} {p : Piece Lexeme} (h : scanBackslash s = .ok p)
    (hnone : p.value.token? = none) : Silent p.text := by
  unfold scanBackslash at h
  split at h
  next => cases h; exact .quoteOn .nil
  next => cases h; exact .quoteOff .nil
  next =>
    split at h
    next => cases h; contradiction
    next => contradiction

theorem scanBrace_token {s : Text} {p : Piece Lexeme} (h : scanBrace s = .ok p) :
    p.value.token? ≠ none := by
  unfold scanBrace at h
  split at h
  next => contradiction
  next => cases h; simp [Lexeme.plain]
  next => cases h; simp [Lexeme.plain, Piece.map]

theorem scanUnquoted_silent {c : Char} {s : Text} {p : Piece Lexeme} (h : scanUnquoted c s = .ok p)
    (hnone : p.value.token? = none) : Silent p.text := by
  unfold scanUnquoted at h
  split at h
  next => exact scanBackslash_silent h hnone
  next =>
    obtain ⟨q, -, rfl⟩ := exists_of_map_ok h
    contradiction
  next =>
    split at h
    next q hq =>
      cases h
      exact scanOpening_silent hq hnone
    next => contradiction
  next => cases h; contradiction
  next => cases h; contradiction
  next => cases h; contradiction
  next => cases h; contradiction
  next => cases h; contradiction
  next => cases h; contradiction
  next => cases h; contradiction
  next => cases h; contradiction
  next => exact absurd hnone (scanBrace_token h)
  next => cases h; contradiction

theorem scanLexeme_silent {quoting : Bool} {c : Char} {s : Text} {p : Piece Lexeme}
    (h : scanLexeme quoting c s = .ok p) (hnone : p.value.token? = none) : Silent p.text := by
  cases quoting with
  | false => exact scanUnquoted_silent h hnone
  | true =>
    have hp : p = scanQuoted c s := (Except.ok.inj h).symm
    rw [hp] at hnone ⊢
    unfold scanQuoted at hnone ⊢
    split at hnone
    next => exact .quoteOff .nil
    next => contradiction

/-! Tokens laid out over a text. -/

/-- A text that begins at byte `offset` is made of silent stretches and of the text of some tokens,
in order. -/
inductive Tiled : Nat → Text → List Token → Prop where
  | silent {offset : Nat} {gap : Text} (hgap : Silent gap) : Tiled offset gap []
  | token {offset start stop : Nat} {gap part s : Text} {kind : TokenKind} {tokens : List Token}
      (hgap : Silent gap) (hpart : part ≠ []) (hstart : start = offset + Text.byteLength gap)
      (hstop : stop = start + Text.byteLength part) (h : Tiled stop s tokens) :
    Tiled offset (gap ++ part ++ s) (⟨⟨start, stop⟩, kind⟩ :: tokens)

theorem Tiled.prepend_silent {offset : Nat} {gap s : Text} {tokens : List Token} (hgap : Silent gap)
    (h : Tiled (offset + Text.byteLength gap) s tokens) : Tiled offset (gap ++ s) tokens := by
  cases h with
  | silent hs => exact .silent (hgap.append hs)
  | @token _ start stop gap' part s kind tokens hgap' hpart hstart hstop h =>
    rw [← List.append_assoc, ← List.append_assoc]
    exact .token (hgap.append hgap') hpart (by simp; omega) hstop h

/-- The stretches before, between and after some tokens. -/
def gaps (start stop : Nat) : List Token → List Span
  | [] => [⟨start, stop⟩]
  | t :: ts => ⟨start, t.span.start⟩ :: gaps t.span.stop stop ts

/-- How tokens lie in a pattern between two of its bytes. -/
structure Tiling (pattern : Text) (start : Nat) (tokens : List Token) (stop : Nat) : Prop where
  nonempty : ∀ t ∈ tokens, t.span.start < t.span.stop
  boundaries : ∀ t ∈ tokens,
    Text.isBoundary pattern t.span.start = true ∧ Text.isBoundary pattern t.span.stop = true
  ordered : tokens.Pairwise fun t u => t.span.stop ≤ u.span.start
  silent : ∀ g ∈ gaps start stop tokens,
    ∃ gap, Text.slice? pattern g.start g.stop = some gap ∧ Silent gap

theorem Tiled.le_start {offset : Nat} {s : Text} {tokens : List Token} (h : Tiled offset s tokens) :
    ∀ t ∈ tokens, offset ≤ t.span.start := by
  induction h with
  | silent _ => simp
  | token _ _ hstart hstop _ ih =>
    intro t ht
    rcases List.mem_cons.1 ht with rfl | ht
    · exact hstart ▸ Nat.le_add_right _ _
    · have := ih t ht
      omega

theorem Tiled.tiling {offset : Nat} {s : Text} {tokens : List Token} (h : Tiled offset s tokens)
    (before : Text) (hbefore : Text.byteLength before = offset) (after : Text) :
    Tiling (before ++ s ++ after) offset tokens (offset + Text.byteLength s) := by
  induction h generalizing before with
  | @silent offset gap hgap =>
    refine ⟨by simp, by simp, .nil, ?_⟩
    simp only [gaps, List.mem_singleton, forall_eq]
    exact ⟨gap, by rw [← hbefore, Text.slice?_append], hgap⟩
  | @token offset start stop gap part s kind tokens hgap hpart hstart hstop h ih =>
    have hgapEnd : Text.byteLength (before ++ gap) = start := by
      rw [Text.byteLength_append]
      omega
    have hpartEnd : Text.byteLength (before ++ gap ++ part) = stop := by
      rw [Text.byteLength_append]
      omega
    have htail := ih (before ++ gap ++ part) hpartEnd
    have hpattern : before ++ gap ++ part ++ s ++ after =
        before ++ (gap ++ part ++ s) ++ after := by simp
    have hend : stop + Text.byteLength s = offset + Text.byteLength (gap ++ part ++ s) := by
      simp only [Text.byteLength_append]
      omega
    rw [hpattern, hend] at htail
    refine ⟨?_, ?_, ?_, ?_⟩
    · have := Text.byteLength_pos hpart
      simpa using ⟨by omega, htail.nonempty⟩
    · have hstartCut := Text.isBoundary_append (before ++ gap) (part ++ s ++ after)
      have hstopCut := Text.isBoundary_append (before ++ gap ++ part) (s ++ after)
      rw [hgapEnd] at hstartCut
      rw [hpartEnd] at hstopCut
      simp only [List.append_assoc] at hstartCut hstopCut htail ⊢
      simpa using ⟨⟨hstartCut, hstopCut⟩, htail.boundaries⟩
    · exact List.pairwise_cons.2 ⟨h.le_start, htail.ordered⟩
    · have hslice := Text.slice?_append before gap (part ++ s ++ after)
      rw [hbefore, ← hstart] at hslice
      simp only [List.append_assoc] at hslice htail ⊢
      intro g hg
      rcases List.mem_cons.1 hg with rfl | hg
      · exact ⟨gap, hslice, hgap⟩
      · exact htail.silent g hg

/-- Why reading stops before `after`, which begins at byte `offset`: nothing is left, or the next
lexeme has a fault. -/
def Halts (offset : Nat) (after : Text) : Option Fault → Prop
  | none => after = []
  | some f => ∃ c rest g, after = c :: rest ∧ scanUnquoted c rest = .error g ∧ f = g.shift offset

theorem lexFrom_tiled (quoting : Bool) (offset : Nat) (s : Text) :
    ∃ read after, s = read ++ after ∧ Tiled offset read (lexFrom quoting offset s).tokens ∧
      Halts (offset + Text.byteLength read) after (lexFrom quoting offset s).fault? := by
  fun_induction lexFrom quoting offset s with
  | case1 => exact ⟨[], [], rfl, .silent .nil, rfl⟩
  | case2 quoting offset c r f hf =>
    have hfault : scanUnquoted c r = .error f := by
      cases quoting with
      | false => exact hf
      | true => contradiction
    exact ⟨[], c :: r, rfl, .silent .nil, c, r, f, rfl, hfault, rfl⟩
  | case3 quoting offset c r p hp ih =>
    obtain ⟨read, after, hrest, htiled, hhalts⟩ := ih
    obtain ⟨hsplits, hne⟩ := scanLexeme_splits hp
    refine ⟨p.text ++ read, after, ?_, ?_, ?_⟩
    · rw [← hsplits, hrest, List.append_assoc]
    · unfold Lexing.prepend
      cases htoken : p.value.token? with
      | some kind => exact .token .nil hne rfl rfl htiled
      | none => exact htiled.prepend_silent (scanLexeme_silent hp htoken)
    · rw [Text.byteLength_append, ← Nat.add_assoc]
      unfold Lexing.prepend
      split <;> exact hhalts

/-- Reading a pattern gets as far as `stop`: to its end, or to the start of the lexeme that has the
fault. -/
def ReadsTo (pattern : Text) (stop : Nat) : Prop :=
  match tokenize pattern with
  | .ok tokens => tokens = (lex pattern).tokens ∧ stop = Text.byteLength pattern
  | .error f => ∃ before c after g, pattern = before ++ c :: after ∧ stop = Text.byteLength before ∧
    scanUnquoted c after = .error g ∧ f = g.shift stop

theorem lex_tiles (pattern : Text) :
    ∃ stop, ReadsTo pattern stop ∧ Tiling pattern 0 (lex pattern).tokens stop := by
  obtain ⟨read, after, hpattern, htiled, hhalts⟩ := lexFrom_tiled false 0 pattern
  rw [Nat.zero_add] at hhalts
  refine ⟨Text.byteLength read, ?_, ?_⟩
  · change Halts _ _ (lex pattern).fault? at hhalts
    unfold ReadsTo tokenize
    cases hlex : lex pattern with
    | mk tokens fault? =>
      rw [hlex] at hhalts
      cases fault? with
      | none =>
        rw [hpattern, show after = [] from hhalts, List.append_nil]
        exact ⟨rfl, rfl⟩
      | some f =>
        obtain ⟨c, rest, g, hafter, hfault, hf⟩ := hhalts
        exact ⟨read, c, rest, g, hafter ▸ hpattern, rfl, hfault, hf⟩
  · have htiling := htiled.tiling [] rfl after
    rw [List.nil_append, ← hpattern, Nat.zero_add] at htiling
    exact htiling

end PatternAudit.Grammar
