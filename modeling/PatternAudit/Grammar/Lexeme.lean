import PatternAudit.Grammar.CharClass
import PatternAudit.Grammar.Opening
import PatternAudit.Grammar.Repetition

set_option autoImplicit false

/-!
# Lexemes

A pattern is read lexeme by lexeme. A lexeme gives a token or nothing, and switches quoting on or off: while it is
on every character stands for itself. Reading stops at the first fault and keeps the tokens before it.
-/
namespace PatternAudit.Grammar

/-- What a lexeme contributes: its token, if it has one, and whether text after it is quoted. -/
structure Lexeme where
  token? : Option TokenKind
  quoting : Bool
deriving DecidableEq, Repr

def Lexeme.plain (kind : TokenKind) : Lexeme :=
  ⟨some kind, false⟩

def scanQuoted (c : Char) (s : Text) : Piece Lexeme :=
  match c, s with
  | '\\', 'E' :: r => ⟨⟨none, false⟩, ['\\', 'E'], r⟩
  | _, _ => ⟨⟨some (.atom (.escape (.literal c))), true⟩, [c], s⟩

def scanBackslash : Text → Except Fault (Piece Lexeme)
  | 'Q' :: s => .ok ⟨⟨none, true⟩, ['\\', 'Q'], s⟩
  | 'E' :: s => .ok ⟨⟨none, false⟩, ['\\', 'E'], s⟩
  | s =>
    match scanEscape false s with
    | .ok p => .ok ((p.after ['\\']).map fun e => .plain (.atom (.escape e)))
    | .error reason => .error ⟨0, reason⟩

def scanBrace (s : Text) : Except Fault (Piece Lexeme) :=
  match scanBounds s with
  | .error reason => .error ⟨0, reason⟩
  | .ok none => .ok ⟨.plain (.atom (.char '{')), ['{'], s⟩
  | .ok (some p) =>
    .ok (((scanGreed p.value p.rest).after ('{' :: p.text)).map fun q => .plain (.quantifier q))

/-- A repetition mark of one character, from the text after it. -/
def scanMark (c : Char) (bounds : Bounds) (s : Text) : Piece Lexeme :=
  ((scanGreed bounds s).after [c]).map fun q => .plain (.quantifier q)

def scanUnquoted (c : Char) (s : Text) : Except Fault (Piece Lexeme) :=
  match c with
  | '\\' => scanBackslash s
  | '[' => (scanClass s).map fun p => (p.after ['[']).map fun cls => .plain (.atom (.charClass cls))
  | '(' =>
    match scanOpening s with
    | .ok p => .ok ((p.after ['(']).map fun token? => ⟨token?, false⟩)
    | .error reason => .error ⟨0, reason⟩
  | ')' => .ok ⟨.plain .groupClose, [c], s⟩
  | '|' => .ok ⟨.plain .bar, [c], s⟩
  | '^' => .ok ⟨.plain (.atom (.anchor .start)), [c], s⟩
  | '$' => .ok ⟨.plain (.atom (.anchor .finish)), [c], s⟩
  | '.' => .ok ⟨.plain (.atom .any), [c], s⟩
  | '*' => .ok (scanMark c (.atLeast 0) s)
  | '+' => .ok (scanMark c (.atLeast 1) s)
  | '?' => .ok (scanMark c (.between 0 1) s)
  | '{' => scanBrace s
  | _ => .ok ⟨.plain (.atom (.char c)), [c], s⟩

def scanLexeme (quoting : Bool) (c : Char) (s : Text) : Except Fault (Piece Lexeme) :=
  if quoting then .ok (scanQuoted c s) else scanUnquoted c s

theorem scanQuoted_splits (c : Char) (s : Text) :
    (scanQuoted c s).Splits (c :: s) ∧ (scanQuoted c s).text ≠ [] := by
  unfold scanQuoted
  split <;> exact ⟨rfl, by simp⟩

theorem scanBackslash_splits {s : Text} {p : Piece Lexeme} (h : scanBackslash s = .ok p) :
    p.Splits ('\\' :: s) ∧ p.text ≠ [] := by
  unfold scanBackslash at h
  split at h
  next => cases h; exact ⟨rfl, by simp⟩
  next => cases h; exact ⟨rfl, by simp⟩
  next =>
    split at h
    next q hq =>
      cases h
      exact ⟨((scanEscape_splits hq).after ['\\']).map _, by simp [Piece.map, Piece.after]⟩
    next => contradiction

theorem scanMark_splits (c : Char) (bounds : Bounds) (s : Text) :
    (scanMark c bounds s).Splits (c :: s) ∧ (scanMark c bounds s).text ≠ [] :=
  ⟨((scanGreed_splits bounds s).after [c]).map _, by simp [scanMark, Piece.map, Piece.after]⟩

theorem scanBrace_splits {s : Text} {p : Piece Lexeme} (h : scanBrace s = .ok p) :
    p.Splits ('{' :: s) ∧ p.text ≠ [] := by
  unfold scanBrace at h
  split at h
  next => contradiction
  next => cases h; exact ⟨rfl, by simp⟩
  next q hq =>
    cases h
    have hs : q.text ++ q.rest = s := scanBounds_splits hq
    refine ⟨?_, by simp [Piece.map, Piece.after]⟩
    rw [← hs]
    exact ((scanGreed_splits q.value q.rest).after ('{' :: q.text)).map _

theorem scanUnquoted_splits {c : Char} {s : Text} {p : Piece Lexeme} (h : scanUnquoted c s = .ok p) :
    p.Splits (c :: s) ∧ p.text ≠ [] := by
  unfold scanUnquoted at h
  split at h
  next => exact scanBackslash_splits h
  next =>
    obtain ⟨q, hq, rfl⟩ := exists_of_map_ok h
    exact ⟨((scanClass_splits hq).after ['[']).map _, by simp [Piece.map, Piece.after]⟩
  next =>
    split at h
    next q hq =>
      cases h
      exact ⟨((scanOpening_splits hq).after ['(']).map _, by simp [Piece.map, Piece.after]⟩
    next => contradiction
  next => cases h; exact ⟨rfl, by simp⟩
  next => cases h; exact ⟨rfl, by simp⟩
  next => cases h; exact ⟨rfl, by simp⟩
  next => cases h; exact ⟨rfl, by simp⟩
  next => cases h; exact ⟨rfl, by simp⟩
  next => cases h; exact scanMark_splits _ _ _
  next => cases h; exact scanMark_splits _ _ _
  next => cases h; exact scanMark_splits _ _ _
  next => exact scanBrace_splits h
  next => cases h; exact ⟨rfl, by simp⟩

theorem scanLexeme_splits {quoting : Bool} {c : Char} {s : Text} {p : Piece Lexeme}
    (h : scanLexeme quoting c s = .ok p) : p.Splits (c :: s) ∧ p.text ≠ [] := by
  unfold scanLexeme at h
  split at h
  next => cases h; exact scanQuoted_splits c s
  next => exact scanUnquoted_splits h

theorem scanLexeme_rest_lt {quoting : Bool} {c : Char} {s : Text} {p : Piece Lexeme}
    (h : scanLexeme quoting c s = .ok p) : p.rest.length < (c :: s).length :=
  (scanLexeme_splits h).1.rest_lt (scanLexeme_splits h).2

/-- The outcome of reading a pattern: its tokens up to the first fault, if there is one. -/
structure Lexing where
  tokens : List Token
  fault? : Option Fault
deriving DecidableEq, Repr

/-- Adds the lexeme read before these, which began at `offset`. -/
def Lexing.prepend (offset : Nat) (p : Piece Lexeme) (l : Lexing) : Lexing :=
  match p.value.token? with
  | some kind => { l with tokens := ⟨⟨offset, offset + Text.byteLength p.text⟩, kind⟩ :: l.tokens }
  | none => l

/-- Reads lexemes from a text that begins at `offset` of the pattern. -/
def lexFrom (quoting : Bool) (offset : Nat) (s : Text) : Lexing :=
  match s with
  | [] => ⟨[], none⟩
  | c :: r =>
    match _h : scanLexeme quoting c r with
    | .error f => ⟨[], some (f.shift offset)⟩
    | .ok p => (lexFrom p.value.quoting (offset + Text.byteLength p.text) p.rest).prepend offset p
termination_by s.length
decreasing_by exact scanLexeme_rest_lt _h

@[simp] theorem lexFrom_nil (quoting : Bool) (offset : Nat) : lexFrom quoting offset [] = ⟨[], none⟩ := by
  rw [lexFrom]

theorem lexFrom_of_ok {quoting : Bool} {c : Char} {s : Text} {p : Piece Lexeme}
    (h : scanLexeme quoting c s = .ok p) (offset : Nat) :
    lexFrom quoting offset (c :: s) =
      (lexFrom p.value.quoting (offset + Text.byteLength p.text) p.rest).prepend offset p := by
  rw [lexFrom]
  split
  next f hf => simp [h] at hf
  next q hq =>
    rw [h] at hq
    cases hq
    rfl

theorem lexFrom_of_error {quoting : Bool} {c : Char} {s : Text} {f : Fault}
    (h : scanLexeme quoting c s = .error f) (offset : Nat) :
    lexFrom quoting offset (c :: s) = ⟨[], some (f.shift offset)⟩ := by
  rw [lexFrom]
  split
  next g hg =>
    rw [h] at hg
    cases hg
    rfl
  next q hq => simp [h] at hq

def lex (pattern : Text) : Lexing :=
  lexFrom false 0 pattern

def tokenize (pattern : Text) : Except Fault (List Token) :=
  match lex pattern with
  | ⟨_, some f⟩ => .error f
  | ⟨tokens, none⟩ => .ok tokens

theorem tokenize_eq_ok_iff {pattern : Text} {tokens : List Token} :
    tokenize pattern = .ok tokens ↔ lex pattern = ⟨tokens, none⟩ := by
  unfold tokenize
  cases lex pattern with
  | mk tokens' fault? => cases fault? <;> simp

end PatternAudit.Grammar
