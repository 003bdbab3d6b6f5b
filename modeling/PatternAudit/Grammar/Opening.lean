import PatternAudit.Grammar.Fault
import PatternAudit.Grammar.Piece
import PatternAudit.Grammar.Token
import PatternAudit.Text.Alphanumeric

set_option autoImplicit false

/-!
# Group openings

Reading what follows an opening parenthesis: the marks that fix the kind of a group, a whole option setting, or a
whole comment. A question mark that none of them explains opens a directive, whose text is then read like any
other.
-/
namespace PatternAudit.Grammar

def optionLetters : Text := ['i', 'm', 'n', 's', 'x', 'J', 'U', 'X', '^', '-']

def isOptionLetter (c : Char) : Bool :=
  optionLetters.contains c

def isGroupName : Text → Bool
  | [] => false
  | c :: s =>
    (Text.isAlphabetic c || c == '_') && s.all fun d => Text.isAlphanumeric d || d == '_'

/-- A group name up to its closing mark; `lead` is the text that announced it. -/
def scanGroupName (lead : Text) (close : Char) (s : Text) : Except Reason (Piece (Option TokenKind)) :=
  match Text.splitFirst? close s with
  | some (name, rest) =>
    if isGroupName name then .ok ⟨some (.groupOpen (.named name)), lead ++ name ++ [close], rest⟩
    else .error .invalidGroupName
  | none => .error .invalidGroupName

/-- Option letters close by themselves, open a scoped group, or turn out to be the content of a directive. -/
def scanOptions (s : Text) : Piece (Option TokenKind) :=
  let flags := s.takeWhile isOptionLetter
  match s.dropWhile isOptionLetter with
  | ')' :: rest => ⟨some (.atom (.options flags)), '?' :: flags ++ [')'], rest⟩
  | ':' :: rest => ⟨some (.groupOpen (.scoped flags)), '?' :: flags ++ [':'], rest⟩
  | _ => ⟨some (.groupOpen .directive), ['?'], s⟩

/-- Reads the text after an opening parenthesis and a question mark. -/
def scanMarkedOpening : Text → Except Reason (Piece (Option TokenKind))
  | [] => .error .unterminatedGroup
  | '#' :: s =>
    match Text.splitFirst? ')' s with
    | some (note, rest) => .ok ⟨none, '?' :: '#' :: note ++ [')'], rest⟩
    | none => .error .unterminatedGroup
  | ':' :: s => .ok ⟨some (.groupOpen .nonCapturing), ['?', ':'], s⟩
  | '|' :: s => .ok ⟨some (.groupOpen .branchReset), ['?', '|'], s⟩
  | '>' :: s => .ok ⟨some (.groupOpen .atomic), ['?', '>'], s⟩
  | '=' :: s => .ok ⟨some (.groupOpen (.lookahead false)), ['?', '='], s⟩
  | '!' :: s => .ok ⟨some (.groupOpen (.lookahead true)), ['?', '!'], s⟩
  | '<' :: '=' :: s => .ok ⟨some (.groupOpen (.lookbehind false)), ['?', '<', '='], s⟩
  | '<' :: '!' :: s => .ok ⟨some (.groupOpen (.lookbehind true)), ['?', '<', '!'], s⟩
  | '<' :: s => scanGroupName ['?', '<'] '>' s
  | '\x27' :: s => scanGroupName ['?', '\x27'] '\x27' s
  | 'P' :: '<' :: s => scanGroupName ['?', 'P', '<'] '>' s
  | c :: s =>
    if isOptionLetter c then .ok (scanOptions (c :: s))
    else .ok ⟨some (.groupOpen .directive), ['?'], c :: s⟩

/-- Reads the text after an opening parenthesis. A comment is read whole and is no token. -/
def scanOpening : Text → Except Reason (Piece (Option TokenKind))
  | '*' :: s => .ok ⟨some (.groupOpen .directive), ['*'], s⟩
  | '?' :: s => scanMarkedOpening s
  | s => .ok ⟨some (.groupOpen .capturing), [], s⟩

theorem scanGroupName_splits {lead s : Text} {close : Char} {p : Piece (Option TokenKind)}
    (h : scanGroupName lead close s = .ok p) : p.Splits (lead ++ s) := by
  unfold scanGroupName at h
  split at h
  next name rest hs =>
    split at h
    next =>
      cases h
      simpa [Piece.Splits] using Text.splitFirst?_eq_some hs
    next => contradiction
  next => contradiction

theorem scanOptions_splits (s : Text) : (scanOptions s).Splits ('?' :: s) := by
  have hs := List.takeWhile_append_dropWhile (p := isOptionLetter) (l := s)
  unfold scanOptions
  simp only
  split
  next rest hrest =>
    rw [hrest] at hs
    simpa [Piece.Splits] using hs
  next rest hrest =>
    rw [hrest] at hs
    simpa [Piece.Splits] using hs
  next => rfl

theorem scanMarkedOpening_splits {s : Text} {p : Piece (Option TokenKind)}
    (h : scanMarkedOpening s = .ok p) : p.Splits ('?' :: s) := by
  unfold scanMarkedOpening at h
  split at h
  next => contradiction
  next s =>
    split at h
    next note rest hs =>
      cases h
      simpa [Piece.Splits] using Text.splitFirst?_eq_some hs
    next => contradiction
  all_goals try (cases h; rfl)
  next => exact scanGroupName_splits h
  next => exact scanGroupName_splits h
  next => exact scanGroupName_splits h
  next c s _ _ _ _ _ _ _ _ _ _ _ =>
    split at h
    next => cases h; exact scanOptions_splits _
    next => cases h; rfl

theorem scanOpening_splits {s : Text} {p : Piece (Option TokenKind)} (h : scanOpening s = .ok p) :
    p.Splits s := by
  unfold scanOpening at h
  split at h
  next => cases h; rfl
  next => exact scanMarkedOpening_splits h
  next => cases h; rfl

end PatternAudit.Grammar
