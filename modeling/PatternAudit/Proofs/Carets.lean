import PatternAudit.Check.Report
import PatternAudit.Proofs.DelimitedTexts
import PatternAudit.Proofs.Outcomes

set_option autoImplicit false

/-!
# Carets

The message of a malformed pattern shows the configured text and, on a line of its own, a caret. The fault
always stands at a character of the text, and the caret stands under it if the text in front of it has no
line end (`caret_under_fault`). Otherwise the caret is too far to the right, because its place is counted
from the beginning of the text.
-/
namespace PatternAudit.Check

open Grammar (Fault)
open Lint (Delimited TypeLookup closingDelimiter splitDelimited validate validateDelimited)

/-- How many characters of the last line a text has already. -/
def columnAfter (s : Text) : Nat :=
  match Text.splitLast? '\n' s with
  | some (_, line) => line.length
  | none => s.length

theorem columnAfter_line {line : Text} (h : '\n' ∉ line) (s : Text) :
    columnAfter (s ++ '\n' :: line) = line.length := by
  rw [columnAfter, Text.splitLast?_append h]

theorem not_mem_blanks (n : Nat) : '\n' ∉ blanks n := by
  simp [blanks]

/-- What the message of a malformed pattern says before it shows the configured text. -/
def faultHeading (raw : Text) (f : Fault) : Text :=
  subject raw ++ " is not a valid regular expression: ".toList ++ f.message ++ ".\n".toList

/-- The text is shown on a line of its own as far as it has no line ends. -/
theorem columnAfter_shown (raw : Text) (f : Fault) (before : Text) :
    columnAfter (faultHeading raw f ++ blanks 4 ++ before) = 4 + before.length ↔ '\n' ∉ before := by
  cases hsplit : Text.splitLast? '\n' before with
  | none =>
    have hbefore := Text.splitLast?_eq_none_iff.1 hsplit
    have hline : '\n' ∉ blanks 4 ++ before := by simp [not_mem_blanks, hbefore]
    have hheading : faultHeading raw f ++ blanks 4 ++ before =
        subject raw ++ " is not a valid regular expression: ".toList ++ f.message ++ ['.'] ++
          '\n' :: (blanks 4 ++ before) := by
      simp [faultHeading]
    rw [hheading, columnAfter_line hline, List.length_append, blanks, List.length_replicate]
    exact iff_of_true rfl hbefore
  | some cut =>
    obtain ⟨earlier, line⟩ := cut
    have hline := Text.splitLast?_not_mem hsplit
    obtain rfl := Text.splitLast?_eq_some hsplit
    rw [← List.append_assoc, columnAfter_line hline]
    simp only [List.length_append, List.length_cons, List.mem_append, List.mem_cons, true_or, or_true,
      not_true_eq_false, iff_false]
    omega

theorem exists_body_of_splitDelimited {raw : Text} {parts : Delimited}
    (h : splitDelimited raw = .ok parts) :
    ∃ opening closing, raw = opening ++ (parts.body ++ closing) ∧
      Text.byteLength opening = parts.bodyStart := by
  have hsplits := Lint.splits_splitDelimited raw
  rw [h] at hsplits
  cases hsplits with
  | @parts w hw d hd body flags hflags hlast =>
    refine ⟨w ++ [d], closingDelimiter d :: flags, by simp, ?_⟩
    simp [Lint.utf8Size_of_isDelimiter hd]

/-- A fault of a body stands at a character of the configured text. -/
theorem exists_char_of_malformed {resolve : TypeLookup} {raw : Text} {f : Fault}
    (h : validateDelimited resolve raw = .error (.malformed f)) :
    ∃ parts before c after, splitDelimited raw = .ok parts ∧ raw = before ++ c :: after ∧
      Text.byteLength before = parts.bodyStart + f.offset := by
  cases hsplit : splitDelimited raw with
  | error g =>
    rw [validateDelimited, hsplit] at h
    cases h
  | ok parts =>
    rw [Lint.validateDelimited_of_splitDelimited hsplit, validate] at h
    cases hparse : Grammar.parse parts.body with
    | ok root =>
      rw [hparse] at h
      cases h
    | error g =>
      rw [hparse] at h
      cases h
      obtain ⟨opening, closing, rfl, hstart⟩ := exists_body_of_splitDelimited hsplit
      obtain ⟨before, c, after, hbody, hoffset⟩ := Grammar.exists_char_of_parse_error hparse
      refine ⟨parts, opening ++ before, c, after ++ closing, rfl, by simp [hbody], ?_⟩
      rw [Text.byteLength_append, hstart, hoffset]

theorem faultMessage_eq {raw : Text} {parts : Delimited} {f : Fault}
    (hsplit : splitDelimited raw = .ok parts) {before rest : Text} (hraw : raw = before ++ rest)
    (hplace : Text.byteLength before = parts.bodyStart + f.offset) :
    faultMessage raw (.malformed f) =
      faultHeading raw f ++ blanks 4 ++ before ++ rest ++ '\n' :: blanks (4 + before.length) ++ ['^'] := by
  have hbody : bodyStart raw = parts.bodyStart := by rw [bodyStart, hsplit]
  have hcolumn : columnOf raw (parts.bodyStart + f.offset) = before.length := by
    rw [columnOf, ← hplace, hraw, Text.splitAt?_append]
  have hblanks : blanks 4 ++ blanks before.length = blanks (4 + before.length) :=
    List.replicate_append_replicate
  rw [faultMessage, hbody, caretBlock, hcolumn, ← hblanks]
  simp [faultHeading, hraw]

theorem caret_under_fault {resolve : TypeLookup} {raw : Text} {f : Fault}
    (h : validateDelimited resolve raw = .error (.malformed f)) :
    ∃ parts before c after,
      let place := parts.bodyStart + f.offset
      let shown := faultHeading raw f ++ blanks 4 ++ before
      let upToCaret := shown ++ c :: after ++ '\n' :: blanks (4 + before.length)
      splitDelimited raw = .ok parts ∧ raw = before ++ c :: after ∧ Text.byteLength before = place ∧
        raw.isBoundary place = true ∧ place < Text.byteLength raw ∧
        faultMessage raw (.malformed f) = upToCaret ++ ['^'] ∧
        (columnAfter upToCaret = columnAfter shown ↔ '\n' ∉ before) := by
  obtain ⟨parts, before, c, after, hsplit, hraw, hplace⟩ := exists_char_of_malformed h
  refine ⟨parts, before, c, after, hsplit, hraw, hplace, ?_, ?_, faultMessage_eq hsplit hraw hplace, ?_⟩
  · rw [hraw, ← hplace]
    exact Text.isBoundary_append before (c :: after)
  · have hc := c.utf8Size_pos
    rw [hraw, ← hplace, Text.byteLength_append, Text.byteLength_cons]
    omega
  · rw [columnAfter_line (not_mem_blanks _), ← columnAfter_shown raw f before, blanks,
      List.length_replicate]
    exact eq_comm

/-- The caret stands under the parenthesis, behind a blank and a character of two bytes. -/
theorem caret_under_fault_wide_character :
    let raw : Text := [' ', '#', 'é', '(', '#']
    let f : Fault := ⟨2, .unterminatedGroup⟩
    let shown := faultHeading raw f ++ blanks 4 ++ [' ', '#', 'é']
    let upToCaret := shown ++ ['(', '#'] ++ '\n' :: blanks 7
    validateDelimited .none raw = .error (.malformed f) ∧
      faultMessage raw (.malformed f) = upToCaret ++ ['^'] ∧
      columnAfter upToCaret = columnAfter shown := by
  intro raw f shown upToCaret
  have hsplit : splitDelimited raw = .ok ⟨'#', ['é', '('], 2, []⟩ := by decide
  have hlex : Grammar.lex ['é', '('] =
      ⟨[⟨⟨0, 2⟩, .atom (.char 'é')⟩, ⟨⟨2, 3⟩, .groupOpen .capturing⟩], none⟩ := by
    decide +kernel
  have hparse : Grammar.parse ['é', '('] = .error f := by
    rw [Grammar.parse_eq_run hlex]
    rfl
  have h : validateDelimited .none raw = .error (.malformed f) := by
    rw [Lint.validateDelimited_of_splitDelimited hsplit, validate, hparse]
    rfl
  obtain ⟨parts, before, c, after, hparts, hraw, hplace, -, -, hmessage, hcolumn⟩ := caret_under_fault h
  cases hsplit.symm.trans hparts
  have hcut := Text.splitAt?_append before (c :: after)
  have hplaced : Text.splitAt? raw 4 = some ([' ', '#', 'é'], ['(', '#']) := by decide
  rw [← hraw, hplace] at hcut
  cases hplaced.symm.trans hcut
  exact ⟨h, hmessage, hcolumn.2 (by decide)⟩

/-- Behind a line end, the caret is six characters too far to the right. -/
theorem caret_beside_fault :
    let raw : Text := ['#', '\n', 'f', 'o', 'o', '(', 'b', 'a', 'r', '#']
    let f : Fault := ⟨4, .unterminatedGroup⟩
    let shown := faultHeading raw f ++ blanks 4 ++ ['#', '\n', 'f', 'o', 'o']
    let upToCaret := shown ++ ['(', 'b', 'a', 'r', '#'] ++ '\n' :: blanks 9
    validateDelimited .none raw = .error (.malformed f) ∧
      Text.splitAt? raw (bodyStart raw + f.offset) =
        some (['#', '\n', 'f', 'o', 'o'], ['(', 'b', 'a', 'r', '#']) ∧
      faultMessage raw (.malformed f) = upToCaret ++ ['^'] ∧
      columnAfter shown = 3 ∧ columnAfter upToCaret = 9 := by
  intro raw f shown upToCaret
  have hsplit : splitDelimited raw = .ok ⟨'#', ['\n', 'f', 'o', 'o', '(', 'b', 'a', 'r'], 1, []⟩ := by
    decide
  have hlex : Grammar.lex ['\n', 'f', 'o', 'o', '(', 'b', 'a', 'r'] =
      ⟨[⟨⟨0, 1⟩, .atom (.char '\n')⟩, ⟨⟨1, 2⟩, .atom (.char 'f')⟩, ⟨⟨2, 3⟩, .atom (.char 'o')⟩,
        ⟨⟨3, 4⟩, .atom (.char 'o')⟩, ⟨⟨4, 5⟩, .groupOpen .capturing⟩, ⟨⟨5, 6⟩, .atom (.char 'b')⟩,
        ⟨⟨6, 7⟩, .atom (.char 'a')⟩, ⟨⟨7, 8⟩, .atom (.char 'r')⟩], none⟩ := by
    decide +kernel
  have hparse : Grammar.parse ['\n', 'f', 'o', 'o', '(', 'b', 'a', 'r'] = .error f := by
    rw [Grammar.parse_eq_run hlex]
    rfl
  have hshown : shown = faultHeading raw f ++ blanks 4 ++ ['#'] ++ '\n' :: ['f', 'o', 'o'] := by
    simp [shown]
  have hraw : raw = ['#', '\n', 'f', 'o', 'o'] ++ ['(', 'b', 'a', 'r', '#'] := rfl
  refine ⟨?_, by decide, faultMessage_eq hsplit hraw rfl, ?_, ?_⟩
  · rw [Lint.validateDelimited_of_splitDelimited hsplit, validate, hparse]
    rfl
  · rw [hshown, columnAfter_line (by decide)]
    rfl
  · exact columnAfter_line (not_mem_blanks 9) _

end PatternAudit.Check
