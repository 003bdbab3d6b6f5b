import PatternAudit.Proofs.CursorClasses

set_option autoImplicit false

/-!
# Tokens by position

Group openings and lexemes read by a cursor, and from them the tokens of a whole pattern: the cursor gives the tokens
and the faults that reading from the front gives (`Attempt.tokenize_eq`).
-/
namespace PatternAudit.Grammar

namespace Cursor

/-! Group openings. -/

theorem groupName_comesTo (start : Nat) (close : Char) {b b' lead : Text} (s : Text) (h : b' = b ++ lead) :
    ComesTo (groupName start close) ⟨b', s⟩ (readAt start b (scanGroupName lead close s)) := by
  unfold scanGroupName
  cases hname : Text.splitFirst? close s with
  | none => exact (takeUntil?_of_none b' hname).bind (.fail _ _ _)
  | some parts =>
    refine (takeUntil?_comesTo b' hname).bind ?_
    dsimp only
    split
    next => exact .of_eq _ _ (by simp [h])
    next => exact .fail _ _ _

theorem options_comesTo (start : Nat) (b s : Text) :
    ComesTo options ⟨b ++ ['?'], s⟩ (readAt start b (.ok (scanOptions s))) := by
  refine .get_bind ((skipWhile_comesTo isOptionLetter _ s).bind ((since_comesTo (b ++ ['?']) _ _).bind ?_))
  have hs := List.takeWhile_append_dropWhile (p := isOptionLetter) (l := s)
  unfold scanOptions
  dsimp only
  split
  next rest hrest =>
    rw [hrest]
    exact eat_then (.of_eq _ _ (by simp))
  next rest hrest =>
    rw [hrest]
    exact eat_else (by simp) (eat_then (.of_eq _ _ (by simp)))
  next hparen hcolon =>
    have hback : (⟨b ++ ['?'], s⟩ : Place).source =
        (⟨b ++ ['?'] ++ s.takeWhile isOptionLetter, s.dropWhile isOptionLetter⟩ : Place).source := by
      rw [Place.source, Place.source, List.append_assoc _ (s.takeWhile isOptionLetter), hs]
    exact eat_else (head_ne hparen) (eat_else (head_ne hcolon) ((set_comesTo hback).bind (.ok _ _)))

theorem comment_comesTo (start : Nat) (b s : Text) :
    ComesTo (comment start) ⟨b ++ ['?'], '#' :: s⟩ (readAt start b (scanMarkedOpening ('#' :: s))) := by
  rw [scanMarkedOpening]
  cases hnote : Text.splitFirst? ')' s with
  | none =>
    have hnone : Text.splitFirst? ')' ('#' :: s) = none := by
      rw [Text.splitFirst?, if_neg (by decide), hnote]
      rfl
    exact (takeUntil?_of_none _ hnone).bind (.fail _ _ _)
  | some parts =>
    obtain ⟨note, rest⟩ := parts
    have hsome : Text.splitFirst? ')' ('#' :: s) = some ('#' :: note, rest) := by
      rw [Text.splitFirst?, if_neg (by decide), hnote]
      rfl
    exact (takeUntil?_comesTo _ hsome).bind (.of_eq _ _ (by simp))

theorem markedOpening_comesTo (start : Nat) (b s : Text) :
    ComesTo (markedOpening start) ⟨b ++ ['?'], s⟩ (readAt start b (scanMarkedOpening s)) := by
  have hmarked (kind : GroupKind) (t s : Text) :
      ComesTo (marked t.byteLength kind) ⟨b ++ ['?'], t ++ s⟩
        (readAt start b (.ok ⟨some (.groupOpen kind), '?' :: t, s⟩)) :=
    (advance_comesTo _ t s).bind (.of_eq _ s (by simp))
  have hnamed (close : Char) (t s : Text) :
      ComesTo (named start t.byteLength close) ⟨b ++ ['?'], t ++ s⟩
        (readAt start b (scanGroupName ('?' :: t) close s)) :=
    (advance_comesTo _ t s).bind (groupName_comesTo start close s (by simp))
  have hnote (s : Text) := comment_comesTo start b s
  refine (peek_comesTo _ s).bind ?_
  generalize hscan : scanMarkedOpening s = r at *
  unfold scanMarkedOpening at hscan
  split at hscan <;> subst hscan
  next => exact .fail _ _ _
  next s => exact hnote s
  next s => exact hmarked _ [':'] s
  next s => exact hmarked _ ['|'] s
  next s => exact hmarked _ ['>'] s
  next s => exact hmarked _ ['='] s
  next s => exact hmarked _ ['!'] s
  next s => exact (peekNth_comesTo 1 _ _).bind (hmarked _ ['<', '='] s)
  next s => exact (peekNth_comesTo 1 _ _).bind (hmarked _ ['<', '!'] s)
  next s hahead hbehind =>
    refine (peekNth_comesTo 1 _ _).bind ?_
    rw [List.getElem?_cons_succ, ← List.head?_eq_getElem?]
    split
    next hhead => exact absurd hhead (head_ne hahead)
    next hhead => exact absurd hhead (head_ne hbehind)
    next => exact hnamed _ ['<'] s
  next s => exact hnamed _ ['\x27'] s
  next s => exact (peekNth_comesTo 1 _ _).bind (hnamed _ ['P', '<'] s)
  next c s _ _ _ _ _ _ _ _ _ _ _ =>
    have hname : ¬ (decide (c = 'P') && s.head? == some '<') = true := by
      rw [Bool.and_eq_true, decide_eq_true_eq, beq_iff_eq]
      rintro ⟨hc, hs⟩
      obtain ⟨t, ht⟩ := List.head?_eq_some_iff.1 hs
      simp_all
    split
    case h_10 d hd =>
      cases hd
      refine (peekNth_comesTo 1 _ _).bind ?_
      rw [List.getElem?_cons_succ, ← List.head?_eq_getElem?, if_neg hname]
      split
      next => exact options_comesTo start b (c :: s)
      next => exact .ok _ _
    all_goals
      next hc => cases hc <;> contradiction

theorem opening_comesTo (start : Nat) (b s : Text) :
    ComesTo (opening start) ⟨b, s⟩ (readAt start b (scanOpening s)) := by
  unfold scanOpening
  split
  next => exact eat_then (.ok _ _)
  next s => exact eat_else (by simp) (eat_then (markedOpening_comesTo start b s))
  next hstar hmark =>
    exact eat_else (head_ne hstar) (eat_else (head_ne hmark) (.of_eq _ _ (by simp)))

/-! Lexemes. -/

theorem quoted_comesTo (c : Char) (b s : Text) :
    ComesTo (quoted c) ⟨b ++ [c], s⟩ (.ok ((scanQuoted c s).behind b)) := by
  have hplain (h : scanQuoted c s = ⟨⟨some (.atom (.escape (.literal c))), true⟩, [c], s⟩) :
      ComesTo (pure ⟨some (.atom (.escape (.literal c))), true⟩ : Cursor Lexeme) ⟨b ++ [c], s⟩
        (.ok ((scanQuoted c s).behind b)) := h ▸ .ok _ _
  unfold quoted
  split
  next hc =>
    subst hc
    by_cases hend : s.head? = some 'E'
    · obtain ⟨r, rfl⟩ := List.head?_eq_some_iff.1 hend
      exact (eat_comesTo _ r 'E').bind (.of_eq _ _ (by simp [scanQuoted]))
    · refine (eat_of_ne _ hend).bind (hplain ?_)
      rw [scanQuoted]
      rintro r _ rfl
      exact hend rfl
  next hc =>
    refine (ComesTo.ok false _).bind (hplain ?_)
    rw [scanQuoted]
    rintro r rfl
    exact absurd rfl hc

theorem backslash_comesTo (start : Nat) (b s : Text) :
    ComesTo (backslash start) ⟨b ++ ['\\'], s⟩ (readFrom start b (scanBackslash s)) := by
  unfold scanBackslash
  split
  next => exact eat_then (.of_eq _ _ (by simp))
  next => exact eat_else (by simp) (eat_then (.of_eq _ _ (by simp)))
  next hquote hunquote =>
    refine eat_else (head_ne hquote) (eat_else (head_ne hunquote) ?_)
    have hescape := escape_comesTo start false (b ++ ['\\']) s
    cases hscan : scanEscape false s with
    | error reason =>
      rw [hscan] at hescape
      exact hescape.bind_error
    | ok p =>
      rw [hscan] at hescape
      exact hescape.bind (.of_eq _ _ (by simp [Piece.after, Piece.map]))

theorem brace_comesTo (start : Nat) (b s : Text) :
    ComesTo (brace start) ⟨b ++ ['{'], s⟩ (readFrom start b (scanBrace s)) := by
  have hbounds := bounds?_comesTo start (b ++ ['{']) s
  unfold scanBrace
  cases hscan : scanBounds s with
  | error reason =>
    rw [hscan] at hbounds
    exact hbounds.bind_error
  | ok p? =>
    rw [hscan] at hbounds
    cases p? with
    | none => exact hbounds.bind (.ok _ _)
    | some p =>
      exact hbounds.bind ((quantifier_comesTo p.value _ p.rest).bind (.of_eq _ _ (by simp [Piece.after, Piece.map])))

theorem unquoted_comesTo {start : Nat} {b : Text} (c : Char) (s : Text) (hb : b.byteLength = start) :
    ComesTo (unquoted start c) ⟨b ++ [c], s⟩ (readFrom start b (scanUnquoted c s)) := by
  have hmark (bounds : Bounds) :
      ComesTo (do return .plain (← quantifier bounds)) ⟨b ++ [c], s⟩ (readFrom start b (.ok (scanMark c bounds s))) :=
    (quantifier_comesTo bounds _ s).bind (.of_eq _ _ (by simp [scanMark, Piece.after, Piece.map]))
  unfold scanUnquoted
  split
  next => exact backslash_comesTo start b s
  next =>
    have hopened : Text.byteLength (b ++ ['[']) = start + 1 := by
      rw [Text.byteLength_append, hb]
      rfl
    exact (charClass_comesTo s hopened).map_readFrom _
  next =>
    have hopening := opening_comesTo start (b ++ ['(']) s
    cases hscan : scanOpening s with
    | error reason =>
      rw [hscan] at hopening
      exact hopening.bind_error
    | ok p =>
      rw [hscan] at hopening
      exact hopening.bind (.of_eq _ _ (by simp [Piece.after, Piece.map]))
  next => exact .ok _ _
  next => exact .ok _ _
  next => exact .ok _ _
  next => exact .ok _ _
  next => exact .ok _ _
  next => exact hmark _
  next => exact hmark _
  next => exact hmark _
  next => exact brace_comesTo start b s
  next =>
    unfold unquoted
    split
    case h_13 => exact .ok _ _
    all_goals contradiction

theorem lexeme_comesTo (quoting : Bool) (b : Text) (c : Char) (s : Text) :
    ComesTo (lexeme quoting) ⟨b, c :: s⟩ (readFrom b.byteLength b (scanLexeme quoting c s)) := by
  refine .get_bind ((bump_comesTo b s c).bind ?_)
  unfold scanLexeme
  cases quoting with
  | true => exact quoted_comesTo c b s
  | false => exact unquoted_comesTo c s rfl

end Cursor

theorem Place.index_lt_byteLength (b : Text) (c : Char) (s : Text) :
    (⟨b, c :: s⟩ : Place).index < (⟨b, c :: s⟩ : Place).source.byteLength := by
  have hpos := Text.byteLength_pos (List.cons_ne_nil c s)
  have hsource : (⟨b, c :: s⟩ : Place).source.byteLength = b.byteLength + Text.byteLength (c :: s) :=
    Text.byteLength_append ..
  have hindex : (⟨b, c :: s⟩ : Place).index = b.byteLength := rfl
  omega

theorem Lexing.prepend_mk (offset : Nat) (p : Piece Lexeme) (tokens : List Token) (fault? : Option Fault) :
    Lexing.prepend offset p ⟨tokens, fault?⟩ =
      ⟨match p.value.token? with
        | some kind => ⟨⟨offset, offset + Text.byteLength p.text⟩, kind⟩ :: tokens
        | none => tokens, fault?⟩ := by
  unfold Lexing.prepend
  cases p.value.token? <;> rfl

theorem Cursor.tokensWithin_comesTo {offset n : Nat} {b : Text} (quoting : Bool) (s : Text)
    (hb : b.byteLength = offset) (hn : s.length < n) :
    ComesTo (tokensWithin quoting n) ⟨b, s⟩
      (match lexFrom quoting offset s with
        | ⟨_, some f⟩ => .error f
        | ⟨tokens, none⟩ => .ok (tokens, ⟨b ++ s, []⟩)) := by
  obtain ⟨n, rfl⟩ := Nat.exists_eq_add_one_of_ne_zero (Nat.ne_zero_of_lt hn)
  rw [tokensWithin]
  fun_induction lexFrom quoting offset s generalizing b n with
  | case1 quoting offset =>
    have hend : ¬ (⟨b, []⟩ : Place).index < (⟨b, []⟩ : Place).source.byteLength := by
      simp [Place.source, Place.index]
    refine .get_bind (.read_bind ?_)
    rw [if_neg hend]
    exact .of_eq _ _ (List.append_nil b).symm
  | case2 quoting offset c s f hf =>
    subst hb
    have hlexeme := lexeme_comesTo quoting b c s
    rw [hf] at hlexeme
    refine .get_bind (.read_bind ?_)
    rw [if_pos (Place.index_lt_byteLength b c s)]
    exact hlexeme.bind_error
  | case3 quoting offset c s p hp ih =>
    subst hb
    have hlexeme := lexeme_comesTo quoting b c s
    rw [hp] at hlexeme
    refine .get_bind (.read_bind ?_)
    rw [if_pos (Place.index_lt_byteLength b c s)]
    refine hlexeme.bind (.get_bind ?_)
    have hlt : p.rest.length < n := Nat.lt_of_lt_of_le (scanLexeme_rest_lt hp) (Nat.le_of_lt_succ hn)
    obtain ⟨n, rfl⟩ := Nat.exists_eq_add_one_of_ne_zero (Nat.ne_zero_of_lt hlt)
    have hrest := ih (Text.byteLength_append b p.text) n hlt
    have hplace : b ++ p.text ++ p.rest = b ++ c :: s := by
      rw [List.append_assoc]
      exact congrArg (b ++ ·) (scanLexeme_splits hp).1
    have hstop : (⟨b ++ p.text, p.rest⟩ : Place).index = b.byteLength + Text.byteLength p.text :=
      Place.index_append _ _ _
    revert hrest
    obtain ⟨more, fault?⟩ := lexFrom p.value.quoting (b.byteLength + Text.byteLength p.text) p.rest
    intro hrest
    rw [Lexing.prepend_mk, tokensWithin]
    cases fault? with
    | some f => exact hrest.bind_error
    | none =>
      rw [hplace] at hrest
      refine hrest.bind ?_
      change ComesTo (match p.value.token? with
        | some kind => pure (⟨⟨b.byteLength, (⟨b ++ p.text, p.rest⟩ : Place).index⟩, kind⟩ :: more)
        | none => pure more) _ _
      rw [hstop]
      cases p.value.token? <;> exact .ok _ _

theorem Attempt.tokenize_eq (pattern : Text) : Attempt.tokenize pattern = ofExcept (Grammar.tokenize pattern) := by
  have hstart : Text.byteLength [] = 0 := rfl
  have htokens : ComesTo Cursor.tokens ⟨[], pattern⟩ _ :=
    Cursor.rounds_bind [] pattern fun _ => Cursor.tokensWithin_comesTo false pattern hstart
  have hrun : Attempt.tokenize pattern = (Cursor.tokens pattern 0).map Prod.fst := rfl
  unfold Grammar.tokenize lex
  split
  next f hlex =>
    rw [hlex] at htokens
    rw [hrun, show Cursor.tokens pattern 0 = throw (.fault f) from htokens]
    rfl
  next tokens hlex =>
    rw [hlex] at htokens
    rw [hrun, show Cursor.tokens pattern 0 = pure (tokens, _) from htokens.2]
    rfl

theorem Attempt.parse_eq (pattern : Text) : Attempt.parse pattern = ofExcept (Grammar.parse pattern) := by
  unfold Attempt.parse Grammar.parse
  rw [tokenize_eq]
  cases Grammar.tokenize pattern <;> rfl

end PatternAudit.Grammar
