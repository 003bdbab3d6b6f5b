import PatternAudit.Proofs.Continuation
import PatternAudit.Proofs.RoundTrip
import PatternAudit.Proofs.Tiling

set_option autoImplicit false

/-!
# Insertions into patterns

Where the lexer stands between two lexemes and does not quote, a lexeme in parentheses can be inserted:
the lexemes before it end where they ended, and those after it only move (`lex_insert`). If it is a
comment nothing else happens, and `tokenize_comment` says so of every comment at every such place.
-/
namespace PatternAudit.Grammar

/-- What is read from a place on stands behind it. -/
theorem lexFrom_behind {before after : Text} {tokens : List Token}
    (h : lexFrom false (Text.byteLength before) after = ⟨tokens, none⟩) :
    ∀ t ∈ tokens, Text.byteLength before ≤ t.span.start ∧ t.span.start < t.span.stop := by
  obtain ⟨read, rest, -, htiled, -⟩ := lexFrom_tiled false (Text.byteLength before) after
  rw [h] at htiled
  have htiling := htiled.tiling before rfl rest
  exact fun t ht => ⟨htiled.le_start t ht, htiling.nonempty t ht⟩

/-- The same token when so many bytes come in at a place. -/
def Token.makeRoom (place width : Nat) (t : Token) : Token :=
  if t.span.stop ≤ place then t else t.move (width + ·)

theorem Token.makeRoom_of_le {place : Nat} {t : Token} (h : t.span.stop ≤ place) (width : Nat) :
    t.makeRoom place width = t :=
  if_pos h

theorem Token.makeRoom_of_lt {place : Nat} {t : Token} (h : place < t.span.stop) (width : Nat) :
    t.makeRoom place width = t.move (width + ·) :=
  if_neg (Nat.not_le.2 h)

/-- A token that does not lie across the place starts where its first byte comes to lie. -/
theorem Token.start_makeRoom {place : Nat} {t : Token} (hne : t.span.start < t.span.stop)
    (hside : t.span.stop ≤ place ∨ place ≤ t.span.start) (width : Nat) :
    (t.makeRoom place width).span.start =
      if t.span.start < place then t.span.start else width + t.span.start := by
  rcases hside with hstop | hstart
  · rw [makeRoom_of_le hstop, if_pos (Nat.lt_of_lt_of_le hne hstop)]
  · rw [makeRoom_of_lt (Nat.lt_of_le_of_lt hstart hne), if_neg (Nat.not_lt.2 hstart)]
    rfl

theorem Token.kind_makeRoom (place width : Nat) (t : Token) : (t.makeRoom place width).kind = t.kind := by
  unfold makeRoom
  split <;> rfl

theorem map_kind_makeRoom (place width : Nat) (ts : List Token) :
    (ts.map (Token.makeRoom place width)).map Token.kind = ts.map Token.kind := by
  rw [List.map_map]
  exact List.map_congr_left fun t _ => t.kind_makeRoom place width

/-- The tokens on both sides of a lexeme that is inserted. -/
theorem lex_insert {before mark after : Text} {token? : Option TokenKind} {tokens : List Token}
    (hlex : lex (before ++ after) = ⟨tokens, none⟩) (hreads : Reads false before false after)
    (hopens : mark.head? = some '(') (hmark : ReadsAs mark ⟨token?, false⟩ after) :
    let place := Text.byteLength before
    let width := Text.byteLength mark
    ∃ earlier later : List Token, tokens = earlier ++ later ∧
      lexFrom false place after = ⟨later, none⟩ ∧ (∀ t ∈ earlier, t.span.stop ≤ place) ∧
      lex (before ++ mark ++ after) = ⟨earlier.map (Token.makeRoom place width) ++
        ((token?.map (Token.mk ⟨place, place + width⟩)).toList ++
          later.map (Token.makeRoom place width)), none⟩ := by
  intro place width
  obtain ⟨earlier, -, hstops, hwhole, hreplace⟩ := hreads.exists_tokens
  have hends : EndsLexemes (mark ++ after) := by
    obtain ⟨s, rfl⟩ := List.head?_eq_some_iff.1 hopens
    simp [EndsLexemes]
  have hhead : (mark ++ after).head? = some '(' := by
    rw [List.head?_append, hopens]
    rfl
  have hsame := hwhole 0
  have hinserted := hreplace (mark ++ after) hends (.inl hhead) 0
  rw [map_move_zero, Nat.zero_add] at hsame hinserted
  obtain ⟨later, hlater⟩ : ∃ later, lexFrom false place after = ⟨later, none⟩ := by
    have hfault := congrArg Lexing.fault? (hsame.symm.trans hlex)
    exact ⟨_, congrArg (Lexing.mk _) hfault⟩
  have hmoved := lexFrom_move false width place after
  rw [hlater, Nat.add_comm] at hmoved
  have hearlierRoom : earlier.map (Token.makeRoom place width) = earlier := by
    rw [List.map_congr_left fun t ht => Token.makeRoom_of_le (hstops t ht) width, List.map_id']
  have hlaterRoom : later.map (Token.makeRoom place width) = later.map (Token.move (width + ·)) := by
    refine List.map_congr_left fun t ht => Token.makeRoom_of_lt ?_ width
    have hbehind := lexFrom_behind hlater t ht
    exact Nat.lt_of_le_of_lt hbehind.1 hbehind.2
  refine ⟨earlier, later, ?_, hlater, hstops, ?_⟩
  · rw [hlater] at hsame
    exact (congrArg Lexing.tokens (hsame.symm.trans hlex)).symm
  · rw [List.append_assoc, lex, hinserted, lexFrom_of_readsAs hmark, hmoved, hearlierRoom, hlaterRoom]
    cases token? <;> rfl

/-! Comments. -/

theorem readsAs_comment {note : Text} (hnote : ')' ∉ note) (after : Text) :
    ReadsAs ('(' :: '?' :: '#' :: note ++ [')']) ⟨none, false⟩ after := by
  refine ⟨'(', '?' :: '#' :: note ++ [')'], rfl, ?_⟩
  have hsplit := splitFirst?_append hnote after
  simp only [List.cons_append, List.append_assoc, List.nil_append, scanLexeme, scanUnquoted, scanOpening,
    scanMarkedOpening, hsplit]
  rfl

/-- The kinds of the tokens decide a tree up to its places. -/
theorem buildTree_bare (tokens : List Token) (length : Nat) :
    (buildTree tokens length).toOption.map Node.bare =
      (Builder.fresh.runKinds (tokens.map Token.kind)).toOption := by
  rw [buildTree_eq_run, Builder.bare_run, Builder.runKinds, List.map_map]
  rfl

theorem tokenize_comment {before after note : Text} {tokens : List Token}
    (htokens : tokenize (before ++ after) = .ok tokens) (hplace : Reads false before false after)
    (hnote : ')' ∉ note) :
    let comment := '(' :: '?' :: '#' :: note ++ [')']
    let moved := tokens.map (Token.makeRoom (Text.byteLength before) (Text.byteLength comment))
    tokenize (before ++ comment ++ after) = .ok moved ∧
      moved.map Token.kind = tokens.map Token.kind ∧
      (∀ t ∈ tokens, t.span.stop ≤ Text.byteLength before ∨ Text.byteLength before ≤ t.span.start) ∧
      (parse (before ++ comment ++ after)).toOption.map Node.bare =
        (parse (before ++ after)).toOption.map Node.bare := by
  intro comment moved
  obtain ⟨earlier, later, rfl, hlater, hstops, hlex⟩ :=
    lex_insert (tokenize_eq_ok_iff.1 htokens) hplace rfl (readsAs_comment hnote after)
  have hinserted : tokenize (before ++ comment ++ after) = .ok moved := by
    have hmoved : moved = earlier.map _ ++ later.map _ := List.map_append
    rw [tokenize_eq_ok_iff, hlex, hmoved]
    rfl
  have hkinds : moved.map Token.kind = (earlier ++ later).map Token.kind := map_kind_makeRoom ..
  refine ⟨hinserted, hkinds, fun t ht => ?_, ?_⟩
  · exact (List.mem_append.1 ht).imp (hstops t) fun ht => (lexFrom_behind hlater t ht).1
  · rw [parse, parse, hinserted, htokens, ok_bind, ok_bind, buildTree_bare, buildTree_bare, hkinds]

/-- Behind the opening of a directive a comment makes no group of another kind. -/
theorem tokenize_comment_in_directive :
    let before : Text := ['é', '(', '?']
    let after : Text := ['R', ')', '{', '2', '}', '+']
    let tokens : List Token := [⟨⟨0, 2⟩, .atom (.char 'é')⟩, ⟨⟨2, 4⟩, .groupOpen .directive⟩,
      ⟨⟨4, 5⟩, .atom (.char 'R')⟩, ⟨⟨5, 6⟩, .groupClose⟩,
      ⟨⟨6, 10⟩, .quantifier ⟨.between 2 2, .possessive⟩⟩]
    tokenize (before ++ after) = .ok tokens ∧ Reads false before false after ∧
      tokenize (before ++ ['(', '?', '#', '(', ')'] ++ after) =
        .ok [⟨⟨0, 2⟩, .atom (.char 'é')⟩, ⟨⟨2, 4⟩, .groupOpen .directive⟩,
          ⟨⟨9, 10⟩, .atom (.char 'R')⟩, ⟨⟨10, 11⟩, .groupClose⟩,
          ⟨⟨11, 15⟩, .quantifier ⟨.between 2 2, .possessive⟩⟩] := by
  intro before after tokens
  have hlex : lex (before ++ after) = ⟨tokens, none⟩ := by
    decide +kernel
  have htokens : tokenize (before ++ after) = .ok tokens := tokenize_eq_ok_iff.2 hlex
  have hplace : Reads false before false after :=
    .lexeme (c := 'é') (s := '(' :: '?' :: after)
      (p := ⟨.plain (.atom (.char 'é')), ['é'], '(' :: '?' :: after⟩) rfl rfl <|
    .lexeme (c := '(') (s := '?' :: after)
      (p := ⟨.plain (.groupOpen .directive), ['(', '?'], after⟩) rfl rfl <|
    .here false after
  have hnote : ')' ∉ ['('] := by decide
  exact ⟨htokens, hplace, (tokenize_comment htokens hplace hnote).1⟩

end PatternAudit.Grammar
