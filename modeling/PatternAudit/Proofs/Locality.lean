import PatternAudit.Proofs.Continuation
import PatternAudit.Proofs.Derivation

set_option autoImplicit false

/-!
# Parts of patterns

Each node of a tree has a text of its own, and read alone that text gives the node again. Where the
lexer stands between two tokens, the text from there to the end of a later token gives the same tokens
as in the whole pattern (`lex_of_reads`), since nothing but an open quote carries over from one lexeme
to the next. `parse_node_text` says so of every node of every pattern that never quotes.
-/
namespace PatternAudit.Grammar

/-- The lexer quotes at no place of the pattern. -/
def NeverQuotes (pattern : Text) : Prop :=
  ∀ read rest, pattern = read ++ rest → ¬ Reads false read true rest

theorem NeverQuotes.quoting_eq {read rest : Text} {quoting : Bool} (h : NeverQuotes (read ++ rest))
    (hreads : Reads false read quoting rest) : quoting = false := by
  cases quoting with
  | false => rfl
  | true => exact absurd hreads (h read rest rfl)

/-- Only `\Q` begins to quote. -/
theorem scanUnquoted_quoting {c : Char} {s : Text} {p : Piece Lexeme} (h : scanUnquoted c s = .ok p)
    (hquoting : p.value.quoting = true) : p.text = ['\\', 'Q'] := by
  unfold scanUnquoted at h
  split at h
  next =>
    unfold scanBackslash at h
    split at h
    next => cases h; rfl
    next => cases h; contradiction
    next =>
      split at h
      next => cases h; contradiction
      next => contradiction
  next =>
    obtain ⟨q, -, rfl⟩ := exists_of_map_ok h
    contradiction
  next =>
    split at h
    next => cases h; contradiction
    next => contradiction
  all_goals try (cases h; contradiction)
  next =>
    unfold scanBrace at h
    split at h
    next => contradiction
    next => cases h; contradiction
    next => cases h; contradiction

theorem Reads.quotes {quoting quoting' : Bool} {read rest : Text} (h : Reads quoting read quoting' rest)
    (hfrom : quoting = false) (hto : quoting' = true) : ['\\', 'Q'] <:+: read := by
  induction h with
  | here quoting rest => simp [hfrom] at hto
  | @lexeme quoting quoting' c s read rest p hp hrest h ih =>
    cases hquoting : p.value.quoting with
    | false => exact (ih hquoting hto).trans (List.suffix_append _ _).isInfix
    | true =>
      subst hfrom
      rw [scanUnquoted_quoting hp hquoting]
      exact (List.prefix_append _ _).isInfix

/-- A pattern without `\Q` never quotes. -/
theorem neverQuotes_of_not_infix {pattern : Text} (h : ¬ ['\\', 'Q'] <:+: pattern) :
    NeverQuotes pattern := by
  rintro read rest rfl hreads
  exact h ((hreads.quotes rfl rfl).trans (List.prefix_append _ _).isInfix)

/-! Places between tokens. -/

theorem Reads.trans {quoting quoting' quoting'' : Bool} {read more rest : Text}
    (h : Reads quoting read quoting' (more ++ rest)) (hmore : Reads quoting' more quoting'' rest) :
    Reads quoting (read ++ more) quoting'' rest := by
  generalize hrest : more ++ rest = after at h
  induction h with
  | here quoting after => exact hmore
  | @lexeme quoting quoting' c s read after p hp hafter h ih =>
    subst hrest
    rw [List.append_assoc]
    exact .lexeme hp (by rw [hafter, List.append_assoc]) (ih hmore rfl)

theorem Lexing.of_prepend {offset : Nat} {p : Piece Lexeme} {l : Lexing} {tokens : List Token}
    (h : l.prepend offset p = ⟨tokens, none⟩) :
    (p.value.token? = none ∧ l = ⟨tokens, none⟩) ∨
      ∃ t ts, tokens = t :: ts ∧ t.span = ⟨offset, offset + Text.byteLength p.text⟩ ∧ l = ⟨ts, none⟩ := by
  obtain ⟨ts, fault?⟩ := l
  unfold prepend at h
  split at h
  next kind hkind =>
    cases h
    exact .inr ⟨_, _, rfl, rfl, rfl⟩
  next hnone => exact .inl ⟨hnone, h⟩

/-- The lexer comes from `offset` to `place`, and these tokens are all that is left to read there. -/
def LeavesAt (quoting : Bool) (offset : Nat) (s : Text) (place : Nat) (after : List Token) : Prop :=
  ∃ read rest quoting', s = read ++ rest ∧ Reads quoting read quoting' rest ∧
    place = offset + Text.byteLength read ∧ lexFrom quoting' place rest = ⟨after, none⟩

theorem LeavesAt.here {quoting : Bool} {offset : Nat} {s : Text} {after : List Token}
    (h : lexFrom quoting offset s = ⟨after, none⟩) : LeavesAt quoting offset s offset after :=
  ⟨[], s, quoting, rfl, .here quoting s, rfl, h⟩

theorem LeavesAt.lexeme {quoting : Bool} {offset place : Nat} {c : Char} {r : Text} {p : Piece Lexeme}
    {after : List Token} (hp : scanLexeme quoting c r = .ok p)
    (h : LeavesAt p.value.quoting (offset + Text.byteLength p.text) p.rest place after) :
    LeavesAt quoting offset (c :: r) place after := by
  obtain ⟨read, rest, quoting', hrest, hreads, hplace, hafter⟩ := h
  have hsplits : p.text ++ p.rest = c :: r := (scanLexeme_splits hp).1
  refine ⟨p.text ++ read, rest, quoting', ?_, .lexeme hp hrest hreads, ?_, hafter⟩
  · rw [← hsplits, hrest, List.append_assoc]
  · rw [hplace, Text.byteLength_append, Nat.add_assoc]

/-- After each token there is a place where the lexer has read the tokens up to it and no others. -/
theorem leavesAt_lastStop {quoting : Bool} {offset : Nat} {s : Text} {before after : List Token}
    (h : lexFrom quoting offset s = ⟨before ++ after, none⟩) :
    LeavesAt quoting offset s (lastStop offset before) after := by
  fun_induction lexFrom quoting offset s generalizing before with
  | case1 quoting offset =>
    obtain ⟨rfl, rfl⟩ := List.append_eq_nil_iff.1 (congrArg Lexing.tokens h).symm
    exact .here (lexFrom_nil quoting offset)
  | case2 => exact absurd (congrArg Lexing.fault? h) (by simp)
  | case3 quoting offset c r p hp ih =>
    cases before with
    | nil => exact .here ((lexFrom_of_ok hp offset).trans h)
    | cons t before =>
      rcases Lexing.of_prepend h with ⟨-, hlex⟩ | ⟨u, us, heq, hspan, hlex⟩
      · exact (ih hlex).lexeme hp
      · obtain ⟨rfl, rfl⟩ := List.cons.inj heq
        have hlater := (ih hlex).lexeme hp
        rwa [lastStop, hspan]

/-- What stands for no token can be read before the next token. -/
theorem leavesAt_gap {quoting : Bool} {offset : Nat} {s : Text} {tokens : List Token}
    (h : lexFrom quoting offset s = ⟨tokens, none⟩) :
    LeavesAt quoting offset s (nextOffset (offset + Text.byteLength s) tokens) tokens := by
  fun_induction lexFrom quoting offset s with
  | case1 quoting offset =>
    cases h
    exact .here (lexFrom_nil quoting offset)
  | case2 => cases h
  | case3 quoting offset c r p hp ih =>
    rcases Lexing.of_prepend h with ⟨-, hlex⟩ | ⟨t, ts, rfl, hspan, -⟩
    · have hsplits : p.text ++ p.rest = c :: r := (scanLexeme_splits hp).1
      have hlater := (ih hlex).lexeme hp
      rwa [Nat.add_assoc, ← Text.byteLength_append, hsplits] at hlater
    · rw [nextOffset, hspan]
      exact .here ((lexFrom_of_ok hp offset).trans h)

/-- Before each token there is a place where the lexer has read the tokens before it and no others. -/
theorem leavesAt_nextOffset {quoting : Bool} {offset : Nat} {s : Text} {before after : List Token}
    (h : lexFrom quoting offset s = ⟨before ++ after, none⟩) :
    LeavesAt quoting offset s (nextOffset (offset + Text.byteLength s) after) after := by
  obtain ⟨read, s', quoting', rfl, hread, hplace, hlex⟩ := leavesAt_lastStop h
  obtain ⟨gap, rest, quoting'', rfl, hgap, hplace', hafter⟩ := leavesAt_gap hlex
  rw [Text.byteLength_append, ← Nat.add_assoc, ← hplace]
  refine ⟨read ++ gap, rest, quoting'', (List.append_assoc ..).symm, hread.trans hgap, ?_, hafter⟩
  rw [hplace', hplace, Text.byteLength_append, Nat.add_assoc]

/-- Text cut out where the lexer does not quote gives the tokens that it gives in its place. -/
theorem lex_of_reads {read rest : Text} (h : Reads false read false rest) {offset : Nat}
    {part after : List Token} (hlex : lexFrom false offset (read ++ rest) = ⟨part ++ after, none⟩)
    (hrest : lexFrom false (offset + Text.byteLength read) rest = ⟨after, none⟩)
    (hclosed : DirectivesClosed (part.map Token.kind)) :
    ∃ tokens : List Token, lex read = ⟨tokens, none⟩ ∧ part = tokens.map (Token.move (offset + ·)) := by
  obtain ⟨tokens, -, -, hwhole, halone⟩ := h.exists_tokens
  have hpart : part = tokens.map (Token.move (offset + ·)) := by
    have htokens := (hwhole offset).symm.trans hlex
    rw [hrest] at htokens
    exact (List.append_cancel_right (congrArg Lexing.tokens htokens)).symm
  refine ⟨tokens, ?_, hpart⟩
  have hkinds : part.map Token.kind = tokens.map Token.kind := by
    rw [hpart, List.map_map]
    rfl
  have hread := halone [] (by simp [EndsLexemes]) (.inr (hkinds ▸ hclosed)) 0
  rw [List.append_nil, lexFrom_nil] at hread
  rw [lex, hread, map_move_zero]
  simp [Lexing.after]

/-- The text of a node gives the tokens that the node is built of. -/
theorem Node.CutFrom.exists_tokens {pattern : Text} {tokens : List Token} {n : Node}
    (h : n.CutFrom (Text.byteLength pattern) tokens) (hlex : lex pattern = ⟨tokens, none⟩)
    (hquotes : NeverQuotes pattern) (hfits : n.nesting ≤ maxNesting) :
    ∃ text ts, n.text? pattern = some text ∧ lex text = ⟨ts, none⟩ ∧
      buildTree (ts.map (Token.move (n.span.start + ·))) (n.span.start + Text.byteLength text) =
        .ok n := by
  obtain ⟨before, part, later, l, rfl, hl, hn⟩ := h
  obtain ⟨lead, s, quoting, rfl, hlead, hplace, hs⟩ := leavesAt_nextOffset hlex
  obtain rfl := hquotes.quoting_eq hlead
  have hstart : n.span.start = Text.byteLength lead := by
    rw [hn, hl.start_content, ← nextOffset_append]
    simpa only [Nat.zero_add] using hplace
  rw [hplace, Nat.zero_add, ← hstart] at hs
  -- an empty last branch ends where the next token begins, any other one with its last token
  have hend : LeavesAt false n.span.start s n.span.stop later := by
    by_cases hitems : l.items = []
    · have hstop : n.span.stop = nextOffset (n.span.start + Text.byteLength s) later := by
        rw [hstart, ← Text.byteLength_append, hn, Level.stop_content, Level.branch, hitems]
        rfl
      rw [hstop]
      exact leavesAt_nextOffset hs
    · have hstop : n.span.stop = lastStop n.span.start part := by
        rw [hn, hl.stop_content hitems]
      rw [hstop]
      exact leavesAt_lastStop hs
  obtain ⟨text, after, quoting, rfl, htext, hstop, hlater⟩ := hend
  rw [← List.append_assoc] at hquotes
  obtain rfl := hquotes.quoting_eq (hlead.trans htext)
  have hbuilt : buildTree part n.span.stop = .ok n := by
    have hlevel : l.content n.span.stop = n := by
      rw [hn, l.content_stop]
    rw [← hlevel, l.nesting_content] at hfits
    rw [hl.buildTree hfits, hlevel]
  have hclosed := (Builder.directivesClosed (buildTree_eq_run part _ ▸ hbuilt)).2
  rw [hstop] at hlater hbuilt
  obtain ⟨ts, hlexText, rfl⟩ := lex_of_reads htext hs hlater hclosed
  refine ⟨text, ts, ?_, hlexText, hbuilt⟩
  rw [Node.text?, hstop, hstart, ← List.append_assoc, Text.slice?_append]

theorem parse_node_text {pattern : Text} {root : Node} (hparse : parse pattern = .ok root)
    (hquotes : NeverQuotes pattern) :
    ∀ e ∈ root.preorder 0, ∃ text tree, e.2.text? pattern = some text ∧ parse text = .ok tree ∧
      e.2 = tree.move (e.2.span.start + ·) := by
  obtain ⟨tokens, htokens, htree⟩ := exists_of_bind_ok hparse
  have hlex := tokenize_eq_ok_iff.1 htokens
  have hvalid := lex_valid pattern
  rw [hlex] at hvalid
  have hfits := (buildTree_normalWithin htree hvalid).nesting_le
  intro e he
  have hnesting : e.2.nesting ≤ maxNesting :=
    Nat.le_trans (Node.isIn_of_mem_preorder he).nesting_le hfits
  obtain ⟨text, ts, htext, hlexText, hbuilt⟩ :=
    (cutFrom_of_buildTree htree e he).exists_tokens hlex hquotes hnesting
  obtain ⟨tree, hsame, hmove⟩ := exists_of_buildTree_move _ hbuilt
  refine ⟨text, tree, htext, ?_, hmove⟩
  rw [parse, tokenize_eq_ok_iff.2 hlexText, ok_bind, hsame]

theorem parse_node_text_alternatives :
    let pattern : Text := ['x', '(', 'a', '(', '?', '#', 'c', ')', '*', '|', '{', 'y', '|', ')']
    let body : Node := .alternation ⟨2, 13⟩ [
      .quantified ⟨2, 9⟩ (.atom ⟨2, 3⟩ (.char 'a')) ⟨.atLeast 0, .greedy⟩,
      .sequence ⟨10, 12⟩ [.atom ⟨10, 11⟩ (.char '{'), .atom ⟨11, 12⟩ (.char 'y')], .empty 13]
    parse pattern = .ok (.sequence ⟨0, 14⟩ [.atom ⟨0, 1⟩ (.char 'x'), .group ⟨1, 14⟩ .capturing body]) ∧
      NeverQuotes pattern ∧
      ∃ tree, parse ['a', '(', '?', '#', 'c', ')', '*', '|', '{', 'y', '|'] = .ok tree ∧
        body = tree.move (2 + ·) := by
  intro pattern body
  have hlex : lex pattern = ⟨[⟨⟨0, 1⟩, .atom (.char 'x')⟩, ⟨⟨1, 2⟩, .groupOpen .capturing⟩,
      ⟨⟨2, 3⟩, .atom (.char 'a')⟩, ⟨⟨8, 9⟩, .quantifier ⟨.atLeast 0, .greedy⟩⟩, ⟨⟨9, 10⟩, .bar⟩,
      ⟨⟨10, 11⟩, .atom (.char '{')⟩, ⟨⟨11, 12⟩, .atom (.char 'y')⟩, ⟨⟨12, 13⟩, .bar⟩,
      ⟨⟨13, 14⟩, .groupClose⟩], none⟩ := by
    decide +kernel
  have hparse : parse pattern =
      .ok (.sequence ⟨0, 14⟩ [.atom ⟨0, 1⟩ (.char 'x'), .group ⟨1, 14⟩ .capturing body]) := by
    rw [parse, tokenize_eq_ok_iff.2 hlex, ok_bind, buildTree_eq_run]
    rfl
  have hquotes : NeverQuotes pattern := neverQuotes_of_not_infix (by decide +kernel)
  refine ⟨hparse, hquotes, ?_⟩
  have hbody : (2, body) ∈ Node.preorder 0
      (.sequence ⟨0, 14⟩ [.atom ⟨0, 1⟩ (.char 'x'), .group ⟨1, 14⟩ .capturing body]) := by
    simp [Node.preorder, Node.preorderAll, body]
  obtain ⟨text, tree, htext, htree, hmove⟩ := parse_node_text hparse hquotes (2, body) hbody
  have hcut : body.text? pattern =
      some ['a', '(', '?', '#', 'c', ')', '*', '|', '{', 'y', '|'] := by decide +kernel
  cases hcut.symm.trans htext
  exact ⟨tree, htree, hmove⟩

end PatternAudit.Grammar
