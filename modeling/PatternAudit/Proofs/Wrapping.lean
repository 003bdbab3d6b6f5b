import PatternAudit.Lint.Validation
import PatternAudit.Proofs.Continuation
import PatternAudit.Proofs.MovedFindings

set_option autoImplicit false

/-!
# Patterns in a group

A pattern in parentheses is read as it is alone, only further to the right, and its tree is the content
of one group. `parse_wrapped` says so of groups of every kind, and `Lint.validate_wrapped` says what
becomes of the findings.
-/
namespace PatternAudit.Grammar

theorem startsNoMark_of_parse {pattern : Text} {root : Node} (h : parse pattern = .ok root) :
    StartsNoMark pattern := by
  obtain ⟨tokens, hlex, htree⟩ := parse_eq_ok_iff.1 h
  intro c hc hmark
  obtain ⟨s, rfl⟩ := List.head?_eq_some_iff.1 hc
  obtain ⟨bounds, hscan⟩ : ∃ bounds, scanLexeme false c s = .ok (scanMark c bounds s) := by
    simp only [List.mem_cons, List.not_mem_nil, or_false] at hmark
    rcases hmark with rfl | rfl | rfl
    · exact ⟨_, rfl⟩
    · exact ⟨_, rfl⟩
    · exact ⟨_, rfl⟩
  rw [lex, lexFrom_of_ok hscan] at hlex
  have hfirst : _ = tokens := congrArg Lexing.tokens hlex
  rw [buildTree_eq_run, ← hfirst] at htree
  contradiction

/-- A pattern in a group gives the tokens of the pattern, moved, between those of the group. -/
theorem lex_wrapped {pattern : Text} {tokens : List Token} (hlex : lex pattern = ⟨tokens, none⟩)
    (hquote : Reads false pattern false []) (hmark : StartsNoMark (pattern ++ [')']))
    (hclosed : DirectivesClosed (tokens.map Token.kind)) {kind : GroupKind} (hvalid : kind.Valid) :
    let distance := Text.byteLength ('(' :: kind.body)
    let stop := distance + Text.byteLength pattern
    lex ('(' :: kind.body ++ pattern ++ [')']) =
      ⟨⟨⟨0, distance⟩, .groupOpen kind⟩ ::
        (tokens.map (Token.move (distance + ·)) ++ [⟨⟨stop, stop + 1⟩, .groupClose⟩]), none⟩ := by
  intro distance stop
  have hopening : ReadsAs ('(' :: kind.body) (.plain (.groupOpen kind)) (pattern ++ [')']) := by
    refine ⟨'(', kind.body, rfl, ?_⟩
    simp only [scanLexeme, scanUnquoted, scanOpening_body hvalid hmark]
    rfl
  have hends : EndsLexemes [')'] := by simp [EndsLexemes]
  have hbody := lexFrom_append hlex hquote hends (.inr hclosed) distance
  have hclose : lexFrom false stop [')'] = ⟨[⟨⟨stop, stop + 1⟩, .groupClose⟩], none⟩ := by
    have hscan : scanLexeme false ')' [] = .ok ⟨.plain .groupClose, [')'], []⟩ := rfl
    rw [lexFrom_of_ok hscan, lexFrom_nil]
    rfl
  rw [List.append_assoc, lex, lexFrom_of_readsAs hopening, Nat.zero_add]
  change (lexFrom false distance _).prepend 0 _ = _
  rw [hbody, hclose]
  simp [Lexing.after, Lexing.prepend, Lexeme.plain, distance]

theorem parse_wrapped {pattern : Text} {root : Node} (hparse : parse pattern = .ok root)
    (hnesting : root.nesting < maxNesting) (hquote : Reads false pattern false []) {kind : GroupKind}
    (hvalid : kind.Valid) :
    parse ('(' :: kind.body ++ pattern ++ [')']) =
      .ok (.group ⟨0, Text.byteLength ('(' :: kind.body) + Text.byteLength pattern + 1⟩ kind
        (root.move (Text.byteLength ('(' :: kind.body) + ·))) := by
  obtain ⟨tokens, hlexed, htree⟩ := parse_eq_ok_iff.1 hparse
  rw [buildTree_eq_run] at htree
  have hmark : StartsNoMark (pattern ++ [')']) := by
    have hmark := startsNoMark_of_parse hparse
    cases pattern with
    | nil => simp [StartsNoMark]
    | cons c s => exact hmark
  have hclosed := (Builder.directivesClosed htree).2
  have hlex := lex_wrapped hlexed hquote hmark hclosed hvalid
  generalize Text.byteLength ('(' :: kind.body) = distance at hlex ⊢
  have hmoved := Builder.run_move (distance + ·) (Text.byteLength pattern) .fresh tokens
  rw [htree] at hmoved
  let group : OpenGroup := ⟨0, kind, .fresh⟩
  have hfits : [group].length + (root.move (distance + ·)).nesting ≤ maxNesting := by
    rw [Node.nesting_move, List.length_singleton]
    omega
  obtain ⟨l, hl, hrun⟩ := Builder.run_within hmoved hfits
  have hopen : Builder.step .fresh ⟨⟨0, distance⟩, .groupOpen kind⟩ =
      .ok ⟨.fresh, [group]⟩ := rfl
  rw [parse_eq_run hlex, Builder.run_cons, hopen, ok_bind]
  refine (hrun _ [⟨⟨distance + Text.byteLength pattern, distance + Text.byteLength pattern + 1⟩,
    .groupClose⟩]).trans ?_
  rw [← hl]
  rfl

end PatternAudit.Grammar

namespace PatternAudit.Lint

open Grammar (GroupKind Node Reads parse)

/-- Only a group that counts as transparent passes on that its content matches every message. -/
theorem validate_wrapped {pattern : Text} {root : Node} (hparse : parse pattern = .ok root)
    (hnesting : root.nesting ≤ 249) (hquote : Reads false pattern false []) {kind : GroupKind}
    (hvalid : kind.Valid) (resolve : TypeLookup) :
    ∃ before after, validate resolve pattern = .ok before ∧
      validate resolve ('(' :: kind.body ++ pattern ++ [')']) = .ok after ∧ after.ignored = [] ∧
      after.anchor? = before.anchor?.map (Text.byteLength ('(' :: kind.body) + ·) ∧
      after.universal?.isSome = (kind.isTransparent && before.universal?.isSome) := by
  have hwrapped := Grammar.parse_wrapped hparse (Nat.lt_succ_of_le hnesting) hquote hvalid
  refine ⟨_, _, by rw [validate, hparse]; rfl, by rw [validate, hwrapped]; rfl, rfl, ?_, ?_⟩
  · exact misplacedAnchorIn_move _ true root
  · have hmove := universalPart?_move (f := (Text.byteLength ('(' :: kind.body) + ·))
      (fun i j h => Nat.add_left_cancel h) root
    simp only [analyze]
    rw [isSome_universalMatch? hparse, isSome_universalMatch? hwrapped, universalPart?, hmove]
    cases kind.isTransparent <;> simp

theorem validate_wrapped_named :
    let pattern : Text := ['$', '|', '.', '*']
    let root : Node := .alternation ⟨0, 4⟩ [.atom ⟨0, 1⟩ (.anchor .finish),
      .quantified ⟨2, 4⟩ (.atom ⟨2, 3⟩ .any) ⟨.atLeast 0, .greedy⟩]
    parse pattern = .ok root ∧ Reads false pattern false [] ∧
      ∃ after, validate .builtin ['(', '?', '<', 'é', '>', '$', '|', '.', '*', ')'] = .ok after ∧
        after.ignored = [] ∧ after.anchor? = some 6 ∧ after.universal?.isSome = true := by
  intro pattern root
  have hlex : Grammar.lex pattern = ⟨[⟨⟨0, 1⟩, .atom (.anchor .finish)⟩, ⟨⟨1, 2⟩, .bar⟩,
      ⟨⟨2, 3⟩, .atom .any⟩, ⟨⟨3, 4⟩, .quantifier ⟨.atLeast 0, .greedy⟩⟩], none⟩ := by
    decide +kernel
  have hparse : parse pattern = .ok root := by
    rw [parse, Grammar.tokenize_eq_ok_iff.2 hlex, Grammar.ok_bind, Grammar.buildTree_eq_run]
    rfl
  have hquote : Reads false pattern false [] :=
    .lexeme (c := '$') (s := ['|', '.', '*'])
      (p := ⟨.plain (.atom (.anchor .finish)), ['$'], ['|', '.', '*']⟩) rfl rfl <|
    .lexeme (c := '|') (s := ['.', '*']) (p := ⟨.plain .bar, ['|'], ['.', '*']⟩) rfl rfl <|
    .lexeme (c := '.') (s := ['*']) (p := ⟨.plain (.atom .any), ['.'], ['*']⟩) rfl rfl <|
    .lexeme (c := '*') (s := [])
      (p := ⟨.plain (.quantifier ⟨.atLeast 0, .greedy⟩), ['*'], []⟩) rfl rfl <|
    .here false []
  refine ⟨hparse, hquote, ?_⟩
  have hvalid : (GroupKind.named ['é']).Valid := ⟨'é', [], rfl, by decide +kernel, by simp⟩
  obtain ⟨before, after, hbefore, hafter, hignored, hanchor, huniversal⟩ :=
    validate_wrapped hparse (by decide) hquote hvalid .builtin
  rw [validate, hparse] at hbefore
  cases hbefore
  exact ⟨after, hafter, hignored, hanchor, huniversal⟩

/-- A branch reset group matches what its content matches but does not count as transparent. -/
theorem validate_wrapped_branchReset :
    validate .none ['.', '*'] = .ok ⟨[], none, some ⟨['.', '*'], ['\\', '.', '\\', '*']⟩⟩ ∧
      validate .none ['(', '?', '|', '.', '*', ')'] = .ok ⟨[], none, none⟩ := by
  have hlex : Grammar.lex ['.', '*'] = ⟨[⟨⟨0, 1⟩, .atom .any⟩,
      ⟨⟨1, 2⟩, .quantifier ⟨.atLeast 0, .greedy⟩⟩], none⟩ := by
    decide +kernel
  have hlex' : Grammar.lex ['(', '?', '|', '.', '*', ')'] = ⟨[⟨⟨0, 3⟩, .groupOpen .branchReset⟩,
      ⟨⟨3, 4⟩, .atom .any⟩, ⟨⟨4, 5⟩, .quantifier ⟨.atLeast 0, .greedy⟩⟩,
      ⟨⟨5, 6⟩, .groupClose⟩], none⟩ := by
    decide +kernel
  constructor
  · rw [validate, parse, Grammar.tokenize_eq_ok_iff.2 hlex, Grammar.ok_bind, Grammar.buildTree_eq_run]
    rfl
  · rw [validate, parse, Grammar.tokenize_eq_ok_iff.2 hlex', Grammar.ok_bind, Grammar.buildTree_eq_run]
    rfl

end PatternAudit.Lint
