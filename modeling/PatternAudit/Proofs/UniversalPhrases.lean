import PatternAudit.Proofs.JoinedPatterns
import PatternAudit.Proofs.OptionSettings

set_option autoImplicit false

/-!
# Universal patterns among the tokens

The patterns that match every message have a grammar of their own. One of their segments is a unit: take
the option settings away, and what is left between two anchors is nothing, any character repeated without
an upper bound, or a group of such a pattern. `universalMatch_iff_derives` says that the check for
universal matches finds exactly the patterns whose tokens this grammar derives.
-/
namespace PatternAudit.Lint

open Grammar (Anchor Atom GroupKind Level Node Quantifier Span Token buildTree lex maxNesting parse
  startsWithQuantifier)

/-- Some tokens without the option settings that stand outside all groups and are not repeated; `depth`
groups are open in front of them. -/
def withoutSettings (depth : Nat) : List Token → List Token
  | [] => []
  | t :: ts =>
    match t.kind, depth with
    | .atom (.options _), 0 =>
      if startsWithQuantifier ts then t :: withoutSettings 0 ts else withoutSettings 0 ts
    | .groupOpen _, _ => t :: withoutSettings (depth + 1) ts
    | .groupClose, _ => t :: withoutSettings (depth - 1) ts
    | _, _ => t :: withoutSettings depth ts

/-- Tokens that parse and have no bar outside their groups. -/
def IsSegment (ts : List Token) : Prop :=
  ∃ stop tree, buildTree ts stop = .ok tree ∧ tree.branches? = none

def anchorTokens (side : Anchor) (span? : Option Span) : List Token :=
  (span?.map fun span => ⟨span, .atom (.anchor side)⟩).toList

inductive Phrase where
  /-- Segments with bars between them, at least one of which is a unit. -/
  | alternatives
  /-- A core or nothing, perhaps with anchors around it and option settings anywhere. -/
  | unit
  | core

/-- The grammar of universal patterns. -/
inductive Phrase.Derives : Phrase → List Token → Prop where
  | segment {ts : List Token} (hs : IsSegment ts) (h : Derives .unit ts) : Derives .alternatives ts
  | behind {ss ts : List Token} (hs : IsSegment ss) (bar : Span) (h : Derives .alternatives ts) :
    Derives .alternatives (ss ++ ⟨bar, .bar⟩ :: ts)
  | before {ts ss : List Token} (h : Derives .alternatives ts) (bar : Span) (hs : IsSegment ss) :
    Derives .alternatives (ts ++ ⟨bar, .bar⟩ :: ss)
  | bare {ts : List Token} (start? finish? : Option Span)
      (htokens : withoutSettings 0 ts = anchorTokens .start start? ++ anchorTokens .finish finish?)
      (hone : (start?.isSome && finish?.isSome) = false) : Derives .unit ts
  | anchored {ts cs : List Token} (start? finish? : Option Span)
      (htokens : withoutSettings 0 ts =
        anchorTokens .start start? ++ (cs ++ anchorTokens .finish finish?))
      (h : Derives .core cs) : Derives .unit ts
  | repetition (dot mark : Span) {q : Quantifier} (hlo : q.bounds.lo ≤ 1) (hhi : q.bounds.hi? = none) :
    Derives .core [⟨dot, .atom .any⟩, ⟨mark, .quantifier q⟩]
  | group (opening closing : Span) {kind : GroupKind} (hkind : kind.isTransparent = true)
      {ts : List Token} (h : Derives .alternatives ts) :
    Derives .core (⟨opening, .groupOpen kind⟩ :: (ts ++ [⟨closing, .groupClose⟩]))

/-! Tokens without option settings. -/

theorem length_withoutSettings_le (depth : Nat) (ts : List Token) :
    (withoutSettings depth ts).length ≤ ts.length := by
  fun_induction withoutSettings depth ts <;> simp only [List.length_cons, List.length_nil] <;> omega

theorem withoutSettings_inside {l : Level} {ts : List Token} (h : l.MadeOf ts) (depth : Nat)
    (rest : List Token) :
    withoutSettings (depth + 1) (ts ++ rest) = ts ++ withoutSettings (depth + 1) rest := by
  induction h generalizing depth rest with
  | fresh => rfl
  | atom span a h ih | bar span h ih | quantifier span q hn h ih =>
    rw [List.append_assoc, ih]
    simp [withoutSettings]
  | group opening closing kind h hbody ih ihBody =>
    simp only [List.append_assoc, List.cons_append, ih]
    simp [withoutSettings, ihBody]

theorem startsWithQuantifier_itemOf {n : Node} {ts : List Token} (h : n.ItemOf ts) (rest : List Token) :
    startsWithQuantifier (ts ++ rest) = false := by
  induction h generalizing rest with
  | atom span a => rfl
  | quantified span q hn h ih =>
    rw [List.append_assoc]
    exact ih _
  | group opening closing kind h => rfl

/-- An item stays as it is, unless it is an option setting. -/
theorem withoutSettings_itemOf {n : Node} {ts : List Token} (h : n.ItemOf ts) {rest : List Token}
    (hrest : startsWithQuantifier rest = false) :
    withoutSettings 0 (ts ++ rest) =
      (if n.isOptions then [] else ts) ++ withoutSettings 0 rest := by
  cases h with
  | atom span a => cases a <;> simp [withoutSettings, Node.isOptions, hrest]
  | quantified span q hn h =>
    cases h with
    | atom span a => cases a <;> simp [withoutSettings, Node.isOptions, startsWithQuantifier]
    | quantified span q hn h => contradiction
    | group opening closing kind h =>
      simp [withoutSettings, withoutSettings_inside h, Node.isOptions]
  | group opening closing kind h => simp [withoutSettings, withoutSettings_inside h, Node.isOptions]

theorem startsWithQuantifier_itemsOf {ns : List Node} {ts : List Token} (h : Node.ItemsOf ns ts) :
    startsWithQuantifier ts = false := by
  cases h with
  | nil => rfl
  | cons hn hns => exact startsWithQuantifier_itemOf hn _

theorem withoutSettings_itemsOf {ns : List Node} {ts : List Token} (h : Node.ItemsOf ns ts) :
    Node.ItemsOf (withoutOptions ns) (withoutSettings 0 ts) := by
  induction h with
  | nil => exact .nil
  | @cons n ns ts us hn hns ih =>
    rw [withoutSettings_itemOf hn (startsWithQuantifier_itemsOf hns)]
    cases hoptions : n.isOptions with
    | true => simpa [withoutOptions, hoptions] using ih
    | false => simpa [withoutOptions, hoptions] using Node.ItemsOf.cons hn ih

theorem itemsOf_anchorNodes {side : Anchor} {span? : Option Span} {ts : List Token} :
    Node.ItemsOf (anchorNodes side span?) ts ↔ ts = anchorTokens side span? := by
  cases span? with
  | none =>
    constructor
    · intro h
      cases h
      rfl
    · rintro rfl
      exact .nil
  | some span =>
    refine Node.itemsOf_singleton.trans ⟨fun h => ?_, ?_⟩
    · cases h
      rfl
    · rintro rfl
      exact .atom span _

theorem itemsOf_anchored {n : Node} {start? finish? : Option Span} {ts : List Token} :
    Node.ItemsOf (anchorNodes .start start? ++ n :: anchorNodes .finish finish?) ts ↔
      ∃ cs, ts = anchorTokens .start start? ++ (cs ++ anchorTokens .finish finish?) ∧ n.ItemOf cs := by
  rw [Node.itemsOf_append, ← List.singleton_append]
  simp only [Node.itemsOf_append, Node.itemsOf_singleton, itemsOf_anchorNodes]
  constructor
  · rintro ⟨_, _, rfl, rfl, cs, _, rfl, hn, rfl⟩
    exact ⟨cs, rfl, hn⟩
  · rintro ⟨cs, rfl, hn⟩
    exact ⟨_, _, rfl, rfl, cs, _, rfl, hn, rfl⟩

theorem itemsOf_anchors {start? finish? : Option Span} {ts : List Token} :
    Node.ItemsOf (anchorNodes .start start? ++ anchorNodes .finish finish?) ts ↔
      ts = anchorTokens .start start? ++ anchorTokens .finish finish? := by
  simp only [Node.itemsOf_append, itemsOf_anchorNodes]
  constructor
  · rintro ⟨_, _, rfl, rfl, rfl⟩
    rfl
  · rintro rfl
    exact ⟨_, _, rfl, rfl, rfl⟩

theorem nestingAll_withoutOptions_le (ns : List Node) :
    Node.nestingAll (withoutOptions ns) ≤ Node.nestingAll ns := by
  refine Node.nestingAll_le fun n hn => ?_
  exact Node.nestingAll_le_iff.1 (Nat.le_refl _) n (List.mem_filter.1 hn).1

/-! Universal concatenations. -/

theorem coreOf_anchors (start? finish? : Option Span) :
    coreOf id (anchorNodes .start start? ++ anchorNodes .finish finish?) =
      if start?.isSome && finish?.isSome then .anchoredNothing else .nothing := by
  cases start? <;> cases finish? <;> rfl

theorem coreOf_anchored {n : Node} (hn : isCompound n = true) (start? finish? : Option Span) :
    coreOf id (anchorNodes .start start? ++ n :: anchorNodes .finish finish?) = .single n := by
  cases n with
  | group span kind body => cases start? <;> cases finish? <;> rfl
  | alternation span branches => cases start? <;> cases finish? <;> rfl
  | quantified span body q => cases start? <;> cases finish? <;> rfl
  | _ => contradiction

/-- Anchors and perhaps one item that is universal itself. -/
theorem isUniversal_concatenation_iff {ns : List Node} (h : ∀ n ∈ ns, n.IsItem) (offset : Nat) :
    isUniversal (.concatenation offset ns) = true ↔ ∃ start? finish?,
      (withoutOptions ns = anchorNodes .start start? ++ anchorNodes .finish finish? ∧
        (start?.isSome && finish?.isSome) = false) ∨
      ∃ n, withoutOptions ns = anchorNodes .start start? ++ n :: anchorNodes .finish finish? ∧
        isCompound n = true ∧ isUniversal n = true := by
  have hsettings : coreOf id (withoutOptions ns) = coreOf id ns := coreOf_filter id ns
  rw [isUniversal_concatenation h, coreOf_map id Role.node role isAnchor_role isOptions_role]
  constructor
  · intro huniversal
    obtain ⟨start?, finish?, core, -, hitems, hcore⟩ := coreOf_eq id ns
    rw [List.map_id] at hitems
    rw [hcore] at huniversal
    refine ⟨start?, finish?, ?_⟩
    match core with
    | [] =>
      cases hboth : start?.isSome && finish?.isSome with
      | true => simp [hboth, Core.map, Core.isUniversal] at huniversal
      | false => exact .inl ⟨by simpa using hitems, rfl⟩
    | [n] =>
      rw [Core.map, isUniversal_single, Bool.and_eq_true] at huniversal
      exact .inr ⟨n, by simpa using hitems, huniversal⟩
    | _ :: _ :: _ => contradiction
  · rw [← hsettings]
    rintro ⟨start?, finish?, ⟨hitems, hone⟩ | ⟨n, hitems, hcompound, huniversal⟩⟩
    · rw [hitems, coreOf_anchors, hone]
      rfl
    · rw [hitems, coreOf_anchored hcompound, Core.map, isUniversal_single, hcompound, huniversal]
      rfl

theorem isUniversal_alternatives (span : Span) (m n : Node) :
    isUniversal (.alternation span (m.alternatives ++ n.alternatives)) =
      (isUniversal m || isUniversal n) := by
  simp [isUniversal, universalPart?, firstUniversal?_append, isSome_firstUniversal?_alternatives]

/-! What the phrases derive is universal. -/

theorem isSegment_iff {ts : List Token} :
    IsSegment ts ↔ ∃ ns, Node.ItemsOf ns ts ∧ Node.nestingAll ns ≤ maxNesting := by
  constructor
  · rintro ⟨stop, tree, htree, hbranches⟩
    obtain ⟨l, hl, rfl⟩ := Grammar.exists_level_of_buildTree htree
    have halternatives := hl.alternatives_content stop
    obtain ⟨branches, items⟩ := l
    have hone : branches = [] := by
      rw [Node.alternatives, hbranches] at halternatives
      simpa using (congrArg List.length halternatives).symm
    subst hone
    obtain ⟨hfits, -⟩ := hl.of_buildTree htree
    refine ⟨items.reverse, Level.madeOf_iff_itemsOf.1 hl, ?_⟩
    rw [Node.nestingAll_reverse]
    exact Nat.le_trans (Nat.le_max_left _ _) hfits
  · rintro ⟨ns, hns, hfits⟩
    exact ⟨0, _, hns.buildTree hfits 0, Node.branches?_concatenation hns.isItem 0⟩

/-- What the tokens of a phrase make up. -/
def Phrase.Universal : Phrase → List Token → Prop
  | .alternatives, ts => ∀ stop, ∃ l : Level, l.MadeOf ts ∧ isUniversal (l.content stop) = true
  | .unit, ts => ∀ ns, Node.ItemsOf ns ts → Node.nestingAll ns ≤ maxNesting →
    ∀ offset, isUniversal (.concatenation offset ns) = true
  | .core, ts => ∃ n : Node, n.ItemOf ts ∧ isCompound n = true ∧ isUniversal n = true

theorem Phrase.Derives.universal {phrase : Phrase} {ts : List Token} (h : phrase.Derives ts) :
    phrase.Universal ts := by
  induction h with
  | segment hs h ih =>
    intro stop
    obtain ⟨ns, hns, hfits⟩ := isSegment_iff.1 hs
    refine ⟨⟨[], ns.reverse⟩, hns.madeOf, ?_⟩
    rw [Level.content_of_items, List.reverse_reverse]
    exact ih ns hns hfits stop
  | behind hs bar h ih =>
    intro stop
    obtain ⟨_, tree, htree, -⟩ := hs
    obtain ⟨segment, hsegment, -⟩ := Grammar.exists_level_of_buildTree htree
    obtain ⟨l, hl, huniversal⟩ := ih stop
    obtain ⟨joined, hjoined, hcontent⟩ := hsegment.exists_joined hl bar stop
    exact ⟨joined, hjoined, by rw [hcontent, isUniversal_alternatives, huniversal, Bool.or_true]⟩
  | before h bar hs ih =>
    intro stop
    obtain ⟨_, tree, htree, -⟩ := hs
    obtain ⟨segment, hsegment, -⟩ := Grammar.exists_level_of_buildTree htree
    obtain ⟨l, hl, huniversal⟩ := ih bar.start
    obtain ⟨joined, hjoined, hcontent⟩ := hl.exists_joined hsegment bar stop
    exact ⟨joined, hjoined, by rw [hcontent, isUniversal_alternatives, huniversal, Bool.true_or]⟩
  | @bare ts start? finish? htokens hone =>
    intro ns hns hfits offset
    have hkept := withoutSettings_itemsOf hns
    have hanchors := itemsOf_anchors.2 htokens
    have hsame := hkept.unique (Nat.le_trans (nestingAll_withoutOptions_le ns) hfits) hanchors
    exact (isUniversal_concatenation_iff hns.isItem offset).2 ⟨start?, finish?, .inl ⟨hsame, hone⟩⟩
  | @anchored ts cs start? finish? htokens h ih =>
    intro ns hns hfits offset
    obtain ⟨n, hn, hcompound, huniversal⟩ := ih
    have hkept := withoutSettings_itemsOf hns
    have hanchored := itemsOf_anchored.2 ⟨cs, htokens, hn⟩
    have hsame := hkept.unique (Nat.le_trans (nestingAll_withoutOptions_le ns) hfits) hanchored
    exact (isUniversal_concatenation_iff hns.isItem offset).2
      ⟨start?, finish?, .inr ⟨n, hsame, hcompound, huniversal⟩⟩
  | @repetition dot mark q hlo hhi =>
    refine ⟨_, .quantified mark q rfl (.atom dot .any), rfl, ?_⟩
    rw [isUniversal_quantified]
    simp [isAny, isBoundless, Grammar.Bounds.isUnbounded, hlo, hhi]
  | @group opening closing kind hkind ts h ih =>
    obtain ⟨l, hl, huniversal⟩ := ih closing.start
    refine ⟨_, .group opening closing kind hl, rfl, ?_⟩
    rw [isUniversal_group, hkind, huniversal]
    rfl

/-! Whatever is universal is derived. -/

theorem isSegment_of_madeOf {items : List Node} {ts : List Token} (h : Level.MadeOf ⟨[], items⟩ ts)
    (hfits : Node.nestingAll items ≤ maxNesting) : IsSegment ts :=
  isSegment_iff.2 ⟨_, Level.madeOf_iff_itemsOf.1 h, by rwa [Node.nestingAll_reverse]⟩

section

variable {l earlier : Level} {offset : Nat} (h : l.branches = (earlier.separate offset).branches)

include h

theorem isUniversal_last_bar (stop : Nat) :
    isUniversal (l.content stop) =
      (isUniversal (l.branch stop) || isUniversal (earlier.content offset)) := by
  rw [Level.content, Level.content, isUniversal_ofBranches (List.cons_ne_nil _ _),
    isUniversal_ofBranches (List.cons_ne_nil _ _), List.any_cons, h]
  rfl

theorem nesting_last_bar : earlier.nesting ≤ l.nesting := by
  rw [← Level.nesting_separate earlier offset, Level.nesting, ← h]
  exact Nat.max_le.2 ⟨Nat.zero_le _, Nat.le_max_right _ _⟩

end

/-- Any segments may stand in front of alternatives. -/
theorem derives_behind {earlier : Level} {ts us : List Token} (h : earlier.MadeOf ts)
    (hfits : earlier.nesting ≤ maxNesting) (bar : Span) (hus : Phrase.alternatives.Derives us) :
    Phrase.alternatives.Derives (ts ++ ⟨bar, .bar⟩ :: us) := by
  have hitems := Nat.le_trans (Nat.le_max_left _ _) hfits
  rcases h.last_bar with hone | ⟨first, before, last, bar', rfl, hfirst, hbranches, hlast⟩
  · obtain ⟨branches, items⟩ := earlier
    cases hone
    exact .behind (isSegment_of_madeOf h hitems) bar hus
  · -- the last segment in front of the bar first, then those before it
    have hrest := Phrase.Derives.behind (isSegment_of_madeOf hlast hitems) bar hus
    rw [List.append_assoc]
    exact derives_behind hfirst (Nat.le_trans (nesting_last_bar hbranches) hfits) bar' hrest
termination_by ts.length
decreasing_by
  simp_all only [List.length_append, List.length_cons]
  omega

section

variable {ts : List Token}

/-- The same for all shorter token lists. -/
def DerivesShorter (ts : List Token) : Prop :=
  ∀ (us : List Token) (l : Level) (stop : Nat), us.length < ts.length → l.MadeOf us →
    l.nesting ≤ maxNesting → isUniversal (l.content stop) = true → Phrase.alternatives.Derives us

theorem derives_core {n : Node} (hn : n.ItemOf ts) (hfits : n.nesting ≤ maxNesting)
    (hcompound : isCompound n = true) (huniversal : isUniversal n = true) (ih : DerivesShorter ts) :
    Phrase.core.Derives ts := by
  cases hn with
  | atom span a => contradiction
  | @quantified m us span q hm hitem =>
    rw [isUniversal_quantified, Bool.and_eq_true] at huniversal
    obtain ⟨hany, hq⟩ := huniversal
    simp only [isBoundless, Bool.and_eq_true, decide_eq_true_eq, Grammar.Bounds.isUnbounded,
      Option.isNone_iff_eq_none] at hq
    unfold isAny at hany
    split at hany
    next =>
      cases hitem
      exact .repetition _ span hq.1 hq.2
    next => contradiction
  | @group body us opening closing kind hbody =>
    rw [isUniversal_group, Bool.and_eq_true] at huniversal
    rw [Node.nesting, Level.nesting_content] at hfits
    have hshorter : us.length <
        (⟨opening, .groupOpen kind⟩ :: (us ++ [⟨closing, .groupClose⟩]) : List Token).length := by
      simp only [List.length_cons, List.length_append]
      omega
    exact .group opening closing huniversal.1
      (ih us body closing.start hshorter hbody (Nat.le_of_succ_le hfits) huniversal.2)

theorem derives_unit {ns : List Node} (hns : Node.ItemsOf ns ts)
    (hfits : Node.nestingAll ns ≤ maxNesting) {offset : Nat}
    (huniversal : isUniversal (.concatenation offset ns) = true) (ih : DerivesShorter ts) :
    Phrase.unit.Derives ts := by
  have hkept := withoutSettings_itemsOf hns
  obtain ⟨start?, finish?, ⟨hitems, hone⟩ | ⟨n, hitems, hcompound, huniversal⟩⟩ :=
    (isUniversal_concatenation_iff hns.isItem offset).1 huniversal
  · rw [hitems, itemsOf_anchors] at hkept
    exact .bare start? finish? hkept hone
  · have hmem : n ∈ ns := by
      have hn : n ∈ withoutOptions ns := by simp [hitems]
      exact (List.mem_filter.1 hn).1
    rw [hitems, itemsOf_anchored] at hkept
    obtain ⟨cs, htokens, hn⟩ := hkept
    have hlength : cs.length ≤ ts.length := by
      have hle := length_withoutSettings_le 0 ts
      rw [htokens] at hle
      simp only [List.length_append] at hle
      omega
    have hinside := Node.nestingAll_le_iff.1 hfits n hmem
    refine .anchored start? finish? htokens (derives_core hn hinside hcompound huniversal ?_)
    exact fun us l stop hus => ih us l stop (Nat.lt_of_lt_of_le hus hlength)

end

theorem derives_alternatives {l : Level} {ts : List Token} (h : l.MadeOf ts)
    (hfits : l.nesting ≤ maxNesting) {stop : Nat} (huniversal : isUniversal (l.content stop) = true) :
    Phrase.alternatives.Derives ts := by
  -- by the number of tokens: what stands in a group or in front of the last bar has fewer
  have hitems := Nat.le_trans (Nat.le_max_left _ _) hfits
  have hunit {us : List Token} (hus : Level.MadeOf ⟨[], l.items⟩ us) (hle : us.length ≤ ts.length)
      (hbranch : isUniversal (l.branch stop) = true) : Phrase.alternatives.Derives us := by
    have hns := Level.madeOf_iff_itemsOf.1 hus
    refine .segment (isSegment_of_madeOf hus hitems)
      (derives_unit hns (by rwa [Node.nestingAll_reverse]) hbranch ?_)
    intro vs k stop' hshorter hk hkfits hkuniversal
    have hdecreases : vs.length < ts.length := Nat.lt_of_lt_of_le hshorter hle
    exact derives_alternatives hk hkfits hkuniversal
  rcases h.last_bar with hone | ⟨earlier, before, us, bar, hts, hearlier, hbranches, hlast⟩
  · obtain ⟨branches, items⟩ := l
    cases hone
    exact hunit h (Nat.le_refl _) huniversal
  · have hearlierFits := Nat.le_trans (nesting_last_bar hbranches) hfits
    have hlength : ts.length = before.length + (us.length + 1) := by
      rw [hts, List.length_append, List.length_cons]
    rw [isUniversal_last_bar hbranches, Bool.or_eq_true] at huniversal
    rw [hts]
    rcases huniversal with hbranch | hcontent
    · exact derives_behind hearlier hearlierFits bar (hunit hlast (by omega) hbranch)
    · exact .before (derives_alternatives hearlier hearlierFits hcontent) bar
        (isSegment_of_madeOf hlast hitems)
termination_by ts.length

theorem universalMatch_iff_derives {pattern : Text} {root : Node} (h : parse pattern = .ok root) :
    (universalMatch? pattern root).isSome = true ↔ Phrase.alternatives.Derives (lex pattern).tokens := by
  obtain ⟨tokens, hlex, htree⟩ := Grammar.parse_eq_ok_iff.1 h
  rw [isSome_universalMatch? h, hlex]
  constructor
  · intro huniversal
    obtain ⟨l, hl, rfl⟩ := Grammar.exists_level_of_buildTree htree
    exact derives_alternatives hl (hl.of_buildTree htree).1 huniversal
  · intro hderives
    obtain ⟨l, hl, huniversal⟩ := hderives.universal (Text.byteLength pattern)
    rw [← (hl.of_buildTree htree).2]
    exact huniversal

/-- A group of alternatives between anchors, with an option setting in front of it. -/
theorem universalMatch_iff_derives_anchored_group :
    let p : Text := ['a', '|', '^', '(', '?', 'i', ')', '(', 'b', '|', '.', '+', ')', '$']
    let root : Node := .alternation ⟨0, 14⟩ [.atom ⟨0, 1⟩ (.char 'a'), .sequence ⟨2, 14⟩
      [.atom ⟨2, 3⟩ (.anchor .start), .atom ⟨3, 7⟩ (.options ['i']),
        .group ⟨7, 13⟩ .capturing (.alternation ⟨8, 12⟩ [.atom ⟨8, 9⟩ (.char 'b'),
          .quantified ⟨10, 12⟩ (.atom ⟨10, 11⟩ .any) ⟨.atLeast 1, .greedy⟩]),
        .atom ⟨13, 14⟩ (.anchor .finish)]]
    parse p = .ok root ∧ Phrase.alternatives.Derives (lex p).tokens ∧
      (universalMatch? p root).isSome = true := by
  intro p root
  let letter (offset : Nat) (c : Char) : Token := ⟨⟨offset, offset + 1⟩, .atom (.char c)⟩
  let repetition : List Token :=
    [⟨⟨10, 11⟩, .atom .any⟩, ⟨⟨11, 12⟩, .quantifier ⟨.atLeast 1, .greedy⟩⟩]
  let group : List Token := ⟨⟨7, 8⟩, .groupOpen .capturing⟩ ::
    ([letter 8 'b'] ++ ⟨⟨9, 10⟩, .bar⟩ :: repetition ++ [⟨⟨12, 13⟩, .groupClose⟩])
  let branch : List Token := ⟨⟨2, 3⟩, .atom (.anchor .start)⟩ :: ⟨⟨3, 7⟩, .atom (.options ['i'])⟩ ::
    (group ++ [⟨⟨13, 14⟩, .atom (.anchor .finish)⟩])
  have hlex : lex p = ⟨[letter 0 'a'] ++ ⟨⟨1, 2⟩, .bar⟩ :: branch, none⟩ := by decide +kernel
  have hparse : parse p = .ok root := by
    rw [Grammar.parse_eq_run hlex]
    rfl
  have hsegment {ts : List Token} {tree : Node} (h : Grammar.Builder.run 0 .fresh ts = .ok tree)
      (hbranches : tree.branches? = none) : IsSegment ts :=
    ⟨0, tree, (Grammar.buildTree_eq_run ts 0).trans h, hbranches⟩
  have hrepetition : Phrase.alternatives.Derives repetition :=
    .segment (hsegment rfl rfl) <|
    .anchored none none rfl (.repetition _ _ (by decide) rfl)
  have hgroup : Phrase.core.Derives group :=
    .group _ _ rfl (.behind (hsegment rfl rfl) _ hrepetition)
  have hbranch : Phrase.alternatives.Derives branch :=
    .segment (hsegment rfl rfl) (.anchored (some ⟨2, 3⟩) (some ⟨13, 14⟩) rfl hgroup)
  have hderives : Phrase.alternatives.Derives (lex p).tokens := by
    rw [hlex]
    exact .behind (hsegment rfl rfl) _ hbranch
  exact ⟨hparse, hderives, (universalMatch_iff_derives hparse).2 hderives⟩

end PatternAudit.Lint
