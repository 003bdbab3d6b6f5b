import PatternAudit.Proofs.AnchorPlaces
import PatternAudit.Proofs.Insertions
import PatternAudit.Proofs.MovedFindings

set_option autoImplicit false

/-!
# Option settings

An option setting takes no character, so a pattern with a setting more has the same misplaced anchor
and matches every message if and only if it did before. For anchors the tokens show it
(`strayAnchor_insert`). For universal matches two builders are followed that look alike to the check:
they do so after the setting, and the next token is no quantifier, so they read on alike (`Alike.run`).
`parse_options` says both of every place between two lexemes.
-/
namespace PatternAudit.Lint

open Grammar (Anchor Atom Builder GroupKind Level Node OpenGroup Quantifier Reads Span Token TokenKind
  ValidFlags lex parse startsWithQuantifier)

/-! Anchors. -/

theorem startsWithQuantifier_cons {t u : Token} (h : t.kind = u.kind) (ts us : List Token) :
    startsWithQuantifier (t :: ts) = startsWithQuantifier (u :: us) := by
  obtain ⟨span, kind⟩ := t
  obtain ⟨span', kind'⟩ := u
  cases h
  cases kind <;> rfl

section

variable {f : Token → Token} (hf : ∀ t, (f t).kind = t.kind)

include hf

theorem startsWithQuantifier_map (ts : List Token) :
    startsWithQuantifier (ts.map f) = startsWithQuantifier ts := by
  cases ts with
  | nil => rfl
  | cons t ts => exact startsWithQuantifier_cons (hf t) _ ts

theorem canTrail_map (t : Token) (ts : List Token) : canTrail (f t) (ts.map f) = canTrail t ts := by
  rw [canTrail, canTrail, hf, startsWithQuantifier_map hf]

theorem onlyTrailing_map (ts : List Token) : onlyTrailing (ts.map f) = onlyTrailing ts := by
  induction ts with
  | nil => rfl
  | cons t ts ih => rw [List.map_cons, onlyTrailing, onlyTrailing, canTrail_map hf, ih]

theorem strayAnchor_map {g : Nat → Nat} {ts : List Token}
    (hg : ∀ t ∈ ts, (f t).span.start = g t.span.start) :
    strayAnchor (ts.map f) = (strayAnchor ts).map g := by
  induction ts with
  | nil => rfl
  | cons t ts ih =>
    rw [List.map_cons, strayAnchor, strayAnchor, hf, onlyTrailing_map hf, hg t List.mem_cons_self,
      ih fun u hu => hg u (List.mem_cons_of_mem t hu)]
    split <;> rfl

end

section

variable {setting : Token} {flags : Text} (hsetting : setting.kind = .atom (.options flags))
  {later : List Token} (hnext : startsWithQuantifier later = false)

include hsetting hnext

theorem startsWithQuantifier_insert (earlier : List Token) :
    startsWithQuantifier (earlier ++ setting :: later) = startsWithQuantifier (earlier ++ later) := by
  cases earlier with
  | nil =>
    obtain ⟨span, kind⟩ := setting
    cases hsetting
    exact hnext.symm
  | cons t ts => exact startsWithQuantifier_cons rfl _ _

theorem onlyTrailing_insert (earlier : List Token) :
    onlyTrailing (earlier ++ setting :: later) = onlyTrailing (earlier ++ later) := by
  induction earlier with
  | nil => simp [onlyTrailing, canTrail, hsetting, hnext]
  | cons t ts ih =>
    rw [List.cons_append, List.cons_append, onlyTrailing, onlyTrailing, ih, canTrail, canTrail,
      startsWithQuantifier_insert hsetting hnext]

theorem strayAnchor_insert (earlier : List Token) :
    strayAnchor (earlier ++ setting :: later) = strayAnchor (earlier ++ later) := by
  induction earlier with
  | nil => simp [strayAnchor, hsetting]
  | cons t ts ih =>
    rw [List.cons_append, List.cons_append, strayAnchor, strayAnchor, ih,
      onlyTrailing_insert hsetting hnext]

end

/-! What the universal check can see. -/

def isUniversal (n : Node) : Bool :=
  (universalPart? n).isSome

theorem isUniversal_group (span : Span) (kind : GroupKind) (body : Node) :
    isUniversal (.group span kind body) = (kind.isTransparent && isUniversal body) := by
  cases hkind : kind.isTransparent <;> simp [isUniversal, universalPart?, hkind]

theorem isUniversal_quantified (span : Span) (body : Node) (q : Quantifier) :
    isUniversal (.quantified span body q) = (isAny body && isBoundless q) := by
  cases h : isAny body && isBoundless q <;> simp [isUniversal, universalPart?, h]

/-- What counts about an item of a concatenation. -/
inductive Role where
  | options
  | anchor (side : Anchor)
  | item (universal : Bool)

def role : Node → Role
  | .atom _ (.options _) => .options
  | .atom _ (.anchor side) => .anchor side
  | n => .item (isCompound n && isUniversal n)

/-- A node that plays the role. -/
def Role.node : Role → Node
  | .options => .atom ⟨0, 0⟩ (.options [])
  | .anchor side => .atom ⟨0, 0⟩ (.anchor side)
  | .item _ => .atom ⟨0, 0⟩ .any

theorem isAnchor_role (n : Node) (side : Anchor) : (role n).node.isAnchor side = n.isAnchor side := by
  cases n with
  | atom span a => cases a <;> rfl
  | _ => rfl

theorem isOptions_role (n : Node) : (role n).node.isOptions = n.isOptions := by
  cases n with
  | atom span a => cases a <;> rfl
  | _ => rfl

def Core.isUniversal : Core Role → Bool
  | .nothing | .single (.item true) => true
  | .anchoredNothing | .single _ | .several => false

theorem isUniversal_single (n : Node) :
    (Core.single (role n)).isUniversal = (isCompound n && Lint.isUniversal n) := by
  have hitem (u : Bool) : (Core.single (Role.item u)).isUniversal = u := by
    cases u <;> rfl
  cases n with
  | atom span a => cases a <;> rfl
  | _ => exact hitem _

theorem coreOf_filter {α : Type} (node : α → Node) (items : List α) :
    coreOf node (items.filter fun x => !(node x).isOptions) = coreOf node items := by
  simp [coreOf, List.filter_filter]

/-- Only the roles of its items decide whether a concatenation is universal. -/
theorem isUniversal_concatenation {ns : List Node} (h : ∀ n ∈ ns, n.IsItem) (offset : Nat) :
    isUniversal (.concatenation offset ns) = (coreOf Role.node (ns.map role)).isUniversal := by
  match ns with
  | [] => rfl
  | [n] =>
    have hitem := h n List.mem_cons_self
    cases n with
    | atom span a => cases a with
      | anchor side => cases side <;> rfl
      | _ => rfl
    | group span kind body => exact (isUniversal_single (.group span kind body)).symm
    | quantified span body q => exact (isUniversal_single (.quantified span body q)).symm
    | _ => exact hitem.elim
  | n :: m :: ns =>
    let found (n : Node) := (n, if isCompound n then universalPart? n else none)
    have hroles := coreOf_map id Role.node role isAnchor_role isOptions_role (n :: m :: ns)
    have hfound := coreOf_map id Prod.fst found (fun _ _ => rfl) (fun _ => rfl) (n :: m :: ns)
    rw [isUniversal, Node.concatenation, universalPart?, universalItems_eq, hfound, hroles]
    cases coreOf id (n :: m :: ns) with
    | single x =>
      rw [Core.map, Core.map, isUniversal_single]
      cases hcompound : isCompound x <;> simp [found, hcompound, isUniversal]
    | _ => rfl

theorem isUniversal_ofBranches {ns : List Node} (h : ns ≠ []) :
    isUniversal (.ofBranches ns) = ns.any isUniversal := by
  have hfirst (ns : List Node) : (firstUniversal? ns).isSome = ns.any isUniversal := by
    induction ns with
    | nil => rfl
    | cons n ns ih => rw [firstUniversal?, Option.isSome_or, ih, List.any_cons, isUniversal]
  rw [← List.any_reverse, Node.ofBranches]
  cases hreverse : ns.reverse with
  | nil => exact absurd (List.reverse_eq_nil_iff.1 hreverse) h
  | cons m ms =>
    cases ms with
    | nil => simp [Node.choice]
    | cons k ms =>
      rw [← hfirst]
      exact Option.isSome_map

/-- What the check can see of a level: whether a finished branch is universal, and the roles of the items
of the branch being read, the latest in front and without option settings. -/
structure Outline where
  universal : Bool
  roles : List Role

def outline (l : Level) : Outline :=
  ⟨l.branches.any isUniversal, (l.items.map role).filter fun r => !r.node.isOptions⟩

namespace Outline

def push (o : Outline) (r : Role) : Outline :=
  if r.node.isOptions then o else { o with roles := r :: o.roles }

theorem push_inj {o o' : Outline} {r : Role} (h : o.push r = o'.push r) : o = o' := by
  obtain ⟨universal, roles⟩ := o
  obtain ⟨universal', roles'⟩ := o'
  unfold push at h
  split at h
  next => exact h
  next =>
    cases h
    rfl

def isUniversal (o : Outline) : Bool :=
  (coreOf Role.node o.roles.reverse).isUniversal || o.universal

end Outline

theorem outline_push (l : Level) (n : Node) : outline (l.push n) = (outline l).push (role n) := by
  cases hoptions : (role n).node.isOptions <;> simp [outline, Level.push, Outline.push, hoptions]

theorem isUniversal_branch {l : Level} (h : ∀ n ∈ l.items, n.IsItem) (offset : Nat) :
    isUniversal (l.branch offset) = (coreOf Role.node (outline l).roles.reverse).isUniversal := by
  have hitems : ∀ n ∈ l.items.reverse, n.IsItem := fun n hn => h n (List.mem_reverse.1 hn)
  rw [Level.branch, isUniversal_concatenation hitems, outline, ← List.filter_reverse, coreOf_filter,
    List.map_reverse]

theorem isUniversal_content {l : Level} (h : ∀ n ∈ l.items, n.IsItem) (stop : Nat) :
    isUniversal (l.content stop) = (outline l).isUniversal := by
  rw [Level.content, isUniversal_ofBranches (List.cons_ne_nil _ _), List.any_cons, isUniversal_branch h]
  rfl

theorem outline_separate {l : Level} (h : ∀ n ∈ l.items, n.IsItem) (offset : Nat) :
    outline (l.separate offset) = ⟨(outline l).isUniversal, []⟩ := by
  rw [outline, Level.separate, List.any_cons, isUniversal_branch h]
  rfl

/-! Builders that look alike. -/

def groupOutline (g : OpenGroup) : GroupKind × Outline :=
  (g.kind, Lint.outline g.outer)

/-- What a quantifier can see of the item it repeats. -/
def glance (n : Node) : Role × Bool × Bool :=
  (role n, isAny n, n.isQuantified)

def latest (b : Builder) : Option (Role × Bool × Bool) :=
  b.level.items.head?.map glance

/-- Builders that the check cannot tell apart, whatever comes next, unless it is a quantifier. -/
structure Alike (b b' : Builder) : Prop where
  level : outline b.level = outline b'.level
  pending : b.pending.map groupOutline = b'.pending.map groupOutline
  normal : b.Normal
  normal' : b'.Normal

theorem isItem_of_normal {b : Builder} (h : b.Normal) : ∀ n ∈ b.level.items, n.IsItem := by
  obtain ⟨k, -, hlevel, -⟩ := h
  exact fun n hn => (hlevel.items n hn).1

theorem glance_atom (span span' : Span) (a : Atom) : glance (.atom span a) = glance (.atom span' a) := by
  cases a <;> rfl

theorem role_group (span : Span) (kind : GroupKind) (body : Node) :
    role (.group span kind body) = .item (kind.isTransparent && isUniversal body) :=
  congrArg Role.item (isUniversal_group span kind body)

theorem role_quantified (span : Span) (body : Node) (q : Quantifier) :
    role (.quantified span body q) = .item (isAny body && isBoundless q) :=
  congrArg Role.item (isUniversal_quantified span body q)

theorem Alike.step {b b' c : Builder} {t t' : Token} (h : Alike b b')
    (hlatest : latest b = latest b' ∨ startsWithQuantifier [t] = false) (hkind : t'.kind = t.kind)
    (hvalid : t.kind.Valid) (hstep : b.Step t c) :
    ∃ c', b'.Step t' c' ∧ Alike c c' ∧ latest c = latest c' := by
  have hnormal := hstep.normal h.normal hvalid
  suffices hnext : ∃ c', b'.Step t' c' ∧ outline c.level = outline c'.level ∧
      c.pending.map groupOutline = c'.pending.map groupOutline ∧ latest c = latest c' by
    obtain ⟨c', hstep', hlevel, hpending, hsame⟩ := hnext
    exact ⟨c', hstep', ⟨hlevel, hpending, hnormal, hstep'.normal h.normal' (hkind ▸ hvalid)⟩, hsame⟩
  obtain ⟨hlevel, hpending, hb, hb'⟩ := h
  have hitems := isItem_of_normal hb
  have hitems' := isItem_of_normal hb'
  obtain ⟨l', pending'⟩ := b'
  obtain ⟨span', kind'⟩ := t'
  cases hstep with
  | atom l pending span a =>
    cases hkind
    have hglance := glance_atom span span' a
    refine ⟨_, .atom l' pending' span' a, ?_, hpending, congrArg some hglance⟩
    rw [outline_push, outline_push, hlevel]
    exact congrArg _ (congrArg Prod.fst hglance)
  | bar l pending span =>
    cases hkind
    refine ⟨_, .bar l' pending' span', ?_, hpending, rfl⟩
    rw [outline_separate hitems, outline_separate hitems', hlevel]
  | quantifier l n pending span q hn =>
    cases hkind
    obtain ⟨branches', items'⟩ := l'
    -- the item that is repeated loses its role, so it must have had the same one in both
    have hsame : some (glance n) = items'.head?.map glance :=
      hlatest.resolve_right (by simp [startsWithQuantifier])
    cases items' with
    | nil => contradiction
    | cons n' items' =>
      obtain ⟨hrole, hrest⟩ := Prod.mk.inj (Option.some.inj hsame)
      obtain ⟨hany, hquantified⟩ := Prod.mk.inj hrest
      have hrepeated : role (.quantified ⟨n.span.start, span.stop⟩ n q) =
          role (.quantified ⟨n'.span.start, span'.stop⟩ n' q) := by
        rw [role_quantified, role_quantified, hany]
      refine ⟨_, .quantifier ⟨branches', items'⟩ n' pending' span' q (hquantified ▸ hn), ?_, hpending, ?_⟩
      · have houtline : outline l = outline ⟨branches', items'⟩ := by
          rw [outline_push] at hlevel
          have hlevel' := hlevel.trans (outline_push ⟨branches', items'⟩ n')
          rw [← hrole] at hlevel'
          exact Outline.push_inj hlevel'
        rw [outline_push, outline_push, houtline, hrepeated]
      · exact congrArg some (Prod.ext hrepeated rfl)
  | groupOpen l pending span kind hdepth =>
    cases hkind
    have hlength : pending.length = pending'.length := by simpa using congrArg List.length hpending
    refine ⟨_, .groupOpen l' pending' span' kind (hlength ▸ hdepth), rfl, ?_, rfl⟩
    simpa [groupOutline] using ⟨hlevel, hpending⟩
  | groupClose l g pending span =>
    cases hkind
    cases pending' with
    | nil => simp at hpending
    | cons g' pending' =>
      obtain ⟨hg, hpending⟩ := List.cons.inj hpending
      obtain ⟨hkind, houter⟩ := Prod.mk.inj hg
      have hrole : role (.group ⟨g.start, span.stop⟩ g.kind (l.content span.start)) =
          role (.group ⟨g'.start, span'.stop⟩ g'.kind (l'.content span'.start)) := by
        rw [role_group, role_group, isUniversal_content hitems, isUniversal_content hitems', hlevel,
          hkind]
      refine ⟨_, .groupClose l' g' pending' span', ?_, hpending, ?_⟩
      · rw [outline_push, outline_push, houter, hrole]
      · exact congrArg some (Prod.ext hrole rfl)

/-- Builders that look alike come to trees that are both universal or both not. -/
theorem Alike.run {f : Token → Token} (hf : ∀ t, (f t).kind = t.kind) {b : Builder} {stop : Nat}
    {ts : List Token} {tree : Node} (hrun : b.run stop ts = .ok tree) {b' : Builder} (h : Alike b b')
    (hlatest : latest b = latest b' ∨ startsWithQuantifier ts = false) (hvalid : ∀ t ∈ ts, t.kind.Valid)
    (stop' : Nat) :
    ∃ tree', b'.run stop' (ts.map f) = .ok tree' ∧ isUniversal tree' = isUniversal tree := by
  refine Builder.run_induct (P := fun b ts => ∀ b', Alike b b' →
    (latest b = latest b' ∨ startsWithQuantifier ts = false) → (∀ t ∈ ts, t.kind.Valid) →
    ∃ tree', b'.run stop' (ts.map f) = .ok tree' ∧ isUniversal tree' = isUniversal tree)
    ?_ ?_ hrun b' h hlatest hvalid
  · rintro l rfl ⟨l', pending'⟩ h - -
    have hpending := h.pending
    cases pending' with
    | cons g' pending' => simp at hpending
    | nil =>
      refine ⟨l'.content stop', rfl, ?_⟩
      rw [isUniversal_content (isItem_of_normal h.normal),
        isUniversal_content (isItem_of_normal h.normal'), h.level]
  · intro b c t ts hstep ih b' h hlatest hvalid
    obtain ⟨ht, hts⟩ := List.forall_mem_cons.1 hvalid
    have hone : latest b = latest b' ∨ startsWithQuantifier [t] = false :=
      hlatest.imp_right (startsWithQuantifier_cons rfl [] ts).trans
    obtain ⟨c', hstep', hc, hsame⟩ := h.step hone (hf t) ht hstep
    obtain ⟨tree', hrun', htree⟩ := ih c' hc (.inl hsame) hts
    exact ⟨tree', (hstep'.run stop' _).trans hrun', htree⟩

/-- So they do if one of them reads an option setting more. -/
theorem Alike.run_insert {f : Token → Token} (hf : ∀ t, (f t).kind = t.kind) {setting : Token}
    {flags : Text} (hsetting : setting.kind = .atom (.options flags)) (hflags : ValidFlags flags)
    {b b' : Builder} {stop : Nat} {earlier later : List Token} {tree : Node}
    (hrun : b.run stop (earlier ++ later) = .ok tree) (h : Alike b b') (hlatest : latest b = latest b')
    (hnext : startsWithQuantifier later = false) (hvalid : ∀ t ∈ earlier ++ later, t.kind.Valid)
    (stop' : Nat) :
    ∃ tree', b'.run stop' (earlier.map f ++ setting :: later.map f) = .ok tree' ∧
      isUniversal tree' = isUniversal tree := by
  induction earlier generalizing b b' with
  | nil =>
    obtain ⟨l', pending'⟩ := b'
    obtain ⟨span, kind⟩ := setting
    cases hsetting
    have hstep : Builder.Step ⟨l', pending'⟩ ⟨span, .atom (.options flags)⟩
        ⟨l'.push (.atom span (.options flags)), pending'⟩ := .atom l' pending' span _
    have halike : Alike b ⟨l'.push (.atom span (.options flags)), pending'⟩ := by
      refine ⟨?_, h.pending, h.normal, hstep.normal h.normal' hflags⟩
      rw [outline_push]
      exact h.level
    obtain ⟨tree', hrun', htree⟩ := halike.run hf hrun (.inr hnext) hvalid stop'
    exact ⟨tree', (hstep.run stop' _).trans hrun', htree⟩
  | cons t ts ih =>
    obtain ⟨c, hc, hrun⟩ := Grammar.exists_of_bind_ok hrun
    obtain ⟨ht, hts⟩ := List.forall_mem_cons.1 hvalid
    obtain ⟨c', hstep', hnextAlike, hsame⟩ := h.step (.inl hlatest) (hf t) ht (Builder.step_of_ok hc)
    obtain ⟨tree', hrun', htree⟩ := ih hrun hnextAlike hsame hts
    exact ⟨tree', (hstep'.run stop' _).trans hrun', htree⟩

/-! Patterns with a setting more. -/

theorem readsAs_options {flags : Text} (hflags : ValidFlags flags) (after : Text) :
    Grammar.ReadsAs ('(' :: '?' :: flags ++ [')']) (.plain (.atom (.options flags))) after := by
  have hopening := Grammar.scanOpening_options hflags after
  refine ⟨'(', '?' :: flags ++ [')'], rfl, ?_⟩
  rw [List.append_assoc, List.singleton_append]
  simp only [Grammar.scanLexeme, Grammar.scanUnquoted, hopening]
  rfl

theorem startsWithQuantifier_lexFrom (offset : Nat) (s : Text) :
    startsWithQuantifier (Grammar.lexFrom false offset s).tokens =
      startsWithQuantifier (lex s).tokens := by
  have hkind : ∀ t : Token, (t.move (offset + ·)).kind = t.kind := fun _ => rfl
  have hmoved := Grammar.lexFrom_move false offset 0 s
  rw [Nat.add_zero] at hmoved
  rw [hmoved]
  exact startsWithQuantifier_map hkind _

theorem misplacedAnchor_of_buildTree {tokens : List Token} {length : Nat} {root : Node}
    (h : Grammar.buildTree tokens length = .ok root) (hvalid : ∀ t ∈ tokens, t.kind.Valid) :
    misplacedAnchor root = strayAnchor tokens := by
  have hnormal := (Grammar.buildTree_normalWithin h hvalid).normal 0
  have hroot := strayAnchor_tokensOf root 0 hnormal [] (.inr rfl)
  rw [List.append_nil, tokensOf, Grammar.buildTree_readOff placed unplaced h,
    strayAnchor_flatMap] at hroot
  simpa [misplacedAnchor, onlyTrailing, strayAnchor] using hroot.symm

/-- The same anchor is misplaced as before, wherever the setting moved it. -/
theorem strayAnchor_makeRoom {place width : Nat} {setting : Token} {flags : Text}
    (hsetting : setting.kind = .atom (.options flags)) {earlier later : List Token}
    (hnext : startsWithQuantifier later = false)
    (hne : ∀ t ∈ earlier ++ later, t.span.start < t.span.stop)
    (hearlier : ∀ t ∈ earlier, t.span.stop ≤ place) (hlater : ∀ t ∈ later, place ≤ t.span.start) :
    strayAnchor (earlier.map (Token.makeRoom place width) ++
        setting :: later.map (Token.makeRoom place width)) =
      (strayAnchor (earlier ++ later)).map fun offset =>
        if offset < place then offset else width + offset := by
  have hkind := Token.kind_makeRoom place width
  have hnext' : startsWithQuantifier (later.map (Token.makeRoom place width)) = false :=
    (startsWithQuantifier_map hkind later).trans hnext
  rw [strayAnchor_insert hsetting hnext', ← List.map_append]
  refine strayAnchor_map hkind fun t ht => Token.start_makeRoom (hne t ht) ?_ width
  exact (List.mem_append.1 ht).imp (hearlier t) (hlater t)

theorem parse_options {before after flags : Text} {root : Node}
    (hparse : parse (before ++ after) = .ok root) (hplace : Reads false before false after)
    (hnext : startsWithQuantifier (lex after).tokens = false) (hflags : ValidFlags flags) :
    let setting := '(' :: '?' :: flags ++ [')']
    ∃ tree, parse (before ++ setting ++ after) = .ok tree ∧
      misplacedAnchor tree = (misplacedAnchor root).map (fun offset =>
        if offset < Text.byteLength before then offset else Text.byteLength setting + offset) ∧
      (universalMatch? (before ++ setting ++ after) tree).isSome =
        (universalMatch? (before ++ after) root).isSome := by
  intro setting
  obtain ⟨tokens, htokens, htree⟩ := Grammar.exists_of_bind_ok hparse
  have hlex := Grammar.tokenize_eq_ok_iff.1 htokens
  obtain ⟨earlier, later, rfl, hlater, hearlier, hinserted⟩ :=
    Grammar.lex_insert hlex hplace rfl (readsAs_options hflags after)
  have hbehind := Grammar.lexFrom_behind hlater
  have hne : ∀ t ∈ earlier ++ later, t.span.start < t.span.stop := by
    have hstart : Grammar.lexFrom false (Text.byteLength []) (before ++ after) =
      ⟨earlier ++ later, none⟩ := hlex
    exact fun t ht => (Grammar.lexFrom_behind hstart t ht).2
  have hlaterNext : startsWithQuantifier later = false := by
    have hsame := startsWithQuantifier_lexFrom (Text.byteLength before) after
    rw [hlater] at hsame
    exact hsame.trans hnext
  have hvalid := Grammar.lex_valid (before ++ after)
  have hvalid' := Grammar.lex_valid (before ++ setting ++ after)
  rw [hlex] at hvalid
  rw [hinserted] at hvalid'
  -- both token lists are built up from nothing, so the builders look alike at the start
  have hfresh : Alike .fresh .fresh := ⟨rfl, rfl, Builder.normal_fresh, Builder.normal_fresh⟩
  have hrun := htree
  rw [Grammar.buildTree_eq_run] at hrun
  have hkind := Token.kind_makeRoom (Text.byteLength before) (Text.byteLength setting)
  have htoken : (Token.mk ⟨Text.byteLength before, Text.byteLength before + Text.byteLength setting⟩
    (.atom (.options flags))).kind = .atom (.options flags) := rfl
  obtain ⟨tree, hrun', huniversal⟩ := Alike.run_insert hkind htoken hflags hrun hfresh rfl hlaterNext
    hvalid (Text.byteLength (before ++ setting ++ after))
  rw [← Grammar.buildTree_eq_run] at hrun'
  have hparse' : parse (before ++ setting ++ after) = .ok tree := by
    rw [parse, Grammar.tokenize_eq_ok_iff.2 hinserted, Grammar.ok_bind]
    exact hrun'
  refine ⟨tree, hparse', ?_, ?_⟩
  · rw [misplacedAnchor_of_buildTree hrun' hvalid', misplacedAnchor_of_buildTree htree hvalid]
    exact strayAnchor_makeRoom rfl hlaterNext hne hearlier fun t ht => (hbehind t ht).1
  · rw [isSome_universalMatch? hparse', isSome_universalMatch? hparse]
    exact huniversal

theorem parse_options_before_anchor :
    let before : Text := ['(']
    let after : Text := ['a', '$', ')', '|', '.', '*']
    let root : Node := .alternation ⟨0, 7⟩ [
      .group ⟨0, 4⟩ .capturing (.sequence ⟨1, 3⟩ [.atom ⟨1, 2⟩ (.char 'a'),
        .atom ⟨2, 3⟩ (.anchor .finish)]),
      .quantified ⟨5, 7⟩ (.atom ⟨5, 6⟩ .any) ⟨.atLeast 0, .greedy⟩]
    let inserted : Text := ['(', '(', '?', 'i', ')', 'a', '$', ')', '|', '.', '*']
    parse (before ++ after) = .ok root ∧ Reads false before false after ∧
      startsWithQuantifier (lex after).tokens = false ∧ ValidFlags ['i'] ∧
      ∃ tree, parse inserted = .ok tree ∧ misplacedAnchor tree = some 6 ∧
        (universalMatch? inserted tree).isSome = true := by
  intro before after root inserted
  have hlex : lex (before ++ after) = ⟨[⟨⟨0, 1⟩, .groupOpen .capturing⟩, ⟨⟨1, 2⟩, .atom (.char 'a')⟩,
      ⟨⟨2, 3⟩, .atom (.anchor .finish)⟩, ⟨⟨3, 4⟩, .groupClose⟩, ⟨⟨4, 5⟩, .bar⟩, ⟨⟨5, 6⟩, .atom .any⟩,
      ⟨⟨6, 7⟩, .quantifier ⟨.atLeast 0, .greedy⟩⟩], none⟩ := by
    decide +kernel
  have hparse : parse (before ++ after) = .ok root := by
    rw [parse, Grammar.tokenize_eq_ok_iff.2 hlex, Grammar.ok_bind, Grammar.buildTree_eq_run]
    rfl
  have hplace : Reads false before false after :=
    .lexeme (c := '(') (s := after) (p := ⟨.plain (.groupOpen .capturing), ['('], after⟩) rfl rfl <|
    .here false after
  have hnext : startsWithQuantifier (lex after).tokens = false := by decide +kernel
  have hflags : ValidFlags ['i'] := ⟨by simp, by simp⟩
  obtain ⟨tree, htree, hanchor, huniversal⟩ := parse_options hparse hplace hnext hflags
  exact ⟨hparse, hplace, hnext, hflags, tree, htree, hanchor, huniversal⟩

end PatternAudit.Lint
