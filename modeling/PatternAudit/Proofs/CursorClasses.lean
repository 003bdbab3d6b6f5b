import PatternAudit.Proofs.CursorEscapes

set_option autoImplicit false

/-!
# Classes by position

The members of a class one after the other, with the step back where a range turns out to be none: a class reads the
same by position as from the front of a text (`Cursor.charClass_comesTo`).
-/
namespace PatternAudit.Grammar

theorem scanPosix?_close_eq (negated : Bool) (lead s : Text) :
    scanPosix?.close negated lead s =
      if Text.byteLength (s.takeWhile Char.isAlpha) = 0 || !(List.isPrefixOf [':', ']'] (s.dropWhile Char.isAlpha)) then
        none
      else some ⟨.posix negated (s.takeWhile Char.isAlpha), lead ++ s.takeWhile Char.isAlpha ++ [':', ']'],
        (s.dropWhile Char.isAlpha).drop 2⟩ := by
  unfold scanPosix?.close
  split
  next hname => simp [hname]
  next rest hrest hname =>
    have hpos := Text.byteLength_pos fun h => hname h
    rw [hrest, if_neg (by simp; omega)]
    rfl
  next hname hclose =>
    refine (if_pos ?_).symm
    rw [Bool.or_eq_true, Bool.not_eq_true']
    refine .inr (Bool.eq_false_iff.2 fun hprefix => ?_)
    obtain ⟨rest, hrest⟩ := List.isPrefixOf_iff_prefix.1 hprefix
    exact hclose rest hrest.symm

namespace Cursor

/-- The name of a set up to its closing colon and bracket, from behind the marks that begin it. -/
theorem posixName_comesTo (b lead body : Text) (negated : Bool)
    (hlead : lead.byteLength = 1 + if negated then 1 else 0) :
    ComesTo (do
      let length := Text.byteLength (body.takeWhile Char.isAlpha)
      let (name, after) ← orPanic (Text.splitAt? body length)
      if length = 0 || !(List.isPrefixOf [':', ']'] after) then return none
      else
        advance (1 + (if negated then 1 else 0) + length + 2)
        return some (.posix negated name))
      ⟨b, lead ++ body⟩
      (.ok (match scanPosix?.close negated lead body with
        | some q => (some q.value, ⟨b ++ q.text, q.rest⟩)
        | none => (none, ⟨b, lead ++ body⟩))) := by
  have hbody := List.takeWhile_append_dropWhile (p := Char.isAlpha) (l := body)
  have hcut := Text.splitAt?_append (body.takeWhile Char.isAlpha) (body.dropWhile Char.isAlpha)
  rw [hbody] at hcut
  refine (orPanic_comesTo hcut _).bind ?_
  dsimp only
  rw [scanPosix?_close_eq]
  split
  next => exact .ok _ _
  next hclose =>
    simp only [Bool.not_eq_true, Bool.or_eq_false_iff, Bool.not_eq_false'] at hclose
    obtain ⟨rest, hrest⟩ := List.isPrefixOf_iff_prefix.1 hclose.2
    rw [← hrest] at hbody ⊢
    have hadvance := advance_comesTo b (lead ++ body.takeWhile Char.isAlpha ++ [':', ']']) rest
    have hlength : Text.byteLength (lead ++ body.takeWhile Char.isAlpha ++ [':', ']']) =
        (1 + if negated then 1 else 0) + Text.byteLength (body.takeWhile Char.isAlpha) + 2 := by
      rw [Text.byteLength_append, Text.byteLength_append, hlead]
      rfl
    have hplace : lead ++ body.takeWhile Char.isAlpha ++ [':', ']'] ++ rest = lead ++ body := by
      rw [List.append_assoc, List.append_assoc, hbody]
    rw [hlength, hplace] at hadvance
    exact hadvance.bind (.ok _ _)

theorem posix?_comesTo (b s : Text) :
    ComesTo posix? ⟨b, ':' :: s⟩
      (.ok (match scanPosix? (':' :: s) with
        | some q => (some q.value, ⟨b ++ q.text, q.rest⟩)
        | none => (none, ⟨b, ':' :: s⟩))) := by
  refine (rest_comesTo b _).bind ((orPanic_comesTo (Text.splitAt?_append [':'] s) _).bind ?_)
  by_cases hcaret : s.head? = some '^'
  · obtain ⟨s, rfl⟩ := List.head?_eq_some_iff.1 hcaret
    exact posixName_comesTo b [':', '^'] s true rfl
  · have hhead : (s.head? == some '^') = false := by simpa using hcaret
    have hscan : scanPosix? (':' :: s) = scanPosix?.close false [':'] s := by
      rw [scanPosix?]
      rintro t rfl
      exact hcaret rfl
    dsimp only
    rw [hscan, hhead]
    exact posixName_comesTo b [':'] s false rfl

theorem startsRange_comesTo (b s : Text) :
    ComesTo startsRange ⟨b, s⟩ (.ok (s.head? == some '-' && s[1]?.any (· != ']'), ⟨b, s⟩)) :=
  (peek_comesTo b s).bind ((peekNth_comesTo 1 b s).bind (.ok _ _))

theorem rangeEnd?_comesTo (start : Nat) (b : Text) (c : Char) (s : Text) :
    ∃ p', p'.source = b ++ c :: s ∧ ComesTo (rangeEnd? start) ⟨b, c :: s⟩
      (match scanRangeEnd c s with
        | .error reason => .error ⟨start, reason⟩
        | .ok none => .ok (none, p')
        | .ok (some q) => .ok (some q.value, ⟨b ++ q.text, q.rest⟩)) := by
  by_cases hc : c = '\\'
  · subst hc
    rw [scanRangeEnd, if_pos rfl]
    have hescape := escape_comesTo start true (b ++ ['\\']) s
    cases hscan : scanEscape true s with
    | error reason =>
      rw [hscan] at hescape
      exact ⟨⟨b, '\\' :: s⟩, rfl, (bump_comesTo b s '\\').bind hescape.bind_error⟩
    | ok p =>
      rw [hscan] at hescape
      have hsource : b ++ ['\\'] ++ p.text ++ p.rest = b ++ '\\' :: s := by
        have hsplits : p.text ++ p.rest = s := scanEscape_splits hscan
        simp [hsplits]
      refine ⟨⟨b ++ ['\\'] ++ p.text, p.rest⟩, hsource, (bump_comesTo b s '\\').bind (hescape.bind ?_)⟩
      simp only [Except.map]
      cases p.value.asChar with
      | none => exact .ok _ _
      | some d => exact .of_eq _ _ (by simp)
  · rw [scanRangeEnd, if_neg hc]
    refine ⟨⟨b, c :: s⟩, rfl, (bump_comesTo b s c).bind ?_⟩
    dsimp only
    split
    next heq => exact absurd (Option.some.inj heq) hc
    next => exact .ok _ _

/-- A range that turns out to be none leaves the cursor in front of the dash. -/
theorem range_comesTo (start : Nat) (lo : Char) (b : Text) (c : Char) (s : Text) :
    ComesTo (range start lo) ⟨b, '-' :: c :: s⟩
      (match scanRangeEnd c s with
        | .error reason => .error ⟨b.byteLength + 1, reason⟩
        | .ok none => .ok (.literal lo, ⟨b, '-' :: c :: s⟩)
        | .ok (some q) =>
          if q.value < lo then .error ⟨start, .rangeOutOfOrder⟩
          else .ok (.range lo q.value, ⟨b ++ '-' :: q.text, q.rest⟩)) := by
  refine .get_bind ((bump_comesTo b (c :: s) '-').bind (.get_bind ?_))
  have hindex : (⟨b ++ ['-'], c :: s⟩ : Place).index = b.byteLength + 1 := Place.index_append _ _ _
  rw [hindex]
  obtain ⟨p', hsource, hend⟩ := rangeEnd?_comesTo (b.byteLength + 1) (b ++ ['-']) c s
  cases hscan : scanRangeEnd c s with
  | error reason =>
    rw [hscan] at hend
    exact hend.bind_error
  | ok q? =>
    rw [hscan] at hend
    cases q? with
    | none =>
      have hback : (⟨b, '-' :: c :: s⟩ : Place).source = p'.source := by
        rw [hsource]
        simp [Place.source]
      exact hend.bind ((set_comesTo hback).bind (.ok _ _))
    | some q =>
      refine hend.bind ?_
      dsimp only
      split
      next => exact .fail _ _ _
      next => exact .of_eq _ _ (by simp)

theorem extend_comesTo (b : Text) (p : Piece ClassItem) :
    ComesTo (extend b.byteLength p.value) ⟨b ++ p.text, p.rest⟩ (readFrom b.byteLength b (extendRange p)) := by
  have hkept : ComesTo (pure p.value) ⟨b ++ p.text, p.rest⟩ (readFrom b.byteLength b (.ok p)) := .ok _ _
  unfold extendRange
  split
  next lo c s hvalue hrest =>
    rw [hvalue, hrest] at hkept ⊢
    refine (startsRange_comesTo _ _).bind ?_
    by_cases hc : c = ']'
    · rw [if_pos hc, if_neg (by simp [hc])]
      exact hkept
    · rw [if_neg hc, if_pos (by simp [hc])]
      have hrange := range_comesTo b.byteLength lo (b ++ p.text) c s
      rw [Text.byteLength_append] at hrange
      cases hend : scanRangeEnd c s with
      | error reason =>
        rw [hend] at hrange
        exact hrange
      | ok q? =>
        rw [hend] at hrange
        cases q? with
        | none =>
          change ComesTo _ _ (.ok (p.value, ⟨b ++ p.text, p.rest⟩))
          rw [hvalue, hrest]
          exact hrange
        | some q =>
          dsimp only at hrange ⊢
          split
          next hlt =>
            rw [if_pos hlt] at hrange
            exact hrange
          next hlt =>
            rw [if_neg hlt, List.append_assoc] at hrange
            exact hrange
  next hne =>
    unfold extend
    split
    next lo hvalue =>
      refine (startsRange_comesTo _ _).bind ?_
      split
      next hstarts =>
        obtain ⟨hdash, hnext⟩ := Bool.and_eq_true_iff.1 hstarts
        obtain ⟨t, hrest⟩ := List.head?_eq_some_iff.1 (eq_of_beq hdash)
        rw [hrest, List.getElem?_cons_succ] at hnext
        cases t with
        | nil => contradiction
        | cons c t => exact absurd hrest (hne lo c t hvalue)
      next => exact .ok _ _
    next => exact hkept

theorem simpleMember_comesTo (start : Nat) (b : Text) (c : Char) (s : Text) :
    ComesTo (simpleMember start c) ⟨b ++ [c], s⟩ (readAt start b (scanSimpleMember c s)) := by
  unfold scanSimpleMember
  split
  next hc =>
    subst hc
    refine (peek_comesTo _ s).bind ?_
    split
    next hcolon =>
      obtain ⟨s, rfl⟩ := List.head?_eq_some_iff.1 hcolon
      have hposix := posix?_comesTo (b ++ ['[']) s
      cases hscan : scanPosix? (':' :: s) with
      | none =>
        rw [hscan] at hposix
        exact hposix.bind (.ok _ _)
      | some q =>
        rw [hscan] at hposix
        exact hposix.bind (.of_eq _ _ (by simp [Piece.after]))
    next hcolon =>
      have hnone : scanPosix? s = none := by
        unfold scanPosix?
        split
        next => exact absurd rfl hcolon
        next => exact absurd rfl hcolon
        next => rfl
      rw [hnone]
      exact .ok _ _
  next hopen =>
    split
    next hc =>
      subst hc
      have hescape := escape_comesTo start true (b ++ ['\\']) s
      cases hscan : scanEscape true s with
      | error reason =>
        rw [hscan] at hescape
        exact hescape.bind_error
      | ok p =>
        rw [hscan] at hescape
        refine hescape.bind ?_
        simp only [Except.map, readAt, Piece.behind, Piece.map, Piece.after]
        cases p.value <;> exact .of_eq _ _ (by simp)
    next hescape =>
      unfold simpleMember
      split
      next => exact absurd rfl hopen
      next => exact absurd rfl hescape
      next => exact .ok _ _

theorem member_comesTo (b : Text) (c : Char) (s : Text) :
    ComesTo (member b.byteLength c) ⟨b ++ [c], s⟩
      (readFrom b.byteLength b (scanMember c s)) := by
  have hsimple := simpleMember_comesTo b.byteLength b c s
  unfold scanMember
  cases hscan : scanSimpleMember c s with
  | error reason =>
    rw [hscan] at hsimple
    exact hsimple.bind_error
  | ok p =>
    rw [hscan] at hsimple
    exact hsimple.bind (extend_comesTo b p)

theorem membersWithin_comesTo {start offset n : Nat} {b : Text} (s : Text) (hb : b.byteLength = start + offset)
    (hn : s.length < n) : ComesTo (membersWithin start n) ⟨b, s⟩ (readFrom start b (scanMembers offset s)) := by
  obtain ⟨n, rfl⟩ := Nat.exists_eq_add_one_of_ne_zero (Nat.ne_zero_of_lt hn)
  rw [membersWithin]
  fun_induction scanMembers offset s generalizing b n with
  | case1 offset => exact .get_bind ((bump_at_end b).bind (.fail _ _ _))
  | case2 offset r => exact .get_bind ((bump_comesTo b r ']').bind (.ok _ _))
  | case3 offset c r hc f hf =>
    have hmember := member_comesTo b c r
    rw [hf] at hmember
    refine .get_bind ((bump_comesTo b r c).bind ?_)
    dsimp only
    rw [if_neg hc]
    have hshift : (f.shift offset).shift start = f.shift b.byteLength := by
      simp [Fault.shift, hb, Nat.add_assoc]
    rw [readFrom, hshift]
    exact hmember.bind_error
  | case4 offset c r hc q hq ih =>
    have hmember := member_comesTo b c r
    rw [hq] at hmember
    refine .get_bind ((bump_comesTo b r c).bind ?_)
    dsimp only
    rw [if_neg hc]
    refine hmember.bind ?_
    have hlt : q.rest.length < n := Nat.lt_of_lt_of_le (scanMember_rest_lt hq) (Nat.le_of_lt_succ hn)
    obtain ⟨n, rfl⟩ := Nat.exists_eq_add_one_of_ne_zero (Nat.ne_zero_of_lt hlt)
    have hstop : Text.byteLength (b ++ q.text) = start + (offset + Text.byteLength q.text) := by
      rw [Text.byteLength_append]
      omega
    have hrest := ih hstop n hlt
    rw [membersWithin]
    exact hrest.map_readFrom _

theorem members_comesTo {start offset : Nat} {b : Text} (s : Text) (hb : b.byteLength = start + offset) :
    ComesTo (members start) ⟨b, s⟩ (readFrom start b (scanMembers offset s)) :=
  rounds_bind b s fun _ => membersWithin_comesTo s hb

theorem finish_comesTo {start : Nat} {b : Text} (negated : Bool) (lead : Text) (items : List ClassItem) (s : Text)
    (hb : b.byteLength = start + 1) :
    ComesTo (do return ⟨negated, items ++ (← members start)⟩) ⟨b ++ lead, s⟩
      (readFrom start b (scanClass.finish negated lead items s)) := by
  have hoffset : Text.byteLength (b ++ lead) = start + (1 + lead.byteLength) := by
    rw [Text.byteLength_append]
    omega
  exact (members_comesTo s hoffset).map_readFrom _

/-- A class from behind its opening bracket. -/
theorem charClass_comesTo {start : Nat} {b : Text} (s : Text) (hb : b.byteLength = start + 1) :
    ComesTo (charClass start) ⟨b, s⟩ (readFrom start b (scanClass s)) := by
  unfold scanClass
  split
  next r =>
    have hfinish := finish_comesTo true ['^', ']'] [.literal ']'] r hb
    rw [show b ++ ['^', ']'] = b ++ ['^'] ++ [']'] by simp] at hfinish
    exact (eat_comesTo b _ '^').bind ((eat_comesTo _ r ']').bind hfinish)
  next r hbracket =>
    have hfinish := finish_comesTo true ['^'] [] r hb
    exact (eat_comesTo b _ '^').bind ((eat_of_ne _ (head_ne hbracket)).bind hfinish)
  next r =>
    exact (eat_of_ne b (by simp)).bind ((eat_comesTo _ r ']').bind (finish_comesTo false [']'] [.literal ']'] r hb))
  next hcaret' hcaret hbracket =>
    have hfinish := finish_comesTo false [] [] s hb
    rw [List.append_nil] at hfinish
    exact (eat_of_ne b (head_ne hcaret)).bind ((eat_of_ne _ (head_ne hbracket)).bind hfinish)

end Cursor

end PatternAudit.Grammar
