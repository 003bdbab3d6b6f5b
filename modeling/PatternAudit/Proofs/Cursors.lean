import PatternAudit.Grammar.Cursor

set_option autoImplicit false

/-!
# Cursors and pieces

A cursor that stands between two characters reads what the readers of pieces read: it comes to the same value and the
same fault, stops where the piece ends, and neither panics nor goes on for ever.
-/
namespace PatternAudit.Grammar

/-- A pattern cut in two between characters. -/
structure Place where
  before : Text
  after : Text

def Place.source (p : Place) : Text :=
  p.before ++ p.after

def Place.index (p : Place) : Nat :=
  p.before.byteLength

theorem Place.index_append (b t s : Text) :
    (⟨b ++ t, s⟩ : Place).index = Text.byteLength b + Text.byteLength t :=
  Text.byteLength_append b t

/-- Started at a place, the step gives a value at another place of the same pattern, or has a fault. -/
def ComesTo {α : Type} (m : Cursor α) (p : Place) : Except Fault (α × Place) → Prop
  | .ok (a, p') => p'.source = p.source ∧ m p.source p.index = pure (a, p'.index)
  | .error f => m p.source p.index = throw (.fault f)

/-- The value of a piece, and the place behind it. -/
def Piece.behind {α : Type} (before : Text) (q : Piece α) : α × Place :=
  (q.value, ⟨before ++ q.text, q.rest⟩)

/-- What a reader comes to at a place, all of whose faults stand at `start`. -/
def readAt {α : Type} (start : Nat) (b : Text) : Except Reason (Piece α) → Except Fault (α × Place)
  | .ok q => .ok (q.behind b)
  | .error reason => .error ⟨start, reason⟩

/-- What a reader comes to at a place, if the faults of its piece are places behind `start`. -/
def readFrom {α : Type} (start : Nat) (b : Text) : Except Fault (Piece α) → Except Fault (α × Place)
  | .ok q => .ok (q.behind b)
  | .error f => .error (f.shift start)

theorem readAt_after {α : Type} (start : Nat) (b t : Text) (x : Except Reason (Piece α)) :
    readAt start b (x.map (Piece.after t)) = readAt start (b ++ t) x := by
  cases x with
  | ok q => simp [readAt, Except.map, Piece.behind, Piece.after]
  | error reason => rfl

namespace ComesTo

variable {α β : Type} {m : Cursor α} {k : α → Cursor β} {p p' : Place} {a : α} {r : Except Fault (β × Place)}

theorem ok (a : α) (p : Place) : ComesTo (pure a) p (.ok (a, p)) :=
  ⟨rfl, rfl⟩

theorem of_eq (a : α) {b b' : Text} (s : Text) (h : b = b') : ComesTo (pure a) ⟨b, s⟩ (.ok (a, ⟨b', s⟩)) :=
  h ▸ .ok a ⟨b, s⟩

theorem fail (p : Place) (offset : Nat) (reason : Reason) :
    ComesTo (Cursor.fail offset reason : Cursor α) p (.error ⟨offset, reason⟩) :=
  rfl

theorem bind (h : ComesTo m p (.ok (a, p'))) (hk : ComesTo (k a) p' r) : ComesTo (m >>= k) p r := by
  obtain ⟨hsource, hm⟩ := h
  have hbind : (m >>= k) p.source p.index = k a p'.source p'.index := by
    rw [hsource]
    change (m p.source p.index >>= fun x => k x.1 p.source x.2) = _
    rw [hm]
    rfl
  cases r with
  | ok x => exact ⟨hk.1.trans hsource, hbind.trans hk.2⟩
  | error f => exact hbind.trans hk

theorem bind_error {f : Fault} (h : ComesTo m p (.error f)) : ComesTo (m >>= k) p (.error f) := by
  change (m p.source p.index >>= fun x => k x.1 p.source x.2) = _
  rw [show m p.source p.index = throw (.fault f) from h]
  rfl

/-- What is made of a value takes up the text of the value and the text in front. -/
theorem map_readFrom {x : Except Fault (Piece α)} {start : Nat} {b t : Text} (f : α → β)
    (h : ComesTo m p (readFrom start (b ++ t) x)) :
    ComesTo (do return f (← m)) p (readFrom start b (x.map fun q => (q.after t).map f)) := by
  cases x with
  | error fault => exact ComesTo.bind_error h
  | ok q => exact ComesTo.bind h (.of_eq _ _ (List.append_assoc b t q.text))

theorem get_bind {k : Nat → Cursor β} (h : ComesTo (k p.index) p r) : ComesTo (get >>= k) p r := by
  cases r <;> exact h

theorem read_bind {k : Text → Cursor β} (h : ComesTo (k p.source) p r) : ComesTo (read >>= k) p r := by
  cases r <;> exact h

end ComesTo

/-! Steps. -/

theorem head_ne {c : Char} {s : Text} (h : ∀ t, s = c :: t → False) : s.head? ≠ some c := by
  intro hc
  obtain ⟨t, ht⟩ := List.head?_eq_some_iff.1 hc
  exact h t ht

namespace Cursor

variable {b s : Text} {c : Char}

theorem orPanic_comesTo {α : Type} {a? : Option α} {a : α} (h : a? = some a) (p : Place) :
    ComesTo (orPanic a?) p (.ok (a, p)) := by
  rw [h]
  exact ⟨rfl, rfl⟩

theorem advance_comesTo (b t s : Text) : ComesTo (advance t.byteLength) ⟨b, t ++ s⟩ (.ok ((), ⟨b ++ t, s⟩)) := by
  refine ⟨List.append_assoc .., ?_⟩
  rw [Place.index_append]
  rfl

theorem set_comesTo {p p' : Place} (h : p'.source = p.source) :
    ComesTo (set p'.index : Cursor PUnit) p (.ok (⟨⟩, p')) :=
  ⟨h, rfl⟩

theorem rest_comesTo (b s : Text) : ComesTo rest ⟨b, s⟩ (.ok (s, ⟨b, s⟩)) :=
  .read_bind (.get_bind ((orPanic_comesTo (Text.splitAt?_append b s) _).bind (.ok _ _)))

theorem since_comesTo (b t s : Text) : ComesTo (since b.byteLength) ⟨b ++ t, s⟩ (.ok (t, ⟨b ++ t, s⟩)) := by
  have hslice := Text.slice?_append b t s
  rw [← Text.byteLength_append] at hslice
  exact .read_bind (.get_bind (orPanic_comesTo hslice _))

theorem peekNth_comesTo (n : Nat) (b s : Text) : ComesTo (peekNth n) ⟨b, s⟩ (.ok (s[n]?, ⟨b, s⟩)) :=
  (rest_comesTo b s).bind (.ok _ _)

theorem peek_comesTo (b s : Text) : ComesTo peek ⟨b, s⟩ (.ok (s.head?, ⟨b, s⟩)) := by
  rw [List.head?_eq_getElem?]
  exact peekNth_comesTo 0 b s

theorem advance_char (b s : Text) (c : Char) :
    ComesTo (advance c.utf8Size) ⟨b, c :: s⟩ (.ok ((), ⟨b ++ [c], s⟩)) :=
  advance_comesTo b [c] s

theorem bump_comesTo (b s : Text) (c : Char) : ComesTo bump ⟨b, c :: s⟩ (.ok (some c, ⟨b ++ [c], s⟩)) :=
  (peek_comesTo b (c :: s)).bind ((advance_char b s c).bind (.ok _ _))

theorem bump_at_end (b : Text) : ComesTo bump ⟨b, []⟩ (.ok (none, ⟨b, []⟩)) :=
  (peek_comesTo b []).bind (.ok _ _)

theorem eat_comesTo (b s : Text) (c : Char) : ComesTo (eat c) ⟨b, c :: s⟩ (.ok (true, ⟨b ++ [c], s⟩)) := by
  refine (peek_comesTo b (c :: s)).bind ?_
  rw [List.head?_cons, if_pos rfl]
  exact (advance_char b s c).bind (.ok _ _)

theorem eat_of_ne (b : Text) (h : s.head? ≠ some c) : ComesTo (eat c) ⟨b, s⟩ (.ok (false, ⟨b, s⟩)) := by
  refine (peek_comesTo b s).bind ?_
  rw [if_neg h]
  exact .ok _ _

section

variable {β : Type} {m m' : Cursor β} {r : Except Fault (β × Place)}

theorem eat_then (h : ComesTo m ⟨b ++ [c], s⟩ r) : ComesTo (do if ← eat c then m else m') ⟨b, c :: s⟩ r :=
  (eat_comesTo b s c).bind h

theorem eat_else (hne : s.head? ≠ some c) (h : ComesTo m' ⟨b, s⟩ r) :
    ComesTo (do if ← eat c then m else m') ⟨b, s⟩ r :=
  (eat_of_ne b hne).bind h

end

theorem slice?_head (t s : Text) : Text.slice? (t ++ s) 0 t.byteLength = some t := by
  have hslice := Text.slice?_append [] t s
  rwa [List.nil_append, Text.byteLength_nil, Nat.zero_add] at hslice

theorem takeUntil?_comesTo {mark : Char} {t s' : Text} (b : Text) (h : Text.splitFirst? mark s = some (t, s')) :
    ComesTo (takeUntil? mark) ⟨b, s⟩ (.ok (some t, ⟨b ++ (t ++ [mark]), s'⟩)) := by
  have hs := Text.splitFirst?_eq_some h
  have hfind : Text.offsetOf? mark s = some t.byteLength := by
    rw [Text.offsetOf?, h]
    rfl
  refine (rest_comesTo b s).bind ?_
  rw [hfind]
  have hadvance := advance_comesTo b (t ++ [mark]) s'
  rw [List.append_assoc t, List.singleton_append, hs, Text.byteLength_append] at hadvance
  refine hadvance.bind ((orPanic_comesTo ?_ _).bind (.ok _ _))
  rw [← hs]
  exact slice?_head t _

theorem takeUntil?_of_none {mark : Char} (b : Text) (h : Text.splitFirst? mark s = none) :
    ComesTo (takeUntil? mark) ⟨b, s⟩ (.ok (none, ⟨b, s⟩)) := by
  have hfind : Text.offsetOf? mark s = none := by
    rw [Text.offsetOf?, h]
    rfl
  refine (rest_comesTo b s).bind ?_
  rw [hfind]
  exact .ok _ _

section

variable {β : Type} {k : Nat → Cursor β} {r : Except Fault (β × Place)}

/-- The rounds of a loop are enough for one at each character that is left. -/
theorem rounds_bind (b s : Text) (h : ∀ n, s.length < n → ComesTo (k n) ⟨b, s⟩ r) :
    ComesTo (rounds >>= k) ⟨b, s⟩ r := by
  have hlt : s.length < (b ++ s).length + 1 := by
    rw [List.length_append]
    omega
  exact .bind (.read_bind (.ok _ _)) (h _ hlt)

end

/-- The loop stops where the characters it is after do. -/
theorem skipWhileWithin_comesTo (f : Char → Bool) {n : Nat} (b s : Text) (hn : s.length < n) :
    ComesTo (skipWhileWithin f n) ⟨b, s⟩ (.ok ((), ⟨b ++ s.takeWhile f, s.dropWhile f⟩)) := by
  induction s generalizing b n with
  | nil =>
    obtain ⟨n, rfl⟩ := Nat.exists_eq_add_one_of_ne_zero (Nat.ne_zero_of_lt hn)
    rw [skipWhileWithin, List.takeWhile_nil, List.append_nil]
    exact (peek_comesTo b []).bind (.ok _ _)
  | cons c s ih =>
    obtain ⟨n, rfl⟩ := Nat.exists_eq_add_one_of_ne_zero (Nat.ne_zero_of_lt hn)
    rw [skipWhileWithin]
    refine (peek_comesTo b (c :: s)).bind ?_
    dsimp only [List.head?_cons]
    split
    next hc =>
      rw [List.takeWhile_cons_of_pos hc, List.dropWhile_cons_of_pos hc]
      have hrest := ih (b ++ [c]) (Nat.lt_of_succ_lt_succ hn)
      rw [List.append_assoc, List.singleton_append] at hrest
      exact (bump_comesTo b s c).bind hrest
    next hc =>
      rw [List.takeWhile_cons_of_neg hc, List.dropWhile_cons_of_neg hc, List.append_nil]
      exact .ok _ _

theorem skipWhile_comesTo (f : Char → Bool) (b s : Text) :
    ComesTo (skipWhile f) ⟨b, s⟩ (.ok ((), ⟨b ++ s.takeWhile f, s.dropWhile f⟩)) :=
  rounds_bind b s fun _ => skipWhileWithin_comesTo f b s

/-! Repetitions. -/

theorem quantifier_comesTo (bounds : Bounds) (b s : Text) :
    ComesTo (quantifier bounds) ⟨b, s⟩ (.ok (((scanGreed bounds s).map .quantifier).behind b)) := by
  unfold scanGreed
  split
  next => exact eat_then (.ok _ _)
  next => exact eat_else (by simp) (eat_then (.ok _ _))
  next hlazy hpossessive =>
    rw [Piece.behind, Piece.map, List.append_nil]
    exact eat_else (head_ne hlazy) (eat_else (head_ne hpossessive) (.ok _ _))

theorem countTexts_comesTo (inner : Text) (p : Place) :
    ComesTo (countTexts inner) p (.ok (Grammar.countTexts inner, p)) := by
  unfold Cursor.countTexts Grammar.countTexts
  cases hsplit : Text.splitFirst? ',' inner with
  | none =>
    rw [Text.offsetOf?, hsplit]
    exact .ok _ _
  | some parts =>
    obtain ⟨lo, hi⟩ := parts
    have hinner := Text.splitFirst?_eq_some hsplit
    have hlo : Text.slice? inner 0 lo.byteLength = some lo := by
      rw [← hinner]
      exact slice?_head lo _
    have hhi : Text.slice? inner (lo.byteLength + 1) inner.byteLength = some hi := by
      have hslice := Text.slice?_append (lo ++ [',']) hi []
      rw [List.append_nil, List.append_assoc, List.singleton_append, hinner, ← Text.byteLength_append,
        List.append_assoc, List.singleton_append, hinner, Text.byteLength_append] at hslice
      exact hslice
    rw [Text.offsetOf?, hsplit]
    exact (orPanic_comesTo hlo p).bind ((orPanic_comesTo hhi p).bind (.ok _ _))

theorem bounds?_comesTo (start : Nat) (b s : Text) :
    ComesTo (bounds? start) ⟨b, s⟩
      (match scanBounds s with
        | .error reason => .error ⟨start, reason⟩
        | .ok none => .ok (none, ⟨b, s⟩)
        | .ok (some q) => .ok (some q.value, ⟨b ++ q.text, q.rest⟩)) := by
  have hs := List.takeWhile_append_dropWhile (p := isBoundMark) (l := s)
  refine (rest_comesTo b s).bind ?_
  split
  next hclose =>
    obtain ⟨rest, hrest⟩ := List.head?_eq_some_iff.1 hclose
    rw [hrest] at hs
    have hinner := slice?_head (s.takeWhile isBoundMark) ('}' :: rest)
    have hadvance := advance_comesTo b (s.takeWhile isBoundMark ++ ['}']) rest
    rw [List.append_assoc, List.singleton_append, hs, Text.byteLength_append] at hadvance
    rw [hs] at hinner
    refine (orPanic_comesTo hinner _).bind ((countTexts_comesTo _ _).bind ?_)
    simp only [scanBounds, boundParts?, hrest]
    split
    next =>
      dsimp only
      cases boundsOf (Grammar.countTexts (s.takeWhile isBoundMark)).1
          (Grammar.countTexts (s.takeWhile isBoundMark)).2 with
      | ok bounds => exact hadvance.bind (.ok _ _)
      | error reason => exact .fail _ _ _
    next => exact .ok _ _
  next hopen =>
    have hnone : boundParts? s = none := by
      unfold boundParts?
      split
      next rest hrest => exact absurd (by rw [hrest]; rfl) hopen
      next => rfl
    rw [scanBounds, hnone]
    exact .ok _ _

end Cursor

end PatternAudit.Grammar
