import PatternAudit.Proofs.Payload

set_option autoImplicit false

/-!
# Writing tokens

A text for each kind of token, and the text of a list of them. Characters of escapes and classes are
written by their code points, properties with a caret, references and bounds in braces, so no token
depends on the text after it; a brace that stands for itself is the exception, and an empty comment
parts it from a text that would make it a bound. `lexFrom_write` says that the tokens read from the
text are the ones that were written.
-/
namespace PatternAudit.Grammar

/-- The characters that never stand for themselves. A brace can. -/
def metacharacters : Text := ['\\', '[', '(', ')', '|', '^', '$', '.', '*', '+', '?']

/-! Texts of tokens. -/

/-- What is written after the backslash of an escape. -/
def Escape.body : Escape → Text
  | .literal c => 'x' :: '{' :: Nat.toDigits 16 c.toNat ++ ['}']
  | .shorthand letter | .assertion letter => [letter]
  | .property negated name => (if negated then 'p' else 'P') :: '{' :: '^' :: name ++ ['}']
  | .backreference target => 'k' :: '{' :: target ++ ['}']

def Escape.written (e : Escape) : Text :=
  '\\' :: e.body

/-- The mark of a negated set. -/
def caret (negated : Bool) : Text :=
  if negated then ['^'] else []

def ClassItem.written : ClassItem → Text
  | .literal c => Escape.written (.literal c)
  | .range lo hi => Escape.written (.literal lo) ++ '-' :: Escape.written (.literal hi)
  | .set e => e.written
  | .posix negated name => '[' :: ':' :: caret negated ++ name ++ [':', ']']

def CharClass.written (cls : CharClass) : Text :=
  '[' :: caret cls.negated ++ cls.items.flatMap ClassItem.written ++ [']']

/-- What is written after the parenthesis that opens a group. -/
def GroupKind.body : GroupKind → Text
  | .capturing => []
  | .named name => '?' :: '<' :: name ++ ['>']
  | .nonCapturing => ['?', ':']
  | .scoped flags => '?' :: flags ++ [':']
  | .atomic => ['?', '>']
  | .branchReset => ['?', '|']
  | .lookahead negated => ['?', if negated then '!' else '=']
  | .lookbehind negated => ['?', '<', if negated then '!' else '=']
  | .directive => ['*']

def Bounds.body : Bounds → Text
  | .atLeast lo => Text.decimal lo ++ [',', '}']
  | .between lo hi =>
    if lo = hi then Text.decimal lo ++ ['}'] else Text.decimal lo ++ ',' :: Text.decimal hi ++ ['}']

def Greed.written : Greed → Text
  | .greedy => []
  | .lazy => ['?']
  | .possessive => ['+']

def Atom.written : Atom → Text
  | .char c => [c]
  | .escape e => e.written
  | .any => ['.']
  | .charClass cls => cls.written
  | .anchor .start => ['^']
  | .anchor .finish => ['$']
  | .options flags => '(' :: '?' :: flags ++ [')']

def TokenKind.written : TokenKind → Text
  | .atom a => a.written
  | .groupOpen kind => '(' :: kind.body
  | .groupClose => [')']
  | .bar => ['|']
  | .quantifier q => '{' :: q.bounds.body ++ q.greed.written

/-- What may part a token from the text after it: a comment that is empty. -/
def gap (parted : Bool) : Text :=
  if parted then ['(', '?', '#', ')'] else []

/-- The text of some tokens, with a comment after each token that `parted` holds of together with
the text of the tokens after it. -/
def write (parted : TokenKind → Text → Bool) : List TokenKind → Text
  | [] => []
  | kind :: kinds =>
    let after := write parted kinds
    kind.written ++ gap (parted kind after) ++ after

/-- Comments may stand anywhere, but one must keep a brace that stands for itself from a text that
would make it a bound. -/
def PartsBraces (parted : TokenKind → Text → Bool) : Prop :=
  ∀ after, (boundParts? after).isSome = true → parted (.atom (.char '{')) after = true

/-! What can be written so. -/

/-- A name in braces ends at the first closing brace. -/
def Escape.Writable : Escape → Prop
  | .property _ name => '}' ∉ name
  | .backreference target => '}' ∉ target
  | _ => True

def ClassItem.Writable : ClassItem → Prop
  | .set e => e.Writable
  | .posix _ name => ∀ c ∈ name, c.isAlpha = true
  | _ => True

/-- What a valid token needs besides to be read back from its text. -/
def TokenKind.Writable : TokenKind → Prop
  | .atom (.char c) => c ∉ metacharacters
  | .atom (.escape e) => e.Writable
  | .atom (.charClass cls) => ∀ item ∈ cls.items, item.Writable
  | _ => True

/-! Numerals and marks. -/

theorem digitValue?_digitChar {base d : Nat} (hbase : base ≤ 16) (hd : d < base) :
    Text.digitValue? base d.digitChar = some d := by
  have hdigits : ∀ b < 17, ∀ n < b, Text.digitValue? b n.digitChar = some n := by decide
  exact hdigits base (by omega) d hd

theorem numeralFrom?_append (base high : Nat) (s t : Text) :
    Text.numeralFrom? base high (s ++ t) =
      (Text.numeralFrom? base high s).bind fun n => Text.numeralFrom? base n t := by
  induction s generalizing high with
  | nil => rfl
  | cons c s ih =>
    simp only [List.cons_append, Text.numeralFrom?]
    cases Text.digitValue? base c with
    | none => rfl
    | some d => exact ih _

theorem numeralFrom?_toDigits {base : Nat} (hone : 1 < base) (hbase : base ≤ 16) (n : Nat) :
    Text.numeralFrom? base 0 (Nat.toDigits base n) = some n := by
  induction n using Nat.strongRecOn with
  | ind n ih =>
    by_cases hn : n < base
    · rw [Nat.toDigits_of_lt_base hn, Text.numeralFrom?, digitValue?_digitChar hbase hn]
      simp [Text.numeralFrom?]
    · have hle : base ≤ n := Nat.le_of_not_lt hn
      have hdiv : n / base < n := Nat.div_lt_self (by omega) hone
      have hmod : n % base < base := Nat.mod_lt n (by omega)
      rw [Nat.toDigits_of_base_le hone hle, numeralFrom?_append, ih _ hdiv, Option.bind_some,
        Text.numeralFrom?, digitValue?_digitChar hbase hmod]
      simp [Text.numeralFrom?, Nat.div_add_mod']

theorem isDigitOf_of_numeralFrom? {base high n : Nat} {s : Text}
    (h : Text.numeralFrom? base high s = some n) : ∀ c ∈ s, Text.isDigitOf base c = true := by
  induction s generalizing high with
  | nil => simp
  | cons c s ih =>
    rw [Text.numeralFrom?] at h
    split at h
    next d hd =>
      intro e he
      rcases List.mem_cons.1 he with rfl | he
      · simp [Text.isDigitOf, hd]
      · exact ih h e he
    next => contradiction

theorem isDigitOf_of_mem_toDigits {base n : Nat} (hone : 1 < base) (hbase : base ≤ 16) {c : Char}
    (h : c ∈ Nat.toDigits base n) : Text.isDigitOf base c = true :=
  isDigitOf_of_numeralFrom? (numeralFrom?_toDigits hone hbase n) c h

theorem signedNumeral?_toDigits {base : Nat} (hone : 1 < base) (hbase : base ≤ 16) (n : Nat) :
    Text.signedNumeral? base (Nat.toDigits base n) = some n := by
  have hnumeral := numeralFrom?_toDigits hone hbase n
  have hsign : '+' ∉ Nat.toDigits base n := by
    intro h
    have := isDigitOf_of_mem_toDigits hone hbase h
    simp [Text.isDigitOf, Text.digitValue?] at this
  cases hdigits : Nat.toDigits base n with
  | nil => exact absurd hdigits Nat.toDigits_ne_nil
  | cons c s =>
    rw [hdigits] at hnumeral hsign
    have hc : c ≠ '+' := fun h => hsign (by simp [h])
    rw [Text.signedNumeral?, Text.numeral?, hnumeral]
    · simp
    · intro t ht
      exact hc (List.cons.inj ht).1

theorem charOfCode?_toNat (c : Char) : Text.charOfCode? c.toNat = some c := by
  have hvalid : c.toNat.isValidChar := c.valid
  rw [Text.charOfCode?, dif_pos hvalid]
  rfl

/-! Escapes. -/

theorem letterEscape?_shorthand (inClass : Bool) {letter : Char}
    (h : (Escape.shorthand letter).Valid inClass) :
    letterEscape? inClass letter = some (.shorthand letter) := by
  have hset : setLetters.all fun c => letterEscape? inClass c = some (.shorthand c) := by
    cases inClass <;> decide
  have hsequence : sequenceLetters.all fun c => letterEscape? false c = some (.shorthand c) := by
    decide
  rcases h with h | ⟨rfl, h⟩
  · simpa using List.all_eq_true.1 hset letter h
  · simpa using List.all_eq_true.1 hsequence letter h

theorem letterEscape?_assertion {inClass : Bool} {letter : Char}
    (h : (Escape.assertion letter).Valid inClass) :
    letterEscape? inClass letter = some (.assertion letter) := by
  have hassertion : assertionLetters.all fun c => letterEscape? false c = some (.assertion c) := by
    decide
  obtain ⟨rfl, h⟩ := h
  simpa using List.all_eq_true.1 hassertion letter h

theorem scanHexCode_written (c : Char) (rest : Text) :
    scanHexCode ('{' :: Nat.toDigits 16 c.toNat ++ '}' :: rest) =
      .ok ⟨.literal c, '{' :: Nat.toDigits 16 c.toNat ++ ['}'], rest⟩ := by
  have hnumeral : Text.signedNumeral? 16 (Nat.toDigits 16 c.toNat) = some c.toNat :=
    signedNumeral?_toDigits (by decide) (by decide) c.toNat
  have hmark : '}' ∉ Nat.toDigits 16 c.toNat := by
    intro h
    have := isDigitOf_of_mem_toDigits (by decide) (by decide) h
    contradiction
  have hliteral : literalOf (some c.toNat) = .ok (.literal c) := by
    simp [literalOf, charOfCode?_toNat]
  simp only [List.cons_append, scanHexCode, scanBracedCode, splitFirst?_append hmark,
    hnumeral, hliteral]
  rfl

theorem scanProperty_written (negated : Bool) {name : Text} (hne : name ≠ []) (hname : '}' ∉ name)
    (rest : Text) :
    scanProperty negated ('{' :: '^' :: name ++ '}' :: rest) =
      .ok ⟨.property (!negated) name, '{' :: '^' :: name ++ ['}'], rest⟩ := by
  have hbraced : '}' ∉ '^' :: name := by simpa using hname
  have hsplit := splitFirst?_append hbraced rest
  obtain ⟨c, s, rfl⟩ := List.exists_cons_of_ne_nil hne
  simp only [List.cons_append] at hsplit ⊢
  simp only [scanProperty, hsplit, List.cons_append]

theorem scanReference_written {target : Text} (hne : target ≠ []) (htarget : '}' ∉ target)
    (rest : Text) :
    scanReference ('{' :: target ++ '}' :: rest) =
      .ok ⟨.backreference target, '{' :: target ++ ['}'], rest⟩ := by
  have hsplit := splitFirst?_append htarget rest
  obtain ⟨c, s, rfl⟩ := List.exists_cons_of_ne_nil hne
  simp only [List.cons_append] at hsplit ⊢
  simp only [scanReference, referenceClosing?, hsplit, List.cons_append]

theorem scanEscape_of_tail {inClass : Bool} {c : Char} {s text rest : Text} {e : Escape}
    (hletter : letterEscape? inClass c = none)
    (htail : scanEscapeTail inClass c s = .ok ⟨e, text, rest⟩) :
    scanEscape inClass (c :: s) = .ok ⟨e, c :: text, rest⟩ := by
  rw [scanEscape, hletter]
  simp only [htail]
  rfl

theorem scanEscape_body {inClass : Bool} {e : Escape} (hvalid : e.Valid inClass)
    (hwritable : e.Writable) (rest : Text) :
    scanEscape inClass (e.body ++ rest) = .ok ⟨e, e.body, rest⟩ := by
  cases e with
  | literal c =>
    have hletter : letterEscape? inClass 'x' = none := by cases inClass <;> rfl
    have htail (s : Text) : scanEscapeTail inClass 'x' s = scanHexCode s := rfl
    have hcode := scanEscape_of_tail hletter ((htail _).trans (scanHexCode_written c rest))
    simpa [Escape.body] using hcode
  | shorthand letter =>
    have hletter := letterEscape?_shorthand inClass hvalid
    simp [Escape.body, scanEscape, hletter]
  | assertion letter =>
    have hletter := letterEscape?_assertion hvalid
    simp [Escape.body, scanEscape, hletter]
  | property negated name =>
    have hletter : letterEscape? inClass (if negated then 'p' else 'P') = none := by
      cases inClass <;> cases negated <;> rfl
    have htail (s : Text) : scanEscapeTail inClass (if negated then 'p' else 'P') s =
        scanProperty (!negated) s := by
      cases negated <;> rfl
    have hname := scanProperty_written (!negated) hvalid hwritable rest
    simpa [Escape.body] using scanEscape_of_tail hletter ((htail _).trans hname)
  | backreference target =>
    obtain ⟨rfl, hne⟩ := hvalid
    have hletter : letterEscape? false 'k' = none := rfl
    have htail (s : Text) : scanEscapeTail false 'k' s = scanReference s := rfl
    have hname := scanReference_written hne hwritable rest
    simpa [Escape.body] using scanEscape_of_tail hletter ((htail _).trans hname)

/-! Classes. -/

/-- What follows a member of a class, for which it is enough that it is no dash. -/
def StartsNoRange : Text → Prop
  | '-' :: _ => False
  | _ => True

theorem extendRange_of_startsNoRange {p : Piece ClassItem} (h : StartsNoRange p.rest) :
    extendRange p = .ok p := by
  refine extendRange_of_standsAlone fun _ _ _ _ hrest => ?_
  rw [hrest] at h
  contradiction

theorem scanEscape_literal (inClass : Bool) (c : Char) (rest : Text) :
    scanEscape inClass ((Escape.literal c).body ++ rest) =
      .ok ⟨.literal c, (Escape.literal c).body, rest⟩ := by
  have hvalid : (Escape.literal c).Valid inClass := trivial
  exact scanEscape_body hvalid trivial rest

theorem scanSimpleMember_literal_written (c : Char) (rest : Text) :
    scanSimpleMember '\\' ((Escape.literal c).body ++ rest) =
      .ok ⟨.literal c, (Escape.literal c).written, rest⟩ := by
  simp only [scanSimpleMember, scanEscape_literal]
  rfl

theorem scanPosix?_written (negated : Bool) {name : Text} (hne : name ≠ [])
    (hname : ∀ c ∈ name, c.isAlpha = true) (rest : Text) :
    scanPosix? (':' :: caret negated ++ name ++ ':' :: ']' :: rest) =
      some ⟨.posix negated name, ':' :: caret negated ++ name ++ [':', ']'], rest⟩ := by
  have htake : (name ++ ':' :: ']' :: rest).takeWhile Char.isAlpha = name :=
    takeWhile_until hname rfl _
  have hdrop : (name ++ ':' :: ']' :: rest).dropWhile Char.isAlpha = ':' :: ']' :: rest :=
    dropWhile_until hname rfl _
  have hclose (lead : Text) : scanPosix?.close negated lead (name ++ ':' :: ']' :: rest) =
      some ⟨.posix negated name, lead ++ name ++ [':', ']'], rest⟩ := by
    simp only [scanPosix?.close, htake, hdrop]
  cases negated with
  | true => exact hclose [':', '^']
  | false =>
    obtain ⟨c, s, rfl⟩ := List.exists_cons_of_ne_nil hne
    have hcaret : c ≠ '^' := by
      rintro rfl
      exact absurd (hname '^' (by simp)) (by decide)
    have hlead := hclose [':']
    simp only [List.cons_append] at hlead
    simpa [scanPosix?, caret, hcaret] using hlead

/-- No member begins like what ends a class, negates it or makes a range of the member before. -/
theorem ClassItem.written_head (item : ClassItem) :
    ∃ c s, item.written = c :: s ∧ c ≠ '^' ∧ c ≠ ']' ∧ c ≠ '-' := by
  cases item with
  | literal c => exact ⟨'\\', _, rfl, by decide⟩
  | range lo hi => exact ⟨'\\', _, rfl, by decide⟩
  | set e => exact ⟨'\\', _, rfl, by decide⟩
  | posix negated name => exact ⟨'[', _, rfl, by decide⟩

theorem startsNoRange_members (items : List ClassItem) (rest : Text) :
    StartsNoRange (items.flatMap ClassItem.written ++ ']' :: rest) := by
  cases items with
  | nil => trivial
  | cons item items =>
    obtain ⟨c, s, hitem, -, -, hdash⟩ := item.written_head
    rw [List.flatMap_cons, hitem]
    simp only [List.cons_append, StartsNoRange]
    split
    next heq => exact hdash (List.cons.inj heq).1
    next => trivial

theorem scanMember_written {item : ClassItem} {c : Char} {s : Text} (hitem : item.written = c :: s)
    (hvalid : item.Valid) (hwritable : item.Writable) {rest : Text} (hrest : StartsNoRange rest) :
    scanMember c (s ++ rest) = .ok ⟨item, item.written, rest⟩ := by
  cases item with
  | literal d =>
    cases hitem
    rw [scanMember, scanSimpleMember_literal_written]
    exact extendRange_of_startsNoRange hrest
  | range lo hi =>
    cases hitem
    have hend : scanRangeEnd '\\' ((Escape.literal hi).body ++ rest) =
        .ok (some ⟨hi, (Escape.literal hi).written, rest⟩) := by
      simp only [scanRangeEnd, scanEscape_literal]
      rfl
    have horder : ¬hi < lo := Char.not_lt.2 hvalid
    change scanMember '\\' ((Escape.literal lo).body ++ '-' :: (Escape.literal hi).written ++ rest) = _
    rw [List.append_assoc, scanMember, scanSimpleMember_literal_written]
    simp only [extendRange, List.cons_append, Escape.written]
    simp only [hend, horder]
    simp [ClassItem.written, Escape.written]
  | set e =>
    cases hitem
    have hescape : scanEscape true (e.body ++ rest) = .ok ⟨e, e.body, rest⟩ := by
      refine scanEscape_body ?_ hwritable rest
      cases e with
      | shorthand letter => exact .inl hvalid
      | property negated name => exact hvalid
      | _ => contradiction
    have hmember : scanSimpleMember '\\' (e.body ++ rest) = .ok ⟨.set e, e.written, rest⟩ := by
      simp only [scanSimpleMember, hescape]
      cases e with
      | shorthand letter => rfl
      | property negated name => rfl
      | _ => contradiction
    rw [scanMember, hmember]
    rfl
  | posix negated name =>
    cases hitem
    have hset := scanPosix?_written negated hvalid hwritable rest
    have hmember : scanSimpleMember '[' (':' :: caret negated ++ name ++ [':', ']'] ++ rest) =
        .ok ⟨.posix negated name, (ClassItem.posix negated name).written, rest⟩ := by
      simp only [List.append_assoc, List.cons_append, List.nil_append] at hset ⊢
      simp only [scanSimpleMember, ↓reduceIte, hset]
      simp [Piece.after, ClassItem.written]
    change scanMember '[' (':' :: caret negated ++ name ++ [':', ']'] ++ rest) = _
    rw [scanMember, hmember]
    rfl

theorem scanMembers_written {items : List ClassItem} (hvalid : ∀ item ∈ items, item.Valid)
    (hwritable : ∀ item ∈ items, item.Writable) (offset : Nat) (rest : Text) :
    scanMembers offset (items.flatMap ClassItem.written ++ ']' :: rest) =
      .ok ⟨items, items.flatMap ClassItem.written ++ [']'], rest⟩ := by
  induction items generalizing offset with
  | nil =>
    rw [List.flatMap_nil, List.nil_append, scanMembers]
    simp
  | cons item items ih =>
    obtain ⟨c, s, hitem, -, hc, -⟩ := item.written_head
    have hmember := scanMember_written hitem (hvalid item (by simp)) (hwritable item (by simp))
      (startsNoRange_members items rest)
    have hitems := ih (fun i hi => hvalid i (by simp [hi])) (fun i hi => hwritable i (by simp [hi]))
      (offset + Text.byteLength item.written)
    rw [List.flatMap_cons, List.append_assoc, hitem, List.cons_append, scanMembers, if_neg hc]
    split
    next f hf => simp [hmember] at hf
    next p hp =>
      rw [hmember] at hp
      cases hp
      rw [hitems]
      simp [Except.map, Piece.after, Piece.map, hitem]

theorem scanClass_written {cls : CharClass} (hvalid : cls.Valid)
    (hwritable : ∀ item ∈ cls.items, item.Writable) (rest : Text) :
    scanClass (caret cls.negated ++ cls.items.flatMap ClassItem.written ++ ']' :: rest) =
      .ok ⟨cls, caret cls.negated ++ cls.items.flatMap ClassItem.written ++ [']'], rest⟩ := by
  obtain ⟨negated, items⟩ := cls
  obtain ⟨hne, hitems⟩ := hvalid
  have hmembers (offset : Nat) := scanMembers_written hitems hwritable offset rest
  -- the first character after the caret is neither a bracket nor another caret
  have hhead : ∃ c s, items.flatMap ClassItem.written ++ ']' :: rest = c :: s ∧ c ≠ '^' ∧ c ≠ ']' := by
    obtain ⟨item, items, rfl⟩ := List.exists_cons_of_ne_nil hne
    obtain ⟨c, s, hitem, hcaret, hclose, -⟩ := item.written_head
    refine ⟨c, s ++ (items.flatMap ClassItem.written ++ ']' :: rest), ?_, hcaret, hclose⟩
    simp [hitem]
  obtain ⟨c, s, hcons, hcaret, hclose⟩ := hhead
  have hclass : scanClass (caret negated ++ c :: s) =
      scanClass.finish negated (caret negated) [] (c :: s) := by
    cases negated with
    | true => simp [caret, scanClass, hclose]
    | false => simp [caret, scanClass, hcaret, hclose]
  rw [List.append_assoc, hcons, hclass, ← hcons, scanClass.finish, hmembers]
  simp [Except.map, Piece.after, Piece.map]

/-! Bounds. -/

theorem isDigit_of_mem_decimal {n : Nat} : ∀ c ∈ Text.decimal n, c.isDigit = true :=
  fun _ hc => Nat.isDigit_of_mem_toDigits (by decide) (by decide) hc

theorem repeatCount_decimal {n : Nat} (hn : n ≤ maxRepeat) : repeatCount (Text.decimal n) = .ok n := by
  have hlimit : maxRepeat < UInt32.size := by decide
  have hword : Text.word? 10 (Text.decimal n) = some n :=
    (Text.word?_eq_some_iff (by decide)).2 ⟨signedNumeral?_toDigits (by decide) (by decide) n, by omega⟩
  simp [repeatCount, hword, hn]

theorem decimal_ne_nil (n : Nat) : Text.decimal n ≠ [] :=
  Nat.toDigits_ne_nil

theorem isDigits_decimal (n : Nat) : isDigits (Text.decimal n) = true :=
  isDigits_iff.2 ⟨decimal_ne_nil n, isDigit_of_mem_decimal⟩

theorem BoundText.boundParts? {lo inner : Text} {hi? : Option Text} (h : BoundText lo hi? inner) (rest : Text) :
    Grammar.boundParts? (inner ++ '}' :: rest) = some (lo, hi?, inner ++ ['}'], rest) :=
  boundParts?_eq_some_iff.2 ⟨inner, h, rfl, rfl⟩

theorem scanBounds_body {b : Bounds} (hvalid : b.Valid) (rest : Text) :
    scanBounds (b.body ++ rest) = .ok (some ⟨b, b.body, rest⟩) := by
  cases b with
  | atLeast lo =>
    have hparts : boundParts? ((Bounds.atLeast lo).body ++ rest) =
        some (Text.decimal lo, some [], (Bounds.atLeast lo).body, rest) := by
      have h := (BoundText.two (isDigits_decimal lo) (List.forall_mem_nil _)).boundParts? rest
      simpa [Bounds.body] using h
    have hbounds : boundsOf (Text.decimal lo) (some []) = .ok (.atLeast lo) := by
      rw [boundsOf, repeatCount_decimal hvalid]
      rfl
    simp only [scanBounds, hparts, hbounds]
    rfl
  | between lo hi =>
    obtain ⟨hlo, hhi, hle⟩ := hvalid
    by_cases heq : lo = hi
    · subst heq
      have hparts : boundParts? ((Bounds.between lo lo).body ++ rest) =
          some (Text.decimal lo, none, (Bounds.between lo lo).body, rest) := by
        simpa [Bounds.body] using (BoundText.one (isDigits_decimal lo)).boundParts? rest
      have hbounds : boundsOf (Text.decimal lo) none = .ok (.between lo lo) := by
        rw [boundsOf, repeatCount_decimal hlo]
        rfl
      simp only [scanBounds, hparts, hbounds]
      rfl
    · have hparts : boundParts? ((Bounds.between lo hi).body ++ rest) =
          some (Text.decimal lo, some (Text.decimal hi), (Bounds.between lo hi).body, rest) := by
        have h := (BoundText.two (isDigits_decimal lo) (isDigit_of_mem_decimal (n := hi))).boundParts? rest
        simpa [Bounds.body, heq] using h
      have hbounds : boundsOf (Text.decimal lo) (some (Text.decimal hi)) = .ok (.between lo hi) := by
        obtain ⟨c, s, hdigits⟩ := List.exists_cons_of_ne_nil (decimal_ne_nil hi)
        have hcount := repeatCount_decimal hhi
        rw [hdigits] at hcount ⊢
        rw [boundsOf, repeatCount_decimal hlo]
        simp only [ok_bind, hcount, hle, ↓reduceIte]
        rfl
      simp only [scanBounds, hparts, hbounds]
      rfl

/-! Openings. -/

/-- What keeps a token before it from being read further: no mark of a repetition or an opening. -/
def StartsNoMark (s : Text) : Prop :=
  ∀ c ∈ s.head?, c ∉ ['*', '+', '?']

theorem scanGreed_written (b : Bounds) (g : Greed) {rest : Text} (hrest : StartsNoMark rest) :
    scanGreed b (g.written ++ rest) = ⟨⟨b, g⟩, g.written, rest⟩ := by
  cases g with
  | lazy => rfl
  | possessive => rfl
  | greedy =>
    change scanGreed b rest = _
    unfold scanGreed
    split
    next => exact absurd (hrest '?' rfl) (by decide)
    next => exact absurd (hrest '+' rfl) (by decide)
    next => rfl

theorem isOptionLetter_of_mem {flags : Text} (hvalid : ValidFlags flags) :
    ∀ c ∈ flags, isOptionLetter c = true := by
  intro c hc
  exact List.contains_iff_mem.2 (hvalid.2 c hc)

theorem scanMarkedOpening_flags {flags : Text} (hvalid : ValidFlags flags) (s : Text) :
    scanMarkedOpening (flags ++ s) = .ok (scanOptions (flags ++ s)) := by
  obtain ⟨hne, hletters⟩ := hvalid
  obtain ⟨c, t, rfl⟩ := List.exists_cons_of_ne_nil hne
  have hc := hletters c (by simp)
  simp only [List.mem_cons, List.not_mem_nil, or_false] at hc
  rcases hc with rfl | rfl | rfl | rfl | rfl | rfl | rfl | rfl | rfl | rfl <;> rfl

theorem scanOpening_options {flags : Text} (hvalid : ValidFlags flags) (rest : Text) :
    scanOpening ('?' :: flags ++ ')' :: rest) =
      .ok ⟨some (.atom (.options flags)), '?' :: flags ++ [')'], rest⟩ := by
  have htake : (flags ++ ')' :: rest).takeWhile isOptionLetter = flags :=
    takeWhile_until (isOptionLetter_of_mem hvalid) rfl rest
  have hdrop : (flags ++ ')' :: rest).dropWhile isOptionLetter = ')' :: rest :=
    dropWhile_until (isOptionLetter_of_mem hvalid) rfl rest
  change scanMarkedOpening (flags ++ ')' :: rest) = _
  rw [scanMarkedOpening_flags hvalid]
  simp only [scanOptions, htake, hdrop]

theorem ValidName.isGroupName {name : Text} (h : ValidName name) : isGroupName name = true := by
  obtain ⟨c, s, rfl, hc, hs⟩ := h
  simpa [Grammar.isGroupName] using ⟨hc, hs⟩

/-- A name has no character that is neither a letter or digit nor an underscore. -/
theorem ValidName.disjoint {name marks : Text} (h : ValidName name)
    (hmarks : marks.all fun d => Text.isAlphanumeric d = false ∧ d ≠ '_') : ∀ c ∈ name, c ∉ marks := by
  obtain ⟨first, s, rfl, hfirst, hs⟩ := h
  have hname : ∀ c ∈ first :: s, Text.isAlphanumeric c = true ∨ c = '_' := by
    refine List.forall_mem_cons.2 ⟨hfirst.imp_left fun halphabetic => ?_, hs⟩
    simp only [Text.isAlphanumeric, halphabetic, Bool.true_or]
  intro c hc hmark
  obtain ⟨halphanumeric, hunderscore⟩ := of_decide_eq_true (List.all_eq_true.1 hmarks c hmark)
  rcases hname c hc with hc | hc
  · exact Bool.false_ne_true (halphanumeric.symm.trans hc)
  · exact hunderscore hc

/-- What closes a name is no part of it, nor is what marks a group of another kind in its place. -/
theorem ValidName.not_mem {name : Text} (h : ValidName name) {mark : Char}
    (hmark : mark ∈ ['>', '=', '!']) : mark ∉ name :=
  fun hmem => h.disjoint (by decide +kernel) mark hmem hmark

theorem scanMarkedOpening_named {name : Text} (hvalid : ValidName name) (rest : Text) :
    scanMarkedOpening ('<' :: (name ++ rest)) = scanGroupName ['?', '<'] '>' (name ++ rest) := by
  have heq : '=' ∉ name := hvalid.not_mem (by simp)
  have hbang : '!' ∉ name := hvalid.not_mem (by simp)
  obtain ⟨c, s, rfl, -⟩ := hvalid
  rw [List.mem_cons, not_or] at heq hbang
  simp [scanMarkedOpening, Ne.symm heq.1, Ne.symm hbang.1]

theorem scanOpening_body {kind : GroupKind} (hvalid : kind.Valid) {rest : Text}
    (hrest : StartsNoMark rest) :
    scanOpening (kind.body ++ rest) = .ok ⟨some (.groupOpen kind), kind.body, rest⟩ := by
  cases kind with
  | capturing =>
    change scanOpening rest = _
    unfold scanOpening
    split
    next => exact absurd (hrest '*' rfl) (by decide)
    next => exact absurd (hrest '?' rfl) (by decide)
    next => rfl
  | named name =>
    have hclose : '>' ∉ name := hvalid.not_mem (by simp)
    have hsplit := splitFirst?_append hclose rest
    change scanMarkedOpening ('<' :: (name ++ ['>'] ++ rest)) = _
    rw [List.append_assoc, List.singleton_append, scanMarkedOpening_named hvalid, scanGroupName, hsplit]
    simp [hvalid.isGroupName, GroupKind.body]
  | «scoped» flags =>
    have htake : (flags ++ ':' :: rest).takeWhile isOptionLetter = flags :=
      takeWhile_until (isOptionLetter_of_mem hvalid) rfl rest
    have hdrop : (flags ++ ':' :: rest).dropWhile isOptionLetter = ':' :: rest :=
      dropWhile_until (isOptionLetter_of_mem hvalid) rfl rest
    change scanMarkedOpening (flags ++ [':'] ++ rest) = _
    rw [List.append_assoc, scanMarkedOpening_flags hvalid]
    simp only [List.cons_append, List.nil_append, scanOptions, htake, hdrop]
    rfl
  | nonCapturing => rfl
  | atomic => rfl
  | branchReset => rfl
  | lookahead negated => cases negated <;> rfl
  | lookbehind negated => cases negated <;> rfl
  | directive => rfl

/-! Tokens. -/

/-- The text in front of `rest` is one lexeme. -/
def ReadsAs (text : Text) (lexeme : Lexeme) (rest : Text) : Prop :=
  ∃ c s, text = c :: s ∧ scanLexeme false c (s ++ rest) = .ok ⟨lexeme, text, rest⟩

/-- No letter with a meaning of its own is one of the two that switch quoting. -/
theorem ne_quoting_of_letterEscape? {letter : Char} {e : Escape}
    (h : letterEscape? false letter = some e) : letter ≠ 'Q' ∧ letter ≠ 'E' := by
  have hQ : letterEscape? false 'Q' = none := rfl
  have hE : letterEscape? false 'E' = none := rfl
  constructor
  · rintro rfl
    simp [hQ] at h
  · rintro rfl
    simp [hE] at h

theorem Escape.body_head {e : Escape} (hvalid : e.Valid false) :
    ∃ c s, e.body = c :: s ∧ c ≠ 'Q' ∧ c ≠ 'E' := by
  cases e with
  | literal c => exact ⟨'x', _, rfl, by decide⟩
  | shorthand letter =>
    exact ⟨letter, [], rfl, ne_quoting_of_letterEscape? (letterEscape?_shorthand false hvalid)⟩
  | assertion letter =>
    exact ⟨letter, [], rfl, ne_quoting_of_letterEscape? (letterEscape?_assertion hvalid)⟩
  | property negated name =>
    refine ⟨if negated then 'p' else 'P', _, rfl, ?_⟩
    cases negated <;> decide
  | backreference target => exact ⟨'k', _, rfl, by decide⟩

theorem scanBackslash_of_escape {c : Char} {s : Text} {p : Piece Escape} (hQ : c ≠ 'Q') (hE : c ≠ 'E')
    (h : scanEscape false (c :: s) = .ok p) :
    scanBackslash (c :: s) = .ok ((p.after ['\\']).map fun e => .plain (.atom (.escape e))) := by
  simp [scanBackslash, hQ, hE, h]

theorem scanBackslash_body {e : Escape} (hvalid : e.Valid false) (hwritable : e.Writable) (rest : Text) :
    scanBackslash (e.body ++ rest) = .ok ⟨.plain (.atom (.escape e)), e.written, rest⟩ := by
  obtain ⟨c, s, hbody, hQ, hE⟩ := e.body_head hvalid
  have hescape := scanEscape_body hvalid hwritable rest
  rw [Escape.written]
  rw [hbody, List.cons_append] at hescape ⊢
  exact scanBackslash_of_escape hQ hE hescape

theorem scanUnquoted_char {c : Char} (hc : c ∉ metacharacters) {rest : Text}
    (hbrace : c = '{' → boundParts? rest = none) :
    scanUnquoted c rest = .ok ⟨.plain (.atom (.char c)), [c], rest⟩ := by
  by_cases h : c = '{'
  · have hbounds : scanBounds rest = .ok none := by simp only [scanBounds, hbrace h]
    subst h
    change scanBrace rest = _
    simp only [scanBrace, hbounds]
  · simp only [metacharacters, List.mem_cons, List.not_mem_nil, or_false, not_or] at hc
    simp [scanUnquoted, hc]

theorem scanBrace_written {q : Quantifier} (hvalid : q.bounds.Valid) {rest : Text}
    (hrest : StartsNoMark rest) :
    scanBrace (q.bounds.body ++ q.greed.written ++ rest) =
      .ok ⟨.plain (.quantifier q), '{' :: q.bounds.body ++ q.greed.written, rest⟩ := by
  rw [List.append_assoc, scanBrace, scanBounds_body hvalid]
  simp only [scanGreed_written _ _ hrest]
  rfl

theorem readsAs_written {kind : TokenKind} (hvalid : kind.Valid) (hwritable : kind.Writable)
    {rest : Text} (hrest : StartsNoMark rest)
    (hbrace : kind = .atom (.char '{') → boundParts? rest = none) :
    ReadsAs kind.written (.plain kind) rest := by
  cases kind with
  | groupClose => exact ⟨')', [], rfl, rfl⟩
  | bar => exact ⟨'|', [], rfl, rfl⟩
  | quantifier q => exact ⟨'{', _, rfl, scanBrace_written hvalid hrest⟩
  | groupOpen kind =>
    refine ⟨'(', kind.body, rfl, ?_⟩
    simp only [scanLexeme, scanUnquoted, scanOpening_body hvalid hrest]
    rfl
  | atom a =>
    cases a with
    | char c =>
      refine ⟨c, [], rfl, scanUnquoted_char hwritable ?_⟩
      rintro rfl
      exact hbrace rfl
    | escape e => exact ⟨'\\', e.body, rfl, scanBackslash_body hvalid hwritable rest⟩
    | any => exact ⟨'.', [], rfl, rfl⟩
    | charClass cls =>
      have hclass := scanClass_written hvalid hwritable rest
      refine ⟨'[', caret cls.negated ++ cls.items.flatMap ClassItem.written ++ [']'], rfl, ?_⟩
      rw [List.append_assoc, List.singleton_append]
      simp only [scanLexeme, scanUnquoted, hclass]
      rfl
    | anchor side => cases side <;> exact ⟨_, [], rfl, rfl⟩
    | options flags =>
      have hflags := scanOpening_options hvalid rest
      refine ⟨'(', '?' :: flags ++ [')'], rfl, ?_⟩
      rw [List.append_assoc, List.singleton_append]
      simp only [scanLexeme, scanUnquoted, hflags]
      rfl

/-! Texts of several tokens. -/

theorem TokenKind.written_head {kind : TokenKind} (hwritable : kind.Writable) (rest : Text) :
    StartsNoMark (kind.written ++ rest) := by
  cases kind with
  | atom a =>
    cases a with
    | char c =>
      have hmarks : ['*', '+', '?'] ⊆ metacharacters := by simp [metacharacters]
      intro d hd hmark
      cases hd
      exact hwritable (hmarks hmark)
    | anchor side => cases side <;> simp [StartsNoMark, written, Atom.written]
    | _ => simp [StartsNoMark, written, Atom.written, Escape.written, CharClass.written]
  | _ => simp [StartsNoMark, written]

theorem startsNoMark_write (parted : TokenKind → Text → Bool) {kinds : List TokenKind}
    (hwritable : ∀ kind ∈ kinds, kind.Writable) : StartsNoMark (write parted kinds) := by
  cases kinds with
  | nil => simp [write, StartsNoMark]
  | cons kind kinds =>
    rw [write, List.append_assoc]
    exact kind.written_head (hwritable kind (by simp)) _

theorem startsNoMark_gap {after : Text} (h : StartsNoMark after) (parted : Bool) :
    StartsNoMark (gap parted ++ after) := by
  cases parted with
  | true => simp [gap, StartsNoMark]
  | false => exact h

theorem boundParts?_gap {parted : TokenKind → Text → Bool} (hparted : PartsBraces parted) (after : Text) :
    boundParts? (gap (parted (.atom (.char '{')) after) ++ after) = none := by
  cases h : parted (.atom (.char '{')) after with
  | true => rfl
  | false =>
    have hnone : (boundParts? after).isSome ≠ true := by
      intro hsome
      simp [hparted after hsome] at h
    exact Option.not_isSome_iff_eq_none.1 hnone

theorem lexFrom_of_readsAs {text rest : Text} {lexeme : Lexeme} (h : ReadsAs text lexeme rest)
    (offset : Nat) :
    lexFrom false offset (text ++ rest) =
      (lexFrom lexeme.quoting (offset + Text.byteLength text) rest).prepend offset
        ⟨lexeme, text, rest⟩ := by
  obtain ⟨c, s, rfl, hscan⟩ := h
  exact lexFrom_of_ok hscan offset

/-- A comment is read over. -/
theorem lexFrom_gap (parted : Bool) (after : Text) (offset : Nat) :
    lexFrom false offset (gap parted ++ after) =
      lexFrom false (offset + Text.byteLength (gap parted)) after := by
  cases parted with
  | true =>
    have hcomment : ReadsAs ['(', '?', '#', ')'] ⟨none, false⟩ after := ⟨'(', _, rfl, rfl⟩
    exact lexFrom_of_readsAs hcomment offset
  | false => rfl

theorem lexFrom_write {parted : TokenKind → Text → Bool} (hparted : PartsBraces parted)
    {kinds : List TokenKind} (hvalid : ∀ kind ∈ kinds, kind.Valid)
    (hwritable : ∀ kind ∈ kinds, kind.Writable) (offset : Nat) :
    ∃ tokens, lexFrom false offset (write parted kinds) = ⟨tokens, none⟩ ∧
      tokens.map Token.kind = kinds := by
  induction kinds generalizing offset with
  | nil =>
    refine ⟨[], ?_, rfl⟩
    rw [write, lexFrom]
  | cons kind kinds ih =>
    let after := write parted kinds
    have hvalid' := fun k hk => hvalid k (List.mem_cons_of_mem kind hk)
    have hwritable' := fun k hk => hwritable k (List.mem_cons_of_mem kind hk)
    have hafter : StartsNoMark after := startsNoMark_write parted hwritable'
    have hreads : ReadsAs kind.written (.plain kind) (gap (parted kind after) ++ after) := by
      refine readsAs_written (hvalid kind (by simp)) (hwritable kind (by simp))
        (startsNoMark_gap hafter _) ?_
      rintro rfl
      exact boundParts?_gap hparted after
    obtain ⟨tokens, htokens, hkinds⟩ := ih hvalid' hwritable'
      (offset + Text.byteLength kind.written + Text.byteLength (gap (parted kind after)))
    refine ⟨⟨⟨offset, offset + Text.byteLength kind.written⟩, kind⟩ :: tokens, ?_, ?_⟩
    · rw [write, List.append_assoc, lexFrom_of_readsAs hreads]
      change (lexFrom false _ _).prepend _ _ = _
      rw [lexFrom_gap, htokens]
      rfl
    · rw [List.map_cons, hkinds]

end PatternAudit.Grammar
