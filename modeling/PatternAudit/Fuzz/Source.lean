import PatternAudit.Fuzz.Draw

set_option autoImplicit false

/-!
# A random source

The generator that the commands draw from, a seeded source of 64-bit words: a multiplicative congruential generator
over 128 bits whose output folds the two halves together and rotates them. All draws of a run come from one source,
so a run can be replayed from its seed.
-/
namespace PatternAudit.Fuzz

structure Source where
  state : BitVec 128
deriving DecidableEq, Repr

namespace Source

/-- The source before any seeding. -/
def unseeded : Source := ⟨1⟩

def multiplier : BitVec 128 := 0x2360ED051FC65DA44385DF649FCCF645

def next (s : Source) : BitVec 64 × Source :=
  let state := s.state * multiplier
  let folded : BitVec 64 := state.extractLsb' 64 64 ^^^ state.extractLsb' 0 64
  (folded.rotateRight (state.extractLsb' 122 6).toNat, ⟨state⟩)

/-- One round of spreading a seed: the next seed and a word of the state. -/
def spread (seed : BitVec 64) : BitVec 64 × BitVec 32 :=
  let seed := seed * 6364136223846793005 + 11634580027462260723
  let folded : BitVec 32 := (((seed >>> 18) ^^^ seed) >>> 27).truncate 32
  (seed, folded.rotateRight (seed >>> 59).toNat)

/-- The state is always odd. -/
def ofSeed (seed : BitVec 64) : Source :=
  let (seed, a) := spread seed
  let (seed, b) := spread seed
  let (seed, c) := spread seed
  let (_, d) := spread seed
  ⟨(d ++ c ++ b ++ a : BitVec 128) ||| 1⟩

/-- The largest low half of a product with which a draw counts, so that every result is equally likely. -/
def zone (range : Nat) : Nat :=
  range * Nat.pow 2 (63 - range.log2) - 1

/-- Draws until a word counts, at most `rounds` times. -/
def belowWithin? (range : Nat) : Nat → Source → Option (Nat × Source)
  | 0, _ => none
  | rounds + 1, s =>
    let (word, s) := s.next
    let product := word.toNat * range
    if product % UInt64.size ≤ zone range then some (product / UInt64.size, s)
    else belowWithin? range rounds s

/-- A number below `range`. A source has no more states than it is given rounds, so nothing comes out only if no
word ever counts. -/
def below? (range : Nat) (s : Source) : Option (Nat × Source) :=
  belowWithin? range (Nat.pow 2 128) s

instance : Generator Source where
  ofSeed seed := ofSeed seed.toBitVec
  between? lo hi s := (s.below? (hi - lo)).map fun (n, s) => (lo + n, s)

theorem lt_of_belowWithin? {range rounds n : Nat} {s s' : Source} (hrange : 0 < range)
    (h : belowWithin? range rounds s = some (n, s')) : n < range := by
  induction rounds generalizing s with
  | zero => contradiction
  | succ rounds ih =>
    rw [belowWithin?] at h
    dsimp only at h
    split at h
    next =>
      cases h
      exact Nat.div_lt_of_lt_mul (Nat.mul_lt_mul_of_pos_right s.next.1.isLt hrange)
    next => exact ih h

instance : LawfulGenerator Source where
  mem_of_between? {lo hi n s s'} hlt h := by
    obtain ⟨⟨k, s''⟩, hbelow, heq⟩ := Option.map_eq_some_iff.1 h
    cases heq
    have hk := lt_of_belowWithin? (Nat.sub_pos_of_lt hlt) hbelow
    omega

end Source

abbrev Draw := Drawing Source

end PatternAudit.Fuzz
