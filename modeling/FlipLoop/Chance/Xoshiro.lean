/-!
# The generator xoshiro256++

Four words of 64 bits, expanded from a seed by PCG32. On top of the words stand three kinds of draw:
a fraction of one, a coin, and a number below a bound.
-/

namespace FlipLoop.Chance

structure Xoshiro where
  s0 : UInt64
  s1 : UInt64
  s2 : UInt64
  s3 : UInt64
  deriving DecidableEq

namespace Xoshiro

def rotateLeft (x : UInt64) (n : UInt64) : UInt64 :=
  (x <<< n) ||| (x >>> (64 - n))

def rotateRight32 (x : UInt32) (n : UInt32) : UInt32 :=
  (x >>> n) ||| (x <<< (32 - n))

/-- The word of 32 bits that PCG32 puts out in a state. -/
def seedWord (state : UInt64) : UInt64 :=
  let mixed := (((state >>> 18) ^^^ state) >>> 27).toUInt32
  (rotateRight32 mixed (state >>> 59).toUInt32).toUInt64

def seedStep (state : UInt64) : UInt64 :=
  state * 6364136223846793005 + 11634580027462260723

/-- Two successive words, the first one low, and the state behind them. -/
def seedPair (state : UInt64) : UInt64 × UInt64 :=
  let first := seedStep state
  let second := seedStep first
  (seedWord first ||| (seedWord second <<< 32), second)

/-- The generator of a seed: its four words are eight successive words of PCG32. -/
def ofSeed (seed : UInt64) : Xoshiro :=
  let (s0, state) := seedPair seed
  let (s1, state) := seedPair state
  let (s2, state) := seedPair state
  let (s3, _) := seedPair state
  ⟨s0, s1, s2, s3⟩

def next (g : Xoshiro) : UInt64 × Xoshiro :=
  let word := rotateLeft (g.s0 + g.s3) 23 + g.s0
  let s2 := g.s2 ^^^ g.s0
  let s3 := g.s3 ^^^ g.s1
  (word, ⟨g.s0 ^^^ s3, g.s1 ^^^ s2, s2 ^^^ (g.s1 <<< 17), rotateLeft s3 45⟩)

/-- A fraction of one: the top 53 bits of a word, in units of 2 ^ -53. -/
def unit (g : Xoshiro) : Float × Xoshiro :=
  let (word, g) := g.next
  ((word >>> 11).toFloat / 9007199254740992.0, g)

def coin (g : Xoshiro) : Bool × Xoshiro :=
  let (word, g) := g.next
  (word >>> 63 != 0, g)

/-- The words that a draw below `n` keeps: those whose product with `n` has a low half below this. It
is the largest multiple of `n` by a power of two that fits into a word. -/
def zone (n : Nat) : Nat := n <<< (63 - n.log2)

/-- Draws words until one is kept, at most `tries` of them besides the last, and gives the high half
of its product with `n`. -/
def belowWithin (n : Nat) : Nat → Xoshiro → Nat × Xoshiro
  | 0, g =>
    let (word, g) := g.next
    (word.toNat * n / UInt64.size, g)
  | tries + 1, g =>
    let (word, g) := g.next
    let product := word.toNat * n
    if product % UInt64.size < zone n then (product / UInt64.size, g) else belowWithin n tries g

/-- A number below `n`, for `0 < n`. There are 2 ^ 256 states, so a generator that has rejected as
many words repeats itself, and no later word would be kept either. -/
def below (n : Nat) (g : Xoshiro) : Nat × Xoshiro :=
  belowWithin n (1 <<< 256) g

theorem mul_div_lt (word : UInt64) {n : Nat} (h : 0 < n) : word.toNat * n / UInt64.size < n := by
  rw [Nat.div_lt_iff_lt_mul (by decide), Nat.mul_comm]
  exact Nat.mul_lt_mul_of_pos_left word.toNat_lt_size h

theorem belowWithin_lt {n : Nat} (h : 0 < n) (tries : Nat) (g : Xoshiro) :
    (belowWithin n tries g).1 < n := by
  induction tries generalizing g with
  | zero => exact mul_div_lt _ h
  | succ tries ih =>
    rw [belowWithin]
    dsimp only
    split
    · exact mul_div_lt _ h
    · exact ih _

theorem below_lt {n : Nat} (h : 0 < n) (g : Xoshiro) : (below n g).1 < n :=
  belowWithin_lt h _ g

end Xoshiro

end FlipLoop.Chance
