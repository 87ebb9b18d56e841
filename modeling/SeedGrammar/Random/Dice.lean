/-
# SeedGrammar.Random.Dice — numbers and coin flips from a key stream

`Dice` are a key and the number of stream words used so far. Every draw uses the
next words and none is skipped, so the dice after a draw depend only on the dice
before it. `below n` multiplies a word by `n` and keeps the high half; when the
low half is so large that a further word could carry into the result, that word
is drawn too and the carry added. `below_lt` says that the carry never reaches
`n`: a high half of `n - 1` leaves the low half too small for one.
-/
import SeedGrammar.Random.KeyStream

namespace SeedGrammar

set_option autoImplicit false

/-- A count of equally likely outcomes. -/
abbrev Positive := { n : Nat // 0 < n }

structure Dice where
  key : Key
  used : Nat
  deriving DecidableEq

namespace Dice

def ofSeed (seed : UInt64) : Dice :=
  ⟨Key.ofSeed seed, 0⟩

/-- The next word of the stream. -/
def word (dice : Dice) : UInt32 × Dice :=
  (KeyStream.word dice.key dice.used, { dice with used := dice.used + 1 })

/-- The high half of a word times `n`. -/
def high (n word : Nat) : Nat := word * n / UInt32.size

/-- The low half of a word times `n`. -/
def low (n word : Nat) : Nat := word * n % UInt32.size

/-- The high half of the first product, with the carry that the high half of the
second sends up through the low half of the first. -/
def carried (n first second : Nat) : Nat :=
  if UInt32.size ≤ low n first + high n second then high n first + 1 else high n first

/-- A number below `n`, for an `n` from `1` to the largest word. A word is drawn
also for `n = 1`. -/
def below (n : Nat) (dice : Dice) : Nat × Dice :=
  let (first, dice) := dice.word
  if low n first.toNat ≤ UInt32.size - n then
    (high n first.toNat, dice)
  else
    let (second, dice) := dice.word
    (carried n first.toNat second.toNat, dice)

/-- A fair coin: whether a number of 64 bits, drawn low word first, is in the
lower half of its range. -/
def coin (dice : Dice) : Bool × Dice :=
  let (low, dice) := dice.word
  let (high, dice) := dice.word
  (decide (high.toNat * UInt32.size + low.toNat < UInt64.size / 2), dice)

/-! ## Draws stay below their bound -/

theorem high_lt {n first : Nat} (pos : 0 < n) (word : first < UInt32.size) : high n first < n :=
  Nat.div_lt_of_lt_mul (Nat.mul_lt_mul_of_pos_right word pos)

/-- Where a second word is drawn, the high half is not the largest outcome. -/
theorem high_succ_lt {n first : Nat} (pos : 0 < n) (word : first < UInt32.size)
    (large : UInt32.size - n < low n first) : high n first + 1 < n := by
  have split := Nat.div_add_mod (first * n) UInt32.size
  have bound := high_lt pos word
  have product : first * n ≤ (UInt32.size - 1) * n := Nat.mul_le_mul_right n (by omega)
  unfold high low UInt32.size at *
  omega

theorem carried_lt {n first second : Nat} (pos : 0 < n) (word : first < UInt32.size)
    (large : UInt32.size - n < low n first) : carried n first second < n := by
  have room := high_succ_lt pos word large
  unfold carried
  split <;> omega

theorem below_lt {n : Nat} (pos : 0 < n) (dice : Dice) : (dice.below n).1 < n := by
  have word : dice.word.1.toNat < UInt32.size := dice.word.1.toNat_lt
  unfold below
  simp only
  split
  · exact high_lt pos word
  · exact carried_lt pos word (by omega)

/-- A draw below a bound, with its range in its type. -/
def roll (sides : Positive) (dice : Dice) : Fin sides.val × Dice :=
  (⟨(dice.below sides.val).1, below_lt sides.property dice⟩, (dice.below sides.val).2)

end Dice

end SeedGrammar
