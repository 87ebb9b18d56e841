/-
# SeedGrammar.Random.KeyStream — an endless row of words decided by a seed

The words are the output of the ChaCha stream cipher with twelve rounds, a
64-bit block counter that starts at zero and a zero nonce. The key is stretched
from a 64-bit seed by eight steps of a permuted congruential generator. The
stream is a function of key and index (`word`), so a source of random numbers
need only remember how many words it has used.
-/
namespace SeedGrammar

set_option autoImplicit false

/-- Eight words that decide a stream. -/
abbrev Key := Vector UInt32 8

/-- The working state of the cipher, and one portion of its output. -/
abbrev Block := Vector UInt32 16

namespace KeyStream

/-! ## One block -/

/-- The word turned left by `n` bits, `0 < n < 32`. -/
def turnLeft (x : UInt32) (n : UInt32) : UInt32 :=
  (x <<< n) ||| (x >>> (32 - n))

def quarterRound (b : Block) (i j k l : Fin 16) : Block :=
  let a := b[i] + b[j]
  let d := turnLeft (b[l] ^^^ a) 16
  let c := b[k] + d
  let e := turnLeft (b[j] ^^^ c) 12
  let a := a + e
  let d := turnLeft (d ^^^ a) 8
  let c := c + d
  let e := turnLeft (e ^^^ c) 7
  (((b.set i a).set j e).set k c).set l d

/-- Four quarter rounds down the columns of the state, then four along its
diagonals. -/
def doubleRound (b : Block) : Block :=
  let b := quarterRound b 0 4 8 12
  let b := quarterRound b 1 5 9 13
  let b := quarterRound b 2 6 10 14
  let b := quarterRound b 3 7 11 15
  let b := quarterRound b 0 5 10 15
  let b := quarterRound b 1 6 11 12
  let b := quarterRound b 2 7 8 13
  quarterRound b 3 4 9 14

/-- Four constant words, the key, the block number (low word first) and two
zero words. -/
def start (key : Key) (number : UInt64) : Block :=
  #v[0x61707865, 0x3320646e, 0x79622d32, 0x6b206574,
    key[0], key[1], key[2], key[3], key[4], key[5], key[6], key[7],
    number.toUInt32, (number >>> 32).toUInt32, 0, 0]

/-- Six double rounds, added word by word to the state they began with. -/
def block (key : Key) (number : UInt64) : Block :=
  let first := start key number
  let mixed := (List.range 6).foldl (fun b _ => doubleRound b) first
  Vector.zipWith (· + ·) first mixed

/-- The word at an index of the endless stream. -/
def word (key : Key) (index : Nat) : UInt32 :=
  (block key (UInt64.ofNat (index / 16)))[index % 16]

end KeyStream

/-! ## From a seed to a key -/

namespace Key

/-- One step of the congruential generator. -/
def advance (state : UInt64) : UInt64 :=
  state * 6364136223846793005 + 11634580027462260723

/-- The word a state gives out: its high bits folded together and turned right
by its five highest bits. -/
def output (state : UInt64) : UInt32 :=
  let x := (((state >>> 18) ^^^ state) >>> 27).toUInt32
  let turn := (state >>> 59).toUInt32
  (x >>> turn) ||| (x <<< (32 - turn))

/-- The state after `n` steps from a seed. -/
def stateAfter (seed : UInt64) : Nat → UInt64
  | 0 => seed
  | n + 1 => advance (stateAfter seed n)

/-- The outputs of the first eight states after the seed. -/
def ofSeed (seed : UInt64) : Key :=
  Vector.ofFn fun i => output (stateAfter seed (i.val + 1))

end Key

end SeedGrammar
