import SetCover.Random.Source

/-!
# Seeded sources

The words of a seeded source are the keystream of the eight-round ChaCha cipher. The seed is
stretched to a key of eight words by a permuted congruential generator; the block counter starts
at zero and there is no nonce. A block gives eight words of 64 bits, low half first.

* `stretch`: the key of a seed.
* `block`: the block of a key and a counter.
* `Stream.seeded`, `Source.seeded`: the stream and the source of a seed.
-/

namespace SetCover.Keystream

/-! ## Keys -/

/-- One step of the congruential generator. -/
def advance (state : UInt64) : UInt64 := state * 6364136223846793005 + 11634580027462260723

/-- The output of a state: some high bits folded together and rotated by the highest ones. -/
def output (state : UInt64) : UInt32 :=
  let x := (((state >>> 18) ^^^ state) >>> 27).toUInt32
  let r := (state >>> 59).toUInt32
  (x >>> r) ||| (x <<< ((32 - r) % 32))

/-- The next `count` outputs after a state. -/
def outputs : Nat → UInt64 → List UInt32
  | 0, _ => []
  | count + 1, state => output (advance state) :: outputs count (advance state)

/-- The key that a seed stands for. -/
def stretch (seed : UInt64) : List UInt32 := outputs 8 seed

/-! ## Blocks -/

/-- The sixteen words that the cipher works on. -/
abbrev State := Vector UInt32 16

/-- Rotation to the left, by 1 to 31 places. -/
def rotate (x : UInt32) (places : UInt32) : UInt32 := (x <<< places) ||| (x >>> (32 - places))

/-- Adds one word to a second and mixes the sum into a third. -/
def mix (s : State) (a b c : Fin 16) (places : UInt32) : State :=
  let sum := s[a] + s[b]
  let s := s.set a sum
  s.set c (rotate (s[c] ^^^ sum) places)

/-- A quarter round. -/
def quarter (s : State) (a b c d : Fin 16) : State :=
  let s := mix s a b d 16
  let s := mix s c d b 12
  let s := mix s a b d 8
  mix s c d b 7

/-- A round on the columns, then one on the diagonals. -/
def doubleRound (s : State) : State :=
  let s := quarter s 0 4 8 12
  let s := quarter s 1 5 9 13
  let s := quarter s 2 6 10 14
  let s := quarter s 3 7 11 15
  let s := quarter s 0 5 10 15
  let s := quarter s 1 6 11 12
  let s := quarter s 2 7 8 13
  quarter s 3 4 9 14

/-- The words of the text "expand 32-byte k". -/
def constants : List UInt32 := [0x61707865, 0x3320646e, 0x79622d32, 0x6b206574]

/-- What a block is computed from: constants, key, counter, and two zero words. -/
def start (key : List UInt32) (counter : UInt64) : State :=
  let words := constants ++ key ++ [counter.toUInt32, (counter >>> 32).toUInt32]
  Vector.ofFn fun i => words[i.val]?.getD 0

/-- A block: four double rounds over the start, added to the start. -/
def block (key : List UInt32) (counter : UInt64) : State :=
  let s := start key counter
  let mixed := doubleRound (doubleRound (doubleRound (doubleRound s)))
  Vector.zipWith (· + ·) s mixed

/-- The eight words of a block. -/
def chunk (b : State) : Chunk := Vector.ofFn fun j =>
  (b[2 * j.val]).toUInt64 ||| ((b[2 * j.val + 1]).toUInt64 <<< 32)

/-- Number of blocks of a key: the counter has 64 bits. -/
def blockCount : Nat := 2 ^ 64

/-- Chunk `k` of the keystream. The stream is over, and goes on with zeros, when the counter has no
further value. -/
def chunkAt (key : List UInt32) (k : Nat) : Chunk :=
  if k < blockCount then chunk (block key k.toUInt64) else Vector.replicate 8 0

theorem chunkAt_of_over {key : List UInt32} {k : Nat} (h : blockCount ≤ k) :
    chunkAt key k = Vector.replicate 8 0 := if_neg (Nat.not_lt.mpr h)

end SetCover.Keystream

namespace SetCover

/-- The stream of a seed. -/
def Stream.seeded (seed : UInt64) : Stream :=
  let key := Keystream.stretch seed
  .ofChunks (Keystream.chunkAt key) Keystream.blockCount fun _ => Keystream.chunkAt_of_over

/-- The source of a seed. -/
def Source.seeded (seed : UInt64) : Source := Source.ofStream (Stream.seeded seed)

end SetCover
