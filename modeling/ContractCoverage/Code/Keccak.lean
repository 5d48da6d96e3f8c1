/-! Keccak-256, the hash that codes are known by.

The state is a square of five by five lanes of 64 bits; the lane in column `x` and
row `y` has the index `x + 5 * y`. A block of 136 bytes is added to the first 17
lanes and the state is permuted; after the last block the first four lanes are the
hash. The padding starts with the bit pattern 01 and ends with 80. -/
namespace ContractCoverage.Keccak

/-- The 25 lanes. -/
abbrev State := Vector UInt64 25

/-- The lane in a column and a row, both taken modulo five. -/
def lane (a : State) (x y : Nat) : UInt64 := a[x % 5 + 5 * (y % 5)]

/-- A word turned left by some bits. -/
def rotate (w : UInt64) (n : Nat) : UInt64 :=
  if n = 0 then w else (w <<< n.toUInt64) ||| (w >>> (64 - n).toUInt64)

/-- How far each lane is turned. -/
def rotations : Vector Nat 25 :=
  #v[0, 1, 62, 28, 27,
     36, 44, 6, 55, 20,
     3, 10, 43, 25, 39,
     41, 45, 15, 21, 8,
     18, 2, 61, 56, 14]

/-- What is added to the first lane in each round. -/
def roundConstants : List UInt64 :=
  [0x0000000000000001, 0x0000000000008082, 0x800000000000808a, 0x8000000080008000,
   0x000000000000808b, 0x0000000080000001, 0x8000000080008081, 0x8000000000008009,
   0x000000000000008a, 0x0000000000000088, 0x0000000080008009, 0x000000008000000a,
   0x000000008000808b, 0x800000000000008b, 0x8000000000008089, 0x8000000000008003,
   0x8000000000008002, 0x8000000000000080, 0x000000000000800a, 0x800000008000000a,
   0x8000000080008081, 0x8000000000008080, 0x0000000080000001, 0x8000000080008008]

/-- A state given lane by lane, from column and row. -/
def State.ofLanes (f : Nat → Nat → UInt64) : State :=
  Vector.ofFn fun i => f (i.val % 5) (i.val / 5)

/-- Adds to every lane the parities of two columns next to it. -/
def theta (a : State) : State :=
  let parity : Vector UInt64 5 := Vector.ofFn fun x =>
    lane a x 0 ^^^ lane a x 1 ^^^ lane a x 2 ^^^ lane a x 3 ^^^ lane a x 4
  let effect : Vector UInt64 5 := Vector.ofFn fun x =>
    parity[(x.val + 4) % 5] ^^^ rotate parity[(x.val + 1) % 5] 1
  .ofLanes fun x y => lane a x y ^^^ effect[x % 5]

/-- Turns every lane and moves it to its new place. -/
def rhoPi (a : State) : State :=
  .ofLanes fun x y =>
    let column := (x + 3 * y) % 5
    rotate (lane a column x) rotations[column + 5 * (x % 5)]

/-- Combines every lane with the two to its right. -/
def chi (a : State) : State :=
  .ofLanes fun x y => lane a x y ^^^ (~~~lane a (x + 1) y &&& lane a (x + 2) y)

/-- One round. -/
def round (a : State) (constant : UInt64) : State :=
  let b := chi (rhoPi (theta a))
  b.set 0 (b[0] ^^^ constant)

/-- All rounds. -/
def permute (a : State) : State := roundConstants.foldl round a

/-- The number of bytes in a block. -/
def rate : Nat := 136

/-- The word of up to eight bytes, the least significant one first. -/
def wordOfBytes (bytes : List UInt8) : UInt64 :=
  bytes.foldr (fun b w => (w <<< 8) ||| b.toUInt64) 0

/-- The bytes of a word, the least significant one first. -/
def bytesOfWord (w : UInt64) : List UInt8 :=
  (List.range 8).map fun i => (w >>> (8 * i).toUInt64).toUInt8

/-- Adds a block to the state. -/
def addBlock (a : State) (block : List UInt8) : State :=
  Vector.ofFn fun i => a[i] ^^^ wordOfBytes ((block.drop (8 * i.val)).take 8)

/-- Takes in a message block by block. -/
def absorb (a : State) (bytes : List UInt8) : State :=
  if bytes.isEmpty then a
  else absorb (permute (addBlock a (bytes.take rate))) (bytes.drop rate)
termination_by bytes.length
decreasing_by
  cases bytes with
  | nil => contradiction
  | cons b bytes => simp only [List.length_drop, List.length_cons, rate]; omega

/-- A message with its padding, a whole number of blocks. -/
def pad (bytes : List UInt8) : List UInt8 :=
  let gap := rate - bytes.length % rate
  if gap = 1 then bytes ++ [0x81]
  else bytes ++ 0x01 :: (List.replicate (gap - 2) 0x00 ++ [0x80])

/-- The 32 bytes of the hash of a message. -/
def hash (bytes : List UInt8) : List UInt8 :=
  let a := absorb (Vector.replicate 25 0) (pad bytes)
  (a.toList.take 4).flatMap bytesOfWord

theorem length_hash (bytes : List UInt8) : (hash bytes).length = 32 := by
  simp [hash, bytesOfWord, List.length_flatMap, List.map_const']

/-- Padding fills the last block. -/
theorem length_pad (bytes : List UInt8) : (pad bytes).length % rate = 0 := by
  by_cases h : 136 - bytes.length % 136 = 1 <;> simp [pad, rate, h] <;> omega

end ContractCoverage.Keccak
