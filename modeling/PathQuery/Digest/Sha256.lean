namespace PathQuery.Digest

/-! # SHA-256

The digest of a list of bytes: the message is padded to blocks of sixty-four
bytes, and each block is folded into a state of eight words.
-/

structure Words where
  a : UInt32
  b : UInt32
  c : UInt32
  d : UInt32
  e : UInt32
  f : UInt32
  g : UInt32
  h : UInt32

namespace Words

/-- The first 32 bits of the fractional parts of the square roots of the first
    eight primes. -/
def initial : Words where
  a := 0x6a09e667
  b := 0xbb67ae85
  c := 0x3c6ef372
  d := 0xa54ff53a
  e := 0x510e527f
  f := 0x9b05688c
  g := 0x1f83d9ab
  h := 0x5be0cd19

def add (x y : Words) : Words :=
  ⟨x.a + y.a, x.b + y.b, x.c + y.c, x.d + y.d, x.e + y.e, x.f + y.f, x.g + y.g, x.h + y.h⟩

def toList (x : Words) : List UInt32 := [x.a, x.b, x.c, x.d, x.e, x.f, x.g, x.h]

end Words

/-- The first 32 bits of the fractional parts of the cube roots of the first
    sixty-four primes. -/
def roundConstants : List UInt32 := [
  0x428a2f98, 0x71374491, 0xb5c0fbcf, 0xe9b5dba5, 0x3956c25b, 0x59f111f1, 0x923f82a4, 0xab1c5ed5,
  0xd807aa98, 0x12835b01, 0x243185be, 0x550c7dc3, 0x72be5d74, 0x80deb1fe, 0x9bdc06a7, 0xc19bf174,
  0xe49b69c1, 0xefbe4786, 0x0fc19dc6, 0x240ca1cc, 0x2de92c6f, 0x4a7484aa, 0x5cb0a9dc, 0x76f988da,
  0x983e5152, 0xa831c66d, 0xb00327c8, 0xbf597fc7, 0xc6e00bf3, 0xd5a79147, 0x06ca6351, 0x14292967,
  0x27b70a85, 0x2e1b2138, 0x4d2c6dfc, 0x53380d13, 0x650a7354, 0x766a0abb, 0x81c2c92e, 0x92722c85,
  0xa2bfe8a1, 0xa81a664b, 0xc24b8b70, 0xc76c51a3, 0xd192e819, 0xd6990624, 0xf40e3585, 0x106aa070,
  0x19a4c116, 0x1e376c08, 0x2748774c, 0x34b0bcb5, 0x391c0cb3, 0x4ed8aa4a, 0x5b9cca4f, 0x682e6ff3,
  0x748f82ee, 0x78a5636f, 0x84c87814, 0x8cc70208, 0x90befffa, 0xa4506ceb, 0xbef9a3f7, 0xc67178f2]

def rotateRight (x : UInt32) (count : UInt32) : UInt32 :=
  (x >>> count) ||| (x <<< (32 - count))

/-- A number as `count` bytes, the highest first. -/
def bigEndian (count : Nat) (n : Nat) : List UInt8 :=
  (List.range count).reverse.map fun i => UInt8.ofNat (n >>> (8 * i))

/-- The padded message: a one bit, zero bits up to eight bytes short of a whole
    block, and the length of the message in bits. -/
def padded (message : List UInt8) : List UInt8 :=
  let filled := message.length + 9
  message ++ [0x80] ++ List.replicate ((64 - filled % 64) % 64) 0 ++
    bigEndian 8 (8 * message.length)

def bigEndianWord (bytes : List UInt8) : UInt32 :=
  bytes.foldl (fun word byte => (word <<< 8) ||| byte.toUInt32) 0

/-- The pieces of a list that hold `size` items each, at most `count` of them. -/
def pieces (size : Nat) : Nat → List α → List (List α)
  | 0, _ => []
  | count + 1, items =>
    if items.isEmpty then [] else items.take size :: pieces size count (items.drop size)

/-- The next word of a message schedule, of which the newest words come first. -/
def nextWord (schedule : List UInt32) : UInt32 :=
  let near := schedule.getD 1 0
  let far := schedule.getD 14 0
  let sigmaNear := rotateRight near 17 ^^^ rotateRight near 19 ^^^ (near >>> 10)
  let sigmaFar := rotateRight far 7 ^^^ rotateRight far 18 ^^^ (far >>> 3)
  sigmaNear + schedule.getD 6 0 + sigmaFar + schedule.getD 15 0

/-- The sixty-four words of a block: its own sixteen and forty-eight more. -/
def schedule (block : List UInt8) : List UInt32 :=
  let own := (pieces 4 16 block).map bigEndianWord
  (Nat.repeat (fun words => nextWord words :: words) 48 own.reverse).reverse

def round (state : Words) (constant word : UInt32) : Words :=
  let sumE := rotateRight state.e 6 ^^^ rotateRight state.e 11 ^^^ rotateRight state.e 25
  let choice := (state.e &&& state.f) ^^^ (~~~state.e &&& state.g)
  let first := state.h + sumE + choice + constant + word
  let sumA := rotateRight state.a 2 ^^^ rotateRight state.a 13 ^^^ rotateRight state.a 22
  let majority := (state.a &&& state.b) ^^^ (state.a &&& state.c) ^^^ (state.b &&& state.c)
  ⟨first + sumA + majority, state.a, state.b, state.c, state.d + first, state.e, state.f, state.g⟩

def compress (state : Words) (block : List UInt8) : Words :=
  let final := (roundConstants.zip (schedule block)).foldl
    (fun state pair => round state pair.1 pair.2) state
  state.add final

/-- The thirty-two bytes of the digest. -/
def sha256 (message : List UInt8) : List UInt8 :=
  let bytes := padded message
  let state := (pieces 64 bytes.length bytes).foldl compress Words.initial
  state.toList.flatMap fun word => bigEndian 4 word.toNat

end PathQuery.Digest
