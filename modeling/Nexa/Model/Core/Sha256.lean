import Mathlib.Data.BitVec

/-! # SHA-256

The compression function of `crypto/sha256.cpp`. The unrolled rounds of `Transform` become one
recursion over the round constants with the window of sixteen message words that the source keeps in
`w0 … w15`; the buffer of `CSHA256::Write` disappears because the whole message is hashed at once.
A word is a number below 2^32, and sums are reduced; the operations are named directly so that
concrete digests can be evaluated by the kernel.
-/

namespace Nexa

abbrev Bytes := List UInt8

namespace Sha256

abbrev Word := ℕ

def add (x y : Word) : Word := Nat.mod (Nat.add x y) 4294967296

def rotr (x count : Word) : Word :=
  Nat.lor (Nat.shiftRight x count) (Nat.mod (Nat.shiftLeft x (Nat.sub 32 count)) 4294967296)

def ch (x y z : Word) : Word := Nat.xor z (Nat.land x (Nat.xor y z))

def maj (x y z : Word) : Word := Nat.lor (Nat.land x y) (Nat.land z (Nat.lor x y))

variable (x : Word)

def bigSigma0 : Word := Nat.xor (Nat.xor (rotr x 2) (rotr x 13)) (rotr x 22)

def bigSigma1 : Word := Nat.xor (Nat.xor (rotr x 6) (rotr x 11)) (rotr x 25)

def sigma0 : Word := Nat.xor (Nat.xor (rotr x 7) (rotr x 18)) (Nat.shiftRight x 3)

def sigma1 : Word := Nat.xor (Nat.xor (rotr x 17) (rotr x 19)) (Nat.shiftRight x 10)

/-- The eight chaining words `s[0] … s[7]`. -/
structure State where
  a : Word
  b : Word
  c : Word
  d : Word
  e : Word
  f : Word
  g : Word
  h : Word
deriving DecidableEq, Repr

def roundConstants : List Word := [
  0x428a2f98, 0x71374491, 0xb5c0fbcf, 0xe9b5dba5, 0x3956c25b, 0x59f111f1, 0x923f82a4, 0xab1c5ed5,
  0xd807aa98, 0x12835b01, 0x243185be, 0x550c7dc3, 0x72be5d74, 0x80deb1fe, 0x9bdc06a7, 0xc19bf174,
  0xe49b69c1, 0xefbe4786, 0x0fc19dc6, 0x240ca1cc, 0x2de92c6f, 0x4a7484aa, 0x5cb0a9dc, 0x76f988da,
  0x983e5152, 0xa831c66d, 0xb00327c8, 0xbf597fc7, 0xc6e00bf3, 0xd5a79147, 0x06ca6351, 0x14292967,
  0x27b70a85, 0x2e1b2138, 0x4d2c6dfc, 0x53380d13, 0x650a7354, 0x766a0abb, 0x81c2c92e, 0x92722c85,
  0xa2bfe8a1, 0xa81a664b, 0xc24b8b70, 0xc76c51a3, 0xd192e819, 0xd6990624, 0xf40e3585, 0x106aa070,
  0x19a4c116, 0x1e376c08, 0x2748774c, 0x34b0bcb5, 0x391c0cb3, 0x4ed8aa4a, 0x5b9cca4f, 0x682e6ff3,
  0x748f82ee, 0x78a5636f, 0x84c87814, 0x8cc70208, 0x90befffa, 0xa4506ceb, 0xbef9a3f7, 0xc67178f2]

def initialState : State :=
  ⟨0x6a09e667, 0xbb67ae85, 0x3c6ef372, 0xa54ff53a, 0x510e527f, 0x9b05688c, 0x1f83d9ab, 0x5be0cd19⟩

/-- One round; the source rotates the names of the variables instead of their values. -/
def round (s : State) (k : Word) : State :=
  let t1 := add (add (add s.h (bigSigma1 s.e)) (ch s.e s.f s.g)) k
  let t2 := add (bigSigma0 s.a) (maj s.a s.b s.c)
  ⟨add t1 t2, s.a, s.b, s.c, add s.d t1, s.e, s.f, s.g⟩

/-- The rounds for the remaining constants; the head of the window is the word of this round. -/
def rounds : List Word → List Word → State → State
  | [], _, s => s
  | k :: ks, window, s =>
    match window with
    | [w0, w1, w2, w3, w4, w5, w6, w7, w8, w9, w10, w11, w12, w13, w14, w15] =>
      rounds ks
        [w1, w2, w3, w4, w5, w6, w7, w8, w9, w10, w11, w12, w13, w14, w15,
          add w0 (add (add (sigma1 w14) w9) (sigma0 w1))]
        (round s (add k w0))
    | _ => s

/-- `ReadBE32` over consecutive groups of four bytes. -/
def wordsBE : Bytes → List Word
  | b0 :: b1 :: b2 :: b3 :: rest =>
    (b0.toNat * 16777216 + b1.toNat * 65536 + b2.toNat * 256 + b3.toNat) :: wordsBE rest
  | _ => []

/-- `Transform` on one 64-byte chunk. -/
def transform (s : State) (chunk : Bytes) : State :=
  let r := rounds roundConstants (wordsBE chunk) s
  ⟨add s.a r.a, add s.b r.b, add s.c r.c, add s.d r.d, add s.e r.e, add s.f r.f, add s.g r.g, add s.h r.h⟩

/-- The chunks of a message whose length is a multiple of 64. -/
def transformChunks : ℕ → Bytes → State → State
  | 0, _, s => s
  | count + 1, message, s => transformChunks count (message.drop 64) (transform s (message.take 64))

def bytesBE : ℕ → ℕ → Bytes
  | 0, _ => []
  | width + 1, value => UInt8.ofNat (value / 256 ^ width) :: bytesBE width value

variable (message : Bytes)

/-- The message followed by the padding and the length that `Finalize` writes. -/
def pad : Bytes :=
  message ++ 0x80 :: List.replicate ((119 - message.length % 64) % 64) 0 ++ bytesBE 8 (message.length * 8 % 2 ^ 64)

/-- The digest written by `Finalize` after the whole message. -/
@[irreducible] def hash : Bytes :=
  let padded := pad message
  let s := transformChunks (padded.length / 64) padded initialState
  bytesBE 4 s.a ++ bytesBE 4 s.b ++ bytesBE 4 s.c ++ bytesBE 4 s.d ++
    bytesBE 4 s.e ++ bytesBE 4 s.f ++ bytesBE 4 s.g ++ bytesBE 4 s.h

@[simp] theorem length_bytesBE (width value : ℕ) : (bytesBE width value).length = width := by
  induction width with
  | zero => rfl
  | succ width ih => simp [bytesBE, ih]

@[simp] theorem length_hash : (hash message).length = 32 := by
  simp [hash]

end Sha256

end Nexa
