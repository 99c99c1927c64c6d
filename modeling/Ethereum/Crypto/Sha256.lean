/-
# SHA-256

A chain of eight 32-bit words is compressed with each block of the padded
message in 64 rounds; the digest is the final chain.
-/

import Ethereum.Crypto.Block

namespace Ethereum
namespace Crypto
namespace Sha256

/-- The chaining value: eight words. -/
structure Chain where
  a : UInt32
  b : UInt32
  c : UInt32
  d : UInt32
  e : UInt32
  f : UInt32
  g : UInt32
  h : UInt32

/-- The first bits of the fractional parts of the square roots of the first
eight primes. -/
def initial : Chain :=
  ⟨0x6a09e667, 0xbb67ae85, 0x3c6ef372, 0xa54ff53a, 0x510e527f, 0x9b05688c, 0x1f83d9ab, 0x5be0cd19⟩

/-- The first bits of the fractional parts of the cube roots of the first 64
primes, one for each round. -/
def roundConstants : List UInt32 := [
  0x428a2f98, 0x71374491, 0xb5c0fbcf, 0xe9b5dba5, 0x3956c25b, 0x59f111f1, 0x923f82a4, 0xab1c5ed5,
  0xd807aa98, 0x12835b01, 0x243185be, 0x550c7dc3, 0x72be5d74, 0x80deb1fe, 0x9bdc06a7, 0xc19bf174,
  0xe49b69c1, 0xefbe4786, 0x0fc19dc6, 0x240ca1cc, 0x2de92c6f, 0x4a7484aa, 0x5cb0a9dc, 0x76f988da,
  0x983e5152, 0xa831c66d, 0xb00327c8, 0xbf597fc7, 0xc6e00bf3, 0xd5a79147, 0x06ca6351, 0x14292967,
  0x27b70a85, 0x2e1b2138, 0x4d2c6dfc, 0x53380d13, 0x650a7354, 0x766a0abb, 0x81c2c92e, 0x92722c85,
  0xa2bfe8a1, 0xa81a664b, 0xc24b8b70, 0xc76c51a3, 0xd192e819, 0xd6990624, 0xf40e3585, 0x106aa070,
  0x19a4c116, 0x1e376c08, 0x2748774c, 0x34b0bcb5, 0x391c0cb3, 0x4ed8aa4a, 0x5b9cca4f, 0x682e6ff3,
  0x748f82ee, 0x78a5636f, 0x84c87814, 0x8cc70208, 0x90befffa, 0xa4506ceb, 0xbef9a3f7, 0xc67178f2]

/-- `n` more words of the message schedule, each computed from the 16 before
it. -/
def extend : Nat → Array UInt32 → Array UInt32
  | 0, w => w
  | n + 1, w =>
    let x := w.getD (w.size - 15) 0
    let y := w.getD (w.size - 2) 0
    let s := rotateRight x 7 ^^^ rotateRight x 18 ^^^ x >>> 3
    let t := rotateRight y 17 ^^^ rotateRight y 19 ^^^ y >>> 10
    extend n (w.push (w.getD (w.size - 16) 0 + s + w.getD (w.size - 7) 0 + t))

/-- One round, with the sum of its constant and its schedule word. -/
def round (v : Chain) (k : UInt32) : Chain :=
  let s := rotateRight v.e 6 ^^^ rotateRight v.e 11 ^^^ rotateRight v.e 25
  let choice := (v.e &&& v.f) ^^^ (~~~v.e &&& v.g)
  let t := v.h + s + choice + k
  let u := rotateRight v.a 2 ^^^ rotateRight v.a 13 ^^^ rotateRight v.a 22
  let majority := (v.a &&& v.b) ^^^ (v.a &&& v.c) ^^^ (v.b &&& v.c)
  ⟨t + (u + majority), v.a, v.b, v.c, v.d + t, v.e, v.f, v.g⟩

/-- The chain after the first 64 bytes of what is left of a message. -/
def compress (v : Chain) (rest : Bytes) : Chain :=
  let schedule := (extend 48 (wordsBig 16 rest).toArray).toList
  let w := (List.zipWith (· + ·) roundConstants schedule).foldl round v
  ⟨v.a + w.a, v.b + w.b, v.c + w.c, v.d + w.d, v.e + w.e, v.f + w.f, v.g + w.g, v.h + w.h⟩

/-- The SHA-256 digest of a message. -/
def digest (message : Bytes) : Bytes :=
  let padded := padLength message (Bytes.ofNatFixed 8 (8 * message.length))
  let v := foldBlocks 64 compress initial padded
  [v.a, v.b, v.c, v.d, v.e, v.f, v.g, v.h].flatMap bytesBig

@[simp] theorem length_digest (message : Bytes) : (digest message).length = 32 := by
  simp [digest, bytesBig]

end Sha256
end Crypto
end Ethereum
