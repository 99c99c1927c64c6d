/-
# Keccak-256

A sponge over a state of 25 lanes of 64 bits.  The message, padded by a one bit,
zeros and another one bit, is absorbed in blocks of 17 lanes, each followed by
the permutation of 24 rounds; the digest is the first four lanes at the end.

Lane `axy` stands in column `x` and row `y`.  A round mixes the parities of the
columns into the lanes (`mixColumns`), rotates and moves the lanes
(`rotateLanes`), combines each lane with its two neighbours in the row
(`combineRows`), and adds a constant to the first lane.
-/

import Ethereum.Crypto.Block
import Ethereum.Word.Basic

namespace Ethereum
namespace Crypto
namespace Keccak

/-- The state: five rows of five lanes. -/
structure State where
  a00 : UInt64
  a10 : UInt64
  a20 : UInt64
  a30 : UInt64
  a40 : UInt64
  a01 : UInt64
  a11 : UInt64
  a21 : UInt64
  a31 : UInt64
  a41 : UInt64
  a02 : UInt64
  a12 : UInt64
  a22 : UInt64
  a32 : UInt64
  a42 : UInt64
  a03 : UInt64
  a13 : UInt64
  a23 : UInt64
  a33 : UInt64
  a43 : UInt64
  a04 : UInt64
  a14 : UInt64
  a24 : UInt64
  a34 : UInt64
  a44 : UInt64

/-- The state of zeros. -/
def zero : State :=
  ⟨0, 0, 0, 0, 0, 0, 0, 0, 0, 0, 0, 0, 0, 0, 0, 0, 0, 0, 0, 0, 0, 0, 0, 0, 0⟩

/-- A lane rotated left by `n` bits. -/
@[inline] def rotate (w : UInt64) (n : UInt64) : UInt64 :=
  w <<< n ||| w >>> (64 - n)

/-- Adds to each lane the parities of the columns before and after its own, the
latter rotated by one bit. -/
@[inline] def mixColumns (s : State) : State :=
  let c0 := s.a00 ^^^ s.a01 ^^^ s.a02 ^^^ s.a03 ^^^ s.a04
  let c1 := s.a10 ^^^ s.a11 ^^^ s.a12 ^^^ s.a13 ^^^ s.a14
  let c2 := s.a20 ^^^ s.a21 ^^^ s.a22 ^^^ s.a23 ^^^ s.a24
  let c3 := s.a30 ^^^ s.a31 ^^^ s.a32 ^^^ s.a33 ^^^ s.a34
  let c4 := s.a40 ^^^ s.a41 ^^^ s.a42 ^^^ s.a43 ^^^ s.a44
  let d0 := c4 ^^^ rotate c1 1
  let d1 := c0 ^^^ rotate c2 1
  let d2 := c1 ^^^ rotate c3 1
  let d3 := c2 ^^^ rotate c4 1
  let d4 := c3 ^^^ rotate c0 1
  ⟨s.a00 ^^^ d0, s.a10 ^^^ d1, s.a20 ^^^ d2, s.a30 ^^^ d3, s.a40 ^^^ d4,
    s.a01 ^^^ d0, s.a11 ^^^ d1, s.a21 ^^^ d2, s.a31 ^^^ d3, s.a41 ^^^ d4,
    s.a02 ^^^ d0, s.a12 ^^^ d1, s.a22 ^^^ d2, s.a32 ^^^ d3, s.a42 ^^^ d4,
    s.a03 ^^^ d0, s.a13 ^^^ d1, s.a23 ^^^ d2, s.a33 ^^^ d3, s.a43 ^^^ d4,
    s.a04 ^^^ d0, s.a14 ^^^ d1, s.a24 ^^^ d2, s.a34 ^^^ d3, s.a44 ^^^ d4⟩

/-- Rotates each lane by its own distance and moves it: lane `xy` goes to column
`y` and row `2 x + 3 y`. -/
@[inline] def rotateLanes (s : State) : State :=
  ⟨rotate s.a00 0, rotate s.a11 44, rotate s.a22 43, rotate s.a33 21, rotate s.a44 14,
    rotate s.a30 28, rotate s.a41 20, rotate s.a02 3, rotate s.a13 45, rotate s.a24 61,
    rotate s.a10 1, rotate s.a21 6, rotate s.a32 25, rotate s.a43 8, rotate s.a04 18,
    rotate s.a40 27, rotate s.a01 36, rotate s.a12 10, rotate s.a23 15, rotate s.a34 56,
    rotate s.a20 62, rotate s.a31 55, rotate s.a42 39, rotate s.a03 41, rotate s.a14 2⟩

/-- Adds to each lane the product of the complement of the next lane in its row
and the one after it. -/
@[inline] def combineRows (s : State) : State :=
  ⟨s.a00 ^^^ (~~~s.a10 &&& s.a20), s.a10 ^^^ (~~~s.a20 &&& s.a30),
    s.a20 ^^^ (~~~s.a30 &&& s.a40), s.a30 ^^^ (~~~s.a40 &&& s.a00),
    s.a40 ^^^ (~~~s.a00 &&& s.a10),
    s.a01 ^^^ (~~~s.a11 &&& s.a21), s.a11 ^^^ (~~~s.a21 &&& s.a31),
    s.a21 ^^^ (~~~s.a31 &&& s.a41), s.a31 ^^^ (~~~s.a41 &&& s.a01),
    s.a41 ^^^ (~~~s.a01 &&& s.a11),
    s.a02 ^^^ (~~~s.a12 &&& s.a22), s.a12 ^^^ (~~~s.a22 &&& s.a32),
    s.a22 ^^^ (~~~s.a32 &&& s.a42), s.a32 ^^^ (~~~s.a42 &&& s.a02),
    s.a42 ^^^ (~~~s.a02 &&& s.a12),
    s.a03 ^^^ (~~~s.a13 &&& s.a23), s.a13 ^^^ (~~~s.a23 &&& s.a33),
    s.a23 ^^^ (~~~s.a33 &&& s.a43), s.a33 ^^^ (~~~s.a43 &&& s.a03),
    s.a43 ^^^ (~~~s.a03 &&& s.a13),
    s.a04 ^^^ (~~~s.a14 &&& s.a24), s.a14 ^^^ (~~~s.a24 &&& s.a34),
    s.a24 ^^^ (~~~s.a34 &&& s.a44), s.a34 ^^^ (~~~s.a44 &&& s.a04),
    s.a44 ^^^ (~~~s.a04 &&& s.a14)⟩

/-- One round with its constant. -/
def round (s : State) (constant : UInt64) : State :=
  let t := combineRows (rotateLanes (mixColumns s))
  { t with a00 := t.a00 ^^^ constant }

/-- The constants of the 24 rounds. -/
def roundConstants : List UInt64 := [
  0x0000000000000001, 0x0000000000008082, 0x800000000000808a, 0x8000000080008000,
  0x000000000000808b, 0x0000000080000001, 0x8000000080008081, 0x8000000000008009,
  0x000000000000008a, 0x0000000000000088, 0x0000000080008009, 0x000000008000000a,
  0x000000008000808b, 0x800000000000008b, 0x8000000000008089, 0x8000000000008003,
  0x8000000000008002, 0x8000000000000080, 0x000000000000800a, 0x800000008000000a,
  0x8000000080008081, 0x8000000000008080, 0x0000000080000001, 0x8000000080008008]

/-- The permutation of states. -/
def permute (s : State) : State :=
  roundConstants.foldl round s

/-- The state after absorbing the first 136 bytes of what is left of a message. -/
def absorb (s : State) (rest : Bytes) : State :=
  match lanes 17 rest with
  | [l0, l1, l2, l3, l4, l5, l6, l7, l8, l9, l10, l11, l12, l13, l14, l15, l16] =>
    permute { s with
      a00 := s.a00 ^^^ l0, a10 := s.a10 ^^^ l1, a20 := s.a20 ^^^ l2,
      a30 := s.a30 ^^^ l3, a40 := s.a40 ^^^ l4, a01 := s.a01 ^^^ l5,
      a11 := s.a11 ^^^ l6, a21 := s.a21 ^^^ l7, a31 := s.a31 ^^^ l8,
      a41 := s.a41 ^^^ l9, a02 := s.a02 ^^^ l10, a12 := s.a12 ^^^ l11,
      a22 := s.a22 ^^^ l12, a32 := s.a32 ^^^ l13, a42 := s.a42 ^^^ l14,
      a03 := s.a03 ^^^ l15, a13 := s.a13 ^^^ l16 }
  | _ => s

/-- The message with its padding: whole blocks of 136 bytes. -/
def pad (message : Bytes) : Bytes :=
  match 136 - message.length % 136 with
  | 1 => message ++ [0x81]
  | n => message ++ (0x01 :: List.replicate (n - 2) 0 ++ [0x80])

/-- The Keccak-256 digest of a message. -/
def digest (message : Bytes) : Bytes :=
  let s := foldBlocks 136 absorb zero (pad message)
  [s.a00, s.a10, s.a20, s.a30].flatMap laneBytes

@[simp] theorem length_digest (message : Bytes) : (digest message).length = 32 := by
  simp [digest, laneBytes]

end Keccak
end Crypto

/-- The Keccak-256 digest of a byte string as a hash. -/
def keccak (b : Bytes) : Hash :=
  Word.ofBytes (Crypto.Keccak.digest b)

end Ethereum
