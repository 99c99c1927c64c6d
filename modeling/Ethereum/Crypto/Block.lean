/-
# Blocks of a message

Hash functions work through a message block by block (`foldBlocks`) and read a
block as a sequence of machine words.  The readers here take a number of 32-bit
or 64-bit words off the front of a byte string, in either byte order, or as many
as are complete if those are fewer; the writers invert them.  `padLength` fills a
message up to whole blocks of 64 bytes, of which the last 8 hold its length.
-/

import Ethereum.Bytes

namespace Ethereum
namespace Crypto

/-- The first `n` 32-bit words of a byte string, most significant byte first. -/
def wordsBig : Nat → Bytes → List UInt32
  | n + 1, a :: b :: c :: d :: rest =>
    (a.toUInt32 <<< 24 ||| b.toUInt32 <<< 16 ||| c.toUInt32 <<< 8 ||| d.toUInt32) ::
      wordsBig n rest
  | _, _ => []

/-- The first `n` 32-bit words of a byte string, least significant byte first. -/
def wordsLittle : Nat → Bytes → List UInt32
  | n + 1, a :: b :: c :: d :: rest =>
    (d.toUInt32 <<< 24 ||| c.toUInt32 <<< 16 ||| b.toUInt32 <<< 8 ||| a.toUInt32) ::
      wordsLittle n rest
  | _, _ => []

/-- The first `n` 64-bit words of a byte string, least significant byte first. -/
def lanes : Nat → Bytes → List UInt64
  | n + 1, a :: b :: c :: d :: e :: f :: g :: h :: rest =>
    (h.toUInt64 <<< 56 ||| g.toUInt64 <<< 48 ||| f.toUInt64 <<< 40 ||| e.toUInt64 <<< 32 |||
      d.toUInt64 <<< 24 ||| c.toUInt64 <<< 16 ||| b.toUInt64 <<< 8 ||| a.toUInt64) :: lanes n rest
  | _, _ => []

/-- The bytes of a 32-bit word, most significant first. -/
def bytesBig (w : UInt32) : Bytes :=
  [(w >>> 24).toUInt8, (w >>> 16).toUInt8, (w >>> 8).toUInt8, w.toUInt8]

/-- The bytes of a 32-bit word, least significant first. -/
def bytesLittle (w : UInt32) : Bytes :=
  [w.toUInt8, (w >>> 8).toUInt8, (w >>> 16).toUInt8, (w >>> 24).toUInt8]

/-- The bytes of a 64-bit word, least significant first. -/
def laneBytes (w : UInt64) : Bytes :=
  [w.toUInt8, (w >>> 8).toUInt8, (w >>> 16).toUInt8, (w >>> 24).toUInt8,
    (w >>> 32).toUInt8, (w >>> 40).toUInt8, (w >>> 48).toUInt8, (w >>> 56).toUInt8]

/-- The message followed by a one bit, zeros up to 8 bytes before the end of a
block, and the 8 bytes `length`. -/
def padLength (message length : Bytes) : Bytes :=
  message ++ (0x80 :: List.replicate ((119 - message.length % 64) % 64) 0 ++ length)

/-- What comes of a state by taking in the blocks of `size` bytes of a message one
after the other, without an incomplete last one.  `take` is given the message from
the start of a block on and reads that block. -/
def foldBlocks {σ : Type} (size : Nat) (take : σ → Bytes → σ) (s : σ) (message : Bytes) : σ :=
  go (message.length / size) s message
where
  /-- Takes in the next blocks, as many as told. -/
  go : Nat → σ → Bytes → σ
    | 0, s, _ => s
    | n + 1, s, rest => go n (take s rest) (rest.drop size)

/-- A 32-bit word rotated left by `n` bits. -/
def rotateLeft (w : UInt32) (n : UInt32) : UInt32 :=
  w <<< n ||| w >>> (32 - n)

/-- A 32-bit word rotated right by `n` bits. -/
def rotateRight (w : UInt32) (n : UInt32) : UInt32 :=
  w >>> n ||| w <<< (32 - n)

end Crypto
end Ethereum
