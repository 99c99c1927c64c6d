/-
# RIPEMD-160

A chain of five 32-bit words is compressed with each block of the padded message
along two lines of 80 steps, whose results are combined at the end.  The lines
differ in their constants, in the order of the message words, in their shifts
and in the order of the round functions.
-/

import Ethereum.Crypto.Block

namespace Ethereum
namespace Crypto
namespace Ripemd160

/-- The chaining value: five words. -/
structure Chain where
  a : UInt32
  b : UInt32
  c : UInt32
  d : UInt32
  e : UInt32

/-- The initial chain. -/
def initial : Chain := ⟨0x67452301, 0xefcdab89, 0x98badcfe, 0x10325476, 0xc3d2e1f0⟩

/-- The message words of the 80 steps of the left line. -/
def leftOrder : List Nat := [
  0, 1, 2, 3, 4, 5, 6, 7, 8, 9, 10, 11, 12, 13, 14, 15,
  7, 4, 13, 1, 10, 6, 15, 3, 12, 0, 9, 5, 2, 14, 11, 8,
  3, 10, 14, 4, 9, 15, 8, 1, 2, 7, 0, 6, 13, 11, 5, 12,
  1, 9, 11, 10, 0, 8, 12, 4, 13, 3, 7, 15, 14, 5, 6, 2,
  4, 0, 5, 9, 7, 12, 2, 10, 14, 1, 3, 8, 11, 6, 15, 13]

/-- The message words of the 80 steps of the right line. -/
def rightOrder : List Nat := [
  5, 14, 7, 0, 9, 2, 11, 4, 13, 6, 15, 8, 1, 10, 3, 12,
  6, 11, 3, 7, 0, 13, 5, 10, 14, 15, 8, 12, 4, 9, 1, 2,
  15, 5, 1, 3, 7, 14, 6, 9, 11, 8, 12, 2, 10, 0, 4, 13,
  8, 6, 4, 1, 3, 11, 15, 0, 5, 12, 2, 13, 9, 7, 10, 14,
  12, 15, 10, 4, 1, 5, 8, 7, 6, 2, 13, 14, 0, 3, 9, 11]

/-- The shifts of the left line. -/
def leftShifts : List UInt32 := [
  11, 14, 15, 12, 5, 8, 7, 9, 11, 13, 14, 15, 6, 7, 9, 8,
  7, 6, 8, 13, 11, 9, 7, 15, 7, 12, 15, 9, 11, 7, 13, 12,
  11, 13, 6, 7, 14, 9, 13, 15, 14, 8, 13, 6, 5, 12, 7, 5,
  11, 12, 14, 15, 14, 15, 9, 8, 9, 14, 5, 6, 8, 6, 5, 12,
  9, 15, 5, 11, 6, 8, 13, 12, 5, 12, 13, 14, 11, 8, 5, 6]

/-- The shifts of the right line. -/
def rightShifts : List UInt32 := [
  8, 9, 9, 11, 13, 15, 15, 5, 7, 7, 8, 11, 14, 14, 12, 6,
  9, 13, 15, 7, 12, 8, 9, 11, 7, 7, 12, 7, 6, 15, 13, 11,
  9, 7, 15, 11, 8, 6, 6, 14, 12, 13, 5, 14, 13, 13, 7, 5,
  15, 5, 8, 11, 14, 14, 6, 14, 6, 9, 12, 9, 12, 5, 15, 8,
  8, 5, 12, 9, 12, 5, 14, 6, 8, 13, 6, 5, 15, 13, 11, 11]

/-- The constants of the five rounds of the left line. -/
def leftConstants : List UInt32 := [0x00000000, 0x5a827999, 0x6ed9eba1, 0x8f1bbcdc, 0xa953fd4e]

/-- The constants of the five rounds of the right line. -/
def rightConstants : List UInt32 := [0x50a28be6, 0x5c4dd124, 0x6d703ef3, 0x7a6d76e9, 0x00000000]

/-- The five functions of the rounds. -/
def mix (which : Nat) (x y z : UInt32) : UInt32 :=
  match which with
  | 0 => x ^^^ y ^^^ z
  | 1 => (x &&& y) ||| (~~~x &&& z)
  | 2 => (x ||| ~~~y) ^^^ z
  | 3 => (x &&& z) ||| (y &&& ~~~z)
  | _ => x ^^^ (y ||| ~~~z)

/-- A step: its function, its constant, the message word it takes, its shift. -/
structure Step where
  function : Nat
  constant : UInt32
  word : Nat
  shift : UInt32

/-- The 80 steps of a line, given the functions and constants of its rounds. -/
def line (functions : List Nat) (constants : List UInt32) (order : List Nat)
    (shifts : List UInt32) : List Step :=
  let rounds := (functions.zip constants).flatMap (List.replicate 16)
  (rounds.zip (order.zip shifts)).map fun ((f, k), (w, s)) => ⟨f, k, w, s⟩

/-- The left line. -/
def leftLine : List Step := line [0, 1, 2, 3, 4] leftConstants leftOrder leftShifts

/-- The right line. -/
def rightLine : List Step := line [4, 3, 2, 1, 0] rightConstants rightOrder rightShifts

/-- The chain after one step on a block. -/
def step (block : Array UInt32) (v : Chain) (s : Step) : Chain :=
  let t := v.a + mix s.function v.b v.c v.d + block.getD s.word 0 + s.constant
  ⟨v.e, rotateLeft t s.shift + v.e, v.b, rotateLeft v.c 10, v.d⟩

/-- The chain after the first 64 bytes of what is left of a message. -/
def compress (v : Chain) (rest : Bytes) : Chain :=
  let block := (wordsLittle 16 rest).toArray
  let l := leftLine.foldl (step block) v
  let r := rightLine.foldl (step block) v
  ⟨v.b + l.c + r.d, v.c + l.d + r.e, v.d + l.e + r.a, v.e + l.a + r.b, v.a + l.b + r.c⟩

/-- The RIPEMD-160 digest of a message. -/
def digest (message : Bytes) : Bytes :=
  let length := (Bytes.ofNatFixed 8 (8 * message.length)).reverse
  let v := foldBlocks 64 compress initial (padLength message length)
  [v.a, v.b, v.c, v.d, v.e].flatMap bytesLittle

@[simp] theorem length_digest (message : Bytes) : (digest message).length = 20 := by
  simp [digest, bytesLittle]

end Ripemd160
end Crypto
end Ethereum
