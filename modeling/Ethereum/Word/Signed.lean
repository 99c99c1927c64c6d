/-
# Signed words

A signed number is a sign and a magnitude.  Words are read as signed numbers in
two's complement (`ofWord`) and written back (`toWord`).  Division truncates
toward zero and the remainder takes the sign of the dividend.  The operations
are defined on every pair of sign and magnitude, also on the ones no word reads
as, such as a zero sign with a magnitude that is not zero.
-/

import Ethereum.Word.Basic

namespace Ethereum

/-- The sign of a number. -/
inductive Sign where
  | plus
  | minus
  | zero
deriving DecidableEq, Repr

/-- A number as a sign and a magnitude. -/
structure Signed where
  sign : Sign
  magnitude : Word
deriving DecidableEq, Repr

namespace Signed

/-- The signed number zero. -/
def zero : Signed := ⟨.zero, 0⟩

/-- The smallest signed word, `-2 ^ 255`. -/
def least : Signed := ⟨.minus, BitVec.intMin 256⟩

/-- A word read in two's complement. -/
def ofWord (w : Word) : Signed :=
  if w = 0 then zero else if w.msb then ⟨.minus, -w⟩ else ⟨.plus, w⟩

/-- A signed number written in two's complement. -/
def toWord (x : Signed) : Word :=
  match x.sign with
  | .zero => 0
  | .plus => x.magnitude
  | .minus => -x.magnitude

/-- Minus is below zero and zero below plus; two numbers of one sign compare by
their magnitudes. -/
def cmp (x y : Signed) : Ordering :=
  match x.sign, y.sign with
  | .zero, .zero => .eq
  | .zero, .plus => .lt
  | .zero, .minus => .gt
  | .minus, .zero => .lt
  | .minus, .plus => .lt
  | .minus, .minus => compare y.magnitude x.magnitude
  | .plus, .minus => .gt
  | .plus, .zero => .gt
  | .plus, .plus => compare x.magnitude y.magnitude

/-- The low 255 bits of a word. -/
def withoutSignBit (w : Word) : Word :=
  w &&& BitVec.intMax 256

/-- The quotient truncated toward zero, and zero for a zero divisor.  The
least word over a magnitude of one is the least word. -/
def div (x y : Signed) : Signed :=
  if y = zero then zero
  else if x = least ∧ y.magnitude = 1 then least
  else
    let q := withoutSignBit (x.magnitude / y.magnitude)
    if q = 0 then zero
    else match x.sign, y.sign with
      | .zero, .plus | .plus, .zero | .zero, .zero | .plus, .plus | .minus, .minus => ⟨.plus, q⟩
      | .zero, .minus | .plus, .minus | .minus, .zero | .minus, .plus => ⟨.minus, q⟩

/-- The remainder with the sign of the dividend, and zero for a zero divisor. -/
def rem (x y : Signed) : Signed :=
  if y.magnitude = 0 then zero
  else
    let r := withoutSignBit (x.magnitude % y.magnitude)
    if r = 0 then zero else ⟨x.sign, r⟩

end Signed
end Ethereum
