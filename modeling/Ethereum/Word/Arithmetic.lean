/-
# Word arithmetic

The arithmetic, comparison and shift operations of the machine on words.  Sums,
differences and products wrap; a division or remainder by zero is zero; modular
addition and multiplication go through twice the width.
-/

import Ethereum.Word.Signed

namespace Ethereum
namespace Word

/-- The quotient, and zero for a zero divisor. -/
def div (a b : Word) : Word :=
  if b = 0 then 0 else a / b

/-- The remainder, and zero for a zero divisor. -/
def rem (a b : Word) : Word :=
  if b = 0 then 0 else a % b

/-- The quotient of two's complement numbers, truncated toward zero. -/
def sdiv (a b : Word) : Word :=
  (Signed.div (.ofWord a) (.ofWord b)).toWord

/-- The remainder of two's complement numbers, with the sign of the dividend. -/
def srem (a b : Word) : Word :=
  if b = 0 then 0 else (Signed.rem (.ofWord a) (.ofWord b)).toWord

/-- A word with room for sums and products of words. -/
def widen (w : Word) : BitVec 512 := w.setWidth 512

/-- The low half of a number of twice the width. -/
def low (x : BitVec 512) : Word := x.setWidth 256

/-- `a + b` modulo `n`, and zero for `n = 0`.  The sum is taken in twice the width. -/
def addmod (a b n : Word) : Word :=
  if n = 0 then 0 else low ((widen a + widen b) % widen n)

/-- `a * b` modulo `n`, and zero for `n = 0`.  The product is taken in twice the width. -/
def mulmod (a b n : Word) : Word :=
  if n = 0 then 0 else low ((widen a * widen b) % widen n)

/-- `acc * base ^ e`, by squaring. -/
def mulPow (acc base : Word) (e : Nat) : Word :=
  if e = 0 then acc
  else mulPow (if e % 2 = 1 then acc * base else acc) (base * base) (e / 2)
termination_by e
decreasing_by omega

/-- `b ^ e` modulo `2 ^ 256`. -/
def exp (b e : Word) : Word :=
  mulPow 1 b e.toNat

/-- The sign of the byte of `w` with the given index, counted from the lowest,
extended through the bytes above it.  An index of 31 or more changes nothing. -/
def signextend (index w : Word) : Word :=
  if index < 32 then
    let bit := 8 * index.toNat + 7
    let mask : Word := (1 <<< bit) - 1
    if w.getLsbD bit then w ||| ~~~mask else w &&& mask
  else w

/-- Whether `a` is below `b` as two's complement numbers. -/
def slt (a b : Word) : Word :=
  ofBool (Signed.cmp (.ofWord a) (.ofWord b) == .lt)

/-- Whether `a` is above `b` as two's complement numbers. -/
def sgt (a b : Word) : Word :=
  ofBool (Signed.cmp (.ofWord a) (.ofWord b) == .gt)

/-- Whether `a` is zero. -/
def iszero (a : Word) : Word :=
  ofBool (a == 0)

/-- The byte of `w` with the given index, counted from the most significant;
zero past the last. -/
def byte (index w : Word) : Word :=
  if index < 32 then (w >>> (8 * (31 - index.toNat))) &&& 255 else 0

/-- `w` shifted left; zero for a shift of 256 or more. -/
def shl (shift w : Word) : Word :=
  if w = 0 ∨ 256 ≤ shift then 0 else w <<< shift.toNat

/-- `w` shifted right; zero for a shift of 256 or more. -/
def shr (shift w : Word) : Word :=
  if w = 0 ∨ 256 ≤ shift then 0 else w >>> shift.toNat

/-- `w` shifted right as a two's complement number: the quotient by the power
of two, rounded down. -/
def sar (shift w : Word) : Word :=
  let x := Signed.ofWord w
  if w = 0 ∨ 256 ≤ shift then
    match x.sign with
    | .plus | .zero => 0
    | .minus => Signed.toWord ⟨.minus, 1⟩
  else
    match x.sign with
    | .plus | .zero => x.magnitude >>> shift.toNat
    | .minus => Signed.toWord ⟨.minus, ((x.magnitude - 1) >>> shift.toNat) + 1⟩

end Word
end Ethereum
