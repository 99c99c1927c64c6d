/-
# Gas formulas

Prices that depend on sizes and values, in the form shared by all schedules.
A formula whose exact value is no quantity fails as running out of gas, since
no frame could pay for it.

Words are narrowed to quantities before a formula is computed, in registers of
64 bits.  What could leave them is checked; the rest is only right because the
operands were narrowed.
-/

import Ethereum.Exit
import Ethereum.Word.Basic

namespace Ethereum
namespace Gas

/-- A formula: an exact price, or an error. -/
abbrev Price := Except ExitError Nat

/-- A price that may not be a quantity. -/
def Price.ofOption : Option Nat → Price
  | some n => .ok n
  | none => .error .outOfGas

/-- The sum of two prices. -/
def add (a b : Nat) : Price :=
  .ofOption (Quantity.checkedAdd a b)

/-- The number of 32-byte words that hold `len` bytes, unless rounding up
leaves the quantities. -/
def words (len : Word) : Option Nat :=
  if len.toNat ≤ Quantity.max - 31 then some (Quantity.wrapAdd len.toNat 31 / 32) else none

/-- `base + rate * n`, if it and the product are quantities. -/
def linear (base rate n : Nat) : Price :=
  .ofOption ((Quantity.checkedMul rate n).bind (Quantity.checkedAdd · base))

/-- `base` and `rate` for each word that holds `len` bytes. -/
def perWord (base rate : Nat) (len : Word) : Price :=
  match words len with
  | some n => linear base rate n
  | none => .error .outOfGas

/-- The price of holding `a` words of memory, `3 a + a² / 512`.  No frame could pay
for more words than 32 bits count. -/
def memory (a : Word) : Price :=
  if a.toNat ≤ 0xffffffff then
    .ofOption do
      let linear ← Quantity.checkedMul 3 a.toNat
      let square ← Quantity.checkedMul a.toNat a.toNat
      Quantity.checkedAdd linear (square / 512)
  else .error .outOfGas

/-- The price of growing memory from `current` to `new` words. -/
def memoryExpansion (current new : Word) : Price := do
  if new ≤ current then return 0
  return Quantity.wrapSub (← memory new) (← memory current)

/-- The price of hashing `len` bytes. -/
def sha3 (len : Word) : Price := perWord 30 6 len

/-- The price of copying `len` bytes, on top of `base`. -/
def copy (base : Nat) (len : Word) : Price := perWord base 3 len

/-- The price of a log of `len` bytes with some topics. -/
def log (topics : Nat) (len : Word) : Price :=
  match len.toQuantity? with
  | some n => linear (Quantity.wrapAdd 375 (Quantity.wrapMul 375 topics)) 8 n
  | none => .error .outOfGas

/-- The 64 bits of a word with the given index, counted from the lowest. -/
def limb (w : Word) (i : Nat) : BitVec 64 := w.extractLsb' (64 * i) 64

/-- The position of the highest bit of a word, counted from the lowest; zero if
there is none. -/
def highestBit (w : Word) : Nat :=
  go 4 256
where
  /-- The position of the highest bit among the lowest `k` limbs, which end at `top`. -/
  go : Nat → Nat → Nat
    | 0, top => top
    | k + 1, top =>
      if limb w k = 0 then go k (top - 64)
      else
        let top := top - (limb w k).clz.toNat
        if top = 0 then top else top - 1

/-- The number of significant bytes of an exponent. -/
def significantBytes (e : Word) : Nat :=
  if e = 0 then 0 else highestBit e / 8 + 1

/-- The price of raising to the power `e`. -/
def exp (perByte : Nat) (e : Word) : Nat :=
  Quantity.wrapAdd 10 (Quantity.wrapMul perByte (significantBytes e))

/-- The price of changing a slot from `current` to `new`: more if it comes to
life. -/
def sstore (current new : Word) : Nat :=
  if current = 0 ∧ new ≠ 0 then 20000 else 5000

/-- What changing a slot from `current` to `new` pays back: something if it is
cleared. -/
def sstoreRefund (current new : Word) : Int :=
  if current ≠ 0 ∧ new = 0 then 15000 else 0

/-- The surcharge of a call that transfers value. -/
def valueTransfer (transfersValue : Bool) : Nat :=
  if transfersValue then 9000 else 0

/-- Everything but one 64th of `gas`, rounded in favour of the caller of this
part. -/
def allButOne64th (gas : Nat) : Nat := gas - gas / 64

/-- The price of the data of a transaction; zero bytes are cheaper. -/
def transactionData (data : Bytes) : Nat :=
  let zeros := data.count 0
  4 * zeros + 68 * (data.length - zeros)

/-- The price of putting `len` bytes of code into the state. -/
def codeDeposit (len : Nat) : Nat := Quantity.satMul 200 len

/-- The gas left after paying a cost, if there is enough. -/
def pay (gas cost : Nat) : Except ExitError Nat :=
  if cost ≤ gas then .ok (gas - cost) else .error .outOfGas

/-- The refund counter after an amount, which may be negative. -/
def countRefund (counter amount : Int) : Int :=
  Quantity.satAddSigned counter amount

end Gas
end Ethereum
