/-
# 64-bit quantities

Gas, nonces, lengths and offsets are natural numbers that fit 64 bits.  An
operation that could leave this range either fails (`checkedAdd`, `checkedMul`)
or stops at the largest quantity (`satAdd`, `satMul`), and the gas refund is a
signed quantity that stops at both ends (`satAddSigned`).  Where a result is
known to stay in range it is computed without a check, and would lose what is
above 64 bits (`wrapAdd`, `wrapMul`, `wrapSub`).
-/

namespace Ethereum
namespace Quantity

/-- The largest quantity. -/
def max : Nat := 0xffffffffffffffff

/-- The sum, if it is a quantity. -/
def checkedAdd (a b : Nat) : Option Nat :=
  if a + b ≤ max then some (a + b) else none

/-- The product, if it is a quantity. -/
def checkedMul (a b : Nat) : Option Nat :=
  if a * b ≤ max then some (a * b) else none

/-- The sum, or the largest quantity if the sum is larger. -/
def satAdd (a b : Nat) : Nat :=
  min (a + b) max

/-- The product, or the largest quantity if the product is larger. -/
def satMul (a b : Nat) : Nat :=
  min (a * b) max

/-- What a register of 64 bits keeps of a number. -/
def wrap (n : Nat) : Nat := n % (max + 1)

/-- The sum in a register. -/
def wrapAdd (a b : Nat) : Nat := wrap (a + b)

/-- The product in a register. -/
def wrapMul (a b : Nat) : Nat := wrap (a * b)

/-- The difference in a register. -/
def wrapSub (a b : Nat) : Nat := wrap (a + (max + 1 - wrap b))

/-- The largest signed quantity. -/
def signedMax : Int := 0x7fffffffffffffff

/-- The smallest signed quantity. -/
def signedMin : Int := -0x8000000000000000

/-- The sum of signed quantities, or the end of their range it lies beyond. -/
def satAddSigned (a b : Int) : Int :=
  Max.max signedMin (min (a + b) signedMax)

theorem satAdd_le_max (a b : Nat) : satAdd a b ≤ max :=
  Nat.min_le_right _ _

theorem satAdd_eq_of_le {a b : Nat} (h : a + b ≤ max) : satAdd a b = a + b :=
  Nat.min_eq_left h

theorem wrap_eq_of_le {n : Nat} (h : n ≤ max) : wrap n = n :=
  Nat.mod_eq_of_lt (Nat.lt_succ_of_le h)

theorem wrapAdd_eq_of_le {a b : Nat} (h : a + b ≤ max) : wrapAdd a b = a + b :=
  wrap_eq_of_le h

theorem wrapMul_eq_of_le {a b : Nat} (h : a * b ≤ max) : wrapMul a b = a * b :=
  wrap_eq_of_le h

theorem wrapSub_eq_of_le {a b : Nat} (hba : b ≤ a) (h : a ≤ max) : wrapSub a b = a - b := by
  rw [wrapSub, wrap_eq_of_le (Nat.le_trans hba h), wrap]
  have hsum : a + (max + 1 - b) = a - b + (max + 1) := by omega
  rw [hsum, Nat.add_mod_right, Nat.mod_eq_of_lt (by omega)]

end Quantity
end Ethereum
