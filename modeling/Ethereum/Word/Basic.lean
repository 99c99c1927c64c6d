/-
# Words, addresses and hashes

A word is a vector of 256 bits and an address one of 160; a hash is a word that
names data.  The order of the numbers they write is the order of their
big-endian bytes, so maps over them list their keys in either.
-/

import Ethereum.Bytes
import Ethereum.Quantity

namespace Ethereum

/-- A machine word. -/
abbrev Word := BitVec 256

/-- The digest of a byte string, or any 32 bytes that stand for one. -/
abbrev Hash := BitVec 256

/-- The address of an account. -/
abbrev Address := BitVec 160

/-- Words and hashes are totally ordered. -/
instance Word.transOrd : Std.TransOrd Word := inferInstance

/-- Addresses are totally ordered. -/
instance Address.transOrd : Std.TransOrd Address := inferInstance

namespace Word

/-- The 32 bytes of a word, most significant first. -/
def toBytes (w : Word) : Bytes :=
  Bytes.ofNatFixed 32 w.toNat

/-- The word that a byte string writes, modulo `2 ^ 256`. -/
def ofBytes (b : Bytes) : Word :=
  BitVec.ofNat 256 b.toNat

/-- The low 20 bytes of a word, which an address operand means. -/
def toAddress (w : Word) : Address :=
  w.setWidth 160

/-- The word that writes the same number as an address. -/
def ofAddress (a : Address) : Word :=
  a.setWidth 256

/-- The word `1` for a condition that holds, `0` for one that does not. -/
def ofBool (b : Bool) : Word :=
  if b then 1 else 0

/-- The number of a word, if it is a 64-bit quantity. -/
def toQuantity? (w : Word) : Option Nat :=
  if w.toNat ≤ Quantity.max then some w.toNat else none

/-- The largest word. -/
def max : Word := BitVec.allOnes 256

/-- The word of a number, if it fits. -/
def ofNat? (n : Nat) : Option Word :=
  if n ≤ max.toNat then some (BitVec.ofNat 256 n) else none

/-- The sum of two words, if it fits a word. -/
def checkedAdd (a b : Word) : Option Word :=
  ofNat? (a.toNat + b.toNat)

/-- The sum of two words, or the largest word if the sum is larger. -/
def satAdd (a b : Word) : Word :=
  (checkedAdd a b).getD max

/-- The difference of two words, or zero if it is negative. -/
def satSub (a b : Word) : Word :=
  if b ≤ a then a - b else 0

@[simp] theorem length_toBytes (w : Word) : w.toBytes.length = 32 :=
  Bytes.length_ofNatFixed _ _

@[simp] theorem toAddress_ofAddress (a : Address) : toAddress (ofAddress a) = a := by
  simp [toAddress, ofAddress]

end Word

namespace Hash

/-- The 32 bytes of a hash. -/
def toBytes (h : Hash) : Bytes := Word.toBytes h

end Hash

namespace Address

/-- The 20 bytes of an address, most significant first. -/
def toBytes (a : Address) : Bytes :=
  Bytes.ofNatFixed 20 a.toNat

@[simp] theorem length_toBytes (a : Address) : (toBytes a).length = 20 :=
  Bytes.length_ofNatFixed _ _

end Address
end Ethereum
