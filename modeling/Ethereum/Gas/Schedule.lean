/-
# Gas schedules

The four price lists of the protocol, each an amendment of the one before.

| schedule          | amends                                                     |
|-------------------|------------------------------------------------------------|
| Frontier          |                                                            |
| Homestead         | creation by a transaction costs 32000 more                 |
| Tangerine Whistle | state access is dearer; a child gets all but a 64th        |
| Spurious Dragon   | exponents are dearer; an account is new only if paid into  |
-/

import Ethereum.Gas.Formula

namespace Ethereum
namespace Gas

/-- A price list. -/
inductive Schedule where
  | frontier
  | homestead
  | tangerineWhistle
  | spuriousDragon
deriving DecidableEq, Repr

/-! ## Prices that no schedule amends -/

/-- The price of operations that cost nothing. -/
def zeroTier : Nat := 0
/-- The price of reading the environment. -/
def baseTier : Nat := 2
/-- The price of the cheapest arithmetic. -/
def veryLowTier : Nat := 3
/-- The price of multiplication and division. -/
def lowTier : Nat := 5
/-- The price of modular arithmetic and of a jump. -/
def midTier : Nat := 8
/-- The price of a conditional jump. -/
def highTier : Nat := 10
/-- The price of a jump destination. -/
def jumpDest : Nat := 1
/-- The price of reading the hash of a block. -/
def blockHash : Nat := 20
/-- The price of reading the code hash of an account. -/
def extCodeHash : Nat := 400
/-- The price of creating a contract. -/
def create : Nat := 32000
/-- The surcharge for bringing an account into being. -/
def newAccount : Nat := 25000
/-- The gas given to the callee of a call that transfers value. -/
def callStipend : Nat := 2300
/-- What an account that deletes itself pays back. -/
def selfdestructRefund : Int := 24000
/-- The price of any transaction. -/
def transaction : Nat := 21000
/-- At most the gas used over this number is paid back. -/
def maxRefundQuotient : Nat := 2

/-- The price of creating a contract at an address that depends on `len` bytes
of init code. -/
def create2 (len : Word) : Price := perWord create 6 len

namespace Schedule

/-- The name of the upgrade that brought a schedule. -/
def name : Schedule → String
  | frontier => "Frontier"
  | homestead => "Homestead"
  | tangerineWhistle => "TangerineWhistle"
  | spuriousDragon => "SpuriousDragon"

/-- Whether state access has the prices of Tangerine Whistle. -/
def repricesAccess : Schedule → Bool
  | frontier | homestead => false
  | tangerineWhistle | spuriousDragon => true

/-- The price of each significant byte of an exponent. -/
def expByte : Schedule → Nat
  | spuriousDragon => 50
  | _ => 10

/-- The price of raising to the power `e`. -/
def exp (s : Schedule) (e : Word) : Nat := Gas.exp s.expByte e

/-- The price of reading the code of another account. -/
def extCode (s : Schedule) : Nat := if s.repricesAccess then 700 else 20

/-- The price of copying `len` bytes of the code of another account. -/
def extCodeCopy (s : Schedule) (len : Word) : Price := copy s.extCode len

/-- The price of reading a balance. -/
def balance (s : Schedule) : Nat := if s.repricesAccess then 400 else 20

/-- The price of reading a slot. -/
def sload (s : Schedule) : Nat := if s.repricesAccess then 200 else 50

/-- The price of a call before its surcharges. -/
def callBase (s : Schedule) : Nat := if s.repricesAccess then 700 else 40

/-- Whether a call pays for a new account. -/
def chargesNewAccount (s : Schedule) (transfersValue targetExists targetIsEmpty : Bool) : Bool :=
  match s with
  | spuriousDragon => transfersValue && (!targetExists || targetIsEmpty)
  | _ => !targetExists

/-- The gas that a callee gets out of what its caller has left.  From Tangerine
Whistle on a 64th stays behind; before, a request that is no quantity fails. -/
def childCall (s : Schedule) (available : Nat) (requested : Word) : Price :=
  if s.repricesAccess then .ok (min requested.toNat (allButOne64th available))
  else .ofOption requested.toQuantity?

/-- The gas that init code gets out of what its creator has left. -/
def childCreate (s : Schedule) (available : Nat) : Nat :=
  if s.repricesAccess then allButOne64th available else available

/-- The price of deleting the own account. -/
def selfdestruct (s : Schedule) (chargesNew : Bool) : Nat :=
  if s.repricesAccess then 5000 + (if chargesNew then newAccount else 0) else 0

/-- Whether deleting the own account pays for a new one. -/
def selfdestructChargesNewAccount (s : Schedule)
    (transfersValue targetExists targetIsEmpty : Bool) : Bool :=
  s.repricesAccess && s.chargesNewAccount transfersValue targetExists targetIsEmpty

/-- What a transaction pays on top for creating a contract. -/
def transactionCreate : Schedule → Nat
  | frontier => 0
  | _ => 32000

/-- What a transaction pays before any code runs. -/
def intrinsic (s : Schedule) (data : Bytes) (creates : Bool) : Nat :=
  transaction + transactionData data + if creates then s.transactionCreate else 0

end Schedule
end Gas
end Ethereum
