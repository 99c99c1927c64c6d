/-
# Precompiled contracts

Contracts at fixed addresses that are computed natively.  Each has a price that
depends on its input and an output, unless it rejects the input.
-/

import Ethereum.Crypto.Keccak
import Ethereum.Crypto.Ripemd160
import Ethereum.Crypto.Secp256k1
import Ethereum.Crypto.Sha256
import Std.Data.ExtTreeMap

namespace Ethereum

/-- A contract that is computed natively. -/
structure Precompile where
  name : String
  /-- The price of an input. -/
  gas : Bytes → Nat
  /-- The output for an input; none if the input is rejected. -/
  compute : Bytes → Option Bytes

namespace Precompile

/-- `base`, and `perWord` for each 32-byte word that holds `len` bytes. -/
def linearCost (len base perWord : Nat) : Nat :=
  Quantity.satAdd base (Quantity.satMul perWord (Quantity.satAdd len 31 / 32))

/-- The signature in the input of a recovery: after the digest, the second word
is 27 or 28 and tells the parity, and the last two are the scalars. -/
def signature? (input : Bytes) : Option Crypto.Secp256k1.Signature :=
  let v := (input.window 32 32).toNat
  if v = 27 ∨ v = 28 then
    some ⟨(input.window 64 32).toNat, (input.window 96 32).toNat, v == 28⟩
  else none

/-- The address whose key signed, in 32 bytes; nothing if no key did. -/
def recoverSigner (input : Bytes) : Option Bytes := do
  let signature ← signature? input
  let key ← signature.recover (input.window 0 32).toNat
  return Word.toBytes (Word.ofAddress (Word.toAddress (keccak key)))

/-- Recovery of the signer of a digest.  Invalid signatures have an empty
output. -/
def ecRecover : Precompile where
  name := "ECREC"
  gas _ := 3000
  compute input := some ((recoverSigner input).getD [])

/-- SHA-256. -/
def sha256 : Precompile where
  name := "SHA256"
  gas input := linearCost input.length 60 12
  compute input := some (Crypto.Sha256.digest input)

/-- RIPEMD-160, in 32 bytes. -/
def ripemd160 : Precompile where
  name := "RIPEMD160"
  gas input := linearCost input.length 600 120
  compute input := some ((Crypto.Ripemd160.digest input).padLeft 32)

/-- The input itself. -/
def identity : Precompile where
  name := "IDENTITY"
  gas input := linearCost input.length 15 3
  compute input := some input

end Precompile

/-- Precompiled contracts by address. -/
abbrev Precompiles := Std.ExtTreeMap Address Precompile

namespace Precompiles

/-- The contracts of Frontier, at the addresses 1 to 4. -/
def frontier : Precompiles :=
  Std.ExtTreeMap.ofList
    [((1 : Address), Precompile.ecRecover), (2, Precompile.sha256), (3, Precompile.ripemd160),
      (4, Precompile.identity)]

end Precompiles
end Ethereum
