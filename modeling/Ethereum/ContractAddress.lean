/-
# Addresses of new contracts

A contract gets an address that depends on its creator and either on the
creator's nonce or on the init code and a salt.
-/

import Ethereum.Crypto.Keccak
import Ethereum.Rlp.Encode

namespace Ethereum

/-- What the address of a new contract depends on. -/
inductive CreateScheme where
  | legacy (caller : Address) (nonce : Nat)
  | create2 (caller : Address) (codeHash salt : Hash)
deriving DecidableEq, Repr

namespace CreateScheme

/-- The bytes whose hash holds the address. -/
def preimage : CreateScheme → Bytes
  | legacy caller nonce => Rlp.list [Rlp.string (Address.toBytes caller), Rlp.number nonce]
  | create2 caller codeHash salt =>
    0xff :: Address.toBytes caller ++ Hash.toBytes salt ++ Hash.toBytes codeHash

/-- The address of the new contract. -/
def address (s : CreateScheme) : Address :=
  Word.toAddress (keccak s.preimage)

end CreateScheme
end Ethereum
