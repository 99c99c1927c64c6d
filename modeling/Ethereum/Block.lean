/-
# Blocks

What code can see of the block that it runs in.
-/

import Ethereum.Word.Basic

namespace Ethereum

/-- The block that code runs in. -/
structure Block where
  coinbase : Address
  timestamp : Word
  number : Word
  difficulty : Word
  gasLimit : Word
  /-- The hashes of the blocks before this one, the latest first. -/
  blockHashes : Array Hash
deriving Repr

namespace Block

/-- The hash of the block with a number, if it is one of the 256 before this
one and known; else zero. -/
def hashOf (b : Block) (number : Word) : Hash :=
  let distance := b.number.toNat - number.toNat
  if number < b.number ∧ distance ≤ 256 then b.blockHashes.getD (distance - 1) 0 else 0

end Block
end Ethereum
