/-
# Opcode bytes

The families of opcodes that carry a number in their byte: pushes, copies and
exchanges of stack items, and logs.

| family | bytes          | number                              |
|--------|----------------|-------------------------------------|
| push   | `0x60 … 0x7f`  | bytes of data that follow, 1 to 32  |
| dup    | `0x80 … 0x8f`  | position of the item, 1 to 16       |
| swap   | `0x90 … 0x9f`  | distance to the item, 1 to 16       |
| log    | `0xa0 … 0xa4`  | topics, 0 to 4                      |
-/

import Ethereum.Bytes

namespace Ethereum
namespace Opcode

/-- The byte that marks a jump destination. -/
def jumpdest : UInt8 := 0x5b

/-- How far `b` lies above `first`, if it is one of the `count` bytes there. -/
def indexIn? (first count : Nat) (b : UInt8) : Option Nat :=
  if first ≤ b.toNat ∧ b.toNat < first + count then some (b.toNat - first) else none

/-- The number of data bytes after a push. -/
def pushWidth? (b : UInt8) : Option Nat :=
  (indexIn? 0x60 32 b).map (· + 1)

/-- The position, counted from one, of the item that a dup copies. -/
def dupPosition? (b : UInt8) : Option Nat :=
  (indexIn? 0x80 16 b).map (· + 1)

/-- The distance from the top of the item that a swap exchanges with it. -/
def swapDistance? (b : UInt8) : Option Nat :=
  (indexIn? 0x90 16 b).map (· + 1)

/-- The number of topics of a log. -/
def topicCount? (b : UInt8) : Option Nat :=
  indexIn? 0xa0 5 b

example : pushWidth? 0x60 = some 1 ∧ pushWidth? 0x7f = some 32 ∧ pushWidth? 0x80 = none := by decide

end Opcode
end Ethereum
