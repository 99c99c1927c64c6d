/-
# Hexadecimal text

Error texts name hashes and opcodes by their hexadecimal digits, in lower case
and in a fixed number.
-/

import Ethereum.Word.Basic

namespace Ethereum
namespace Hex

/-- A hexadecimal digit. -/
def digit (n : Nat) : Char :=
  if n < 10 then Char.ofNat (48 + n) else Char.ofNat (87 + n)

/-- The two digits of a byte. -/
def byte (b : UInt8) : List Char :=
  [digit (b.toNat / 16), digit (b.toNat % 16)]

/-- The digits of a byte string. -/
def bytes (b : Bytes) : String :=
  String.ofList (b.flatMap byte)

end Hex

/-- A hash as text: its 64 digits behind `0x`. -/
def Hash.text (h : Hash) : String :=
  "0x" ++ Hex.bytes (Hash.toBytes h)

end Ethereum
