/-
# Recursive length prefix, writing

The serial form of byte strings and of lists of items.

| item                             | written as                                |
|----------------------------------|-------------------------------------------|
| one byte below `0x80`            | itself                                    |
| a string of up to 55 bytes       | `0x80 + length`, string                   |
| a longer string                  | `0xb7 + length of length`, length, string |
| a list of up to 55 bytes in all  | `0xc0 + length`, items                    |
| a longer list                    | `0xf7 + length of length`, length, items  |

A number is the shortest string that writes it.
-/

import Ethereum.Word.Basic

namespace Ethereum
namespace Rlp

/-- The header of `length` bytes of a kind of item that starts at `first`. -/
def header (first length : Nat) : Bytes :=
  if length ≤ 55 then [UInt8.ofNat (first + length)]
  else
    let digits := Bytes.ofNat length
    UInt8.ofNat (first + 55 + digits.length) :: digits

/-- A byte string as an item. -/
def string : Bytes → Bytes
  | [b] => if b < 0x80 then [b] else header 0x80 1 ++ [b]
  | b => header 0x80 b.length ++ b

/-- A list of items that are already written. -/
def list (items : List Bytes) : Bytes :=
  header 0xc0 items.flatten.length ++ items.flatten

/-- A number as an item. -/
def number (n : Nat) : Bytes :=
  string (Bytes.ofNat n)

end Rlp
end Ethereum
