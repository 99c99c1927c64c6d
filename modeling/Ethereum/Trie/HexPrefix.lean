/-
# Hex-prefix encoding

A path is packed into bytes behind a nibble of flags: 2 if the path ends in a
leaf, plus 1 if its length is odd.  A path of even length has a zero nibble after
the flags, so that the whole fills bytes.
-/

import Ethereum.Rlp.Decode
import Ethereum.Trie.Path

namespace Ethereum
namespace HexPrefix

/-- The nibble of flags. -/
def flags (isLeaf odd : Bool) : Nibble :=
  (if isLeaf then 2 else 0) + if odd then 1 else 0

/-- A path, and whether it ends in a leaf, packed into bytes. -/
def encode (path : Path) (isLeaf : Bool) : Bytes :=
  let odd := path.length % 2 == 1
  Path.toBytes (flags isLeaf odd :: if odd then path else 0 :: path)

/-- The path packed into bytes, and whether it ends in a leaf. -/
def decode (b : Bytes) : Except DecodeError (Path × Bool) :=
  match Path.ofBytes b with
  | flag :: first :: rest =>
    if 3 < flag then .error .invalidPathFlag
    else
      let isLeaf := 2 ≤ flag
      if flag.val % 2 = 1 then .ok (first :: rest, isLeaf)
      else if first ≠ 0 then .error .nonzeroPathPadding
      else .ok (rest, isLeaf)
  | _ => .error .tooShort

end HexPrefix
end Ethereum
