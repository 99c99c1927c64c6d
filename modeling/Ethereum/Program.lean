/-
# Programs

A program is code that is ready to run: its bytes, for access by position, and
its jump destinations.  Past its end a program goes on with zeros.
-/

import Ethereum.JumpTable
import Ethereum.Word.Basic

namespace Ethereum

/-- Code that is ready to run. -/
structure Program where
  bytes : Array UInt8
  jumps : JumpTable

namespace Program

/-- The program of some code. -/
def ofCode (code : Bytes) : Program := ⟨code.toArray, .ofCode code⟩

/-- The number of bytes. -/
def size (p : Program) : Nat := p.bytes.size

/-- The byte at a position. -/
def byteAt (p : Program) (i : Nat) : UInt8 := p.bytes.getD i 0

/-- The `n` bytes from a position on. -/
def bytesAt (p : Program) (start : Nat) : Nat → Bytes
  | 0 => []
  | n + 1 => p.byteAt start :: p.bytesAt (start + 1) n

/-- The word that `n` bytes from a position on write. -/
def wordAt (p : Program) (start n : Nat) : Word :=
  Word.ofBytes (p.bytesAt start n)

end Program
end Ethereum
