/-
# Jump destinations

A position of the code is a jump destination if it holds the byte `0x5b` and is
not part of the data of a push instruction.  The scan walks the code once and
skips the data of each push.
-/

import Ethereum.Opcode

namespace Ethereum

/-- Which positions of some code are jump destinations. -/
structure JumpTable where
  flags : Array Bool
deriving DecidableEq, Repr

namespace JumpTable

/-- The flags of the code after `skip` bytes of push data. -/
def scan : Nat → Bytes → List Bool
  | _, [] => []
  | skip + 1, _ :: rest => false :: scan skip rest
  | 0, b :: rest => (b == Opcode.jumpdest) :: scan ((Opcode.pushWidth? b).getD 0) rest

/-- The jump destinations of `code`. -/
def ofCode (code : Bytes) : JumpTable := ⟨(scan 0 code).toArray⟩

/-- The number of positions, that is, of bytes of the code. -/
def size (t : JumpTable) : Nat := t.flags.size

/-- Whether the code has no bytes. -/
def isEmpty (t : JumpTable) : Bool := t.flags.isEmpty

/-- Whether the code may jump to `position`. -/
def isValid (t : JumpTable) (position : Nat) : Bool :=
  t.flags.getD position false

@[simp] theorem length_scan (skip : Nat) (code : Bytes) :
    (scan skip code).length = code.length := by
  fun_induction scan skip code <;> simp_all

@[simp] theorem size_ofCode (code : Bytes) : (ofCode code).size = code.length := by
  simp [ofCode, size]

end JumpTable
end Ethereum
