/-
# Frame memory

Memory is an array of bytes that reads as zero wherever nothing was written.
The size that a frame has paid for (`size`, always grown in steps of 32 bytes)
is kept apart from the bytes that were written (`data`), so growing the memory
costs nothing until something is stored.
-/

import Ethereum.Exit
import Ethereum.Word.Basic

namespace Ethereum

/-- The memory of a frame. -/
structure Memory where
  /-- The bytes up to the last one written. -/
  data : Array UInt8
  /-- The size paid for, in bytes. -/
  size : Word
  /-- Where writing has to end. -/
  limit : Nat
deriving DecidableEq, Repr

namespace Memory

/-- Memory to which nothing was written. -/
def empty (limit : Nat) : Memory := ⟨#[], 0, limit⟩

/-- The number of 32-byte words paid for. -/
def activeWords (m : Memory) : Word := m.size / 32

/-- Whether no memory was paid for. -/
def isEmpty (m : Memory) : Bool := m.size == 0

/-- The least multiple of 32 that is not below `x`, if it fits a word. -/
def roundUp (x : Word) : Option Word :=
  Word.ofNat? ((x.toNat + 31) / 32 * 32)

/-- The number of words that the memory covers after an access to `len` bytes
at `offset`.  An access to no bytes covers nothing new. -/
def wordsAfterAccess (m : Memory) (offset len : Word) : Except ExitError Word :=
  if len = 0 then .ok m.activeWords
  else match (Word.checkedAdd offset len).bind roundUp with
    | some stop => .ok (if m.activeWords ≤ stop / 32 then stop / 32 else m.activeWords)
    | none => .error .outOfGas

/-- Grows the memory to cover everything below `stop`. -/
def resizeEnd (m : Memory) (stop : Word) : Except ExitError Memory :=
  if stop ≤ m.size then .ok m
  else match roundUp stop with
    | some size => .ok { m with size }
    | none => .error .invalidRange

/-- Grows the memory to cover `len` bytes at `offset`; no bytes need no room. -/
def resizeOffset (m : Memory) (offset len : Word) : Except ExitError Memory :=
  if len = 0 then .ok m
  else match Word.checkedAdd offset len with
    | some stop => m.resizeEnd stop
    | none => .error .invalidRange

/-- The byte at an address. -/
def byteAt (m : Memory) (i : Nat) : UInt8 :=
  m.data.getD i 0

/-- The `len` bytes at `offset`. -/
def get (m : Memory) (offset len : Nat) : Bytes :=
  (List.range len).map fun i => m.byteAt (offset + i)

/-- Whether `len` bytes may be written at `offset`. -/
def admits (m : Memory) (offset len : Nat) : Bool :=
  len = 0 || (offset + len ≤ Quantity.max && offset + len ≤ m.limit)

/-- The array with `bytes` written over its elements from `offset` on. -/
def overwrite (data : Array UInt8) (offset : Nat) : Bytes → Array UInt8
  | [] => data
  | b :: rest => overwrite (data.setIfInBounds offset b) (offset + 1) rest

/-- Writes `bytes` at `offset`, whether or not that is admitted. -/
def write (m : Memory) (offset : Nat) (bytes : Bytes) : Memory :=
  match bytes with
  | [] => m
  | _ =>
    let missing := offset + bytes.length - m.data.size
    { m with data := overwrite (m.data ++ Array.replicate missing 0) offset bytes }

/-- Writes `len` bytes at `offset`: `bytes` cut or padded with zeros. -/
def set (m : Memory) (offset : Nat) (bytes : Bytes) (len : Nat) : Except ExitFatal Memory :=
  if m.admits offset len then .ok (m.write offset (bytes.fit len)) else .error .notSupported

/-- The part of `data` that a copy of `len` bytes from `offset` reads: nothing
of it if the copy would end past the largest quantity. -/
def source (data : Bytes) (offset len : Word) : Bytes :=
  if offset.toNat + len.toNat ≤ Quantity.max then data.drop offset.toNat else []

/-- Copies `len` bytes of `data` from `dataOffset` to `offset`, with zeros past
the end of `data`. -/
def copy (m : Memory) (offset dataOffset len : Word) (data : Bytes) : Except ExitFatal Memory :=
  if len = 0 then .ok m
  else match offset.toQuantity?, len.toQuantity? with
    | some start, some n => m.set start (source data dataOffset len) n
    | _, _ => .error .notSupported

end Memory
end Ethereum
