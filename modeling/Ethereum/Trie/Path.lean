/-
# Paths

A path leads through a trie one nibble at a time.  A key is walked by the path
of its bytes, the high nibble of each before the low one.
-/

import Ethereum.Bytes

namespace Ethereum

/-- Four bits. -/
abbrev Nibble := Fin 16

/-- There are nibbles. -/
instance Nibble.neZero : @NeZero Nat Zero.ofOfNat0 16 :=
  @NeZero.mk Nat Zero.ofOfNat0 16 (Nat.succ_ne_zero 15)

/-- A sequence of nibbles. -/
abbrev Path := List Nibble

namespace Path

/-- The high nibble of a byte. -/
def high (b : UInt8) : Nibble := Fin.ofNat 16 (b.toNat / 16)

/-- The low nibble of a byte. -/
def low (b : UInt8) : Nibble := Fin.ofNat 16 b.toNat

/-- The byte of two nibbles. -/
def byte (high low : Nibble) : UInt8 := UInt8.ofNat (16 * high.val + low.val)

/-- The path of a byte string. -/
def ofBytes (b : Bytes) : Path :=
  b.flatMap fun x => [high x, low x]

/-- The bytes of a path; an odd last nibble is followed by zero. -/
def toBytes : Path → Bytes
  | [] => []
  | [n] => [byte n 0]
  | m :: n :: rest => byte m n :: toBytes rest

/-- The length of the longest start that two paths share. -/
def commonLength : Path → Path → Nat
  | m :: p, n :: q => if m = n then commonLength p q + 1 else 0
  | _, _ => 0

/-- What follows `p` in `q`, if `q` starts with it. -/
def after? : Path → Path → Option Path
  | [], q => some q
  | m :: p, n :: q => if m = n then after? p q else none
  | _ :: _, [] => none

@[simp] theorem length_ofBytes (b : Bytes) : (ofBytes b).length = 2 * b.length := by
  induction b with
  | nil => rfl
  | cons x b ih => simp_all [ofBytes]; omega

theorem after?_eq_some_iff {p q r : Path} : after? p q = some r ↔ q = p ++ r := by
  fun_induction after? p q <;> grind

theorem commonLength_le_left (p q : Path) : commonLength p q ≤ p.length := by
  fun_induction commonLength p q <;> simp_all

theorem commonLength_le_right (p q : Path) : commonLength p q ≤ q.length := by
  fun_induction commonLength p q <;> simp_all

end Path
end Ethereum
