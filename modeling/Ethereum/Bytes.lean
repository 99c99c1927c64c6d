/-
# Byte strings

A byte string is a list of bytes.  Numbers are written big-endian, either in a
fixed number of bytes (`ofNatFixed`) or in as few as possible (`ofNat`), and a
byte string reads back as a number (`toNat`).  `window` is the view that data
operands have of a byte string: it goes on with zeros past the end.
-/

namespace Ethereum

/-- A byte string. -/
abbrev Bytes := List UInt8

namespace Bytes

/-- The number that `n` followed by a byte string writes. -/
def follow (n : Nat) (b : Bytes) : Nat :=
  b.foldl (fun n x => n * 256 + x.toNat) n

/-- The number a byte string writes, most significant byte first.  Seven bytes at a
time make a number that fits a machine word. -/
def toNat (b : Bytes) : Nat :=
  go 0 b
where
  /-- The number that `n` followed by a byte string writes. -/
  go (n : Nat) : Bytes → Nat
    | a :: b :: c :: d :: e :: f :: g :: rest =>
      go (n <<< 56 + ((((((a.toNat * 256 + b.toNat) * 256 + c.toNat) * 256 + d.toNat) * 256 +
        e.toNat) * 256 + f.toNat) * 256 + g.toNat)) rest
    | rest => n <<< (8 * rest.length) + follow 0 rest

/-- The lowest `width` bytes of `n` in front of `b`. -/
def prependDigits : Nat → Nat → Bytes → Bytes
  | 0, _, b => b
  | width + 1, n, b => prependDigits width (n / 256) (UInt8.ofNat n :: b)

/-- The lowest `width` bytes of `n`, most significant first.  Seven bytes at a time
make a number that fits a machine word. -/
def ofNatFixed (width n : Nat) : Bytes :=
  go width n []
where
  /-- The lowest `width` bytes of `n` in front of `b`. -/
  go : Nat → Nat → Bytes → Bytes
    | width + 7, n, b => go width (n >>> 56) (prependDigits 7 (n % 0x100000000000000) b)
    | width, n, b => prependDigits width n b

/-- The shortest byte string that writes `n`; empty for zero. -/
def ofNat (n : Nat) : Bytes :=
  if n = 0 then [] else ofNat (n / 256) ++ [UInt8.ofNat n]
termination_by n
decreasing_by omega

/-- `b` cut to `len` bytes, or padded to them with zeros on the right. -/
def fit (b : Bytes) (len : Nat) : Bytes :=
  let kept := b.take len
  kept ++ List.replicate (len - kept.length) 0

/-- The `len` bytes of `b` from `offset` on, with zeros past its end. -/
def window (b : Bytes) (offset len : Nat) : Bytes :=
  fit (b.drop offset) len

/-- `b` with zeros in front, up to `len` bytes in all. -/
def padLeft (b : Bytes) (len : Nat) : Bytes :=
  List.replicate (len - b.length) 0 ++ b

theorem follow_cons (n : Nat) (x : UInt8) (b : Bytes) :
    follow n (x :: b) = follow (n * 256 + x.toNat) b := rfl

theorem follow_eq (n : Nat) (b : Bytes) : follow n b = n <<< (8 * b.length) + follow 0 b := by
  induction b generalizing n with
  | nil => simp [follow]
  | cons x b ih =>
    rw [follow_cons, follow_cons, ih, ih (0 * 256 + x.toNat), List.length_cons]
    simp only [Nat.shiftLeft_eq, Nat.mul_add 8, Nat.pow_add]
    grind

theorem toNat_go (n : Nat) (b : Bytes) : toNat.go n b = follow n b := by
  fun_induction toNat.go n b with
  | case1 n a b c d e f g rest ih =>
    have h : n <<< 56 + ((((((a.toNat * 256 + b.toNat) * 256 + c.toNat) * 256 + d.toNat) * 256 +
        e.toNat) * 256 + f.toNat) * 256 + g.toNat) =
      ((((((n * 256 + a.toNat) * 256 + b.toNat) * 256 + c.toNat) * 256 + d.toNat) * 256 +
        e.toNat) * 256 + f.toNat) * 256 + g.toNat := by
      rw [Nat.shiftLeft_eq]
      omega
    rw [ih, h]
    simp only [follow_cons]
  | case2 n rest => rw [follow_eq n rest]

theorem toNat_eq (b : Bytes) : toNat b = b.foldl (fun n x => n * 256 + x.toNat) 0 :=
  toNat_go 0 b

theorem prependDigits_mod (width n : Nat) (b : Bytes) :
    prependDigits width (n % Nat.pow 256 width) b = prependDigits width n b := by
  induction width generalizing n b with
  | zero => rfl
  | succ width ih =>
    have hpow : Nat.pow 256 (width + 1) = Nat.pow 256 width * 256 := rfl
    have hbyte : UInt8.ofNat (n % (Nat.pow 256 width * 256)) = UInt8.ofNat n := by
      rw [← UInt8.toNat_inj, UInt8.toNat_ofNat', UInt8.toNat_ofNat']
      exact Nat.mod_mul_left_mod n (Nat.pow 256 width) 256
    have hrest : n % (Nat.pow 256 width * 256) / 256 = n / 256 % Nat.pow 256 width := by
      rw [Nat.mul_comm]
      exact Nat.mod_mul_right_div_self n 256 (Nat.pow 256 width)
    rw [prependDigits, prependDigits, hpow, hbyte, hrest, ih]

theorem prependDigits_add (v w n : Nat) (b : Bytes) :
    prependDigits (v + w) n b = prependDigits v (n / Nat.pow 256 w) (prependDigits w n b) := by
  induction w generalizing n b with
  | zero => exact congrArg (prependDigits v · b) (Nat.div_one n).symm
  | succ w ih =>
    have hpow : Nat.pow 256 (w + 1) = 256 * Nat.pow 256 w := Nat.mul_comm _ _
    rw [← Nat.add_assoc, prependDigits, prependDigits, ih, Nat.div_div_eq_div_mul, hpow]

theorem ofNatFixed_go (width n : Nat) (b : Bytes) :
    ofNatFixed.go width n b = prependDigits width n b := by
  fun_induction ofNatFixed.go width n b with
  | case1 width n b ih =>
    show ofNatFixed.go width _ _ = prependDigits (width + 7) n b
    rw [ih, prependDigits_add, Nat.shiftRight_eq_div_pow]
    exact congrArg _ (prependDigits_mod 7 n b)
  | case2 => rfl

theorem prependDigits_append (width n : Nat) (b c : Bytes) :
    prependDigits width n (b ++ c) = prependDigits width n b ++ c := by
  induction width generalizing n b with
  | zero => rfl
  | succ width ih => exact ih (n / 256) (UInt8.ofNat n :: b)

theorem ofNatFixed_zero (n : Nat) : ofNatFixed 0 n = [] := rfl

theorem ofNatFixed_succ (width n : Nat) :
    ofNatFixed (width + 1) n = ofNatFixed width (n / 256) ++ [UInt8.ofNat n] := by
  rw [ofNatFixed, ofNatFixed, ofNatFixed_go, ofNatFixed_go, ← prependDigits_append]
  rfl

@[simp] theorem length_ofNatFixed (width n : Nat) : (ofNatFixed width n).length = width := by
  induction width generalizing n with
  | zero => rfl
  | succ width ih => simp [ofNatFixed_succ, ih]

@[simp] theorem length_fit (b : Bytes) (len : Nat) : (fit b len).length = len := by
  simp only [fit, List.length_append, List.length_replicate]
  have := List.length_take_le len b
  omega

@[simp] theorem length_window (b : Bytes) (offset len : Nat) : (window b offset len).length = len :=
  length_fit _ _

end Bytes
end Ethereum
