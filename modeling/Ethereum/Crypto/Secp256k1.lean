/-
# The curve secp256k1

The points of `y² = x³ + 7` over the field of `p` elements form a group of prime
order `n`.  Points are kept in Jacobian coordinates: `(x, y, z)` stands for the
affine point `(x / z², y / z³)`, and any point with `z = 0` for the neutral
element.  `recover` finds the public key under which a signature of a digest is
valid, given the parity of the point that the signature was made from.
-/

import Ethereum.Bytes

namespace Ethereum
namespace Crypto
namespace Secp256k1

/-- The order of the field. -/
def p : Nat := 0xfffffffffffffffffffffffffffffffffffffffffffffffffffffffefffffc2f

/-- The order of the group. -/
def n : Nat := 0xfffffffffffffffffffffffffffffffebaaedce6af48a03bbfd25e8cd0364141

/-- `acc * b ^ e` modulo `m`, by squaring. -/
def mulPowMod (m acc b e : Nat) : Nat :=
  if e = 0 then acc
  else mulPowMod m (if e % 2 = 1 then acc * b % m else acc) (b * b % m) (e / 2)
termination_by e
decreasing_by omega

/-- The inverse of `a` modulo a prime `m`; zero for zero. -/
def inverse (m a : Nat) : Nat := mulPowMod m 1 (a % m) (m - 2)

/-- A difference in the field. -/
def sub (a b : Nat) : Nat := (a + (p - b % p)) % p

/-- A point in Jacobian coordinates. -/
structure Point where
  x : Nat
  y : Nat
  z : Nat

namespace Point

/-- The neutral element. -/
def neutral : Point := ⟨0, 1, 0⟩

/-- The base point. -/
def base : Point where
  x := 0x79be667ef9dcbbac55a06295ce870b07029bfcdb2dce28d959f2815b16f81798
  y := 0x483ada7726a3c4655da4fbfc0e1108a8fd17b448a68554199c47d08ffb10d4b8
  z := 1

/-- A point added to itself. -/
def double (a : Point) : Point :=
  let yy := a.y * a.y % p
  let s := 4 * a.x * yy % p
  let m := 3 * a.x * a.x % p
  let x := sub (m * m) (2 * s)
  ⟨x, sub (m * sub s x) (8 * yy * yy), 2 * a.y * a.z % p⟩

/-- The sum of two points. -/
def add (a b : Point) : Point :=
  if a.z = 0 then b
  else if b.z = 0 then a
  else
    let az := a.z * a.z % p
    let bz := b.z * b.z % p
    let u := a.x * bz % p
    let v := b.x * az % p
    let s := a.y * bz * b.z % p
    let t := b.y * az * a.z % p
    if u = v then
      if s = t then double a else neutral
    else
      let h := sub v u
      let r := sub t s
      let hh := h * h % p
      let hhh := h * hh % p
      let w := u * hh % p
      let x := sub (r * r) (hhh + 2 * w)
      ⟨x, sub (r * sub w x) (s * hhh), h * a.z * b.z % p⟩

/-- `acc + k • a`, by doubling. -/
def addMul (acc a : Point) (k : Nat) : Point :=
  if k = 0 then acc
  else addMul (if k % 2 = 1 then add acc a else acc) (double a) (k / 2)
termination_by k
decreasing_by omega

/-- The affine coordinates of a point; none for the neutral element. -/
def affine? (a : Point) : Option (Nat × Nat) :=
  if a.z = 0 then none
  else
    let i := inverse p a.z
    let ii := i * i % p
    some (a.x * ii % p, a.y * ii * i % p)

/-- The point with first coordinate `x` and the given parity of the second. -/
def lift? (x : Nat) (odd : Bool) : Option Point :=
  let square := (x * x * x + 7) % p
  let y := mulPowMod p 1 square ((p + 1) / 4)
  if x < p ∧ y * y % p = square then
    some ⟨x, if (y % 2 == 1) = odd then y else p - y, 1⟩
  else none

end Point

/-- A signature: two scalars, and the parity of the second coordinate of the
point that it was made from. -/
structure Signature where
  r : Nat
  s : Nat
  odd : Bool
deriving DecidableEq

namespace Signature

/-- Whether both scalars are invertible and below the order of the group. -/
def isInRange (g : Signature) : Bool :=
  0 < g.r && g.r < n && 0 < g.s && g.s < n

/-- The equivalent signature whose second scalar is in the lower half. -/
def lower (g : Signature) : Signature :=
  if n / 2 < g.s then { g with s := n - g.s, odd := !g.odd } else g

/-- The public key under which the signature of `digest` is valid: `(s R - z G)
/ r`, where `R` has the first coordinate `r`. -/
def publicKey? (g : Signature) (digest : Nat) : Option (Nat × Nat) := do
  let point ← Point.lift? g.r g.odd
  let inv := inverse n g.r
  let zOverR := digest % n * inv % n
  let key := Point.addMul (Point.addMul .neutral .base ((n - zOverR) % n)) point (g.s * inv % n)
  key.affine?

end Signature

/-- The public key that signed `digest`, as the 64 bytes of its coordinates. -/
def Signature.recover (g : Signature) (digest : Nat) : Option Bytes := do
  guard g.isInRange
  let (x, y) ← g.lower.publicKey? digest
  return Bytes.ofNatFixed 32 x ++ Bytes.ofNatFixed 32 y

end Secp256k1
end Crypto
end Ethereum
