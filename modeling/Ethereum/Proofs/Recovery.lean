/-
# The signer of a digest

The contract that recovers signers answers every input, with nothing or with an address
in 32 bytes (`compute_eq`).  It reads four words of 32 bytes, which go on with zeros past
the end of a short input and which the rest of a long one does not change
(`recoverSigner_fit`).  The second is 27 or 28 and tells a parity, the last two are scalars
from 1 to below the order of the group; for anything else the output is empty
(`recoverSigner_eq_none`).

A signature `(r, s)` of one parity and `(r, n - s)` of the other are of the same signer.
Recovery takes the one with the second scalar in the lower half, for which it turns the
scalar and the parity together (`Signature.lower`).  The order is odd, so exactly one of
both is lower, and both are recovered from the same one (`Signature.lower_opposite`).

What the curve makes of the lower signature is left as it is: nothing here says that the
point which is found is the key, and an abscissa that was reduced by the order is not
looked for.
-/

import Mathlib
import Ethereum.Precompile
import Ethereum.Proofs.Memory
import Ethereum.Proofs.Rlp.RoundTrip

namespace Ethereum

/-! ## Windows -/

namespace Bytes

theorem getD_window (b : Bytes) (offset : Nat) {len i : Nat} (h : i < len) :
    (b.window offset len).getD i 0 = b.getD (offset + i) 0 := by
  rw [window, getD_fit _ h, List.getD_eq_getElem?_getD, List.getD_eq_getElem?_getD,
    List.getElem?_drop]

/-- **A window** tells no difference between a byte string that ends and one that goes on
with zeros, or between what is past the window and nothing. -/
theorem window_fit (b : Bytes) {offset len total : Nat} (h : offset + len ≤ total) :
    (b.fit total).window offset len = b.window offset len := by
  refine List.ext_getElem (by simp) fun i hi hi' => ?_
  rw [length_window] at hi
  rw [← List.getD_eq_getElem _ 0, ← List.getD_eq_getElem _ 0, getD_window _ _ hi,
    getD_window _ _ hi, getD_fit _ (by omega)]

theorem window_append_left (a b : Bytes) : (a ++ b).window 0 a.length = a := by
  simp [window, fit]

theorem window_append_right (a b : Bytes) {offset : Nat} (h : a.length ≤ offset) (len : Nat) :
    (a ++ b).window offset len = b.window (offset - a.length) len := by
  rw [window, window, List.drop_append, List.drop_eq_nil_of_le h, List.nil_append]

theorem ofNatFixed_add (v w n : Nat) :
    ofNatFixed (v + w) n = ofNatFixed v (n / 256 ^ w) ++ ofNatFixed w n := by
  rw [ofNatFixed, ofNatFixed, ofNatFixed, ofNatFixed_go, ofNatFixed_go, ofNatFixed_go,
    prependDigits_add, ← prependDigits_append]
  rfl

end Bytes

namespace Crypto.Secp256k1.Signature

/-- The signature with the second scalar negated, and with the other parity. -/
def opposite (g : Signature) : Signature := { g with s := n - g.s, odd := !g.odd }

theorem isInRange_eq_true_iff {g : Signature} :
    g.isInRange = true ↔ (0 < g.r ∧ g.r < n) ∧ 0 < g.s ∧ g.s < n := by
  simp only [isInRange, Bool.and_eq_true, decide_eq_true_eq, and_assoc]

theorem isInRange_opposite {g : Signature} (h : g.isInRange = true) :
    g.opposite.isInRange = true := by
  rw [isInRange_eq_true_iff] at h ⊢
  exact ⟨h.1, Nat.sub_pos_of_lt h.2.2, Nat.sub_lt_self h.2.1 h.2.2.le⟩

/-- **Opposite signatures** are one signature once the second scalar is in the lower half. -/
theorem lower_opposite {g : Signature} (h : g.isInRange = true) : g.opposite.lower = g.lower := by
  obtain ⟨-, hpos, hlt⟩ := isInRange_eq_true_iff.mp h
  -- no scalar is its own negation, so one of both is in the lower half and the other is not
  have hodd : n % 2 = 1 := by decide
  unfold lower opposite
  by_cases hhigh : n / 2 < g.s
  · rw [if_neg (by dsimp only; omega), if_pos hhigh]
  · rw [if_pos (by dsimp only; omega), if_neg hhigh]
    dsimp only
    rw [Nat.sub_sub_self hlt.le, Bool.not_not]

theorem recover_opposite {g : Signature} (h : g.isInRange = true) (digest : Nat) :
    g.opposite.recover digest = g.recover digest := by
  rw [recover, recover, lower_opposite h, isInRange_opposite h, h]

theorem recover_eq_none {g : Signature} (h : g.isInRange = false) (digest : Nat) :
    g.recover digest = none := by
  rw [recover, h]
  rfl

end Crypto.Secp256k1.Signature

/-- An address in 32 bytes is its own 20 with zeros in front. -/
theorem Word.toBytes_ofAddress (a : Address) :
    toBytes (ofAddress a) = List.replicate 12 0 ++ a.toBytes := by
  have hlt : a.toNat < 256 ^ 20 := a.isLt
  have hnat : (ofAddress a).toNat = a.toNat := by
    rw [ofAddress, BitVec.toNat_setWidth, Nat.mod_eq_of_lt (by omega)]
  rw [toBytes, hnat, Bytes.ofNatFixed_add 12 20, Nat.div_eq_of_lt hlt]
  rfl

namespace Precompile

open Crypto
open Crypto.Secp256k1 (n)

variable {input : Bytes}

/-- The word at a position in the input of a recovery, as a number. -/
def operand (input : Bytes) (i : Nat) : Nat := (input.window (32 * i) 32).toNat

/-- The input that asks who signed a digest. -/
def recoveryInput (digest : Hash) (v r s : Nat) : Bytes :=
  digest.toBytes ++ (Bytes.ofNatFixed 32 v ++ (Bytes.ofNatFixed 32 r ++ Bytes.ofNatFixed 32 s))

/-! ## One input -/

theorem signature?_eq (input : Bytes) :
    signature? input =
      if operand input 1 = 27 ∨ operand input 1 = 28 then
        some ⟨operand input 2, operand input 3, operand input 1 == 28⟩
      else none := rfl

theorem recoverSigner_eq_none
    (h : (operand input 1 ≠ 27 ∧ operand input 1 ≠ 28) ∨
      operand input 2 = 0 ∨ n ≤ operand input 2 ∨ operand input 3 = 0 ∨ n ≤ operand input 3) :
    recoverSigner input = none := by
  unfold recoverSigner
  rw [signature?_eq]
  split
  · rename_i hv
    have hrange :
        Secp256k1.Signature.isInRange ⟨operand input 2, operand input 3, operand input 1 == 28⟩ =
          false := by
      rw [Bool.eq_false_iff, ne_eq, Secp256k1.Signature.isInRange_eq_true_iff]
      dsimp only
      omega
    simp only [Option.bind_eq_bind, Option.bind_some, Secp256k1.Signature.recover_eq_none hrange,
      Option.bind_none]
  · rfl

/-- Only the first 128 bytes are read, with zeros after the last. -/
theorem recoverSigner_fit (input : Bytes) : recoverSigner (input.fit 128) = recoverSigner input := by
  unfold recoverSigner signature?
  simp only [Bytes.window_fit input (by decide : 0 + 32 ≤ 128),
    Bytes.window_fit input (by decide : 32 + 32 ≤ 128),
    Bytes.window_fit input (by decide : 64 + 32 ≤ 128),
    Bytes.window_fit input (by decide : 96 + 32 ≤ 128)]

theorem recoverSigner_eq {output : Bytes} (h : recoverSigner input = some output) :
    ∃ a : Address, output = List.replicate 12 0 ++ a.toBytes := by
  unfold recoverSigner at h
  simp only [Option.bind_eq_bind, Option.bind_eq_some_iff, Option.pure_def,
    Option.some.injEq] at h
  obtain ⟨g, -, key, -, rfl⟩ := h
  exact ⟨_, Word.toBytes_ofAddress _⟩

theorem compute_eq (input : Bytes) :
    ecRecover.compute input = some [] ∨
      ∃ a : Address, ecRecover.compute input = some (List.replicate 12 0 ++ a.toBytes) := by
  rcases hsigner : recoverSigner input with _ | output
  · left
    simp only [ecRecover, hsigner, Option.getD_none]
  · right
    obtain ⟨a, rfl⟩ := recoverSigner_eq hsigner
    exact ⟨a, by simp only [ecRecover, hsigner, Option.getD_some]⟩

/-! ## Two inputs -/

section

variable (digest : Hash) {v r s : Nat}

theorem window_recoveryInput (v r s : Nat) :
    (recoveryInput digest v r s).window 0 32 = digest.toBytes := by
  have h := Bytes.window_append_left digest.toBytes
    (Bytes.ofNatFixed 32 v ++ (Bytes.ofNatFixed 32 r ++ Bytes.ofNatFixed 32 s))
  rwa [Hash.toBytes, Word.length_toBytes] at h

theorem operand_recoveryInput (hv : v < 2 ^ 256) (hr : r < 2 ^ 256) (hs : s < 2 ^ 256) :
    operand (recoveryInput digest v r s) 1 = v ∧ operand (recoveryInput digest v r s) 2 = r ∧
      operand (recoveryInput digest v r s) 3 = s := by
  have hread : ∀ {k : Nat} (b : Bytes), k < 2 ^ 256 →
      ((Bytes.ofNatFixed 32 k ++ b).window 0 32).toNat = k := by
    intro k b hk
    have hleft := Bytes.window_append_left (Bytes.ofNatFixed 32 k) b
    rw [Bytes.length_ofNatFixed] at hleft
    rw [hleft, Bytes.toNat_ofNatFixed, Nat.mod_eq_of_lt (by omega)]
  unfold operand recoveryInput Hash.toBytes
  refine ⟨?_, ?_, ?_⟩
  · rw [Bytes.window_append_right _ _ (by simp)]
    simpa using hread _ hv
  · rw [Bytes.window_append_right _ _ (by simp), Bytes.window_append_right _ _ (by simp)]
    simpa using hread _ hr
  · rw [Bytes.window_append_right _ _ (by simp), Bytes.window_append_right _ _ (by simp),
      Bytes.window_append_right _ _ (by simp)]
    simpa using hread [] hs

/-- What is answered when the parity is one: the signer of the digest, if there is one. -/
theorem compute_recoveryInput (hv : v = 27 ∨ v = 28) (hr : r < 2 ^ 256) (hs : s < 2 ^ 256) :
    ecRecover.compute (recoveryInput digest v r s) =
      some (((Secp256k1.Signature.recover ⟨r, s, v == 28⟩ digest.toBytes.toNat).map fun key =>
        Word.toBytes (Word.ofAddress (Word.toAddress (keccak key)))).getD []) := by
  obtain ⟨h₁, h₂, h₃⟩ := operand_recoveryInput digest (by omega : v < 2 ^ 256) hr hs
  have hsignature : signature? (recoveryInput digest v r s) = some ⟨r, s, v == 28⟩ := by
    rw [signature?_eq, h₁, h₂, h₃, if_pos hv]
  simp only [ecRecover, recoverSigner, hsignature, window_recoveryInput, Option.bind_eq_bind,
    Option.bind_some]
  cases Secp256k1.Signature.recover ⟨r, s, v == 28⟩ digest.toBytes.toNat <;> rfl

/-- **A signature and its opposite** are of the same signer. -/
theorem compute_opposite (hv : v = 27 ∨ v = 28) (hr : 1 ≤ r ∧ r ≤ n - 1) (hs : 1 ≤ s ∧ s ≤ n - 1) :
    ecRecover.compute (recoveryInput digest v r s) =
      ecRecover.compute (recoveryInput digest (55 - v) r (n - s)) := by
  have hn : n < 2 ^ 256 := by decide
  have hparity : (55 - v == 28) = !(v == 28) := by
    rcases hv with rfl | rfl <;> rfl
  have hrange : Secp256k1.Signature.isInRange ⟨r, s, v == 28⟩ = true := by
    rw [Secp256k1.Signature.isInRange_eq_true_iff]
    dsimp only
    omega
  rw [compute_recoveryInput digest hv (by omega) (by omega),
    compute_recoveryInput digest (by omega) (by omega) (by omega), hparity]
  exact congrArg (fun key : Option Bytes => some ((key.map _).getD []))
    (Secp256k1.Signature.recover_opposite hrange _).symm

end

/-- **Recovery of a signer** answers every input, with nothing or with an address behind
twelve zeros; it answers as for the first 128 bytes, with zeros after the last; nothing is
answered unless the second word is 27 or 28 and both scalars are from 1 to below the order
of the group; and the answers for a signature and for the one with the second scalar
negated and the other parity are the same. -/
theorem ecRecover_total_windowed_symmetric (input : Bytes) :
    (∃ output, ecRecover.compute input = some output ∧
      (output = [] ∨ output.length = 32 ∧
        ∃ a : Address, output = List.replicate 12 0 ++ a.toBytes)) ∧
    ecRecover.compute input = ecRecover.compute (input.fit 128) ∧
    ((operand input 1 ≠ 27 ∧ operand input 1 ≠ 28) ∨
        operand input 2 = 0 ∨ n ≤ operand input 2 ∨ operand input 3 = 0 ∨ n ≤ operand input 3 →
      ecRecover.compute input = some []) ∧
    ∀ (digest : Hash) (v r s : Nat), (v = 27 ∨ v = 28) →
      (1 ≤ r ∧ r ≤ n - 1) → (1 ≤ s ∧ s ≤ n - 1) →
      ecRecover.compute (recoveryInput digest v r s) =
        ecRecover.compute (recoveryInput digest (55 - v) r (n - s)) := by
  refine ⟨?_, ?_, ?_, ?_⟩
  · rcases compute_eq input with hnone | ⟨a, hsome⟩
    · exact ⟨[], hnone, .inl rfl⟩
    · exact ⟨_, hsome, .inr ⟨by simp, a, rfl⟩⟩
  · simp only [ecRecover, recoverSigner_fit]
  · intro hbad
    simp only [ecRecover, recoverSigner_eq_none hbad, Option.getD_none]
  · intro digest v r s hv hr hs
    exact compute_opposite digest hv hr hs

/-- A signature of `0x42..42` under the key 1, made from the base point. -/
def signed : Secp256k1.Signature where
  r := 0x79be667ef9dcbbac55a06295ce870b07029bfcdb2dce28d959f2815b16f81798
  s := 0x43ff573ec3e10211681d5b27ef36b2b575d09dc93f383520239d9aef76fbe767
  odd := true

/-- The digest that is signed. -/
def signedDigest : Hash := 0x4242424242424242424242424242424242424242424242424242424242424242

/-- The empty input has the empty output, and both forms of a signature of the key 1 have the
address of that key. -/
theorem ecRecover_total_windowed_symmetric_of_signed :
    (operand [] 1 ≠ 27 ∧ operand [] 1 ≠ 28) ∧ ecRecover.compute [] = some [] ∧
    (1 ≤ signed.r ∧ signed.r ≤ n - 1) ∧ (1 ≤ signed.s ∧ signed.s ≤ n - 1) ∧
    ecRecover.compute (recoveryInput signedDigest 28 signed.r signed.s) =
      some (List.replicate 12 0 ++ Address.toBytes 0x7e5f4552091a69125d5dfcb7b8c2659029395bdf) ∧
    ecRecover.compute (recoveryInput signedDigest 27 signed.r (n - signed.s)) =
      some (List.replicate 12 0 ++ Address.toBytes 0x7e5f4552091a69125d5dfcb7b8c2659029395bdf) := by
  have hv : operand [] 1 ≠ 27 ∧ operand [] 1 ≠ 28 := by decide
  have hr : 1 ≤ signed.r ∧ signed.r ≤ n - 1 := by decide
  have hs : 1 ≤ signed.s ∧ signed.s ≤ n - 1 := by decide
  have hsigner : ecRecover.compute (recoveryInput signedDigest 28 signed.r signed.s) =
      some (List.replicate 12 0 ++
        Address.toBytes 0x7e5f4552091a69125d5dfcb7b8c2659029395bdf) := by decide +kernel
  obtain ⟨-, -, hreject, hopposite⟩ := ecRecover_total_windowed_symmetric []
  exact ⟨hv, hreject (.inl hv), hr, hs, hsigner,
    (hopposite signedDigest 28 signed.r signed.s (.inr rfl) hr hs).symm.trans hsigner⟩

end Precompile
end Ethereum
