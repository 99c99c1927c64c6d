/-
# Schemes share no preimage

The address of a new contract is cut from the hash of some bytes.  One scheme writes its creator
and the creator's nonce as a list of two items, the other puts a fixed byte, the creator, a salt
and the hash of the init code one after the other.  No two schemes write the same bytes
(`CreateScheme.preimage_injective`), so contracts of different schemes meet at one address only
where two different byte strings have hashes that end alike (`CreateScheme.preimages_apart`).

Nothing is decoded here.  The length of a written list grows with the length of what it holds,
header included (`Rlp.header_strictMono`), so it tells how long the header is and with that where
the items begin (`Rlp.flatten_eq_of_list_eq`).  The same goes for a string, but that a byte which
is its own item has no header (`Rlp.string_injective`).  A list that is as long as the fields of
the other scheme says so in its first byte, which is not the fixed one
(`CreateScheme.preimage_legacy_ne`).

Nonces are numbers of any size here, and a nonce that an account can have is one of them.
-/

import Mathlib
import Ethereum.ContractAddress
import Ethereum.Proofs.Rlp.RoundTrip

namespace Ethereum

namespace Bytes

/-- A larger number is not written in fewer bytes. -/
theorem length_ofNat_mono {m n : Nat} (h : m ≤ n) : (ofNat m).length ≤ (ofNat n).length := by
  have hlt := toNat_lt (ofNat n)
  rw [toNat_ofNat] at hlt
  exact length_ofNat_le (lt_of_le_of_lt h hlt)

theorem ofNat_injective : Function.Injective ofNat :=
  Function.LeftInverse.injective toNat_ofNat

end Bytes

namespace Rlp

/-- **More bytes to hold make a longer item,** header included. -/
theorem header_strictMono (first : Nat) :
    StrictMono fun length => (header first length).length + length := by
  intro m n h
  have hdigits := Bytes.length_ofNat_mono h.le
  simp only [length_header]
  split <;> split <;> omega

/-- **A written list tells what it holds.** -/
theorem flatten_eq_of_list_eq {xs ys : List Bytes} (h : list xs = list ys) :
    xs.flatten = ys.flatten := by
  have hlen := congrArg List.length h
  rw [length_list, length_list] at hlen
  have hsame : xs.flatten.length = ys.flatten.length := (header_strictMono 0xc0).injective hlen
  rw [list, list, hsame] at h
  exact List.append_cancel_left h

/-- Only a byte that is its own item is written as one byte below `0x80`. -/
theorem eq_singleton_of_string_eq {b : Bytes} {x : UInt8} (hx : x < 0x80) (h : string b = [x]) :
    b = [x] := by
  by_cases hb : ∃ y, b = [y] ∧ y < 0x80
  · obtain ⟨y, rfl, hy⟩ := hb
    rwa [string_of_lt hy] at h
  · rw [string_of_ne fun y hy hlt => hb ⟨y, hy, hlt⟩] at h
    have hlen := congrArg List.length h
    rw [List.length_append, List.length_singleton, length_header] at hlen
    obtain rfl : b = [] := by
      rw [← List.length_eq_zero_iff]
      split at hlen <;> omega
    -- the empty string is written as its header
    cases h
    exact absurd hx (by decide)

/-- **A written string tells what was written.** -/
theorem string_injective : Function.Injective string := by
  intro a b h
  by_cases ha : ∃ x, a = [x] ∧ x < 0x80
  · obtain ⟨x, rfl, hx⟩ := ha
    rw [string_of_lt hx] at h
    exact (eq_singleton_of_string_eq hx h.symm).symm
  by_cases hb : ∃ x, b = [x] ∧ x < 0x80
  · obtain ⟨x, rfl, hx⟩ := hb
    rw [string_of_lt hx] at h
    exact eq_singleton_of_string_eq hx h
  rw [string_of_ne fun x hx hlt => ha ⟨x, hx, hlt⟩,
    string_of_ne fun x hx hlt => hb ⟨x, hx, hlt⟩] at h
  have hlen := congrArg List.length h
  rw [List.length_append, List.length_append] at hlen
  have hsame : a.length = b.length := (header_strictMono 0x80).injective hlen
  rw [hsame] at h
  exact List.append_cancel_left h

theorem number_injective : Function.Injective number :=
  string_injective.comp Bytes.ofNat_injective

/-- A string of 20 bytes is written with a header of one byte. -/
theorem length_string_address (a : Address) : (string (Address.toBytes a)).length = 21 := by
  have hlen := Address.length_toBytes a
  rw [string_of_ne, List.length_append, length_header, hlen]
  · rfl
  · intro x hx
    rw [hx, List.length_singleton] at hlen
    omega

end Rlp

namespace CreateScheme

variable {caller caller' : Address} {nonce nonce' : Nat} {codeHash codeHash' salt salt' : Hash}

/-- **Creator and nonce** are told by the list of both, however many bytes the nonce takes. -/
theorem eq_of_preimage_legacy_eq
    (h : (legacy caller nonce).preimage = (legacy caller' nonce').preimage) :
    caller = caller' ∧ nonce = nonce' := by
  have hitems := Rlp.flatten_eq_of_list_eq h
  simp only [List.flatten_cons, List.flatten_nil, List.append_nil] at hitems
  obtain ⟨hcaller, hnonce⟩ := List.append_inj hitems
    ((Rlp.length_string_address caller).trans (Rlp.length_string_address caller').symm)
  exact ⟨Address.toBytes_injective (Rlp.string_injective hcaller), Rlp.number_injective hnonce⟩

/-- **Creator, salt and hash of the code** are told by their bytes, as each takes as many always. -/
theorem eq_of_preimage_create2_eq
    (h : (create2 caller codeHash salt).preimage = (create2 caller' codeHash' salt').preimage) :
    caller = caller' ∧ codeHash = codeHash' ∧ salt = salt' := by
  have hfields := (List.cons.inj h).2
  obtain ⟨hfields, hcode⟩ := List.append_inj' hfields
    ((Hash.length_toBytes codeHash).trans (Hash.length_toBytes codeHash').symm)
  obtain ⟨hcaller, hsalt⟩ := List.append_inj hfields
    ((Address.length_toBytes caller).trans (Address.length_toBytes caller').symm)
  exact ⟨Address.toBytes_injective hcaller, Word.toBytes_injective hcode,
    Word.toBytes_injective hsalt⟩

theorem length_preimage_create2 (caller : Address) (codeHash salt : Hash) :
    (create2 caller codeHash salt).preimage.length = 85 := by
  simp only [preimage, List.cons_append, List.length_cons, List.length_append,
    Address.length_toBytes, Hash.length_toBytes]

/-- **The bytes of one scheme are not those of the other.** -/
theorem preimage_legacy_ne :
    (legacy caller nonce).preimage ≠ (create2 caller' codeHash salt).preimage := by
  intro h
  have hlen := congrArg List.length h
  rw [length_preimage_create2, preimage, Rlp.length_list] at hlen
  -- of the lists only those that hold 83 bytes are as long, and these have a header of two bytes
  have hheader : Rlp.header 0xc0 83 = [0xf8, 83] := by
    simp [Rlp.header, Bytes.ofNat]
  have hholds : [Rlp.string (Address.toBytes caller), Rlp.number nonce].flatten.length = 83 := by
    refine (Rlp.header_strictMono 0xc0).injective (hlen.trans ?_)
    rw [hheader]
    rfl
  rw [preimage, Rlp.list, hholds, hheader] at h
  exact absurd (List.cons.inj h).1 (by decide)

/-- **The bytes tell the scheme.** -/
theorem preimage_injective : Function.Injective preimage := by
  intro x y h
  cases x with
  | legacy caller nonce =>
    cases y with
    | legacy caller' nonce' =>
      obtain ⟨rfl, rfl⟩ := eq_of_preimage_legacy_eq h
      rfl
    | create2 caller' codeHash salt => exact absurd h preimage_legacy_ne
  | create2 caller codeHash salt =>
    cases y with
    | legacy caller' nonce => exact absurd h.symm preimage_legacy_ne
    | create2 caller' codeHash' salt' =>
      obtain ⟨rfl, rfl, rfl⟩ := eq_of_preimage_create2_eq h
      rfl

/-- **No two schemes share a preimage.**  An address is cut from the hash of the preimage of its
scheme, and schemes that have one preimage are one scheme: the same creator with the same nonce, or
the same creator with the same code and salt.  In particular no preimage is of both forms.  So two
schemes that are not the same lead to one address only by a collision: their preimages differ, and
the last 20 bytes of the hashes do not. -/
theorem preimages_apart :
    (∀ s : CreateScheme, s.address = Word.toAddress (keccak s.preimage)) ∧
    (∀ x y : CreateScheme, x.preimage = y.preimage → x = y) ∧
    (∀ (caller caller' : Address) (nonce : Nat) (codeHash salt : Hash),
      (legacy caller nonce).preimage ≠ (create2 caller' codeHash salt).preimage) ∧
    ∀ x y : CreateScheme, x ≠ y → x.address = y.address →
      x.preimage ≠ y.preimage ∧
        Word.toAddress (keccak x.preimage) = Word.toAddress (keccak y.preimage) := by
  refine ⟨fun _ => rfl, fun x y h => preimage_injective h,
    fun _ _ _ _ _ => preimage_legacy_ne, fun x y hne haddress => ?_⟩
  exact ⟨fun h => hne (preimage_injective h), haddress⟩

end CreateScheme
end Ethereum
