/-
# Code over a world

What a journal finds follows what the world has (`Overlay.Follows`): an account of the world is not
missing, its nonce is not lower, and it has the code that it has there, unless that is none and new
code was set.  A journal is built over a world with so much new code (`Journal.Built`) if all that it
finds does so and the new code that it finds is no longer than that in total.

Mild changes keep a journal built as it is (`Journal.built_update`), and so do scopes that are
entered or merged.  Setting the code of an account that has none in the world adds the length of the
code (`Journal.Built.setCode`).
-/

import Mathlib
import Ethereum.Proofs.State.Renewing
import Ethereum.Proofs.State.Steady

namespace Ethereum

/-- The same bytes encode the same account at all addresses. -/
theorem Account.decode_at {address address' : Address} {b : Bytes} {a : Account}
    (h : decode address b = .ok a) : decode address' b = .ok { a with address := address' } := by
  obtain ⟨items, hitems, h⟩ := exists_of_bind_eq_ok h
  rw [decode, hitems]
  split at h
  · obtain ⟨nonce, hnonce, h⟩ := exists_of_bind_eq_ok h
    obtain ⟨balance, hbalance, h⟩ := exists_of_bind_eq_ok h
    obtain ⟨root, hroot, h⟩ := exists_of_bind_eq_ok h
    obtain ⟨codeHash, hcodeHash, h⟩ := exists_of_bind_eq_ok h
    cases h
    simp only [bind, Except.bind, hnonce, hbalance, hroot, hcodeHash]
    rfl
  · cases h

/-- Addresses that share a hash share their account. -/
theorem World.account?_of_hash_eq {w : World} {store : Store} {x y : Address}
    {found : Option Account} (hhash : x.hash = y.hash) (h : w.account? store x = .ok found) :
    w.account? store y = .ok (found.map ({ · with address := y })) := by
  obtain ⟨b, hget, h⟩ := exists_of_bind_eq_ok h
  rw [account?, ← hhash, hget]
  cases b with
  | none =>
    cases h
    rfl
  | some b =>
    obtain ⟨a, hdecode, h⟩ := exists_of_bind_eq_ok h
    cases h
    cases hb : Account.decode x b with
    | error e =>
      rw [hb] at hdecode
      cases hdecode
    | ok a' =>
      rw [hb] at hdecode
      cases hdecode
      show (do return some (← (Account.decode y b).mapError StateError.decoder)) = _
      rw [Account.decode_at hb]
      rfl

/-- The account has code: the hash of its code is neither zero nor that of no code. -/
def Account.Coded (a : Account) : Prop := a.codeHash ≠ 0 ∧ a.codeHash ≠ Store.emptyCodeHash

namespace Overlay

/-- The length of the new code. -/
def newLength (o : Overlay) : Nat := (o.newCode.map List.length).getD 0

/-- The overlay is of an account that the world has, or of a new one.  No nonce is lower, code that
was not set is the one in the world, and it was set only where there was none, within the limit. -/
structure Follows (limit : Option Nat) (before : Option Account) (o : Overlay) : Prop where
  nonce_le : ∀ a ∈ before, a.nonce ≤ o.nonce
  kept : o.newCode = none →
    o.codeHash = (before.map Account.codeHash).getD Store.emptyCodeHash
  deployed : ∀ code, o.newCode = some code → o.codeHash = keccak code ∧
    (∀ a ∈ before, ¬ a.Coded) ∧ ∀ most ∈ limit, code.length ≤ most

namespace Follows

variable {limit : Option Nat} {before : Option Account} {o : Overlay}

theorem ofAccount (limit : Option Nat) (a : Account) :
    (Overlay.ofAccount a).Follows limit (some a) := by
  constructor
  · rintro _ ⟨⟩
    exact le_rfl
  · exact fun _ => rfl
  · exact nofun

theorem fresh (limit : Option Nat) (address : Address) :
    (Overlay.fresh address 0 0).Follows limit none :=
  ⟨nofun, fun _ => rfl, nofun⟩

theorem mild {change : Overlay → Overlay} (hchange : Mild change) (ho : o.nonce ≤ Quantity.max)
    (h : o.Follows limit before) : (change o).Follows limit before := by
  constructor
  · exact fun a ha => (h.nonce_le a ha).trans (hchange.nonce_le o ho)
  · rw [hchange.newCode_eq, hchange.codeHash_eq]
    exact h.kept
  · rw [hchange.newCode_eq, hchange.codeHash_eq]
    exact h.deployed

theorem setCode {code : Bytes} (hfree : ∀ a ∈ before, ¬ a.Coded)
    (hlimit : ∀ most ∈ limit, code.length ≤ most) (h : o.Follows limit before) :
    (o.setCode code).Follows limit before := by
  refine ⟨h.nonce_le, nofun, ?_⟩
  rintro _ ⟨⟩
  exact ⟨rfl, hfree, hlimit⟩

/-- The world has no code where what is found shows none. -/
theorem not_coded (h : o.Follows limit before)
    (ho : o.codeHash = 0 ∨ o.codeHash = Store.emptyCodeHash) : ∀ a ∈ before, ¬ a.Coded := by
  rintro a ha ⟨hzero, hempty⟩
  cases hnew : o.newCode with
  | some code => exact (h.deployed code hnew).2.1 a ha ⟨hzero, hempty⟩
  | none =>
    have hkept := h.kept hnew
    rw [Option.mem_def.mp ha] at hkept
    rcases ho with ho | ho
    · exact hzero (hkept.symm.trans ho)
    · exact hempty (hkept.symm.trans ho)

/-- An account is followed at all addresses. -/
theorem relocate (h : o.Follows limit before) (x : Address) :
    o.Follows limit (before.map ({ · with address := x })) := by
  cases before with
  | none => exact h
  | some a =>
    refine ⟨?_, h.kept, fun code hnew => ?_⟩
    · rintro _ ⟨⟩
      exact h.nonce_le a rfl
    · obtain ⟨hhash, hfree, hlimit⟩ := h.deployed code hnew
      refine ⟨hhash, ?_, hlimit⟩
      rintro _ ⟨⟩
      exact hfree a rfl

end Follows

theorem newLength_mild {change : Overlay → Overlay} (h : Mild change) (o : Overlay) :
    (change o).newLength = o.newLength := by
  rw [newLength, newLength, h.newCode_eq]

end Overlay

namespace Journal

variable {store : Store} {limit : Option Nat} {w : World} {n : Nat} {j j' inner : Journal}
  {address : Address}

/-- The length of the new code that is found at an address. -/
def newLength (store : Store) (j : Journal) (address : Address) : Nat :=
  match j.find? store address with
  | .ok (some o) => o.newLength
  | _ => 0

theorem newLength_congr (h : j'.find? store address = j.find? store address) :
    j'.newLength store address = j.newLength store address := by
  rw [newLength, newLength, h]

theorem newLength_of_find? {o : Overlay} (h : j.find? store address = .ok (some o)) :
    j.newLength store address = o.newLength := by
  rw [newLength, h]

theorem newLength_of_findOrFresh {o : Overlay} (h : j.findOrFresh store address = .ok o) :
    j.newLength store address = o.newLength := by
  obtain ⟨found, hfound, h⟩ := exists_of_bind_eq_ok h
  cases found with
  | none =>
    obtain rfl := Except.ok.inj h
    rw [newLength, hfound]
    rfl
  | some o' =>
    obtain rfl := Except.ok.inj h
    exact newLength_of_find? hfound

/-- The journal is regular, what it finds follows what the world has, and the new code that it finds
is no longer than `n` in total. -/
structure Built (store : Store) (limit : Option Nat) (w : World) (n : Nat) (j : Journal) :
    Prop where
  regular : j.Regular
  follows : ∀ address found, j.find? store address = .ok found →
    ∃ before, w.account? store address = .ok before ∧ (found = none → before = none) ∧
      ∀ o ∈ found, o.Follows limit before
  length_le : ∑ address, j.newLength store address ≤ n

/-- The world itself is built without new code. -/
theorem built_ofWorld : (ofWorld w).Built store limit w 0 := by
  constructor
  · exact regular_ofWorld w
  · intro address found hfound
    rw [find?_ofWorld] at hfound
    obtain ⟨before, hbefore, rfl⟩ := exists_of_map_eq_ok hfound
    refine ⟨before, hbefore, Option.map_eq_none_iff.mp, fun o ho => ?_⟩
    obtain ⟨a, rfl, rfl⟩ := Option.map_eq_some_iff.mp ho
    exact .ofAccount limit a
  · refine (Finset.sum_eq_zero fun address _ => ?_).le
    rw [newLength, find?_ofWorld]
    cases w.account? store address with
    | error e => rfl
    | ok before => cases before <;> rfl

namespace Built

theorem mono (h : j.Built store limit w n) {n' : Nat} (hn : n ≤ n') :
    j.Built store limit w n' :=
  ⟨h.regular, h.follows, h.length_le.trans hn⟩

/-- A journal that finds the same is built in the same way. -/
theorem congr (h : j.Built store limit w n) (hregular : j'.Regular)
    (hfind : ∀ address, j'.find? store address = j.find? store address) :
    j'.Built store limit w n := by
  refine ⟨hregular, fun address found hfound => h.follows address found (hfind address ▸ hfound), ?_⟩
  exact (Finset.sum_congr rfl fun address _ => newLength_congr (hfind address)).trans_le h.length_le

/-- What is found, or created, follows what the world has. -/
theorem of_findOrFresh (h : j.Built store limit w n) {o : Overlay}
    (ho : j.findOrFresh store address = .ok o) :
    ∃ before, w.account? store address = .ok before ∧ o.Follows limit before := by
  obtain ⟨found, hfound, ho⟩ := exists_of_bind_eq_ok ho
  obtain ⟨before, hbefore, hnone, hfollows⟩ := h.follows address found hfound
  refine ⟨before, hbefore, ?_⟩
  cases found with
  | none =>
    obtain rfl := Except.ok.inj ho
    rw [hnone rfl]
    exact .fresh limit address
  | some o' =>
    obtain rfl := Except.ok.inj ho
    exact hfollows o' rfl

/-- What the scope says about an address follows what the world has at all addresses of its hash. -/
theorem of_lookup (h : j.Built store limit w n) {x : Address} {found : Option Overlay}
    (hlookup : j.scope.lookup address = some found) (hhash : address.hash = x.hash) :
    ∃ before, w.account? store x = .ok before ∧ (found = none → before = none) ∧
      ∀ o ∈ found, o.Follows limit before := by
  obtain ⟨before, hbefore, hnone, hfollows⟩ := h.follows address found (find?_of_lookup hlookup)
  refine ⟨_, World.account?_of_hash_eq hhash hbefore, fun hfound => ?_, fun o ho => ?_⟩
  · rw [hnone hfound]
    rfl
  · exact (hfollows o ho).relocate x

/-- **An account that is put in the place of what is found** keeps a journal built if it follows the
world too, with the code that it adds. -/
theorem put (h : j.Built store limit w n) {o o' : Overlay} {k : Nat}
    (ho : j.findOrFresh store address = .ok o) (hlies : o'.LiesAt address)
    (hfollows : ∀ before, w.account? store address = .ok before → o.Follows limit before →
      o'.Follows limit before) (hlength : o'.newLength ≤ o.newLength + k) :
    (j.put o').Built store limit w (n + k) := by
  have hfind (a : Address) : (j.put o').find? store a =
      if a = address then .ok (some o') else j.find? store a := by
    rw [find?_put, hlies.address_eq]
  constructor
  · exact h.regular.put hlies
  · intro a found hfound
    rw [hfind] at hfound
    by_cases ha : a = address
    · rw [if_pos ha] at hfound
      obtain rfl := Except.ok.inj hfound
      obtain ⟨before, hbefore, hold⟩ := h.of_findOrFresh ho
      refine ⟨before, ha ▸ hbefore, nofun, ?_⟩
      rintro _ ⟨⟩
      exact hfollows before hbefore hold
    · rw [if_neg ha] at hfound
      exact h.follows a found hfound
  · have hsum := h.length_le
    -- the sum over all addresses changes by its term at this one
    have hhere : (j.put o').newLength store address = o'.newLength :=
      newLength_of_find? (by rw [hfind, if_pos rfl])
    have hthere : ∑ a ∈ Finset.univ.erase address, (j.put o').newLength store a =
        ∑ a ∈ Finset.univ.erase address, j.newLength store a :=
      Finset.sum_congr rfl fun a ha =>
        newLength_congr (by rw [hfind, if_neg (Finset.ne_of_mem_erase ha)])
    rw [← Finset.add_sum_erase _ _ (Finset.mem_univ address), newLength_of_findOrFresh ho] at hsum
    rw [← Finset.add_sum_erase _ _ (Finset.mem_univ address), hhere, hthere]
    omega

/-- **Setting code** where the world has none adds its length. -/
theorem setCode (h : j.Built store limit w n) {code : Bytes}
    (hfree : ∀ a, w.account? store address = .ok (some a) → ¬ a.Coded)
    (hlimit : ∀ most ∈ limit, code.length ≤ most)
    (hrun : Journal.setCode store address code j = .ok () j') :
    j'.Built store limit w (n + code.length) := by
  obtain ⟨o, j₁, hupdate, hrun⟩ := bind_eq_ok hrun
  cases hrun
  obtain ⟨hfound, rfl⟩ := update_eq_ok hupdate
  refine h.put hfound ((Overlay.pays_setCode code).liesAt (h.regular.liesAt_of_findOrFresh hfound))
    (fun before hbefore hold => hold.setCode ?_ hlimit) ?_
  · rintro a ⟨⟩
    exact hfree a hbefore
  · exact Nat.le_add_left _ _

theorem enter (h : j.Built store limit w n) : j.enter.Built store limit w n :=
  h.congr h.regular.enter fun address => find?_enter j address

/-- **A scope that is merged** takes its new code along. -/
theorem merge (h : inner.Built store limit w n) (hinner : j.enter.Inner inner) :
    Built store limit w n { j with scope := j.scope.merge inner.scope } := by
  obtain ⟨hregular, hfind⟩ := h.regular.merge hinner
  exact h.congr hregular hfind

end Built

/-- The second journal is built over the world as the first one is. -/
def BuiltTo (store : Store) (limit : Option Nat) (w : World) (j j' : Journal) : Prop :=
  ∀ n, j.Built store limit w n → j'.Built store limit w n

instance : Std.Refl (BuiltTo store limit w) := ⟨fun _ _ => id⟩

instance : IsTrans Journal (BuiltTo store limit w) := ⟨fun _ _ _ h h' n => h' n ∘ h n⟩

/-- **Mild changes of accounts** keep journals built. -/
theorem built_update (store : Store) (limit : Option Nat) (w : World) :
    ThroughMildUpdates store (BuiltTo store limit w) := by
  intro address change f hpays hmild
  refine leads_update fun j o hfound n h => ?_
  have hlies := h.regular.liesAt_of_findOrFresh hfound
  exact h.put (k := 0) hfound (hpays.liesAt hlies)
    (fun before _ hold => hold.mild hmild hlies.nonce_le) (Overlay.newLength_mild hmild o).le

end Journal
end Ethereum
