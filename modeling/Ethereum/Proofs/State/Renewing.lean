/-
# Accounts that are written with what they had

An overlay that has neither new code nor slots of its own is written as one record
(`World.renewed_of_applyOverlay`).  Nothing is assumed about the world or the store but that
this succeeds.  Then accounts of other hashes are read as before, and so are the code and the
storage of the account itself.  So a raised nonce is all that shows of a scope in which nothing
else happened (`Journal.raisesNonce_of_commit`).

The same holds where other accounts are written as well.  An account that a scope shows is there once
the scope is written, whatever else the scope says about addresses of its hash
(`World.exists_of_applyScope`), and one that is shown without code and slots of its own has the storage
from before, where hashes tell its address apart (`World.retained_applyScope`).
-/

import Mathlib
import Ethereum.Proofs.State.Steady
import Ethereum.Proofs.State.Writing

namespace Ethereum

namespace World

variable {store : Store} {w w' : World} {o : Overlay}

/-- What is left of an overlay that was written without code and slots. -/
structure Renewed (store : Store) (o : Overlay) (w w' : World) : Prop where
  codes_eq : w'.codes = w.codes
  storages_eq : w'.storages = (w.uncovered o).storages
  here : w'.account? store o.address = .ok (some (o.toAccount o.rootUnder))
  elsewhere : ∀ a : Address, a.hash ≠ o.address.hash → w'.account? store a = w.account? store a

theorem renewed_of_applyOverlay (hcode : o.newCode = none) (hslots : o.slots = ∅)
    (hnonce : o.nonce ≤ Quantity.max) (h : applyOverlay store o w = .ok () w') :
    Renewed store o w w' := by
  have hstorage : applyStorage store o (w.uncovered o) = .ok o.rootUnder (w.uncovered o) := by
    rw [applyStorage, hslots]
    rfl
  have hwithCode : (w.uncovered o).withCode o = w.uncovered o := by rw [withCode, hcode]
  rw [applyOverlay_eq hstorage, hwithCode] at h
  obtain ⟨t, ht, rfl⟩ := updateAccounts_eq_ok h
  have hget := Trie.get_insert (o.toAccount o.rootUnder).encode_ne_nil ht
  rw [accounts_uncovered] at hget
  refine ⟨codes_uncovered w o, rfl, ?_, fun a ha => account?_congr ?_⟩
  · refine account?_of_written rfl hnonce ?_
    rw [hget, Function.update_self]
  · rw [hget, Function.update_of_ne]
    exact fun heq => ha (Hash.toBytes_injective heq)

theorem accountCode_congr (h : w'.codes = w.codes) (a : Account) :
    w'.accountCode store a = w.accountCode store a := by
  rw [accountCode, accountCode, h]

theorem accountCode_of_empty (w : World) {a : Account} (h : a.codeHash = Store.emptyCodeHash) :
    w.accountCode store a = .ok [] := by
  rw [accountCode, if_pos h]
  rfl

theorem accountSlot_congr {a a' : Account} (h : w'.storageOf a' = w.storageOf a) (key : Word) :
    w'.accountSlot store a' key = w.accountSlot store a key := by
  rw [accountSlot, accountSlot, h]

end World

/-! ## Overlays without code and slots -/

namespace Overlay

/-- The overlay has neither code nor slots of its own: it lies over an account of the address, or
is new. -/
inductive Bare (address : Address) : Overlay → Prop
  | known (a : Account) (nonce : Nat) (balance : Word) (haddress : a.address = address) :
    Bare address { ofAccount a with nonce, balance }
  | fresh (nonce : Nat) (balance : Word) : Bare address (.fresh address nonce balance)

theorem slot_ofAccount (a : Account) (w : World) (store : Store) (key : Word) :
    (ofAccount a).slot w store key = w.accountSlot store a key := by
  rw [slot, ofAccount, Std.ExtTreeMap.getElem?_empty]
  rfl

theorem slot_fresh (address : Address) (nonce : Nat) (balance : Word) (w : World) (store : Store)
    (key : Word) : (fresh address nonce balance).slot w store key = .ok 0 := by
  rw [slot, fresh, Std.ExtTreeMap.getElem?_empty]
  rfl

namespace Bare

variable {address : Address} {o : Overlay} {w : World} {store : Store}

theorem address_eq (h : o.Bare address) : o.address = address := by
  cases h with
  | known a nonce balance haddress => exact haddress
  | fresh => rfl

theorem newCode_eq (h : o.Bare address) : o.newCode = none := by
  cases h <;> rfl

theorem slots_eq (h : o.Bare address) : o.slots = ∅ := by
  cases h <;> rfl

theorem incrementNonce (h : o.Bare address) : o.incrementNonce.Bare address := by
  cases h with
  | known a nonce balance haddress => exact .known a _ balance haddress
  | fresh nonce balance => exact .fresh _ balance

/-- The code of the overlay is that of its record. -/
theorem code_eq (h : o.Bare address) (root : Hash) :
    o.code w store = w.accountCode store (o.toAccount root) := by
  cases h with
  | known => rfl
  | fresh nonce balance =>
    exact (World.accountCode_of_empty w rfl).symm

end Bare
end Overlay

namespace World

variable {store : Store} {w w' : World} {address x : Address} {o : Overlay} {s : Scope}

/-! ## Storage elsewhere -/

theorem storages_deleteAccount (hne : x ≠ address) (h : deleteAccount store address w = .ok () w') :
    w'.storages[x]? = w.storages[x]? := by
  obtain ⟨_, w₁, hupdate, h⟩ := bind_eq_ok h
  obtain ⟨t, -, rfl⟩ := updateAccounts_eq_ok hupdate
  cases h
  change (w.storages.erase address)[x]? = _
  rw [Std.ExtTreeMap.getElem?_erase, if_neg]
  rw [Std.compare_eq_iff_eq]
  exact hne.symm

theorem storages_deleteAccount_self (h : deleteAccount store address w = .ok () w') :
    w'.storages[address]? = none := by
  obtain ⟨_, w₁, -, h⟩ := bind_eq_ok h
  cases h
  exact Std.ExtTreeMap.getElem?_erase_self

theorem storages_applyStorage {root : Hash} (hne : x ≠ o.address)
    (h : applyStorage store o w = .ok root w') : w'.storages[x]? = w.storages[x]? := by
  have hinsert (t : Trie) : (w.storages.insert o.address t)[x]? = w.storages[x]? := by
    rw [Std.ExtTreeMap.getElem?_insert, if_neg]
    rw [Std.compare_eq_iff_eq]
    exact hne.symm
  rw [applyStorage] at h
  split at h
  · cases h
    rfl
  · rw [applySlots] at h
    split at h
    · cases h
      exact hinsert _
    · cases h

theorem storages_applyOverlay (hne : x ≠ o.address) (h : applyOverlay store o w = .ok () w') :
    w'.storages[x]? = w.storages[x]? := by
  obtain ⟨root, w₁, t, hstorage, -, rfl⟩ := applyOverlay_eq_ok h
  change (w₁.withCode o).storages[x]? = _
  rw [storages_withCode, storages_applyStorage hne hstorage, storages_uncovered w o hne]

/-! ## Scopes -/

/-- What is left of an overlay without code and slots: its record, and the changed storage of its
address. -/
structure Retained (store : Store) (o : Overlay) (w w' : World) : Prop where
  account_eq : w'.account? store o.address = .ok (some (o.toAccount o.rootUnder))
  storage_eq : w'.storages[o.address]? = (w.uncovered o).storages[o.address]?

section
variable (hlies : ∀ a o, s.lookup a = some (some o) → Overlay.LiesAt a o)
  (hrun : applyScope store s w = .ok () w') (hlookup : s.lookup x = some (some o))
include hlies hrun hlookup

/-- **An account that a scope shows** is there when the scope is written. -/
theorem exists_of_applyScope : ∃ a, w'.account? store x = .ok (some a) := by
  obtain ⟨_, w₁, -, hupdate⟩ := bind_eq_ok hrun
  rcases account?_of_updated hlies x hupdate with ⟨_, _, _, _, _, _, hread⟩ | ⟨hnone, -⟩
  · exact ⟨_, hread⟩
  · exact absurd rfl (hnone x o hlookup)

variable (ho : o.Bare x)
include ho

/-- The changed storage of the address is gone if the overlay hides it, and else the same. -/
theorem storages_applyScope :
    w'.storages[o.address]? = (w.uncovered o).storages[o.address]? := by
  obtain ⟨_, w₁, hdelete, hupdate⟩ := bind_eq_ok hrun
  have hx := ho.address_eq
  have hkept : x ∉ s.deleted := fun hmem => by
    cases (Scope.lookup_of_mem_deleted hmem).symm.trans hlookup
  have hdeleted := read_of_forM (fun w : World => w.storages[x]?) (fun _ : Address => False)
    (fun _ _ => False) (l := s.deleted.toList) (fun a ha w w' hwrite => .inr ⟨id,
      storages_deleteAccount (fun hxa => hkept (hxa ▸ Std.ExtTreeSet.mem_toList.mp ha)) hwrite⟩)
    hdelete
  -- what is written last at the address is its own overlay, and only that
  have hupdated := read_of_forM (fun w : World => w.storages[x]?)
    (fun y : Address × Overlay => o.visibleBase = none ∧ y.1 = x) (fun _ found => found = none)
    (l := s.updated.toList) (fun y hy w w' h => by
      rcases applyOverlay_of_mem hy h with ⟨hshown, hwrite⟩ | ⟨hgone, rfl⟩
      · have hat := hlies y.1 y.2 hshown
        by_cases hyx : y.1 = x
        · rw [hyx, hlookup] at hshown
          obtain rfl := Option.some.inj (Option.some.inj hshown)
          have hrenewed := renewed_of_applyOverlay ho.newCode_eq ho.slots_eq hat.nonce_le hwrite
          rw [hrenewed.storages_eq, uncovered]
          cases hbase : y.2.visibleBase with
          | none => exact .inl ⟨⟨rfl, hyx⟩, hx ▸ Std.ExtTreeMap.getElem?_erase_self⟩
          | some a => exact .inr ⟨fun hgone => Option.some_ne_none a hgone.1, rfl⟩
        · refine .inr ⟨fun h => hyx h.2, storages_applyOverlay ?_ hwrite⟩
          exact fun hxy => hyx (hat.address_eq.symm.trans hxy.symm)
      · refine .inr ⟨fun h => ?_, rfl⟩
        rw [h.2, hlookup] at hgone
        cases hgone) hupdate
  rw [hx]
  rcases hdeleted with ⟨a, -, hfalse, -⟩ | ⟨-, hdeleted⟩
  · exact hfalse.elim
  rw [uncovered]
  rcases hupdated with ⟨y, -, ⟨hbase, -⟩, hread⟩ | ⟨hnone, hread⟩
  · rw [hread, hbase, hx]
    exact Std.ExtTreeMap.getElem?_erase_self.symm
  · have hmem := Std.ExtTreeMap.mem_toList_iff_getElem?_eq_some.mpr
      (Scope.updated_of_lookup hlookup)
    cases hbase : o.visibleBase with
    | none => exact absurd ⟨hbase, rfl⟩ (hnone (x, o) hmem)
    | some a => exact hread.trans hdeleted

/-- **An overlay without code and slots** leaves its record and the storage under it, where hashes tell
its address apart. -/
theorem retained_applyScope
    (happart : ∀ a : Address, s.lookup a ≠ none → a.hash = x.hash → a = x) :
    Retained store o w w' := by
  refine ⟨?_, storages_applyScope hlies hrun hlookup ho⟩
  obtain ⟨_, w₁, -, hupdate⟩ := bind_eq_ok hrun
  have hx := ho.address_eq
  rcases account?_of_updated hlies x hupdate with
    ⟨a, o', root, hlookup', hhash, hroot, hread⟩ | ⟨hnone, -⟩
  · obtain rfl := happart a (by simp [hlookup']) hhash
    obtain rfl := Option.some.inj (Option.some.inj (hlookup.symm.trans hlookup'))
    rw [hx, hread, hroot ho.slots_eq, ← hx]
    rfl
  · exact absurd rfl (hnone x o hlookup)

end

theorem Renewed.retained (h : Renewed store o w w') : Retained store o w w' :=
  ⟨h.here, congrArg (·[o.address]?) h.storages_eq⟩

/-- **Slots are read from the new world** as the overlay reads them over the old one. -/
theorem Retained.slot_eq (h : Retained store o w w') (ho : o.Bare x) (key : Word) :
    w'.slot store x key = o.slot w store key := by
  obtain ⟨haccount, hstorage⟩ := h
  rw [ho.address_eq] at haccount hstorage
  rw [slot, haccount]
  change w'.accountSlot store (o.toAccount o.rootUnder) key = _
  cases ho with
  | known a nonce balance haddress =>
    refine (accountSlot_congr ?_ key).trans (Overlay.slot_ofAccount a w store key).symm
    have hsame : w'.storages[a.address]? = w.storages[a.address]? := haddress ▸ hstorage
    rw [storageOf, storageOf, Std.ExtTreeMap.getD_eq_getD_getElem?,
      Std.ExtTreeMap.getD_eq_getD_getElem?, ← hsame]
    rfl
  | fresh nonce balance =>
    have hgone : w'.storages[x]? = none := hstorage.trans Std.ExtTreeMap.getElem?_erase_self
    have hempty : w'.storageOf ((Overlay.fresh x nonce balance).toAccount Node.emptyHash) =
        .ofRoot Node.emptyHash := by
      rw [storageOf, Std.ExtTreeMap.getD_eq_getD_getElem?]
      exact congrArg (Option.getD · _) hgone
    rw [Overlay.slot_fresh]
    change w'.accountSlot store ((Overlay.fresh x nonce balance).toAccount Node.emptyHash) key = _
    rw [accountSlot, hempty]
    exact congrArg (fun x => Except.bind (Except.mapError _ x) _) (Node.lookup_null _)

end World

namespace Journal

variable {store : Store} {w w' : World} {address : Address}

/-- Elsewhere everything is read as before. -/
theorem sameHoldings_elsewhere {o : Overlay} (h : World.Renewed store o w w')
    (ha : address.hash ≠ o.address.hash) :
    (ofWorld w).SameHoldings store (ofWorld w') address ∧
      (ofWorld w').find? store address = (ofWorld w).find? store address := by
  have hfind : (ofWorld w').find? store address = (ofWorld w).find? store address := by
    rw [find?_ofWorld, find?_ofWorld, h.elsewhere address ha]
  refine ⟨⟨?_, ?_, fun key => ?_⟩, hfind⟩
  · rw [balance, balance, hfind]
  · rw [code, code, hfind, find?_ofWorld]
    cases hfound : w.account? store address with
    | error e => rfl
    | ok found =>
      cases found with
      | none => rfl
      | some a => exact World.accountCode_congr h.codes_eq a
  · rw [slot, slot, hfind, find?_ofWorld]
    cases hfound : w.account? store address with
    | error e => rfl
    | ok found =>
      cases found with
      | none => rfl
      | some a =>
        refine World.accountSlot_congr ?_ key
        have hne : a.address ≠ o.address := by
          rw [(World.account?_spec hfound).1]
          exact fun heq => ha (congrArg Address.hash heq)
        rw [World.storageOf, World.storageOf, ofWorld, ofWorld]
        dsimp only
        rw [h.storages_eq, Std.ExtTreeMap.getD_eq_getD_getElem?,
          Std.ExtTreeMap.getD_eq_getD_getElem?, World.storages_uncovered w o hne]

/-- What is found or created at an address is what is read there. -/
theorem reads_of_findOrFresh {j : Journal} {o : Overlay}
    (h : j.findOrFresh store address = .ok o) : j.balance store address = .ok o.balance ∧
      j.nonce store address = .ok o.nonce ∧ j.code store address = o.code j.world store ∧
      ∀ key, j.slot store address key = o.slot j.world store key := by
  obtain ⟨found, hfind, h⟩ := exists_of_bind_eq_ok h
  rw [balance, nonce, code, hfind]
  cases found with
  | none =>
    cases h
    refine ⟨rfl, rfl, rfl, fun key => ?_⟩
    rw [slot, hfind]
    exact (Overlay.slot_fresh address 0 0 j.world store key).symm
  | some o' =>
    cases h
    refine ⟨rfl, rfl, rfl, fun key => ?_⟩
    rw [slot, hfind]
    rfl

/-- The hash of code that is found is read. -/
theorem codeHash_of_findOrFresh {j : Journal} {o : Overlay}
    (h : j.findOrFresh store address = .ok o) (hne : o.codeHash ≠ Store.emptyCodeHash) :
    j.codeHash store address = .ok o.codeHash := by
  obtain ⟨found, hfind, h⟩ := exists_of_bind_eq_ok h
  rw [codeHash, hfind]
  cases found with
  | none =>
    cases h
    exact absurd rfl hne
  | some o' =>
    cases h
    rfl

/-- What a journal finds or creates over a world has neither code nor slots of its own. -/
theorem bare_of_findOrFresh {o : Overlay} (h : (ofWorld w).findOrFresh store address = .ok o) :
    o.Bare address := by
  obtain ⟨found, hfind, h⟩ := exists_of_bind_eq_ok h
  obtain ⟨account, haccount, rfl⟩ :=
    exists_of_map_eq_ok ((find?_ofWorld w address).symm.trans hfind)
  cases account with
  | none =>
    cases h
    exact .fresh 0 0
  | some a =>
    cases h
    exact .known a a.nonce a.balance (World.account?_spec haccount).1

/-- **An account that is retained** has in the new world what the journal gave, if its code is
there. -/
theorem sameHoldings_of_retained {j : Journal} {o : Overlay}
    (hfound : j.findOrFresh store address = .ok o) (ho : o.Bare address)
    (h : World.Retained store o j.world w')
    (hcode : w'.accountCode store (o.toAccount o.rootUnder) = o.code j.world store) :
    j.SameHoldings store (ofWorld w') address ∧
      (ofWorld w').nonce store address = j.nonce store address := by
  obtain ⟨hbalance, hnonce, hcode', hslot⟩ := reads_of_findOrFresh hfound
  have hread : w'.account? store address = .ok (some (o.toAccount o.rootUnder)) :=
    ho.address_eq ▸ h.account_eq
  have hfind : (ofWorld w').find? store address =
      .ok (some (.ofAccount (o.toAccount o.rootUnder))) := by
    rw [find?_ofWorld, hread]
    rfl
  refine ⟨⟨?_, ?_, fun key => ?_⟩, ?_⟩
  · rw [hbalance, balance, hfind]
    rfl
  · rw [hcode', code, hfind, ← hcode]
    rfl
  · have hworld := h.slot_eq ho key
    rw [World.slot, hread] at hworld
    rw [hslot, slot, hfind, ← hworld]
    exact Overlay.slot_ofAccount _ w' store key
  · rw [hnonce, nonce, hfind]
    rfl

/-- **An account whose nonce was raised** has what it had. -/
theorem sameHoldings_here {o : Overlay} (hfound : (ofWorld w).findOrFresh store address = .ok o)
    (h : World.Renewed store o.incrementNonce w w') :
    (ofWorld w).SameHoldings store (ofWorld w') address ∧
      (ofWorld w).nonce store address = .ok o.nonce ∧
      (ofWorld w').nonce store address = .ok (Quantity.satAdd o.nonce 1) := by
  have ho := (bare_of_findOrFresh hfound).incrementNonce
  have hraised : ((ofWorld w).put o.incrementNonce).findOrFresh store address =
      .ok o.incrementNonce := by
    rw [findOrFresh, find?_put, if_pos ho.address_eq.symm]
    rfl
  have hcode : w'.accountCode store (o.incrementNonce.toAccount o.rootUnder) = o.code w store :=
    (World.accountCode_congr h.codes_eq _).trans (ho.code_eq _).symm
  obtain ⟨hbalance, hnonce, hcode', hslot⟩ := reads_of_findOrFresh hfound
  obtain ⟨hbalance₁, hnonce₁, hcode₁, hslot₁⟩ := reads_of_findOrFresh hraised
  obtain ⟨hsame, hnonce'⟩ := sameHoldings_of_retained hraised ho h.retained hcode
  refine ⟨⟨?_, ?_, fun key => ?_⟩, hnonce, hnonce'.trans hnonce₁⟩
  · exact hsame.balance_eq.trans (hbalance₁.trans hbalance.symm)
  · exact hsame.code_eq.trans (hcode₁.trans hcode'.symm)
  · exact (hsame.slot_eq key).trans ((hslot₁ key).trans (hslot key).symm)

/-- **Committing one overlay** writes its record. -/
theorem renewed_of_commit {o : Overlay} {j' : Journal} (hcode : o.newCode = none)
    (hslots : o.slots = ∅) (hnonce : o.nonce ≤ Quantity.max)
    (h : commit store ((ofWorld w).put o) = .ok () j') :
    ∃ w', j' = .ofWorld w' ∧ World.Renewed store o w w' := by
  have hparents : ((ofWorld w).put o).parents = [] := rfl
  have hworld : ((ofWorld w).put o).world = w := rfl
  simp only [commit, hparents, hworld] at h
  cases hscope : World.applyScope store ((ofWorld w).put o).scope w with
  | ok _ w' =>
    have hoverlay : (World.applyOverlay store o >>= fun _ => pure ()) w = .ok () w' := hscope
    obtain ⟨_, w₁, happly, hpure⟩ := bind_eq_ok hoverlay
    cases hpure
    rw [hscope] at h
    obtain ⟨-, rfl⟩ := EStateM.Result.ok.inj h
    exact ⟨w', rfl, World.renewed_of_applyOverlay hcode hslots hnonce happly⟩
  | error e w' =>
    rw [hscope] at h
    cases h

/-! ## A raised nonce -/

/-- All is read as before but for the nonce of one account, which is higher by one, and for
whether that account is there.  The world knows accounts by the hashes of their addresses only,
so nothing is said of other addresses with the same hash. -/
structure RaisesNonce (store : Store) (address : Address) (j j' : Journal) : Prop where
  nonce : ∃ nonce, j.nonce store address = .ok nonce ∧
    j'.nonce store address = .ok (Quantity.satAdd nonce 1)
  holdings : j.SameHoldings store j' address
  elsewhere : ∀ a : Address, a.hash ≠ address.hash → j.SameHoldings store j' a ∧
    j'.nonce store a = j.nonce store a ∧ j'.exists? store a = j.exists? store a

/-- What a journal finds or creates over a world has neither new code nor slots. -/
theorem findOrFresh_ofWorld {o : Overlay} (h : (ofWorld w).findOrFresh store address = .ok o) :
    o.newCode = none ∧ o.slots = ∅ := by
  obtain ⟨found, hfind, h⟩ := exists_of_bind_eq_ok h
  obtain ⟨account, -, rfl⟩ := exists_of_map_eq_ok ((find?_ofWorld w address).symm.trans hfind)
  cases account <;> cases h <;> exact ⟨rfl, rfl⟩

/-- What raising a nonce comes to. -/
theorem incrementNonce_eq_ok {j j' : Journal} {nonce : Nat}
    (h : incrementNonce store address j = .ok nonce j') :
    ∃ o, j.findOrFresh store address = .ok o ∧ j' = j.put o.incrementNonce := by
  obtain ⟨o, j₁, hupdate, h⟩ := bind_eq_ok h
  cases h
  exact ⟨o, update_eq_ok hupdate⟩

/-- **Committing a raised nonce** changes nothing else. -/
theorem raisesNonce_of_commit {o : Overlay} {j' : Journal}
    (hfound : (ofWorld w).findOrFresh store address = .ok o)
    (h : commit store ((ofWorld w).put o.incrementNonce) = .ok () j') :
    ∃ w', j' = .ofWorld w' ∧ (ofWorld w).RaisesNonce store address (ofWorld w') := by
  obtain ⟨hcode, hslots⟩ := findOrFresh_ofWorld hfound
  obtain ⟨w', rfl, hrenewed⟩ := renewed_of_commit (o := o.incrementNonce) hcode hslots
    (Quantity.satAdd_le_max _ _) h
  have haddress : o.incrementNonce.address = address :=
    ((regular_ofWorld w).liesAt_of_findOrFresh hfound).address_eq
  obtain ⟨hholdings, hbefore, hafter⟩ := sameHoldings_here hfound hrenewed
  refine ⟨w', rfl, ⟨o.nonce, hbefore, hafter⟩, hholdings, fun a ha => ?_⟩
  obtain ⟨hsame, hfind⟩ := sameHoldings_elsewhere hrenewed (haddress ▸ ha)
  exact ⟨hsame, by rw [nonce, nonce, hfind], by rw [exists?, exists?, hfind]⟩

end Journal
end Ethereum
