/-
# What accounts have

A journal gives a balance for every address (`Journal.HasBalances`).  Touching an account,
its slots, its code and its nonce keeps all balances, and so do scopes that are entered or
merged.  Value only moves: what a transfer takes off one account it gives to another, as long
as the first has it (`Balances.total_transfer`), and what an account leaves at its end goes to
the beneficiary, be it the account itself (`Balances.total_bequeath`).  Sums and differences
of balances saturate, so the total has to be small enough: below `2 ^ 255`, as an account
that leaves its balance to itself has it twice for a while.
-/

import Mathlib
import Ethereum.Proofs.State.Changing
import Ethereum.Proofs.State.Tracking

namespace Ethereum

/-! ## Totals -/

/-- What each account has. -/
abbrev Balances := Address → Word

namespace Balances

/-- What all accounts have together. -/
def total (b : Balances) : Nat := ∑ address, (b address).toNat

/-- The balances with one raised, up to the largest word. -/
def raise (address : Address) (amount : Word) (b : Balances) : Balances :=
  Function.update b address (Word.satAdd (b address) amount)

/-- The balances with one lowered, down to zero. -/
def lower (address : Address) (amount : Word) (b : Balances) : Balances :=
  Function.update b address (Word.satSub (b address) amount)

/-- The balances after a transfer. -/
def transfer (source target : Address) (amount : Word) (b : Balances) : Balances :=
  if source = target then b else raise target amount (lower source amount b)

/-- The balances once an account has left what it has to a beneficiary. -/
def bequeath (source target : Address) (b : Balances) : Balances :=
  lower source (b source) (raise target (b source) b)

/-- The balances once some accounts are deleted. -/
def without (gone : Finset Address) (b : Balances) : Balances := fun address =>
  if address ∈ gone then 0 else b address

variable {b : Balances} {source target address : Address} {amount : Word}

theorem le_total (b : Balances) (address : Address) : (b address).toNat ≤ b.total :=
  Finset.single_le_sum (f := fun a => (b a).toNat) (fun _ _ => Nat.zero_le _)
    (Finset.mem_univ address)

/-- **Changing one balance** changes the total by as much. -/
theorem total_update (b : Balances) (address : Address) (amount : Word) :
    total (Function.update b address amount) + (b address).toNat = b.total + amount.toNat := by
  have hupdate : (fun a => (Function.update b address amount a).toNat) =
      Function.update (fun a => (b a).toNat) address amount.toNat :=
    Function.comp_update BitVec.toNat b address amount
  have hrest := Finset.add_sum_erase Finset.univ (fun a => (b a).toNat) (Finset.mem_univ address)
  rw [total, hupdate, Finset.sum_update_of_mem (Finset.mem_univ address),
    Finset.sdiff_singleton_eq_erase, total]
  omega

theorem total_update_of_zero {b : Balances} {address : Address} (h : b address = 0)
    (amount : Word) : total (Function.update b address amount) = b.total + amount.toNat := by
  have hzero : (b address).toNat = 0 := congrArg BitVec.toNat h
  have hupdate := b.total_update address amount
  omega

theorem total_raise (h : b.total + amount.toNat < 2 ^ 256) :
    (b.raise address amount).total = b.total + amount.toNat := by
  have hle := b.le_total address
  have hsum : (Word.satAdd (b address) amount).toNat = (b address).toNat + amount.toNat := by
    rw [Word.satAdd_eq, BitVec.toNat_ofNat]
    omega
  have hupdate := b.total_update address (Word.satAdd (b address) amount)
  rw [raise]
  omega

theorem total_lower (h : amount ≤ b address) :
    (b.lower address amount).total + amount.toNat = b.total := by
  have hlt := (b address).isLt
  have hle := BitVec.le_def.mp h
  have hdiff : (Word.satSub (b address) amount).toNat = (b address).toNat - amount.toNat := by
    rw [Word.satSub_eq, BitVec.toNat_ofNat]
    omega
  have hupdate := b.total_update address (Word.satSub (b address) amount)
  rw [lower]
  omega

/-- **A transfer moves value** that the sender has. -/
theorem total_transfer (h : amount ≤ b source) (htotal : b.total < 2 ^ 256) :
    (b.transfer source target amount).total = b.total := by
  rw [transfer]
  split
  · rfl
  · have hlower := total_lower h
    rw [total_raise (by omega), hlower]

/-- **A bequest moves value**, even to the account that leaves it. -/
theorem total_bequeath (htotal : b.total < 2 ^ 255) :
    (b.bequeath source target).total = b.total := by
  have hle := b.le_total source
  have hraise : (b.raise target (b source)).total = b.total + (b source).toNat :=
    total_raise (by omega)
  have hkept : b source ≤ b.raise target (b source) source := by
    rw [raise, Function.update_apply, BitVec.le_def]
    split
    · have hle' := b.le_total target
      rw [Word.satAdd_eq, BitVec.toNat_ofNat]
      omega
    · exact le_rfl
  have hlower := total_lower hkept
  rw [bequeath]
  omega

theorem without_empty (b : Balances) : b.without ∅ = b :=
  funext fun _ => if_neg (Finset.notMem_empty _)

theorem without_update (gone : Finset Address) (address : Address) (b : Balances) :
    without gone (Function.update b address 0) = b.without (insert address gone) := by
  funext a
  rw [without, without, Function.update_apply]
  by_cases ha : a = address
  · rw [if_pos ha, ite_self, if_pos (ha ▸ Finset.mem_insert_self a gone)]
  · rw [if_neg ha]
    exact if_congr (by rw [Finset.mem_insert, or_iff_right ha]) rfl rfl

/-- **What is deleted** is missing from the sum. -/
theorem sum_without {gone among : Finset Address} (h : gone ⊆ among) (b : Balances) :
    ∑ a ∈ among, (b.without gone a).toNat + ∑ a ∈ gone, (b a).toNat =
      ∑ a ∈ among, (b a).toNat := by
  have hkept : ∑ a ∈ among \ gone, (b.without gone a).toNat = ∑ a ∈ among \ gone, (b a).toNat :=
    Finset.sum_congr rfl fun a ha => by rw [without, if_neg (Finset.mem_sdiff.mp ha).2]
  have hgone : ∑ a ∈ gone, (b.without gone a).toNat = 0 :=
    Finset.sum_eq_zero fun a ha => by rw [without, if_pos ha]; rfl
  rw [← Finset.sum_sdiff h, hkept, hgone, add_zero, Finset.sum_sdiff h]

/-- Balances that agree elsewhere and have the same total have the same sum. -/
theorem sum_eq_of_total {among : Finset Address} {b b' : Balances} (htotal : b'.total = b.total)
    (h : ∀ a ∉ among, b' a = b a) : ∑ a ∈ among, (b' a).toNat = ∑ a ∈ among, (b a).toNat := by
  have helsewhere : ∑ a ∈ amongᶜ, (b' a).toNat = ∑ a ∈ amongᶜ, (b a).toNat :=
    Finset.sum_congr rfl fun a ha => by rw [h a (Finset.mem_compl.mp ha)]
  have hb := Finset.sum_add_sum_compl among fun a => (b a).toNat
  have hb' := Finset.sum_add_sum_compl among fun a => (b' a).toNat
  rw [total, total] at htotal
  omega

end Balances

/-! ## Records that were read -/

theorem Rlp.le_of_quantity {b : Bytes} {n : Nat} (h : quantity b = .ok n) : n ≤ Quantity.max := by
  obtain ⟨d, -, h⟩ := exists_of_bind_eq_ok h
  split at h
  · cases h
  · rename_i hlength
    have hlt := d.toNat_lt
    have hpow : 256 ^ d.length ≤ 256 ^ 8 := Nat.pow_le_pow_right (by decide) (not_lt.mp hlength)
    rw [minimalNumber] at h
    split at h
    · cases h
    · obtain rfl := Except.ok.inj h
      exact Nat.le_of_lt_succ (hlt.trans_le hpow)

/-- An account that was decoded has its address, and a nonce that can be written again. -/
theorem Account.decode_spec {address : Address} {b : Bytes} {a : Account}
    (h : decode address b = .ok a) : a.address = address ∧ a.nonce ≤ Quantity.max := by
  obtain ⟨items, -, h⟩ := exists_of_bind_eq_ok h
  split at h
  · obtain ⟨nonce, hnonce, h⟩ := exists_of_bind_eq_ok h
    obtain ⟨balance, -, h⟩ := exists_of_bind_eq_ok h
    obtain ⟨root, -, h⟩ := exists_of_bind_eq_ok h
    obtain ⟨codeHash, -, h⟩ := exists_of_bind_eq_ok h
    cases h
    exact ⟨rfl, Rlp.le_of_quantity hnonce⟩
  · cases h

theorem World.account?_spec {w : World} {store : Store} {address : Address} {a : Account}
    (h : w.account? store address = .ok (some a)) :
    a.address = address ∧ a.nonce ≤ Quantity.max := by
  obtain ⟨found, -, h⟩ := exists_of_bind_eq_ok h
  cases found with
  | none => cases h
  | some b =>
    obtain ⟨a', hdecode, h⟩ := exists_of_bind_eq_ok h
    obtain rfl := Option.some.inj (Except.ok.inj h)
    cases hb : Account.decode address b with
    | ok a'' =>
      rw [hb] at hdecode
      obtain rfl := Except.ok.inj hdecode
      exact Account.decode_spec hb
    | error e =>
      rw [hb] at hdecode
      cases hdecode

/-! ## Scopes -/

/-- The overlay lies at its address, and has a nonce that can be written. -/
structure Overlay.LiesAt (address : Address) (o : Overlay) : Prop where
  address_eq : o.address = address
  nonce_le : o.nonce ≤ Quantity.max

namespace Scope

/-- A scope is regular: it holds no overlay of an account that it deleted, and its overlays lie
at their addresses. -/
structure Regular (s : Scope) : Prop where
  separate : s.Separate
  liesAt : ∀ (address : Address) (o : Overlay), s.lookup address = some (some o) →
    o.LiesAt address

variable {s c : Scope} {address : Address} {o : Overlay}

theorem regular_empty : empty.Regular where
  separate := separate_empty
  liesAt address o h := by
    rw [lookup_empty] at h
    cases h

theorem Regular.keyed (h : s.Regular) : s.Keyed := fun address o ho =>
  (h.liesAt address o (h.separate.lookup_of_updated ho)).address_eq

theorem Regular.put (h : s.Regular) (ho : o.LiesAt address) : (s.put o).Regular := by
  refine ⟨h.separate.put o, fun a p hp => ?_⟩
  rw [lookup_put, Function.update_apply] at hp
  split at hp
  · rename_i ha
    cases hp
    exact ⟨ha.symm, ho.nonce_le⟩
  · exact h.liesAt a p hp

theorem Regular.delete (h : s.Regular) (address : Address) : (s.delete address).Regular := by
  refine ⟨h.separate.delete address, fun a p hp => ?_⟩
  rw [lookup_delete, Function.update_apply] at hp
  split at hp
  · cases hp
  · exact h.liesAt a p hp

theorem Regular.merge (h : s.Regular) (hc : c.Regular) : (s.merge c).Regular := by
  refine ⟨h.separate.merge c, fun a p hp => ?_⟩
  rw [lookup_merge s hc.separate hc.keyed] at hp
  rcases Option.or_eq_some_iff.mp hp with hp | ⟨-, hp⟩
  · exact hc.liesAt a p hp
  · exact h.liesAt a p hp

end Scope

/-- A change of overlays that does `f` to their balances. -/
structure Overlay.Pays (change : Overlay → Overlay) (f : Word → Word) : Prop where
  address_eq : ∀ o, (change o).address = o.address
  balance_eq : ∀ o, (change o).balance = f o.balance
  nonce_le : ∀ o : Overlay, o.nonce ≤ Quantity.max → (change o).nonce ≤ Quantity.max

namespace Overlay

theorem pays_id : Pays id id := ⟨fun _ => rfl, fun _ => rfl, fun _ h => h⟩

theorem pays_setSlot (key value : Word) : Pays (setSlot key value) id :=
  ⟨fun _ => rfl, fun _ => rfl, fun _ h => h⟩

theorem pays_setCode (code : Bytes) : Pays (setCode code) id :=
  ⟨fun _ => rfl, fun _ => rfl, fun _ h => h⟩

theorem pays_incrementNonce : Pays incrementNonce id :=
  ⟨fun _ => rfl, fun _ => rfl, fun _ _ => Quantity.satAdd_le_max _ _⟩

theorem pays_incrementBalance (amount : Word) :
    Pays (incrementBalance amount) fun w => Word.satAdd w amount :=
  ⟨fun _ => rfl, fun _ => rfl, fun _ h => h⟩

theorem pays_decrementBalance (amount : Word) :
    Pays (decrementBalance amount) fun w => Word.satSub w amount :=
  ⟨fun _ => rfl, fun _ => rfl, fun _ h => h⟩

theorem Pays.liesAt {change : Overlay → Overlay} {f : Word → Word} {address : Address}
    {o : Overlay} (h : Pays change f) (ho : o.LiesAt address) : (change o).LiesAt address :=
  ⟨(h.address_eq o).trans ho.address_eq, h.nonce_le o ho.nonce_le⟩

end Overlay

namespace Journal

variable {store : Store} {j j' : Journal} {b : Balances} {address : Address}

/-! ## What journals find -/

theorem find?_of_lookup {found : Option Overlay} (h : j.scope.lookup address = some found) :
    j.find? store address = .ok found := by
  rw [find?, List.findSome?_cons, h]
  rfl

theorem find?_put (j : Journal) (o : Overlay) (address : Address) :
    (j.put o).find? store address =
      if address = o.address then .ok (some o) else j.find? store address := by
  rw [find?, find?, put, List.findSome?_cons, List.findSome?_cons, Scope.lookup_put,
    Function.update_apply]
  by_cases h : address = o.address
  · rw [if_pos h, if_pos h]
    rfl
  · rw [if_neg h, if_neg h]

theorem find?_enter (j : Journal) (address : Address) :
    j.enter.find? store address = j.find? store address := by
  rw [find?, find?, enter, List.findSome?_cons, Scope.lookup_empty]

theorem find?_delete (j : Journal) (gone address : Address) :
    find? { j with scope := j.scope.delete gone } store address =
      if address = gone then .ok none else j.find? store address := by
  rw [find?, find?, List.findSome?_cons, List.findSome?_cons, Scope.lookup_delete,
    Function.update_apply]
  by_cases h : address = gone
  · rw [if_pos h, if_pos h]
    rfl
  · rw [if_neg h, if_neg h]

/-- A scope that was merged shows through. -/
theorem find?_merge {c : Scope} (hc : c.Regular) (j : Journal) (address : Address) :
    find? { j with scope := j.scope.merge c } store address =
      find? { j with scope := c, parents := j.scope :: j.parents } store address := by
  rw [find?, find?, List.findSome?_cons, List.findSome?_cons, List.findSome?_cons,
    Scope.lookup_merge j.scope hc.separate hc.keyed]
  cases c.lookup address <;> rfl

/-! ## Regular journals -/

/-- All scopes are regular. -/
def Regular (j : Journal) : Prop := ∀ s ∈ j.scope :: j.parents, s.Regular

namespace Regular

theorem liesAt_of_find? (h : j.Regular) {o : Overlay}
    (ho : j.find? store address = .ok (some o)) : o.LiesAt address := by
  rw [find?] at ho
  split at ho
  · rename_i found hfound
    obtain rfl := Except.ok.inj ho
    obtain ⟨s, hs, hlookup⟩ := List.exists_of_findSome?_eq_some hfound
    exact (h s hs).liesAt address o hlookup
  · obtain ⟨found, hfound, ho⟩ := exists_of_bind_eq_ok ho
    cases found with
    | none => cases ho
    | some a =>
      cases ho
      obtain ⟨haddress, hnonce⟩ := World.account?_spec hfound
      exact ⟨haddress, hnonce⟩

theorem put (h : j.Regular) {o : Overlay} (ho : o.LiesAt address) : (j.put o).Regular := by
  obtain ⟨hscope, hparents⟩ := List.forall_mem_cons.mp h
  exact List.forall_mem_cons.mpr ⟨hscope.put ho, hparents⟩

/-- **A scope that is merged** into the one around it leaves a regular journal, which finds what was
found before. -/
theorem merge {inner : Journal} (h : inner.Regular) (hinner : j.enter.Inner inner) :
    Regular { j with scope := j.scope.merge inner.scope } ∧ ∀ address,
      find? { j with scope := j.scope.merge inner.scope } store address =
        inner.find? store address := by
  obtain ⟨hworld, hparents⟩ := hinner
  rw [Regular, hparents] at h
  obtain ⟨hscope, houter⟩ := List.forall_mem_cons.mp h
  obtain ⟨hj, hrest⟩ := List.forall_mem_cons.mp houter
  refine ⟨List.forall_mem_cons.mpr ⟨hj.merge hscope, hrest⟩, fun address => ?_⟩
  have hsame : inner = { j with scope := inner.scope, parents := j.scope :: j.parents } := by
    cases inner
    cases hworld
    cases hparents
    rfl
  rw [find?_merge hscope, ← hsame]

end Regular

/-! ## What journals say that accounts have -/

/-- The scopes are regular, and the accounts have these balances. -/
structure HasBalances (store : Store) (j : Journal) (b : Balances) : Prop where
  regular : ∀ s ∈ j.scope :: j.parents, s.Regular
  balance_eq : ∀ address, j.balance store address = .ok (b address)

namespace HasBalances

/-- The balance of what is found. -/
theorem balance_of_find? (h : j.HasBalances store b) {found : Option Overlay}
    (hfound : j.find? store address = .ok found) :
    (found.map Overlay.balance).getD 0 = b address := by
  have hbalance := h.balance_eq address
  rw [balance, hfound] at hbalance
  exact Except.ok.inj hbalance

theorem liesAt_of_find? (h : j.HasBalances store b) {o : Overlay}
    (ho : j.find? store address = .ok (some o)) : o.LiesAt address :=
  Regular.liesAt_of_find? h.regular ho

/-- What is found, or created, has the balance of the address. -/
theorem findOrFresh_spec (h : j.HasBalances store b) {o : Overlay}
    (ho : j.findOrFresh store address = .ok o) : o.LiesAt address ∧ o.balance = b address := by
  obtain ⟨found, hfound, ho⟩ := exists_of_bind_eq_ok ho
  have hbalance := h.balance_of_find? hfound
  cases found with
  | none =>
    cases ho
    exact ⟨⟨rfl, Nat.zero_le _⟩, hbalance⟩
  | some o' =>
    cases ho
    exact ⟨h.liesAt_of_find? hfound, hbalance⟩

/-- Every account can be found, or created. -/
theorem exists_findOrFresh (h : j.HasBalances store b) (address : Address) :
    ∃ o, j.findOrFresh store address = .ok o := by
  obtain ⟨found, hfound, -⟩ := exists_of_bind_eq_ok (h.balance_eq address)
  exact ⟨found.getD (.fresh address 0 0), by rw [findOrFresh, hfound]; rfl⟩

theorem put (h : j.HasBalances store b) {o : Overlay} (ho : o.LiesAt address) :
    (j.put o).HasBalances store (Function.update b address o.balance) := by
  refine ⟨Regular.put h.regular ho, fun a => ?_⟩
  rw [balance, find?_put, ho.address_eq, Function.update_apply]
  split
  · rfl
  · exact h.balance_eq a

/-- **A change of an account** is a change of its balance, if it is that. -/
theorem update (h : j.HasBalances store b) {change : Overlay → Overlay} {f : Word → Word}
    (hchange : Overlay.Pays change f) {o : Overlay}
    (hrun : Journal.update store address change j = .ok o j') :
    o.balance = b address ∧
      j'.HasBalances store (Function.update b address (f (b address))) := by
  obtain ⟨hfound, rfl⟩ := update_eq_ok hrun
  obtain ⟨hlies, hbalance⟩ := h.findOrFresh_spec hfound
  have hput := h.put (hchange.liesAt hlies)
  rw [hchange.balance_eq, hbalance] at hput
  exact ⟨hbalance, hput⟩

/-- A change of an account that keeps its balance keeps all. -/
theorem update_id (h : j.HasBalances store b) {change : Overlay → Overlay}
    (hchange : Overlay.Pays change id) {o : Overlay}
    (hrun : Journal.update store address change j = .ok o j') : j'.HasBalances store b := by
  have hb := (h.update hchange hrun).2
  rwa [id, Function.update_eq_self] at hb

/-! ### Changes -/

theorem getOrCreate (h : j.HasBalances store b)
    (hrun : Journal.getOrCreate store address j = .ok () j') : j'.HasBalances store b := by
  obtain ⟨o, j₁, hupdate, hrun⟩ := bind_eq_ok hrun
  cases hrun
  exact h.update_id Overlay.pays_id hupdate

theorem setSlot (h : j.HasBalances store b) {key value : Word}
    (hrun : Journal.setSlot store address key value j = .ok () j') : j'.HasBalances store b := by
  obtain ⟨o, j₁, hupdate, hrun⟩ := bind_eq_ok hrun
  cases hrun
  exact h.update_id (Overlay.pays_setSlot key value) hupdate

theorem setCode (h : j.HasBalances store b) {code : Bytes}
    (hrun : Journal.setCode store address code j = .ok () j') : j'.HasBalances store b := by
  obtain ⟨o, j₁, hupdate, hrun⟩ := bind_eq_ok hrun
  cases hrun
  exact h.update_id (Overlay.pays_setCode code) hupdate

theorem incrementNonce (h : j.HasBalances store b) {nonce : Nat}
    (hrun : Journal.incrementNonce store address j = .ok nonce j') : j'.HasBalances store b := by
  obtain ⟨o, j₁, hupdate, hrun⟩ := bind_eq_ok hrun
  cases hrun
  exact h.update_id Overlay.pays_incrementNonce hupdate

theorem incrementBalance (h : j.HasBalances store b) {amount before : Word}
    (hrun : Journal.incrementBalance store address amount j = .ok before j') :
    j'.HasBalances store (b.raise address amount) := by
  obtain ⟨o, j₁, hupdate, hrun⟩ := bind_eq_ok hrun
  cases hrun
  exact (h.update (Overlay.pays_incrementBalance amount) hupdate).2

theorem decrementBalance (h : j.HasBalances store b) {amount before : Word}
    (hrun : Journal.decrementBalance store address amount j = .ok before j') :
    j'.HasBalances store (b.lower address amount) := by
  obtain ⟨o, j₁, hupdate, hrun⟩ := bind_eq_ok hrun
  cases hrun
  exact (h.update (Overlay.pays_decrementBalance amount) hupdate).2

/-- **A transfer.** -/
theorem transfer (h : j.HasBalances store b) {source target : Address} {value : Word}
    (hrun : Journal.transfer store source target value j = .ok () j') :
    j'.HasBalances store (b.transfer source target value) := by
  obtain ⟨_, j₁, hcreate, hrun⟩ := bind_eq_ok hrun
  have h₁ := h.getOrCreate hcreate
  rw [Balances.transfer]
  by_cases hst : source = target
  · rw [if_pos hst] at hrun ⊢
    cases hrun
    exact h₁
  · rw [if_neg hst] at hrun ⊢
    obtain ⟨_, j₂, hlower, hrun⟩ := bind_eq_ok hrun
    obtain ⟨_, j₃, hraise, hrun⟩ := bind_eq_ok hrun
    cases hrun
    exact (h₁.decrementBalance hlower).incrementBalance hraise

/-- **A deletion** leaves nothing. -/
theorem deleteAccount (h : j.HasBalances store b)
    (hrun : Journal.deleteAccount address j = .ok () j') :
    j'.HasBalances store (Function.update b address 0) := by
  cases hrun
  obtain ⟨hscope, hparents⟩ := List.forall_mem_cons.mp h.regular
  refine ⟨List.forall_mem_cons.mpr ⟨hscope.delete address, hparents⟩, fun a => ?_⟩
  rw [balance, find?_delete, Function.update_apply]
  split
  · rfl
  · exact h.balance_eq a

theorem forM_getOrCreate (h : j.HasBalances store b) {l : List Address}
    (hrun : l.forM (Journal.getOrCreate store) j = .ok () j') : j'.HasBalances store b := by
  induction l generalizing j with
  | nil =>
    cases hrun
    exact h
  | cons address l ih =>
    obtain ⟨_, j₁, hcreate, hrun⟩ := bind_eq_ok hrun
    exact ih (h.getOrCreate hcreate) hrun

/-! ### Scopes -/

theorem enter (h : j.HasBalances store b) : j.enter.HasBalances store b where
  regular := List.forall_mem_cons.mpr ⟨Scope.regular_empty, h.regular⟩
  balance_eq address := by
    rw [balance, find?_enter]
    exact h.balance_eq address

/-- **A scope that is merged** into the one around it takes its balances along. -/
theorem merge {inner : Journal} (h : inner.HasBalances store b) (hinner : j.enter.Inner inner) :
    HasBalances store { j with scope := j.scope.merge inner.scope } b := by
  obtain ⟨hregular, hfind⟩ := Regular.merge h.regular hinner
  refine ⟨hregular, fun address => ?_⟩
  rw [balance, hfind]
  exact h.balance_eq address

end HasBalances
end Journal
end Ethereum
