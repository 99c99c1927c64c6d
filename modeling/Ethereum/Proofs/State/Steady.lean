/-
# Changes that move nothing

A journal is steady from one point to another if it finds the same accounts, but for new ones
that have nothing (`Journal.Steady`).  Touching an account keeps it steady, and so does a
transfer of no value or of an account to itself (`Journal.Steady.of_transfer`).  Then all that is
read of accounts stays the same (`Journal.Steady.readsAs`).

What is found at an address is an account of that address only in regular journals, and all
changes keep journals regular (`Journal.RegularTo`).  That is one of the relations that hold between
a journal and what changes of single accounts make of it (`Journal.ThroughUpdates`); some hold only
where no code is set (`Journal.ThroughMildUpdates`).
-/

import Mathlib
import Ethereum.Proofs.State.Balances

namespace Ethereum

theorem Word.satAdd_zero (w : Word) : Word.satAdd w 0 = w := by
  have hlt := w.isLt
  have hzero : (0 : Word).toNat = 0 := rfl
  rw [satAdd_eq, hzero, Nat.add_zero, min_eq_left (by omega), BitVec.ofNat_toNat,
    BitVec.setWidth_eq]

theorem Word.satSub_zero (w : Word) : Word.satSub w 0 = w := by
  have hzero : (0 : Word).toNat = 0 := rfl
  rw [satSub_eq, hzero, Nat.sub_zero, BitVec.ofNat_toNat, BitVec.setWidth_eq]

namespace Overlay

theorem incrementBalance_zero : incrementBalance 0 = id := by
  funext o
  rw [incrementBalance, Word.satAdd_zero]
  rfl

theorem decrementBalance_zero : decrementBalance 0 = id := by
  funext o
  rw [decrementBalance, Word.satSub_zero]
  rfl

/-- A change of overlays that leaves their code, and lowers no nonce that can be written. -/
structure Mild (change : Overlay → Overlay) : Prop where
  newCode_eq : ∀ o, (change o).newCode = o.newCode
  codeHash_eq : ∀ o, (change o).codeHash = o.codeHash
  nonce_le : ∀ o : Overlay, o.nonce ≤ Quantity.max → o.nonce ≤ (change o).nonce

theorem mild_id : Mild id := ⟨fun _ => rfl, fun _ => rfl, fun _ _ => le_rfl⟩

theorem mild_setSlot (key value : Word) : Mild (setSlot key value) :=
  ⟨fun _ => rfl, fun _ => rfl, fun _ _ => le_rfl⟩

theorem mild_incrementBalance (amount : Word) : Mild (incrementBalance amount) :=
  ⟨fun _ => rfl, fun _ => rfl, fun _ _ => le_rfl⟩

theorem mild_decrementBalance (amount : Word) : Mild (decrementBalance amount) :=
  ⟨fun _ => rfl, fun _ => rfl, fun _ _ => le_rfl⟩

theorem mild_incrementNonce : Mild incrementNonce := by
  refine ⟨fun _ => rfl, fun _ => rfl, fun o ho => ?_⟩
  show o.nonce ≤ Quantity.satAdd o.nonce 1
  rw [Quantity.satAdd]
  omega

end Overlay

namespace Journal

variable {store : Store} {j j' j'' : Journal} {address : Address}

/-! ## What changes of accounts preserve -/

/-- The relation holds between a journal and what any change of one account makes of it. -/
def ThroughUpdates (store : Store) (R : Journal → Journal → Prop) : Prop :=
  ∀ (address : Address) (change : Overlay → Overlay) (f : Word → Word), Overlay.Pays change f →
    Leads R (update store address change)

/-- The relation holds between a journal and what any mild change of one account makes of it. -/
def ThroughMildUpdates (store : Store) (R : Journal → Journal → Prop) : Prop :=
  ∀ (address : Address) (change : Overlay → Overlay) (f : Word → Word), Overlay.Pays change f →
    Overlay.Mild change → Leads R (update store address change)

/-- Changes of accounts stay in the innermost scope. -/
theorem inner_throughUpdates (store : Store) : ThroughUpdates store Inner :=
  fun address change _ _ => inner_update store address change

section
variable {R : Journal → Journal → Prop} [Std.Refl R] [IsTrans Journal R]

omit [Std.Refl R] [IsTrans Journal R] in
theorem ThroughUpdates.mild (h : ThroughUpdates store R) : ThroughMildUpdates store R :=
  fun address change f hpays _ => h address change f hpays

theorem ThroughUpdates.setCode (h : ThroughUpdates store R) (address : Address) (code : Bytes) :
    Leads R (setCode store address code) :=
  (h _ _ _ (Overlay.pays_setCode code)).bind fun _ => leads_pure _

namespace ThroughMildUpdates

variable (h : ThroughMildUpdates store R)
include h

theorem getOrCreate (address : Address) : Leads R (getOrCreate store address) :=
  (h _ _ _ Overlay.pays_id Overlay.mild_id).bind fun _ => leads_pure _

theorem setSlot (address : Address) (key value : Word) :
    Leads R (setSlot store address key value) :=
  (h _ _ _ (Overlay.pays_setSlot key value) (Overlay.mild_setSlot key value)).bind fun _ =>
    leads_pure _

theorem incrementNonce (address : Address) : Leads R (incrementNonce store address) :=
  (h _ _ _ Overlay.pays_incrementNonce Overlay.mild_incrementNonce).bind fun _ => leads_pure _

theorem incrementBalance (address : Address) (amount : Word) :
    Leads R (incrementBalance store address amount) :=
  (h _ _ _ (Overlay.pays_incrementBalance amount) (Overlay.mild_incrementBalance amount)).bind
    fun _ => leads_pure _

theorem decrementBalance (address : Address) (amount : Word) :
    Leads R (decrementBalance store address amount) :=
  (h _ _ _ (Overlay.pays_decrementBalance amount) (Overlay.mild_decrementBalance amount)).bind
    fun _ => leads_pure _

theorem transfer (source target : Address) (value : Word) :
    Leads R (transfer store source target value) := by
  refine (h.getOrCreate _).bind fun _ => ?_
  split
  · exact leads_pure _
  · exact (h.decrementBalance _ _).bind fun _ => (h.incrementBalance _ _).bind fun _ => leads_pure _

theorem forM_getOrCreate (l : List Address) :
    Leads R (l.forM (Journal.getOrCreate store)) := by
  induction l with
  | nil => exact leads_pure _
  | cons address l ih => exact (h.getOrCreate address).bind fun _ => ih

end ThroughMildUpdates
end

/-! ## Changes keep journals regular -/

theorem regular_ofWorld (w : World) : (ofWorld w).Regular :=
  List.forall_mem_singleton.mpr Scope.regular_empty

theorem Regular.enter (h : j.Regular) : j.enter.Regular :=
  List.forall_mem_cons.mpr ⟨Scope.regular_empty, h⟩

theorem Regular.revert (h : j.Regular) : j.revert.Regular := by
  obtain ⟨-, hparents⟩ := List.forall_mem_cons.mp h
  rw [Journal.revert]
  split
  · exact List.forall_mem_cons.mpr ⟨Scope.regular_empty, hparents⟩
  · rename_i heq
    rwa [heq] at hparents

/-- The second journal is regular if the first one is. -/
def RegularTo (j j' : Journal) : Prop := j.Regular → j'.Regular

instance : Std.Refl RegularTo := ⟨fun _ => id⟩

instance : IsTrans Journal RegularTo := ⟨fun _ _ _ h h' => h' ∘ h⟩

/-- An account that is found or created lies at its address. -/
theorem Regular.liesAt_of_findOrFresh (h : j.Regular) {o : Overlay}
    (ho : j.findOrFresh store address = .ok o) : o.LiesAt address := by
  obtain ⟨found, hfound, ho⟩ := exists_of_bind_eq_ok ho
  cases found with
  | none =>
    cases ho
    exact ⟨rfl, Nat.zero_le _⟩
  | some o' =>
    cases ho
    exact h.liesAt_of_find? hfound

/-- **A change of an account** leads along a relation between a journal and the changed account put
into it. -/
theorem leads_update {R : Journal → Journal → Prop} [Std.Refl R] {change : Overlay → Overlay}
    (h : ∀ j o, j.findOrFresh store address = .ok o → R j (j.put (change o))) :
    Leads R (update store address change) := by
  intro j
  rw [Ends, update_run]
  cases hfound : j.findOrFresh store address with
  | ok o => exact h j o hfound
  | error e => exact refl j

/-- **Changing an account** keeps journals regular. -/
theorem regular_update (store : Store) : ThroughUpdates store RegularTo :=
  fun _ _ _ hchange => leads_update fun _ _ hfound h =>
    h.put (hchange.liesAt (h.liesAt_of_findOrFresh hfound))

section
variable (store : Store) (address : Address)

theorem regular_getOrCreate : Leads RegularTo (getOrCreate store address) :=
  (regular_update store).mild.getOrCreate address

theorem regular_incrementNonce : Leads RegularTo (incrementNonce store address) :=
  (regular_update store).mild.incrementNonce address

theorem regular_decrementBalance (amount : Word) :
    Leads RegularTo (decrementBalance store address amount) :=
  (regular_update store).mild.decrementBalance address amount

/-- Committing a scope keeps journals regular. -/
theorem regular_commit : Leads RegularTo (commit store) := by
  intro j
  rw [Ends, commit]
  cases hparents : j.parents with
  | nil =>
    dsimp only
    cases World.applyScope store j.scope j.world with
    | ok _ w => exact fun _ => regular_ofWorld w
    | error e w => exact fun _ => regular_ofWorld w
  | cons s rest =>
    intro h
    obtain ⟨hscope, hrest⟩ := List.forall_mem_cons.mp h
    rw [hparents] at hrest
    obtain ⟨hs, hrest⟩ := List.forall_mem_cons.mp hrest
    exact List.forall_mem_cons.mpr ⟨hs.merge hscope, hrest⟩

end

/-! ## Steady journals -/

/-- The second journal finds the same accounts as the first one, or new ones that have nothing
where that one finds none. -/
structure Steady (store : Store) (j j' : Journal) : Prop where
  world_eq : j'.world = j.world
  find?_cases : ∀ address, j'.find? store address = j.find? store address ∨
    j.find? store address = .ok none ∧
      j'.find? store address = .ok (some (.fresh address 0 0))

namespace Steady

theorem refl (store : Store) (j : Journal) : j.Steady store j := ⟨rfl, fun _ => .inl rfl⟩

theorem trans (h : j.Steady store j') (h' : j'.Steady store j'') : j.Steady store j'' := by
  refine ⟨h'.world_eq.trans h.world_eq, fun address => ?_⟩
  rcases h.find?_cases address with heq | ⟨hnone, hfresh⟩
  · rw [← heq]
    exact h'.find?_cases address
  · rcases h'.find?_cases address with heq | ⟨hnone', -⟩
    · exact .inr ⟨hnone, heq.trans hfresh⟩
    · cases hnone'.symm.trans hfresh

theorem enter (store : Store) (j : Journal) : j.Steady store j.enter :=
  ⟨rfl, fun address => .inl (find?_enter j address)⟩

/-- A scope that is merged is found as before. -/
theorem merge {inner : Journal} (hinner : j.enter.Inner inner) (hregular : inner.Regular) :
    inner.Steady store { j with scope := j.scope.merge inner.scope } := by
  obtain ⟨hworld, hparents⟩ := hinner
  have hsame : inner = { j with scope := inner.scope, parents := j.scope :: j.parents } := by
    cases inner
    cases hworld
    cases hparents
    rfl
  refine ⟨hworld.symm, fun address => .inl ?_⟩
  rw [find?_merge (hregular _ List.mem_cons_self), ← hsame]

/-- **Touching an account** moves nothing. -/
theorem of_update (hj : j.Regular) {o : Overlay} (h : update store address id j = .ok o j') :
    j.Steady store j' := by
  obtain ⟨hfound, rfl⟩ := update_eq_ok h
  refine ⟨rfl, fun a => ?_⟩
  rw [id, find?_put, (hj.liesAt_of_findOrFresh hfound).address_eq]
  by_cases ha : a = address
  · rw [if_pos ha, ha]
    obtain ⟨found, hfind, hfound⟩ := exists_of_bind_eq_ok hfound
    rw [hfind]
    cases found with
    | none =>
      cases hfound
      exact .inr ⟨rfl, rfl⟩
    | some o' =>
      cases hfound
      exact .inl rfl
  · rw [if_neg ha]
    exact .inl rfl

theorem of_getOrCreate (hj : j.Regular) (h : getOrCreate store address j = .ok () j') :
    j.Steady store j' := by
  obtain ⟨o, j₁, hupdate, h⟩ := bind_eq_ok h
  cases h
  exact of_update hj hupdate

theorem of_forM_getOrCreate {l : List Address} (hj : j.Regular)
    (h : l.forM (getOrCreate store) j = .ok () j') : j.Steady store j' := by
  induction l generalizing j with
  | nil =>
    cases h
    exact refl store _
  | cons address l ih =>
    obtain ⟨_, j₁, hcreate, h⟩ := bind_eq_ok h
    exact (of_getOrCreate hj hcreate).trans
      (ih ((regular_getOrCreate store address _).of_ok hcreate hj) h)

/-- **A transfer that moves nothing**: of no value, or of an account to itself. -/
theorem of_transfer (hj : j.Regular) {source target : Address} {value : Word}
    (hnothing : value = 0 ∨ source = target)
    (h : transfer store source target value j = .ok () j') : j.Steady store j' := by
  obtain ⟨_, j₁, hcreate, h⟩ := bind_eq_ok h
  have h₁ := of_getOrCreate hj hcreate
  have hj₁ := (regular_getOrCreate store target _).of_ok hcreate hj
  by_cases hst : source = target
  · rw [if_pos hst] at h
    cases h
    exact h₁
  · rw [if_neg hst] at h
    obtain rfl := hnothing.resolve_right hst
    obtain ⟨_, j₂, hlower, h⟩ := bind_eq_ok h
    obtain ⟨_, j₃, hraise, h⟩ := bind_eq_ok h
    cases h
    have hj₂ := (regular_decrementBalance store source 0 _).of_ok hlower hj₁
    obtain ⟨_, _, hlower, hpure⟩ := bind_eq_ok hlower
    cases hpure
    obtain ⟨_, _, hraise, hpure⟩ := bind_eq_ok hraise
    cases hpure
    rw [Overlay.decrementBalance_zero] at hlower
    rw [Overlay.incrementBalance_zero] at hraise
    exact (h₁.trans (of_update hj₁ hlower)).trans (of_update hj₂ hraise)

end Steady

/-! ## What is read -/

/-- An account has the same in both journals: its balance, its code and its slots. -/
structure SameHoldings (store : Store) (j j' : Journal) (address : Address) : Prop where
  balance_eq : j'.balance store address = j.balance store address
  code_eq : j'.code store address = j.code store address
  slot_eq : ∀ key, j'.slot store address key = j.slot store address key

/-- All that is read of accounts in the first journal is read in the second, and accounts that
are there only in the second are empty. -/
structure ReadsAs (store : Store) (j j' : Journal) : Prop where
  holdings : ∀ address, j.SameHoldings store j' address
  nonce_eq : ∀ address, j'.nonce store address = j.nonce store address
  exists_of_exists : ∀ address, j.exists? store address = .ok true →
    j'.exists? store address = .ok true
  isEmpty_of_new : ∀ address, j.exists? store address = .ok false →
    j'.exists? store address = .ok true → j'.isEmpty store address = .ok true

/-- Where the same account is found over the same world, it has the same. -/
theorem SameHoldings.of_find?_eq (hworld : j'.world = j.world)
    (h : j'.find? store address = j.find? store address) : j.SameHoldings store j' address where
  balance_eq := by rw [balance, balance, h]
  code_eq := by rw [code, code, h, hworld]
  slot_eq key := by rw [slot, slot, h, hworld]

/-- **In a steady journal** all reads of accounts stay the same. -/
theorem Steady.readsAs (h : j.Steady store j') : j.ReadsAs store j' where
  holdings address := by
    -- an account is found as before, or a fresh one where there was none
    rcases h.find?_cases address with heq | ⟨hnone, hfresh⟩
    · exact .of_find?_eq h.world_eq heq
    · refine ⟨?_, ?_, fun key => ?_⟩
      · rw [balance, balance, hnone, hfresh]
        rfl
      · rw [code, code, hnone, hfresh]
        rfl
      · rw [slot, slot, hnone, hfresh]
        rfl
  nonce_eq address := by
    rw [nonce, nonce]
    rcases h.find?_cases address with heq | ⟨hnone, hfresh⟩
    · rw [heq]
    · rw [hnone, hfresh]
      rfl
  exists_of_exists address hexists := by
    rw [exists?] at hexists ⊢
    rcases h.find?_cases address with heq | ⟨hnone, hfresh⟩
    · rwa [heq]
    · rw [hfresh]
      rfl
  isEmpty_of_new address hnew hexists := by
    rw [exists?] at hnew hexists
    rw [isEmpty]
    rcases h.find?_cases address with heq | ⟨hnone, hfresh⟩
    · rw [heq, hnew] at hexists
      cases hexists
    · rw [hfresh]
      rfl

end Journal
end Ethereum
