/-
# A journal tracks snapshots

A journal over a world that holds the accounts of a model tracks the model, if its
scopes show what the model has saved (`Journal.Tracks`).  The account that it finds
at an address renders the one of the model (`Tracks.find?_cases`), and every change
of the journal is the same change of the model.

What an edit does to an overlay is what it does to plain data (`Overlay.Does`).
-/

import Mathlib
import Ethereum.Proofs.State.Applying
import Ethereum.Proofs.State.Changing
import Ethereum.Proofs.State.Snapshots

namespace Ethereum

theorem Word.satAdd_eq (a b : Word) :
    satAdd a b = .ofNat 256 (min (a.toNat + b.toNat) (2 ^ 256 - 1)) := by
  have hmax : max.toNat = 2 ^ 256 - 1 := BitVec.toNat_allOnes
  rw [satAdd, checkedAdd, ofNat?, hmax]
  by_cases h : a.toNat + b.toNat ≤ 2 ^ 256 - 1
  · rw [if_pos h, Option.getD_some, Nat.min_eq_left h]
  · rw [if_neg h, Option.getD_none, Nat.min_eq_right (by omega)]
    rfl

theorem Word.satSub_eq (a b : Word) : satSub a b = .ofNat 256 (a.toNat - b.toNat) := by
  rw [satSub]
  by_cases h : b ≤ a
  · rw [if_pos h]
    apply BitVec.eq_of_toNat_eq
    have ha := a.isLt
    rw [BitVec.toNat_sub_of_le h, BitVec.toNat_ofNat, Nat.mod_eq_of_lt (by omega)]
  · have hzero : a.toNat - b.toNat = 0 := by
      rw [BitVec.le_def] at h
      omega
    rw [if_neg h, hzero]
    rfl

theorem Quantity.toNat_le_max (n : UInt64) : n.toNat ≤ Quantity.max :=
  Nat.le_of_lt_succ n.toNat_lt

/-! ## Edits of overlays -/

namespace Overlay

/-- A change of overlays that does `f` to what they show. -/
structure Does (data : List Bytes) (change : Overlay → Overlay) (f : Plain → Plain) : Prop where
  address_eq : ∀ o, (change o).address = o.address
  plain_eq : ∀ o under, (change o).plain under = f (o.plain under)
  sound : ∀ {record plains o}, o.Sound data record plains → (change o).Sound data record plains

variable {data : List Bytes}

theorem does_id : Does data id id := ⟨fun _ => rfl, fun _ _ => rfl, fun h => h⟩

theorem Does.comp {c d : Overlay → Overlay} {f g : Plain → Plain} (hc : Does data c f)
    (hd : Does data d g) : Does data (d ∘ c) (g ∘ f) where
  address_eq o := (hd.address_eq _).trans (hc.address_eq o)
  plain_eq o under := (hd.plain_eq _ under).trans (congrArg g (hc.plain_eq o under))
  sound h := hd.sound (hc.sound h)

theorem does_setNonce {n : Nat} (hn : n ≤ Quantity.max) :
    Does data (setNonce n) fun p => { p with nonce := n } :=
  ⟨fun _ => rfl, fun _ _ => rfl, fun h => { h with nonce_le := hn }⟩

theorem does_incrementNonce : Does data incrementNonce Plain.incrementNonce :=
  ⟨fun _ => rfl, fun _ _ => rfl, fun h => { h with nonce_le := Quantity.satAdd_le_max _ _ }⟩

theorem does_setBalance (amount : Word) :
    Does data (setBalance amount) fun p => { p with balance := amount } :=
  ⟨fun _ => rfl, fun _ _ => rfl, fun h => { h with }⟩

theorem does_incrementBalance (amount : Word) :
    Does data (incrementBalance amount) (Plain.incrementBalance amount) := by
  refine ⟨fun _ => rfl, ?_, fun h => { h with }⟩
  intro o under
  have hbalance := Word.satAdd_eq o.balance amount
  exact congrArg (fun b => Plain.mk o.nonce b (o.plainCode under) (o.plain under).slots) hbalance

theorem does_decrementBalance (amount : Word) :
    Does data (decrementBalance amount) (Plain.decrementBalance amount) := by
  refine ⟨fun _ => rfl, ?_, fun h => { h with }⟩
  intro o under
  have hbalance := Word.satSub_eq o.balance amount
  exact congrArg (fun b => Plain.mk o.nonce b (o.plainCode under) (o.plain under).slots) hbalance

theorem does_setCode {code : Bytes} (hcode : code ∈ data) :
    Does data (setCode code) fun p => { p with code } :=
  ⟨fun _ => rfl, fun o under => o.plain_setCode under code,
    fun h => { h with codeHash_eq := rfl, code_mem := hcode }⟩

theorem does_setSlot {key : Word} (hkey : Word.toBytes key ∈ data) (value : Word) :
    Does data (setSlot key value) (Plain.setSlot key value) := by
  refine ⟨fun _ => rfl, fun o under => o.plain_setSlot under key value, fun {_ _ o} h =>
    { h with slots_mem := fun k v hk => ?_ }⟩
  change (o.slots.insert key value)[k]? = some v at hk
  rw [Std.ExtTreeMap.getElem?_insert] at hk
  split at hk
  · rename_i heq
    exact Std.compare_eq_iff_eq.mp heq ▸ hkey
  · exact h.slots_mem k v hk

theorem does_clearStorage : Does data clearStorage fun p => { p with slots := fun _ => 0 } := by
  refine ⟨fun _ => rfl, fun o under => o.plain_clearStorage under, fun {_ _ o} h =>
    { h with slots_mem := fun k v hk => ?_ }⟩
  change (∅ : Std.ExtTreeMap Word Word)[k]? = some v at hk
  rw [Std.ExtTreeMap.getElem?_empty] at hk
  contradiction

/-- **An edit** does to an overlay what it does to plain data. -/
theorem does_edit {e : Edit} (he : e.hashed ⊆ data) : Does data e.overlay e.plain := by
  cases e with
  | setNonce n => exact does_setNonce (Quantity.toNat_le_max n)
  | incrementNonce => exact does_incrementNonce
  | setBalance amount => exact does_setBalance amount
  | incrementBalance amount => exact does_incrementBalance amount
  | decrementBalance amount => exact does_decrementBalance amount
  | setCode code => exact does_setCode (he List.mem_cons_self)
  | setSlot key value => exact does_setSlot (he List.mem_cons_self) value
  | clearStorage => exact does_clearStorage

theorem does_edits {edits : List Edit} (hedits : edits.flatMap Edit.hashed ⊆ data) :
    Does data (fun o => edits.foldl (fun o e => e.overlay o) o)
      fun p => edits.foldl (fun p e => e.plain p) p := by
  induction edits with
  | nil => exact does_id
  | cons e edits ih =>
    rw [List.flatMap_cons, List.append_subset] at hedits
    exact (does_edit hedits.1).comp (ih hedits.2)

/-- The overlay shows the account `p` of an address. -/
structure Renders (data : List Bytes) (record : Address → Option Account) (plains : Plains)
    (address : Address) (o : Overlay) (p : Plain) : Prop where
  address_eq : o.address = address
  sound : o.Sound data record plains
  plain_eq : o.plain (plains address) = p

variable {record : Address → Option Account} {plains : Plains} {address : Address} {o : Overlay}
  {p : Plain}

theorem Renders.change (h : o.Renders data record plains address p) {change : Overlay → Overlay}
    {f : Plain → Plain} (hc : Does data change f) :
    (change o).Renders data record plains address (f p) where
  address_eq := (hc.address_eq o).trans h.address_eq
  sound := hc.sound h.sound
  plain_eq := by rw [hc.plain_eq, h.plain_eq]

theorem renders_fresh (hd : Apart data) (haddress : Address.toBytes address ∈ data) {nonce : Nat}
    (hnonce : nonce ≤ Quantity.max) (balance : Word) :
    (fresh address nonce balance).Renders data record plains address (.fresh nonce balance) where
  address_eq := rfl
  sound := {
    address_mem := haddress
    base_eq := nofun
    nonce_le := hnonce
    codeHash_eq := keccak_nil.symm
    code_mem := hd.nil_mem
    slots_mem := fun key value h => by
      rw [fresh, Std.ExtTreeMap.getElem?_empty] at h
      contradiction }
  plain_eq := plain_fresh _ _ _ _

/-- The account of a world renders itself. -/
theorem renders_ofAccount {store : Store} {log : List (Hash × Bytes)} {w : World} {a : Account}
    (haddress : Address.toBytes address ∈ data) (hrecord : record address = some a)
    (hplain : plains address = some p) (haddr : a.address = address)
    (h : w.Shows data store log a p) :
    (ofAccount a).Renders data record plains address p where
  address_eq := haddr
  sound := {
    address_mem := by
      change Address.toBytes a.address ∈ data
      rwa [haddr]
    base_eq := fun b hb => by
      change record a.address = some b
      rw [haddr, hrecord]
      exact hb
    nonce_le := h.nonce_eq.trans_le h.nonce_le
    codeHash_eq := by
      change a.codeHash = keccak (((plains a.address).map Plain.code).getD [])
      rw [haddr, hplain, h.codeHash_eq]
      rfl
    code_mem := by
      change ((plains a.address).map Plain.code).getD [] ∈ data
      rw [haddr, hplain]
      exact h.code_mem
    slots_mem := fun key value hkey => by
      rw [ofAccount, Std.ExtTreeMap.getElem?_empty] at hkey
      contradiction }
  plain_eq := by
    rw [hplain, plain_ofAccount, h.nonce_eq, h.balance_eq]

end Overlay

/-! ## Journals -/

namespace Journal

/-- A journal over a store tracks a model. -/
structure Tracks (data : List Bytes) (store : Store) (log : List (Hash × Bytes))
    (record : Address → Option Account) (j : Journal) (m : Snapshots) : Prop where
  holds : j.world.Holds data store log record m.world
  scopes : ∀ s ∈ j.scope :: j.parents, s.Sound data record m.world
  views_eq : views m.world (j.scope :: j.parents) = m.current :: m.saved

variable {data : List Bytes} {store : Store} {log : List (Hash × Bytes)}
  {record : Address → Option Account} {j : Journal} {m : Snapshots} {address : Address}

/-- A journal without changes tracks the accounts of its world. -/
theorem tracks_ofWorld {w : World} {plains : Plains} (h : w.Holds data store log record plains) :
    (ofWorld w).Tracks data store log record ⟨plains, [], plains⟩ where
  holds := h
  scopes s hs := by
    rw [List.mem_singleton.mp hs]
    exact Scope.sound_empty
  views_eq := by
    change [Scope.empty.view plains plains] = [plains]
    rw [Scope.view_empty]

theorem find?_ofWorld (w : World) (address : Address) :
    (ofWorld w).find? store address =
      (w.account? store address).map fun found => found.map Overlay.ofAccount := by
  rw [find?, ofWorld, List.findSome?_singleton, Scope.lookup_empty]
  cases w.account? store address <;> rfl

theorem find?_empty (store : Store) (address : Address) :
    (ofWorld .empty).find? store address = .ok none := by
  rw [find?_ofWorld, World.account?_empty]
  rfl

namespace Tracks

theorem scope (h : j.Tracks data store log record m) : j.scope.Sound data record m.world :=
  h.scopes j.scope List.mem_cons_self

/-- What the innermost scope shows. -/
theorem current_eq (h : j.Tracks data store log record m) (address : Address) :
    m.current address = match (j.scope :: j.parents).findSome? (·.lookup address) with
      | none => m.world address
      | some none => none
      | some (some o) => some (o.plain (m.world address)) := by
  have hhead := headD_views m.world (j.scope :: j.parents) address
  rw [h.views_eq, List.headD_cons] at hhead
  exact hhead

/-- **Finding an account.**  The journal finds one where the model has one, and the
overlay renders it. -/
theorem find?_cases (h : j.Tracks data store log record m)
    (haddress : Address.toBytes address ∈ data) :
    j.find? store address = .ok none ∧ m.current address = none ∨
      ∃ o p, j.find? store address = .ok (some o) ∧ m.current address = some p ∧
        o.Renders data record m.world address p := by
  have hcurrent := h.current_eq address
  rw [find?]
  cases hfound : (j.scope :: j.parents).findSome? (·.lookup address) with
  | none =>
    rw [hfound] at hcurrent
    simp only [h.holds.account?_eq haddress]
    rcases h.holds.cases haddress with ⟨hrecord, hplain⟩ | ⟨a, p, hrecord, hplain, haddr, hshow⟩
    · rw [hrecord]
      exact .inl ⟨rfl, hcurrent.trans hplain⟩
    · have hrenders := Overlay.renders_ofAccount haddress hrecord hplain haddr hshow
      rw [hrecord]
      exact .inr ⟨_, p, rfl, hcurrent.trans hplain, hrenders⟩
  | some found =>
    rw [hfound] at hcurrent
    obtain ⟨s, hs, hlookup⟩ := List.exists_of_findSome?_eq_some hfound
    cases found with
    | none => exact .inl ⟨rfl, hcurrent⟩
    | some o =>
      obtain ⟨haddr, hsound⟩ := (h.scopes s hs).updated address o hlookup
      exact .inr ⟨o, _, rfl, hcurrent, haddr, hsound, rfl⟩

theorem findOrFresh_eq (h : j.Tracks data store log record m)
    (haddress : Address.toBytes address ∈ data) :
    ∃ o, j.findOrFresh store address = .ok o ∧
      o.Renders data record m.world address (m.findOrFresh address) := by
  rw [findOrFresh, Snapshots.findOrFresh]
  rcases h.find?_cases haddress with ⟨hfind, hcurrent⟩ | ⟨o, p, hfind, hcurrent, ho⟩
  · rw [hfind, hcurrent]
    exact ⟨_, rfl, Overlay.renders_fresh h.holds.apart haddress (Nat.zero_le _) 0⟩
  · rw [hfind, hcurrent]
    exact ⟨o, rfl, ho⟩

/-! ### Changes -/

/-- A change of the innermost scope is one of what it shows. -/
theorem setScope (h : j.Tracks data store log record m) {s : Scope} {current : Plains}
    (hs : s.Sound data record m.world)
    (hview : ∀ below, j.scope.view m.world below = m.current → s.view m.world below = current) :
    { j with scope := s }.Tracks data store log record { m with current } := by
  have hviews := h.views_eq
  rw [views, List.cons.injEq] at hviews
  refine ⟨h.holds, ?_, ?_⟩
  · intro t ht
    rcases List.mem_cons.mp ht with rfl | ht
    · exact hs
    · exact h.scopes t (List.mem_cons_of_mem _ ht)
  · change views m.world (s :: j.parents) = current :: m.saved
    rw [views, List.cons.injEq]
    exact ⟨hview _ hviews.1, hviews.2⟩

/-- Putting an overlay puts the account that it shows. -/
theorem put (h : j.Tracks data store log record m) {o : Overlay} {p : Plain}
    (ho : o.Renders data record m.world address p) :
    (j.put o).Tracks data store log record (m.put address (some p)) := by
  refine h.setScope (h.scope.put ho.sound) ?_
  intro below hbelow
  rw [Scope.view_put, hbelow, ho.address_eq, ho.plain_eq]

theorem delete (h : j.Tracks data store log record m) (haddress : Address.toBytes address ∈ data) :
    { j with scope := j.scope.delete address }.Tracks data store log record
      (m.put address none) := by
  refine h.setScope (h.scope.delete haddress) ?_
  intro below hbelow
  rw [Scope.view_delete, hbelow]

/-- **Changing an account**, which is created if there is none. -/
theorem update (h : j.Tracks data store log record m) (haddress : Address.toBytes address ∈ data)
    {change : Overlay → Overlay} {f : Plain → Plain} (hc : Overlay.Does data change f) :
    ∃ o, Journal.update store address change j = .ok o (j.put (change o)) ∧
      o.Renders data record m.world address (m.findOrFresh address) ∧
      (j.put (change o)).Tracks data store log record (m.update address f) := by
  obtain ⟨o, hfind, ho⟩ := h.findOrFresh_eq haddress
  exact ⟨o, update_eq hfind change, ho, h.put (ho.change hc)⟩

/-- **Changing an account**, if there is one. -/
theorem update? (h : j.Tracks data store log record m) (haddress : Address.toBytes address ∈ data)
    {change : Overlay → Overlay} {f : Plain → Plain} (hc : Overlay.Does data change f) :
    Journal.update? store address change j = .ok none j ∧ m.current address = none ∨
      ∃ o p, Journal.update? store address change j = .ok (some o) (j.put (change o)) ∧
        m.current address = some p ∧
        (j.put (change o)).Tracks data store log record (m.put address (some (f p))) := by
  rcases h.find?_cases haddress with ⟨hfind, hcurrent⟩ | ⟨o, p, hfind, hcurrent, ho⟩
  · exact .inl ⟨by rw [update?_run, hfind], hcurrent⟩
  · exact .inr ⟨o, p, by rw [update?_run, hfind], hcurrent, h.put (ho.change hc)⟩

/-! ### Scopes -/

theorem enter (h : j.Tracks data store log record m) :
    j.enter.Tracks data store log record m.enter := by
  refine ⟨h.holds, ?_, ?_⟩
  · intro s hs
    rcases List.mem_cons.mp hs with rfl | hs
    · exact Scope.sound_empty
    · exact h.scopes s hs
  · change Scope.empty.view m.world ((views m.world (j.scope :: j.parents)).headD m.world) ::
      views m.world (j.scope :: j.parents) = m.current :: m.current :: m.saved
    rw [Scope.view_empty, h.views_eq, List.headD_cons]

theorem revert (h : j.Tracks data store log record m) :
    j.revert.Tracks data store log record m.revert := by
  have hviews := h.views_eq
  rw [views, List.cons.injEq] at hviews
  rw [Journal.revert, Snapshots.revert]
  cases hparents : j.parents with
  | nil =>
    rw [hparents] at hviews
    rw [← hviews.2]
    exact tracks_ofWorld h.holds
  | cons s rest =>
    have hsaved := hviews.2
    rw [hparents] at hsaved
    rw [← hsaved]
    refine ⟨h.holds, fun t ht => h.scopes t ?_, rfl⟩
    rw [hparents]
    exact List.mem_cons_of_mem _ ht

/-- **Committing** merges the innermost scope into the one around it, or writes it into
the world. -/
theorem commit (h : j.Tracks data store log record m) :
    ∃ j' record', Journal.commit store j = .ok () j' ∧
      j'.Tracks data store log record' m.commit := by
  have hviews := h.views_eq
  rw [views, List.cons.injEq] at hviews
  -- the outermost scope is written to the world; any other is merged into the one around it
  cases hparents : j.parents with
  | nil =>
    rw [hparents] at hviews
    obtain ⟨w, record', hrun, hholds⟩ := h.holds.applyScope h.scope
    refine ⟨.ofWorld w, record', ?_, ?_⟩
    · simp only [Journal.commit, hparents, hrun]
      rfl
    · rw [Snapshots.commit, ← hviews.2, ← hviews.1]
      exact tracks_ofWorld hholds
  | cons s rest =>
    have hs : s.Sound data record m.world := h.scopes s (by rw [hparents]; simp)
    obtain ⟨hcurrent, hsaved⟩ := hviews
    rw [hparents, views, List.headD_cons] at hcurrent
    rw [hparents, views] at hsaved
    rw [Snapshots.commit, ← hsaved]
    refine ⟨{ j with scope := s.merge j.scope, parents := rest }, record, ?_, h.holds, ?_, ?_⟩
    · simp only [Journal.commit, hparents]
    · intro t ht
      rcases List.mem_cons.mp ht with rfl | ht
      · exact hs.merge h.scope
      · refine h.scopes t (List.mem_cons_of_mem _ ?_)
        rw [hparents]
        exact List.mem_cons_of_mem _ ht
    · change views m.world (s.merge j.scope :: rest) = m.current :: views m.world rest
      rw [views, Scope.view_merge s h.scope.separate h.scope.keyed, hcurrent]

end Tracks
end Journal
end Ethereum
