/-
# Writing scopes into the world

A scope whose overlays lie over the accounts of a world (`Scope.Sound`) is written
into it without failing, and the world then holds what the scope showed
(`Holds.applyScope`).  One overlay changes one account (`Holds.applyOverlay`): its
storage first (`Holds.applyStorage`), then its code, then its record.
-/

import Mathlib
import Ethereum.Proofs.Programs
import Ethereum.Proofs.State.Holding

namespace Ethereum

/-! ## Overlays over a world -/

namespace Overlay

/-- An overlay lies over an account of the world with the given records and accounts,
and what it shows is among the data. -/
structure Sound (data : List Bytes) (record : Address → Option Account) (plains : Plains)
    (o : Overlay) : Prop where
  address_mem : Address.toBytes o.address ∈ data
  base_eq : ∀ a, o.base = some a → record o.address = some a
  nonce_le : o.nonce ≤ Quantity.max
  codeHash_eq : o.codeHash = keccak (o.plainCode (plains o.address))
  code_mem : o.plainCode (plains o.address) ∈ data
  slots_mem : ∀ key value, o.slots[key]? = some value → Word.toBytes key ∈ data

variable {data : List Bytes} {record record' : Address → Option Account} {plains plains' : Plains}
  {o : Overlay}

/-- Only the account at its own address matters to an overlay. -/
theorem Sound.congr (h : o.Sound data record plains)
    (hrecord : record' o.address = record o.address)
    (hplain : plains' o.address = plains o.address) : o.Sound data record' plains' where
  address_mem := h.address_mem
  base_eq a ha := hrecord.trans (h.base_eq a ha)
  nonce_le := h.nonce_le
  codeHash_eq := hplain ▸ h.codeHash_eq
  code_mem := hplain ▸ h.code_mem
  slots_mem := h.slots_mem

theorem plainCode_of_newCode {code : Bytes} (h : o.newCode = some code) (under : Option Plain) :
    o.plainCode under = code := by
  rw [plainCode, h]

theorem base_of_visibleBase {a : Account} (h : o.visibleBase = some a) : o.base = some a := by
  rw [visibleBase] at h
  split at h
  · contradiction
  · exact h

/-- The slots that an overlay shows are written over those below. -/
theorem slots_plain (o : Overlay) (under : Option Plain) : (o.plain under).slots =
    o.slots.toList.foldl (fun f x => Function.update f x.1 x.2) (o.underSlots under) := by
  funext key
  rw [foldl_toList_update]
  change (o.slots[key]?).getD (o.underSlots under key) = _
  cases o.slots[key]? <;> rfl

/-- The root of the storage that shows through where no slot was written. -/
def rootUnder (o : Overlay) : Hash :=
  match o.visibleBase with
  | some a => a.storageRoot
  | none => Node.emptyHash

/-- The account that an overlay leaves, given the root of its storage. -/
def toAccount (o : Overlay) (storageRoot : Hash) : Account where
  address := o.address
  nonce := o.nonce
  balance := o.balance
  storageRoot
  codeHash := o.codeHash

end Overlay

namespace World

/-- The world with the storage gone that an overlay hides. -/
def uncovered (w : World) (o : Overlay) : World :=
  match o.visibleBase with
  | some _ => w
  | none => { w with storages := w.storages.erase o.address }

/-- The world with the new code of an overlay. -/
def withCode (w : World) (o : Overlay) : World :=
  match o.newCode with
  | some code => if code.isEmpty then w else { w with codes := w.codes.insert o.codeHash code }
  | none => w

/-- Writes the slots of an overlay, if there are any, and gives the root of the storage. -/
def applyStorage (store : Store) (o : Overlay) : EStateM StateError World Hash :=
  if o.slots.isEmpty then pure o.rootUnder else applySlots store o o.rootUnder

/-- **An overlay is written** by its storage, its code and its record. -/
theorem applyOverlay_run (store : Store) (o : Overlay) (w : World) : applyOverlay store o w =
    match applyStorage store o (w.uncovered o) with
    | .ok root w' => updateAccounts
        (fun t => t.insert store.nodes (Hash.toBytes o.address.hash) (o.toAccount root).encode)
        (w'.withCode o)
    | .error e w' => .error e w' := by
  have hbind (p : EStateM StateError World Hash) {rest : Hash → EStateM StateError World Unit}
      (hrest : ∀ root w, rest root w = updateAccounts
        (fun t => t.insert store.nodes (Hash.toBytes o.address.hash) (o.toAccount root).encode)
        (w.withCode o)) (w : World) : (p >>= rest) w = match p w with
      | .ok root w' => updateAccounts
          (fun t => t.insert store.nodes (Hash.toBytes o.address.hash) (o.toAccount root).encode)
          (w'.withCode o)
      | .error e w' => .error e w' := by
    cases hp : p w with
    | error e w' => exact bind_eq_of_error hp
    | ok root w' => exact (bind_eq_of_ok hp).trans (hrest root w')
  rw [applyStorage, uncovered, Overlay.rootUnder]
  unfold applyOverlay
  cases o.visibleBase
  case' none => refine (bind_eq_of_ok rfl).trans ?_
  all_goals
    refine (bind_eq_of_ok rfl).trans ?_
    dsimp only
    split <;>
    · refine hbind _ (fun root w' => ?_) _
      rw [withCode]
      cases o.newCode with
      | none => rfl
      | some code => by_cases hempty : code.isEmpty <;> simp only [hempty] <;> rfl

theorem applyOverlay_eq {store : Store} {o : Overlay} {w w' : World} {root : Hash}
    (h : applyStorage store o (w.uncovered o) = .ok root w') :
    applyOverlay store o w = updateAccounts
      (fun t => t.insert store.nodes (Hash.toBytes o.address.hash) (o.toAccount root).encode)
      (w'.withCode o) := by
  rw [applyOverlay_run, h]

variable {data : List Bytes} {store : Store} {log : List (Hash × Bytes)} {w w' : World}
  {record : Address → Option Account} {plains : Plains} {o : Overlay}

theorem accounts_uncovered (w : World) (o : Overlay) : (w.uncovered o).accounts = w.accounts := by
  rw [uncovered]
  split <;> rfl

theorem codes_uncovered (w : World) (o : Overlay) : (w.uncovered o).codes = w.codes := by
  rw [uncovered]
  split <;> rfl

theorem storages_uncovered (w : World) (o : Overlay) {x : Address} (hx : x ≠ o.address) :
    (w.uncovered o).storages[x]? = w.storages[x]? := by
  rw [uncovered]
  split
  · rfl
  · change (w.storages.erase o.address)[x]? = _
    rw [Std.ExtTreeMap.getElem?_erase, if_neg]
    rw [Std.compare_eq_iff_eq]
    exact hx.symm

/-- The trie of slots that an overlay is written over. -/
theorem Holds.uncovered (h : w.Holds data store log record plains)
    (ho : o.Sound data record plains) :
    ((w.uncovered o).storages.getD o.address (.ofRoot o.rootUnder)).HasSlots data store.nodes log
        (o.underSlots (plains o.address)) ∧
      o.rootUnder = ((w.uncovered o).storages.getD o.address (.ofRoot o.rootUnder)).rootHash := by
  cases hbase : o.visibleBase with
  | none =>
    have hempty : (Trie.ofRoot Node.emptyHash) = .empty := if_pos rfl
    have hunder : o.underSlots (plains o.address) = fun _ => 0 := by
      funext key
      simp only [Overlay.underSlots, hbase]
    simp only [World.uncovered, Overlay.rootUnder, hbase, Std.ExtTreeMap.getD_erase_self, hempty,
      hunder]
    exact ⟨Trie.hasSlots_empty, Trie.rootHash_empty.symm⟩
  | some a =>
    have hrecord := ho.base_eq a (Overlay.base_of_visibleBase hbase)
    rcases h.cases ho.address_mem with ⟨hnone, -⟩ | ⟨b, p, hsome, hplain, haddr, hshow⟩
    · rw [hnone] at hrecord
      contradiction
    · obtain rfl : b = a := Option.some.inj (hsome.symm.trans hrecord)
      have hunder : o.underSlots (plains o.address) = p.slots := by
        funext key
        simp only [Overlay.underSlots, hbase, hplain, Option.map_some, Option.getD_some]
      simp only [World.uncovered, Overlay.rootUnder, hbase, hunder]
      rw [← haddr]
      exact ⟨hshow.slots, hshow.root_eq⟩

/-- **Writing the storage of an overlay.** -/
theorem Holds.applyStorage (h : w.Holds data store log record plains)
    (ho : o.Sound data record plains) :
    ∃ root w', applyStorage store o (w.uncovered o) = .ok root w' ∧
      w'.accounts = w.accounts ∧ w'.codes = w.codes ∧
      (∀ x, x ≠ o.address → w'.storages[x]? = w.storages[x]?) ∧
      (w'.storages.getD o.address (.ofRoot root)).HasSlots data store.nodes log
        (o.plain (plains o.address)).slots ∧
      root = (w'.storages.getD o.address (.ofRoot root)).rootHash := by
  obtain ⟨hhas, hroot⟩ := h.uncovered ho
  rw [World.applyStorage, Overlay.slots_plain]
  -- an overlay without slots leaves the root that is under it
  by_cases hslots : o.slots.isEmpty
  · have hnil : o.slots.toList = [] :=
      Std.ExtTreeMap.toList_eq_nil_iff.mpr (Std.ExtTreeMap.isEmpty_iff.mp hslots)
    refine ⟨o.rootUnder, w.uncovered o, ?_, w.accounts_uncovered o, w.codes_uncovered o,
      fun x hx => w.storages_uncovered o hx, ?_, hroot⟩
    · rw [if_pos hslots]
      rfl
    · rw [hnil]
      exact hhas
  · have hmem : ∀ x ∈ o.slots.toList, Word.toBytes x.1 ∈ data := fun x hx =>
      ho.slots_mem x.1 x.2 (Std.ExtTreeMap.mem_toList_iff_getElem?_eq_some.mp hx)
    obtain ⟨t, ht, hwritten⟩ := hhas.writeSlots h.apart.collisionless hmem
    refine ⟨t.rootHash, { w.uncovered o with
      storages := (w.uncovered o).storages.insert o.address t }, ?_, w.accounts_uncovered o,
      w.codes_uncovered o, ?_, ?_, ?_⟩
    · rw [if_neg hslots, applySlots]
      simp only [ht]
    · intro x hx
      change ((w.uncovered o).storages.insert o.address t)[x]? = _
      rw [Std.ExtTreeMap.getElem?_insert, if_neg, w.storages_uncovered o hx]
      rw [Std.compare_eq_iff_eq]
      exact hx.symm
    · rw [Std.ExtTreeMap.getD_insert_self]
      exact hwritten
    · rw [Std.ExtTreeMap.getD_insert_self]

theorem accounts_withCode (w : World) (o : Overlay) : (w.withCode o).accounts = w.accounts := by
  rw [withCode]
  repeat' split
  all_goals rfl

theorem storages_withCode (w : World) (o : Overlay) : (w.withCode o).storages = w.storages := by
  rw [withCode]
  repeat' split
  all_goals rfl

/-- The code under a hash with an overlay: its new code, if that is the hash, or what was
there. -/
theorem codes_withCode (w : World) (o : Overlay) (h : Hash) :
    (∃ code, code ≠ [] ∧ o.newCode = some code ∧ o.codeHash = h ∧
        (w.withCode o).codes[h]? = some code) ∨
      (∀ code, code ≠ [] → o.newCode = some code → o.codeHash ≠ h) ∧
        (w.withCode o).codes[h]? = w.codes[h]? := by
  rw [withCode]
  cases hcode : o.newCode with
  | none => exact .inr ⟨nofun, rfl⟩
  | some code =>
    by_cases hnil : code = []
    · refine .inr ⟨fun c hc heq => absurd (Option.some.inj heq ▸ hnil) hc, ?_⟩
      simp only [List.isEmpty_iff, hnil, if_true]
    · simp only [List.isEmpty_iff, hnil, if_false, Std.ExtTreeMap.getElem?_insert,
        Std.compare_eq_iff_eq]
      by_cases hh : o.codeHash = h
      · exact .inl ⟨code, hnil, rfl, hh, if_pos hh⟩
      · exact .inr ⟨fun _ _ _ => hh, if_neg hh⟩

/-- The code that a world has is under its hash, also with the code of an overlay. -/
theorem codes_sound_withCode (ho : o.Sound data record plains)
    (hcodes : ∀ h code, w.codes[h]? = some code → h = keccak code ∧ code ∈ data) (h : Hash)
    (code : Bytes) (hcode : (w.withCode o).codes[h]? = some code) :
    h = keccak code ∧ code ∈ data := by
  rcases w.codes_withCode o h with ⟨c, -, hnew, rfl, hc⟩ | ⟨-, hsame⟩
  · obtain rfl : c = code := Option.some.inj (hc.symm.trans hcode)
    rw [← Overlay.plainCode_of_newCode hnew (plains o.address)]
    exact ⟨ho.codeHash_eq, ho.code_mem⟩
  · exact hcodes h code (hsame ▸ hcode)

/-- The code that a world has stays with the code of an overlay. -/
theorem HasCode.withCode (hcol : Collisionless data) (ho : o.Sound data record plains)
    {code : Bytes} (hcode : code ∈ data) (h : w.HasCode store code) :
    (w.withCode o).HasCode store code := by
  rcases h with hnil | hnew | hkept
  · exact .inl hnil
  · rcases w.codes_withCode o (keccak code) with ⟨c, -, hset, hhash, hc⟩ | ⟨-, hsame⟩
    · have hplain := Overlay.plainCode_of_newCode hset (plains o.address)
      have heq : keccak c = keccak code := by rw [← hhash, ho.codeHash_eq, hplain]
      obtain rfl := hcol c (hplain ▸ ho.code_mem) code hcode heq
      exact .inr (.inl hc)
    · exact .inr (.inl (hsame.trans hnew))
  · exact .inr (.inr hkept)

/-- The code that an overlay shows can be read once it is written. -/
theorem Holds.hasCode_withCode (h : w.Holds data store log record plains)
    (ho : o.Sound data record plains) (hcodes : w'.codes = w.codes) :
    (w'.withCode o).HasCode store (o.plainCode (plains o.address)) := by
  cases hnew : o.newCode with
  | some code =>
    rw [Overlay.plainCode_of_newCode hnew]
    by_cases hnil : code = []
    · exact .inl hnil
    · refine .inr (.inl ?_)
      have hhash := ho.codeHash_eq
      rw [Overlay.plainCode_of_newCode hnew] at hhash
      simp only [withCode, hnew, List.isEmpty_iff, hnil, if_false]
      rw [← hhash, Std.ExtTreeMap.getElem?_insert_self]
  | none =>
    have hmem := ho.code_mem
    rw [Overlay.plainCode, hnew] at hmem ⊢
    cases hbase : o.base with
    | none => exact .inl rfl
    | some a =>
      rw [hbase] at hmem
      have hrecord := ho.base_eq a hbase
      rcases h.cases ho.address_mem with ⟨hnone, -⟩ | ⟨b, p, -, hplain, -, hshow⟩
      · rw [hnone] at hrecord
        contradiction
      · rw [hplain] at hmem ⊢
        refine HasCode.withCode h.apart.collisionless ho hmem ?_
        rw [HasCode, hcodes]
        exact hshow.hasCode

/-- **Writing an overlay** puts the account that it shows in the place of the one
below. -/
theorem Holds.applyOverlay (h : w.Holds data store log record plains)
    (ho : o.Sound data record plains) :
    ∃ w' a, applyOverlay store o w = .ok () w' ∧
      w'.Holds data store log (Function.update record o.address (some a))
        (Function.update plains o.address (some (o.plain (plains o.address)))) := by
  obtain ⟨root, w₁, hrun, haccounts, hcodes, hothers, hslots, hroot⟩ := h.applyStorage ho
  -- the record has the root of the slots that were written just before
  have hshow : Shows data store log (w₁.withCode o) (o.toAccount root)
      (o.plain (plains o.address)) := by
    refine ⟨rfl, rfl, ho.codeHash_eq, ho.nonce_le, ho.code_mem, h.hasCode_withCode ho hcodes,
      ?_, ?_⟩
    · rw [storageOf, storages_withCode]
      exact hslots
    · rw [storageOf, storages_withCode]
      exact hroot
  have hentry : (Trie.Change.put (Hash.toBytes o.address.hash) (o.toAccount root).encode).entry =
      some (o.toAccount root).encode := if_neg (o.toAccount root).encode_ne_nil
  obtain ⟨t, ht, hholds⟩ := h.update ho.address_mem (w₁.withCode o) (o.toAccount root) rfl
    hentry
    (fun v hv => by
      rw [← Option.some.inj (hentry.symm.trans hv)]
      exact Account.length_encode_lt ho.nonce_le)
    ((w₁.accounts_withCode o).trans haccounts)
    (fun x hx => by rw [storages_withCode, hothers x hx])
    (codes_sound_withCode ho (hcodes ▸ h.codes))
    (fun code hcode hhas => .withCode h.apart.collisionless ho hcode (by
      rw [HasCode, hcodes]
      exact hhas))
    (.some ⟨rfl, hshow⟩)
  refine ⟨_, o.toAccount root, ?_, hholds⟩
  rw [applyOverlay_eq hrun]
  exact updateAccounts_eq ht

end World

/-! ## Scopes over a world -/

namespace Scope

/-- A scope lies over the accounts of a world. -/
structure Sound (data : List Bytes) (record : Address → Option Account) (plains : Plains)
    (s : Scope) : Prop where
  separate : s.Separate
  deleted : ∀ address, s.lookup address = some none → Address.toBytes address ∈ data
  updated : ∀ (address : Address) (o : Overlay), s.lookup address = some (some o) →
    o.address = address ∧ o.Sound data record plains

variable {data : List Bytes} {record : Address → Option Account} {plains : Plains} {s c : Scope}
  {o : Overlay} {address : Address}

theorem Sound.keyed (h : s.Sound data record plains) : s.Keyed := by
  intro address o ho
  exact (h.updated address o (h.separate.lookup_of_updated ho)).1

theorem sound_empty : empty.Sound data record plains where
  separate := separate_empty
  deleted address h := by
    rw [lookup_empty] at h
    contradiction
  updated address o h := by
    rw [lookup_empty] at h
    contradiction

theorem Sound.put (h : s.Sound data record plains) (ho : o.Sound data record plains) :
    (s.put o).Sound data record plains := by
  refine ⟨h.separate.put o, ?_, ?_⟩
  · intro address haddr
    rw [lookup_put, Function.update_apply] at haddr
    split at haddr
    · simp at haddr
    · exact h.deleted address haddr
  · intro address p hp
    rw [lookup_put, Function.update_apply] at hp
    split at hp
    · rename_i haddr
      obtain rfl : o = p := by simpa using hp
      exact ⟨haddr.symm, ho⟩
    · exact h.updated address p hp

theorem Sound.delete (h : s.Sound data record plains) (haddress : Address.toBytes address ∈ data) :
    (s.delete address).Sound data record plains := by
  refine ⟨h.separate.delete address, ?_, ?_⟩
  · intro x hx
    rw [lookup_delete, Function.update_apply] at hx
    split at hx
    · rename_i hxa
      exact hxa ▸ haddress
    · exact h.deleted x hx
  · intro x p hp
    rw [lookup_delete, Function.update_apply] at hp
    split at hp
    · simp at hp
    · exact h.updated x p hp

theorem Sound.merge (h : s.Sound data record plains) (hc : c.Sound data record plains) :
    (s.merge c).Sound data record plains := by
  have hor : ∀ {address found}, (s.merge c).lookup address = some found →
      c.lookup address = some found ∨ s.lookup address = some found := by
    intro address found hfound
    rw [lookup_merge s hc.separate hc.keyed] at hfound
    rcases Option.or_eq_some_iff.mp hfound with hfound | ⟨-, hfound⟩
    · exact .inl hfound
    · exact .inr hfound
  refine ⟨h.separate.merge c, ?_, ?_⟩
  · intro address hnone
    exact (hor hnone).elim (hc.deleted address) (h.deleted address)
  · intro address o ho
    exact (hor ho).elim (hc.updated address o) (h.updated address o)

end Scope

namespace World

variable {data : List Bytes} {store : Store} {log : List (Hash × Bytes)} {w : World}
  {record : Address → Option Account} {plains : Plains} {s : Scope}

/-- **The deletions of a scope** are written first. -/
theorem Holds.deleteAll (h : w.Holds data store log record plains) {l : List Address}
    (hl : ∀ address ∈ l, Address.toBytes address ∈ data) :
    ∃ w', l.forM (World.deleteAccount store) w = .ok () w' ∧
      w'.Holds data store log (l.foldl (fun f x => Function.update f x none) record)
        (l.foldl (fun f x => Function.update f x none) plains) := by
  refine EStateM.exists_forM (fun (done : List Address) (w : World) => w.Holds data store log
    (done.foldl (fun f x => Function.update f x none) record)
    (done.foldl (fun f x => Function.update f x none) plains)) ?_ h
  intro done x rest heq w hw
  obtain ⟨w', hrun, hholds⟩ := hw.deleteAccount (hl x (heq ▸ by simp))
  refine ⟨w', hrun, ?_⟩
  rw [List.foldl_append, List.foldl_append]
  exact hholds

/-- **The overlays of a scope** are written one after the other.  Each finds the account
that it lies over, as no other has its address. -/
theorem Holds.applyAll {f : Address × Overlay → EStateM StateError World Unit}
    {record₀ : Address → Option Account} {plains₀ : Plains}
    (h : w.Holds data store log record plains) {l : List (Address × Overlay)}
    (hf : ∀ x ∈ l, f x = World.applyOverlay store x.2)
    (hkeys : l.Pairwise fun x y => x.1 ≠ y.1) (haddress : ∀ x ∈ l, x.2.address = x.1)
    (hsound : ∀ x ∈ l, x.2.Sound data record₀ plains₀)
    (hrecord : ∀ x ∈ l, record x.1 = record₀ x.1) (hplains : ∀ x ∈ l, plains x.1 = plains₀ x.1) :
    ∃ w' record', l.forM f w = .ok () w' ∧ w'.Holds data store log record'
      (l.foldl (fun g x => Function.update g x.1 (some (x.2.plain (plains₀ x.1)))) plains) := by
  suffices hforM : ∃ w', l.forM f w = .ok () w' ∧ ∃ record', (∀ address,
      (∀ x ∈ l, x.1 ≠ address) → record' address = record address) ∧
      w'.Holds data store log record'
        (l.foldl (fun g x => Function.update g x.1 (some (x.2.plain (plains₀ x.1)))) plains) by
    obtain ⟨w', hrun, record', -, hholds⟩ := hforM
    exact ⟨w', record', hrun, hholds⟩
  -- what was written so far changed no other address, so the rest finds what it was made for
  refine EStateM.exists_forM (fun (done : List (Address × Overlay)) (w : World) =>
    ∃ record', (∀ address, (∀ x ∈ done, x.1 ≠ address) → record' address = record address) ∧
      w.Holds data store log record' (done.foldl
        (fun g x => Function.update g x.1 (some (x.2.plain (plains₀ x.1)))) plains)) ?_
    ⟨record, fun _ _ => rfl, h⟩
  rintro done x rest heq w ⟨record', hsame, hw⟩
  have hx : x ∈ l := heq ▸ by simp
  have hne : ∀ y ∈ done, y.1 ≠ x.1 := by
    rw [heq, List.pairwise_append] at hkeys
    exact fun y hy => hkeys.2.2 y hy x List.mem_cons_self
  have hrec : record' x.2.address = record₀ x.2.address := by
    rw [haddress x hx, hsame x.1 hne, hrecord x hx]
  have hcur : (done.foldl (fun (g : Plains) x => Function.update g x.1
      (some (x.2.plain (plains₀ x.1)))) plains) x.2.address = plains₀ x.2.address := by
    rw [haddress x hx, foldl_update_of_ne hne, hplains x hx]
  obtain ⟨w', a, hrun, hholds⟩ := hw.applyOverlay ((hsound x hx).congr hrec hcur)
  rw [haddress x hx] at hcur hholds
  refine ⟨w', (congrFun (hf x hx) w).trans hrun, Function.update record' x.1 (some a), ?_,
    ?_⟩
  · intro address haddr
    have hax : address ≠ x.1 := fun hax => haddr x (by simp) hax.symm
    rw [Function.update_of_ne hax]
    exact hsame address fun y hy => haddr y (List.mem_append_left _ hy)
  · rw [List.foldl_append, List.foldl_cons, List.foldl_nil]
    rwa [hcur] at hholds

/-- **Writing a scope.**  It succeeds, and the world then holds what the scope showed. -/
theorem Holds.applyScope (h : w.Holds data store log record plains)
    (hs : s.Sound data record plains) :
    ∃ w' record', applyScope store s w = .ok () w' ∧
      w'.Holds data store log record' (s.view plains plains) := by
  -- deletions come first, and an address that was deleted is not updated as well
  obtain ⟨w₁, hdelete, h₁⟩ := h.deleteAll (l := s.deleted.toList) fun address haddress =>
    hs.deleted address (Scope.lookup_of_mem_deleted (Std.ExtTreeSet.mem_toList.mp haddress))
  have hfound : ∀ x ∈ s.updated.toList, s.updated[x.1]? = some x.2 := fun x hx =>
    Std.ExtTreeMap.mem_toList_iff_getElem?_eq_some.mp hx
  have hstays : ∀ x ∈ s.updated.toList, x.1 ∉ s.deleted := fun x hx hmem => by
    have hnone := hs.separate x.1 hmem
    rw [hfound x hx] at hnone
    contradiction
  obtain ⟨w', record', happly, h'⟩ := h₁.applyAll (l := s.updated.toList)
    (f := fun x => if s.deleted.contains x.1 then pure () else World.applyOverlay store x.2)
    (fun x hx => if_neg (mt Std.ExtTreeSet.contains_iff_mem.mp (hstays x hx)))
    (Std.ExtTreeMap.distinct_keys_toList.imp fun hne => by rwa [Std.compare_eq_iff_eq] at hne)
    (fun x hx => hs.keyed x.1 x.2 (hfound x hx))
    (fun x hx => (hs.updated x.1 x.2 (hs.separate.lookup_of_updated (hfound x hx))).2)
    (fun x hx => by rw [foldl_toList_const, if_neg (hstays x hx)])
    (fun x hx => by rw [foldl_toList_const, if_neg (hstays x hx)])
  refine ⟨w', record', ?_, ?_⟩
  · rw [World.applyScope]
    change EStateM.bind _ _ w = _
    rw [EStateM.bind, hdelete]
    exact happly
  · convert h' using 1
    funext address
    rw [foldl_toList_update, foldl_toList_const, Scope.view, Scope.lookup]
    by_cases hmem : address ∈ s.deleted
    · simp only [Std.ExtTreeSet.contains_iff_mem.mpr hmem, hs.separate address hmem, hmem, if_true]
    · have hcontains : s.deleted.contains address = false := by
        rwa [← Bool.not_eq_true, Std.ExtTreeSet.contains_iff_mem]
      simp only [hcontains, hmem, Bool.false_eq_true, if_false]
      cases s.updated[address]? <;> rfl

end World
end Ethereum
