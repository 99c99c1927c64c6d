/-
# The accounts that a world holds

A world over a store holds plain accounts (`World.Holds`): its trie of accounts has
the encoding of a record for each of them, and the record leads to the code and to
the trie of slots, in memory or in the store (`World.Shows`).  What is read of the
world is what it holds.

Nothing is said of addresses, keys and code that are not among the data: the world
knows them by their hashes only, and only the data are known to have hashes apart.

Persisting a world puts into the store what was in memory, and the same is held after
it (`Holds.persist`).
-/

import Mathlib
import Ethereum.Proofs.State.Backing
import Ethereum.Proofs.State.Records
import Ethereum.Proofs.State.View

namespace Ethereum
namespace World

/-- Code can be read: it is empty, new, or in the store. -/
def HasCode (store : Store) (w : World) (code : Bytes) : Prop :=
  code = [] ∨ w.codes[keccak code]? = some code ∨ store.Keeps code

/-- The record `a` of a world leads to the account `p`. -/
structure Shows (data : List Bytes) (store : Store) (log : List (Hash × Bytes)) (w : World)
    (a : Account) (p : Plain) : Prop where
  nonce_eq : a.nonce = p.nonce
  balance_eq : a.balance = p.balance
  codeHash_eq : a.codeHash = keccak p.code
  nonce_le : p.nonce ≤ Quantity.max
  code_mem : p.code ∈ data
  hasCode : w.HasCode store p.code
  slots : (w.storageOf a).HasSlots data store.nodes log p.slots
  root_eq : a.storageRoot = (w.storageOf a).rootHash

/-- The world over a store holds the accounts `plains` in the records `record`. -/
structure Holds (data : List Bytes) (store : Store) (log : List (Hash × Bytes)) (w : World)
    (record : Address → Option Account) (plains : Plains) : Prop where
  apart : Apart data
  backs : store.Backs data log
  accounts : w.accounts.HasHashed data store.nodes log Address.toBytes
    (Option.map Account.encode ∘ record)
  shows : ∀ address, Address.toBytes address ∈ data →
    Option.Rel (fun a p => a.address = address ∧ w.Shows data store log a p)
      (record address) (plains address)
  codes : ∀ h code, w.codes[h]? = some code → h = keccak code ∧ code ∈ data

variable {data : List Bytes} {store store' : Store} {log log' : List (Hash × Bytes)} {w w' : World}
  {record : Address → Option Account} {plains : Plains} {address : Address} {a : Account} {p : Plain}

theorem holds_empty (hd : Apart data) (hs : store.Backs data log) :
    empty.Holds data store log (fun _ => none) fun _ => none where
  apart := hd
  backs := hs
  accounts := Trie.hasHashed_empty
  shows _ _ := .none
  codes h code hcode := by
    rw [empty, ofRoot, Std.ExtTreeMap.getElem?_empty] at hcode
    contradiction

theorem account?_empty (store : Store) (address : Address) :
    empty.account? store address = .ok none := by
  have hget : empty.accounts.get store.nodes (Hash.toBytes address.hash) = .ok none :=
    Node.lookup_null _
  rw [account?, hget]
  rfl

theorem storageOf_congr (h : w'.storages[a.address]? = w.storages[a.address]?) :
    w'.storageOf a = w.storageOf a := by
  rw [storageOf, storageOf, Std.ExtTreeMap.getD_eq_getD_getElem?,
    Std.ExtTreeMap.getD_eq_getD_getElem?, h]

/-- An account does not see changes of the storage of others, or of code that is still
there. -/
theorem Shows.frame (h : w.Shows data store log a p)
    (hstorages : w'.storages[a.address]? = w.storages[a.address]?)
    (hcodes : w'.HasCode store p.code) : w'.Shows data store log a p where
  nonce_eq := h.nonce_eq
  balance_eq := h.balance_eq
  codeHash_eq := h.codeHash_eq
  nonce_le := h.nonce_le
  code_mem := h.code_mem
  hasCode := hcodes
  slots := by
    rw [storageOf_congr hstorages]
    exact h.slots
  root_eq := by
    rw [storageOf_congr hstorages]
    exact h.root_eq

namespace Holds

/-- There is no account at an address, or a record that leads to it. -/
theorem cases (h : w.Holds data store log record plains)
    (haddress : Address.toBytes address ∈ data) :
    record address = none ∧ plains address = none ∨
      ∃ a p, record address = some a ∧ plains address = some p ∧ a.address = address ∧
        w.Shows data store log a p := by
  have hshows := h.shows address haddress
  generalize record address = r at hshows
  generalize plains address = q at hshows
  cases hshows with
  | none => exact .inl ⟨rfl, rfl⟩
  | some hshow => exact .inr ⟨_, _, rfl, rfl, hshow⟩

/-! ## Reads -/

/-- **The account at an address.** -/
theorem account?_eq (h : w.Holds data store log record plains)
    (haddress : Address.toBytes address ∈ data) :
    w.account? store address = .ok (record address) := by
  have hget : w.accounts.get store.nodes (Hash.toBytes address.hash) =
      .ok ((record address).map Account.encode) := h.accounts.get_eq haddress
  rw [account?, hget]
  rcases h.cases haddress with ⟨hrecord, -⟩ | ⟨a, p, hrecord, -, rfl, hshow⟩
  · rw [hrecord]
    rfl
  · have hdecode := Account.decode_encode (a := a) (hshow.nonce_eq.trans_le hshow.nonce_le)
    rw [hrecord]
    simp only [Except.mapError, Option.map_some, bind, Except.bind, hdecode]
    rfl

/-- **The code of an account.** -/
theorem accountCode_eq (h : w.Holds data store log record plains)
    (ha : w.Shows data store log a p) : w.accountCode store a = .ok p.code := by
  have hnil := h.apart.keccak_eq_emptyCodeHash_iff ha.code_mem
  rw [accountCode, ha.codeHash_eq]
  by_cases hcode : p.code = []
  · rw [if_pos (hnil.mpr hcode), hcode]
    rfl
  · rw [if_neg (mt hnil.mp hcode)]
    cases hfound : w.codes[keccak p.code]? with
    | some code =>
      obtain ⟨hhash, hmem⟩ := h.codes _ _ hfound
      rw [h.apart.collisionless code hmem p.code ha.code_mem hhash.symm]
      rfl
    | none =>
      have hkeeps : store.Keeps p.code := by
        rcases ha.hasCode with hnil | hnew | hkeeps
        · exact absurd hnil hcode
        · rw [hfound] at hnew
          contradiction
        · exact hkeeps
      simp only [h.backs.code_eq hkeeps (mt hnil.mp hcode)]
      rfl

/-- **The slots of an account.** -/
theorem accountSlot_eq (ha : w.Shows data store log a p) {key : Word}
    (hkey : Word.toBytes key ∈ data) : w.accountSlot store a key = .ok (p.slots key) := by
  rw [accountSlot, ha.slots.get_eq hkey, slotEntry]
  by_cases hzero : p.slots key = 0
  · rw [if_pos hzero, hzero]
    rfl
  · rw [if_neg hzero]
    simp only [Except.mapError, bind, Except.bind, Rlp.word_number]

theorem code_eq (h : w.Holds data store log record plains)
    (haddress : Address.toBytes address ∈ data) :
    w.code store address = .ok (((plains address).map Plain.code).getD []) := by
  rw [code, h.account?_eq haddress]
  rcases h.cases haddress with ⟨hrecord, hplain⟩ | ⟨a, p, hrecord, hplain, -, hshow⟩
  · rw [hrecord, hplain]
    rfl
  · rw [hrecord, hplain]
    exact h.accountCode_eq hshow

theorem slot_eq (h : w.Holds data store log record plains)
    (haddress : Address.toBytes address ∈ data) {key : Word} (hkey : Word.toBytes key ∈ data) :
    w.slot store address key = .ok (((plains address).map fun p => p.slots key).getD 0) := by
  rw [slot, h.account?_eq haddress]
  rcases h.cases haddress with ⟨hrecord, hplain⟩ | ⟨a, p, hrecord, hplain, -, hshow⟩
  · rw [hrecord, hplain]
    rfl
  · rw [hrecord, hplain]
    exact accountSlot_eq hshow hkey

/-! ## Changes -/

/-- **A change of one account.**  The trie of accounts gets another record, the storage
of other accounts and the code that was there stay, and the record leads to an account. -/
theorem update (h : w.Holds data store log record plains)
    (haddress : Address.toBytes address ∈ data) (w' : World) (next : Option Account)
    {plain : Option Plain} {c : Trie.Change}
    (hkey : c.key = Hash.toBytes (keccak (Address.toBytes address)))
    (hentry : c.entry = next.map Account.encode)
    (hfit : ∀ v, c.entry = some v → v.length < 2 ^ 63)
    (haccounts : w'.accounts = w.accounts)
    (hstorages : ∀ x, x ≠ address → w'.storages[x]? = w.storages[x]?)
    (hcodes : ∀ h code, w'.codes[h]? = some code → h = keccak code ∧ code ∈ data)
    (hkept : ∀ code ∈ data, w.HasCode store code → w'.HasCode store code)
    (hnext : Option.Rel (fun a p => a.address = address ∧ w'.Shows data store log a p) next plain) :
    ∃ t, w'.accounts.change store.nodes c = .ok t ∧
      World.Holds data store log { w' with accounts := t } (Function.update record address next)
        (Function.update plains address plain) := by
  obtain ⟨t, ht, hhas⟩ := h.accounts.change h.apart.collisionless Address.toBytes_injective haddress
    hkey hfit
  -- only the trie of accounts differs, which no account that is shown depends on
  have hsame : ∀ {a p}, w'.Shows data store log a p →
      Shows data store log { w' with accounts := t } a p :=
    fun hshow => hshow.frame rfl hshow.hasCode
  refine ⟨t, haccounts ▸ ht, h.apart, h.backs, ?_, ?_, hcodes⟩
  · rw [Function.comp_update, ← hentry]
    exact hhas
  · intro x hx
    rw [Function.update_apply, Function.update_apply]
    split
    · rename_i hxa
      rw [hxa]
      cases hnext with
      | none => exact .none
      | some hnext => exact .some ⟨hnext.1, hsame hnext.2⟩
    · rename_i hxa
      rcases h.cases hx with ⟨hrecord, hplain⟩ | ⟨a, p, hrecord, hplain, rfl, hshow⟩
      · rw [hrecord, hplain]
        exact .none
      · rw [hrecord, hplain]
        have hcode := hkept _ hshow.code_mem hshow.hasCode
        exact .some ⟨rfl, hsame (hshow.frame (hstorages _ hxa) hcode)⟩

end Holds

theorem updateAccounts_eq {change : Trie → Except TrieError Trie} {t : Trie}
    (h : change w.accounts = .ok t) : updateAccounts change w = .ok () { w with accounts := t } := by
  rw [updateAccounts]
  simp only [Trie.update, h]

/-- **Deleting an account.** -/
theorem Holds.deleteAccount (h : w.Holds data store log record plains)
    (haddress : Address.toBytes address ∈ data) :
    ∃ w', deleteAccount store address w = .ok () w' ∧
      w'.Holds data store log (Function.update record address none)
        (Function.update plains address none) := by
  have hstorages : ∀ x, x ≠ address →
      ({ w with storages := w.storages.erase address } : World).storages[x]? = w.storages[x]? := by
    intro x hx
    change (w.storages.erase address)[x]? = _
    rw [Std.ExtTreeMap.getElem?_erase, if_neg]
    rw [Std.compare_eq_iff_eq]
    exact hx.symm
  obtain ⟨t, ht, hholds⟩ := h.update haddress { w with storages := w.storages.erase address } none
    (c := .remove (Hash.toBytes address.hash)) rfl rfl nofun rfl hstorages h.codes
    (fun _ _ hcode => hcode) .none
  refine ⟨_, ?_, hholds⟩
  have hchange : updateAccounts (fun t => t.erase store.nodes (Hash.toBytes address.hash)) w =
      .ok () { w with accounts := t } := updateAccounts_eq ht
  change EStateM.bind _ _ w = _
  rw [EStateM.bind, hchange]
  rfl

/-! ## Persisting -/

/-- The trie nodes that persisting a world writes. -/
def nodes (w : World) : List (Hash × Bytes) :=
  w.storages.toList.flatMap (fun x => x.2.writes) ++ w.accounts.writes

/-- The byte strings that persisting a world puts under their hashes. -/
def pending (w : World) : List Bytes :=
  w.codes.toList.map Prod.snd ++ w.nodes.map Prod.snd

theorem writes_eq (w : World) : w.writes =
    (w.codes.toList.map Prod.snd).flatMap Store.codeWrites ++ w.nodes.flatMap Store.nodeWrites := by
  rw [writes, nodes, List.flatMap_append, List.flatMap_assoc, List.flatMap_map, List.append_assoc]

theorem addressed_nodes (w : World) : Trie.Addressed w.nodes := by
  intro x hx
  rcases List.mem_append.mp hx with hx | hx
  · obtain ⟨y, -, hx⟩ := List.mem_flatMap.mp hx
    exact Trie.addressed_writes _ _ hx
  · exact Trie.addressed_writes _ _ hx

theorem writes_storageOf_subset (w : World) (a : Account) : (w.storageOf a).writes ⊆ w.nodes := by
  rw [storageOf, Std.ExtTreeMap.getD_eq_getD_getElem?]
  cases hfound : w.storages[a.address]? with
  | none =>
    rw [Option.getD_none, Trie.writes_ofRoot]
    exact List.nil_subset _
  | some t =>
    have hmem : (a.address, t) ∈ w.storages.toList :=
      Std.ExtTreeMap.mem_toList_iff_getElem?_eq_some.mpr hfound
    exact fun x hx => List.mem_append_left _ (List.mem_flatMap.mpr ⟨_, hmem, hx⟩)

/-- Code that could be read is in the store once it is persisted. -/
theorem HasCode.settled {code : Bytes} (h : w.HasCode store code)
    (hkeeps : store.Keeps code → store'.Keeps code)
    (hcodes : ∀ c ∈ w.codes.toList.map Prod.snd, c ≠ [] → store'.Keeps c) :
    w.settled.HasCode store' code := by
  by_cases hnil : code = []
  · exact .inl hnil
  · refine .inr (.inr ?_)
    rcases h with h | hnew | hkept
    · exact absurd h hnil
    · have hmem : (keccak code, code) ∈ w.codes.toList :=
        Std.ExtTreeMap.mem_toList_iff_getElem?_eq_some.mpr hnew
      exact hcodes code (List.mem_map_of_mem hmem) hnil
    · exact hkeeps hkept

/-- The record of an account leads to it also when its storage is opened again at its
root. -/
theorem Shows.settled (h : w.Shows data store log a p) (hs : store.nodes.Has log)
    (hs' : store'.nodes.Has log') (hlog : log ⊆ log') (hempty : Trie.EmptyOnly log')
    (hnodes : w.nodes ⊆ log') (hcode : w.settled.HasCode store' p.code) :
    w.settled.Shows data store' log' a p := by
  have hstorage : w.settled.storageOf a = .ofRoot (w.storageOf a).rootHash := by
    rw [storageOf, World.settled, Std.ExtTreeMap.getD_empty, h.root_eq]
  refine ⟨h.nonce_eq, h.balance_eq, h.codeHash_eq, h.nonce_le, h.code_mem, hcode, ?_, ?_⟩
  · rw [hstorage]
    exact Trie.HasHashed.ofRoot h.slots hs hs' hlog hempty
      (List.Subset.trans (w.writes_storageOf_subset a) hnodes)
  · rw [hstorage, Trie.rootHash_ofRoot, h.root_eq]

/-- **What was persisted is still held.** -/
theorem Holds.persist (h : w.Holds data store log record plains) (hpending : w.pending ⊆ data) :
    ∃ store', w.persist store = .ok w.settled store' ∧
      w.settled.Holds data store' (log ++ w.nodes) record plains := by
  have hpendingCodes : ∀ c ∈ w.codes.toList.map Prod.snd, c ∈ data :=
    fun c hc => hpending (List.mem_append_left _ hc)
  have hpendingNodes : ∀ x ∈ w.nodes, x.2 ∈ data :=
    fun x hx => hpending (List.mem_append_right _ (List.mem_map_of_mem hx))
  -- what was pending is in the store now, and what was there stays
  obtain ⟨store', hcommit, hbacks, hkeeps, hcodes⟩ :=
    h.backs.commit h.apart hpendingCodes w.addressed_nodes hpendingNodes
  have hs := h.backs.has h.apart
  have hs' := hbacks.has h.apart
  have hlog : log ⊆ log ++ w.nodes := List.subset_append_left _ _
  have hnodes : w.nodes ⊆ log ++ w.nodes := List.subset_append_right _ _
  refine ⟨store', ?_, h.apart, hbacks, ?_, ?_, ?_⟩
  · rw [← writes_eq] at hcommit
    change EStateM.bind _ _ store = _
    rw [EStateM.bind, hcommit]
    rfl
  · refine h.accounts.collapse hs hs' hlog ?_
    exact fun x hx => hnodes (List.mem_append_right _ hx)
  · intro address haddress
    rcases h.cases haddress with ⟨hrecord, hplain⟩ | ⟨a, p, hrecord, hplain, haddr, hshow⟩
    · rw [hrecord, hplain]
      exact .none
    · rw [hrecord, hplain]
      have hcode := hshow.hasCode.settled (hkeeps _ hshow.code_mem) hcodes
      exact .some ⟨haddr, hshow.settled hs hs' hlog (hbacks.emptyOnly h.apart) hnodes hcode⟩
  · intro k code hcode
    rw [settled, Std.ExtTreeMap.getElem?_empty] at hcode
    contradiction

end World
end Ethereum
