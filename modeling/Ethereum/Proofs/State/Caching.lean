/-
# The caches of a world agree with its accounts

A world keeps in memory what is not persisted: the changed storage of accounts by address, new code
by hash, and the nodes of the trie of accounts.  Slots are read from the changed storage of an
address without a look at the root in the account there, so a trie that stayed behind would serve
the storage of an account that is gone.  None does (`Ledger.caches_agree`): every changed storage
belongs to an account that has its root, and whatever an account or a trie in memory refers to is
in memory or in the store (`World.InStep`).

Two invariants carry this.  What the world holds (`World.Holds`) says of each account that its
record leads to its storage and code, and of each trie that what it does not have in memory was
written.  Written nodes are in the store, so loading from such a trie leads to nothing else
(`Store.Backs.supplies`).  The other one says which storages are there at all: only those of
addresses that have an account (`World.Filed`).  Writing a scope keeps it, as a deletion takes the
storage of its address along and an overlay leaves an account (`World.Filed.applyScope`).  Both are
kept by every call (`Ledger.Refines.filed_call`) and hence by every run.
-/

import Mathlib
import Ethereum.Proofs.State.Renewing
import Ethereum.Proofs.State.Roots
import Ethereum.Proofs.Trie.Grounding

namespace Ethereum

/-! ## What a store has of a trie -/

namespace Store

/-- The store has the encoding of a trie node under its hash, from which the node is loaded. -/
def HasNode (s : Store) (h : Hash) : Prop :=
  ∃ b n, keccak b = h ∧ s.Keeps b ∧ Node.decode b = .ok n ∧ s.nodes.load h = .ok n

/-- The store has every node that loading leads to from a tree in memory. -/
def Supplies (s : Store) (n : Node) : Prop := ∀ h, Node.Meets s.nodes n h → s.HasNode h

variable {data : List Bytes} {s : Store} {log : List (Hash × Bytes)} {n full : Node} {k : Hash}

theorem Supplies.hasNode (h : s.Supplies n) (hk : k ∈ n.placeholders) : s.HasNode k :=
  h k (Node.meets_of_mem hk)

namespace Backs

/-- A node that was written and can be loaded is there under its hash. -/
theorem hasNode (h : s.Backs data log) (hd : Apart data) {b : Bytes} {m : Node}
    (hmem : (k, b) ∈ log) (hne : k ≠ Node.emptyHash) (hload : s.nodes.load k = .ok m) :
    s.HasNode k := by
  obtain ⟨b', hread, hdecode⟩ := NodeSource.exists_of_load hload
  have hwritten : s.nodes.read k = some b := h.has hd _ hmem
  obtain rfl : b = b' := Option.some.inj (hwritten.symm.trans hread)
  exact ⟨b, m, (h.addressed _ hmem).symm, h.keeps (k, b) hmem hne, hdecode, hload⟩

theorem ne_emptyHash_of_stored (h : s.Backs data log) (hd : Apart data)
    (hn : Node.Stored log k n) : k ≠ Node.emptyHash := by
  intro hk
  have hnull : n.encode = Node.null.encode := h.emptyOnly hd _ hn.mem hk
  exact hn.long (hnull ▸ by decide)

theorem supplies_of_unfolds (h : s.Backs data log) (hd : Apart data)
    (hn : Node.Unfolds s.nodes (Node.Stored log) n full) : s.Supplies n := by
  intro k hk
  obtain ⟨m, sub, hload, hstored⟩ := hn.exists_of_meets hk
  exact h.hasNode hd hstored.mem (h.ne_emptyHash_of_stored hd hstored) hload

/-- **A trie over the nodes that were written** finds them all in the store. -/
theorem supplies (h : s.Backs data log) (hd : Apart data) {κ : Type} {t : Trie} {name : κ → Bytes}
    {entry : κ → Option Bytes} (ht : t.HasHashed data s.nodes log name entry) :
    s.Supplies t.root := by
  obtain ⟨m, ⟨full, hroot, hcan, hfind⟩, hfit, -⟩ := ht
  generalize t.root = root at hroot
  cases hroot with
  | held hn => exact h.supplies_of_unfolds hd hn
  | stored hmem hload below ne_null =>
    -- a root is written whatever its length, so it is its encoding that tells it from the empty one
    have hne : full.digest ≠ Node.emptyHash := fun hempty =>
      Node.encode_ne_encode_null hcan (hfit.root hfind) ne_null (h.emptyOnly hd _ hmem hempty)
    intro k hk
    cases hk with
    | here => exact h.hasNode hd hmem hne hload
    | load hload' hbelow =>
      rw [hload] at hload'
      cases hload'
      exact h.supplies_of_unfolds hd below k hbelow

end Backs
end Store

namespace World

/-! ## Worlds in step -/

/-- The storage of an account is empty, or its changed storage has the root, or the store has all
of it. -/
def StorageAtHand (store : Store) (w : World) (a : Account) : Prop :=
  a.storageRoot = Node.emptyHash ∨
    (∃ t, w.storages[a.address]? = some t ∧ a.storageRoot = t.rootHash) ∨
    store.Supplies (.hash a.storageRoot)

/-- The code of an account is empty, or new, or in the store, and has the hash. -/
def CodeAtHand (store : Store) (w : World) (a : Account) : Prop :=
  a.codeHash = Store.emptyCodeHash ∨
    (∃ code, w.codes[a.codeHash]? = some code ∧ keccak code = a.codeHash) ∨
    ∃ code, keccak code = a.codeHash ∧ store.Keeps code

/-- What a world has in memory agrees with its trie of accounts, and the rest is in the store. -/
structure InStep (store : Store) (w : World) : Prop where
  /-- A changed storage is that of an account, which has its root. -/
  storages : ∀ (x : Address) (t : Trie), w.storages[x]? = some t →
    ∃ a, w.account? store x = .ok (some a) ∧ a.storageRoot = t.rootHash
  /-- Whatever is in the trie of accounts is an account whose storage and code are at hand. -/
  accounts : ∀ key, w.accounts.get store.nodes key = .ok none ∨ ∃ a : Account,
    key = Hash.toBytes a.address.hash ∧ w.accounts.get store.nodes key = .ok (some a.encode) ∧
      w.account? store a.address = .ok (some a) ∧ w.StorageAtHand store a ∧ w.CodeAtHand store a
  /-- The placeholders in memory stand for nodes in the store. -/
  placeholders : ∀ t, t = w.accounts ∨ (∃ x : Address, w.storages[x]? = some t) →
    ∀ h ∈ t.root.placeholders, store.HasNode h

/-- Changed storage is only kept of addresses that have an account and are among the data. -/
def Filed (data : List Bytes) (plains : Plains) (w : World) : Prop :=
  ∀ (x : Address) (t : Trie), w.storages[x]? = some t → Address.toBytes x ∈ data ∧ plains x ≠ none

variable {data : List Bytes} {store : Store} {log : List (Hash × Bytes)} {w w' : World}
  {record : Address → Option Account} {plains : Plains} {a : Account} {p : Plain}

theorem storageOf_of_changed {t : Trie} (h : w.storages[a.address]? = some t) :
    w.storageOf a = t := by
  rw [storageOf, Std.ExtTreeMap.getD_eq_getD_getElem?, h]
  rfl

theorem Holds.storageAtHand (h : w.Holds data store log record plains)
    (ha : w.Shows data store log a p) : w.StorageAtHand store a := by
  cases hfound : w.storages[a.address]? with
  | some t =>
    have hroot := ha.root_eq
    rw [storageOf_of_changed hfound] at hroot
    exact .inr (.inl ⟨t, hfound, hroot⟩)
  | none =>
    by_cases hempty : a.storageRoot = Node.emptyHash
    · exact .inl hempty
    · have hopened : w.storageOf a = ⟨.hash a.storageRoot⟩ := by
        rw [storageOf, Std.ExtTreeMap.getD_eq_getD_getElem?, hfound, Option.getD_none, Trie.ofRoot,
          if_neg hempty]
      have hsupplies := h.backs.supplies h.apart ha.slots
      rw [hopened] at hsupplies
      exact .inr (.inr hsupplies)

theorem Shows.codeAtHand (ha : w.Shows data store log a p) : w.CodeAtHand store a := by
  have hhash := ha.codeHash_eq
  rcases ha.hasCode with hnil | hnew | hkept
  · exact .inl (by rw [hhash, hnil, keccak_nil])
  · exact .inr (.inl ⟨p.code, hhash ▸ hnew, hhash.symm⟩)
  · exact .inr (.inr ⟨p.code, hhash.symm, hkept⟩)

/-- The account that a changed storage belongs to. -/
theorem Holds.exists_of_changed (h : w.Holds data store log record plains)
    (hf : w.Filed data plains) {x : Address} {t : Trie} (ht : w.storages[x]? = some t) :
    ∃ a p, w.account? store x = .ok (some a) ∧ w.storageOf a = t ∧ w.Shows data store log a p := by
  obtain ⟨hx, hplain⟩ := hf x t ht
  rcases h.cases hx with ⟨-, hnone⟩ | ⟨a, p, hrecord, -, rfl, hshow⟩
  · exact absurd hnone hplain
  · exact ⟨a, p, by rw [h.account?_eq hx, hrecord], storageOf_of_changed ht, hshow⟩

/-- **A world that holds its accounts** is in step with them, if it has no storage of others. -/
theorem Holds.inStep (h : w.Holds data store log record plains) (hf : w.Filed data plains) :
    w.InStep store where
  storages x t ht := by
    obtain ⟨a, p, haccount, hstorage, hshow⟩ := h.exists_of_changed hf ht
    exact ⟨a, haccount, hstorage ▸ hshow.root_eq⟩
  accounts key := by
    rcases h.accounts.get_cases key with hget | ⟨x, hx, hkey, hget⟩
    · exact .inl hget
    · rw [Function.comp_apply] at hget
      rcases h.cases hx with ⟨hrecord, -⟩ | ⟨a, p, hrecord, -, rfl, hshow⟩
      · rw [hrecord] at hget
        exact .inl hget
      · have haccount := h.account?_eq hx
        rw [hrecord] at hget haccount
        exact .inr ⟨a, hkey, hget, haccount, h.storageAtHand hshow, hshow.codeAtHand⟩
  placeholders t ht k hk := by
    refine Store.Supplies.hasNode ?_ hk
    rcases ht with rfl | ⟨x, ht⟩
    · exact h.backs.supplies h.apart h.accounts
    · obtain ⟨a, p, -, rfl, hshow⟩ := h.exists_of_changed hf ht
      exact h.backs.supplies h.apart hshow.slots

/-! ## Which storages there are -/

theorem filed_of_empty (h : w.storages = ∅) : w.Filed data plains := by
  intro x t ht
  rw [h, Std.ExtTreeMap.getElem?_empty] at ht
  cases ht

section
variable {s : Scope}

/-- Where a scope shows no account, the changed storage is gone if the scope deleted the account,
and else what it was. -/
theorem storages_applyScope_of_not_shown {x : Address}
    (hkeyed : ∀ a o, s.lookup a = some (some o) → o.address = a)
    (hrun : applyScope store s w = .ok () w') (hx : ∀ o, s.lookup x ≠ some (some o)) :
    w'.storages[x]? = none ∨ x ∉ s.deleted ∧ w'.storages[x]? = w.storages[x]? := by
  obtain ⟨_, w₁, hdelete, hupdate⟩ := bind_eq_ok hrun
  have hdeleted := read_of_forM (fun w : World => w.storages[x]?) (· = x)
    (fun _ found => found = none) (l := s.deleted.toList) (fun y _ w w' hwrite => by
      by_cases hyx : y = x
      · exact .inl ⟨hyx, storages_deleteAccount_self (hyx ▸ hwrite)⟩
      · exact .inr ⟨hyx, storages_deleteAccount (Ne.symm hyx) hwrite⟩) hdelete
  -- no overlay that is written has the address
  have hupdated := read_of_forM (fun w : World => w.storages[x]?)
    (fun _ : Address × Overlay => False) (fun _ _ => False) (l := s.updated.toList)
    (fun y hy w w' hwrite => by
      rcases applyOverlay_of_mem hy hwrite with ⟨hshown, hwrite⟩ | ⟨-, rfl⟩
      · refine .inr ⟨id, storages_applyOverlay (fun hxy => hx y.2 ?_) hwrite⟩
        rw [hxy, hkeyed y.1 y.2 hshown, hshown]
      · exact .inr ⟨id, rfl⟩) hupdate
  rcases hupdated with ⟨_, -, hfalse, -⟩ | ⟨-, hupdated⟩
  · exact hfalse.elim
  · rcases hdeleted with ⟨y, -, -, hgone⟩ | ⟨hkept, hsame⟩
    · exact .inl (hupdated.trans hgone)
    · exact .inr ⟨fun hmem => hkept x (Std.ExtTreeSet.mem_toList.mpr hmem) rfl,
        hupdated.trans hsame⟩

/-- **Writing a scope** keeps storage only of addresses that have an account afterwards. -/
theorem Filed.applyScope (hf : w.Filed data plains) (hs : s.Sound data record plains)
    (hrun : applyScope store s w = .ok () w') : w'.Filed data (s.view plains plains) := by
  intro x t ht
  rw [Scope.view]
  by_cases hshown : ∃ o, s.lookup x = some (some o)
  · obtain ⟨o, ho⟩ := hshown
    obtain ⟨rfl, hsound⟩ := hs.updated x o ho
    rw [ho]
    exact ⟨hsound.address_mem, Option.some_ne_none _⟩
  · rcases storages_applyScope_of_not_shown (fun a o h => (hs.updated a o h).1) hrun
      (not_exists.mp hshown) with hgone | ⟨hkept, hsame⟩
    · rw [hgone] at ht
      cases ht
    · rw [Scope.lookup_eq_none hkept fun o ho => hshown ⟨o, hs.separate.lookup_of_updated ho⟩]
      exact hf x t (hsame ▸ ht)

end
end World

/-! ## Runs -/

namespace Journal

/-- **Committing** keeps changed storage only of addresses that have an account. -/
theorem Tracks.filed_commit {data : List Bytes} {store : Store} {log : List (Hash × Bytes)}
    {record : Address → Option Account} {j j' : Journal} {m : Snapshots}
    (h : j.Tracks data store log record m) (hf : j.world.Filed data m.world)
    (hrun : Journal.commit store j = .ok () j') : j'.world.Filed data m.commit.world := by
  have hviews := h.views_eq
  rw [views, List.cons.injEq] at hviews
  rw [Journal.commit] at hrun
  cases hparents : j.parents with
  | cons s rest =>
    rw [hparents, views] at hviews
    rw [hparents] at hrun
    cases hrun
    rw [Snapshots.commit, ← hviews.2]
    exact hf
  | nil =>
    rw [hparents] at hviews
    obtain ⟨w, record', happly, -⟩ := h.holds.applyScope h.scope
    rw [hparents] at hrun
    simp only [happly] at hrun
    cases hrun
    rw [Snapshots.commit, ← hviews.2, ← hviews.1]
    exact hf.applyScope h.scope happly

end Journal

namespace Ledger

variable {data : List Bytes} {s : Ledger} {m : Snapshots}

theorem world_change {α : Type} {c : Journal.Change α} (h : Leads Journal.Inner c)
    (answer : α → Answer) : (s.change c answer).2.journal.world = s.journal.world := by
  have hleads := h s.journal
  rw [Ends] at hleads
  rw [change]
  cases hrun : c s.journal <;> rw [hrun] at hleads <;> exact hleads.world_eq

/-- Only committing and persisting change the world. -/
theorem world_call {c : Call} (hcommit : c ≠ .commit) (hpersist : c ≠ .persist) :
    (s.call c).2.journal.world = s.journal.world ∧ (m.call c).2.world = m.world := by
  cases c with
  | reopen | enter | read | readWorld => exact ⟨rfl, rfl⟩
  | createAccount | deleteAccount => exact ⟨rfl, rfl⟩
  | getOrCreate address => exact ⟨world_change (Journal.inner_getOrCreate _ _) _, rfl⟩
  | mutate address edits =>
    refine ⟨world_change (Journal.inner_update? _ _ _) _, ?_⟩
    rw [Snapshots.call]
    cases m.current address <;> rfl
  | incrementBalance address amount =>
    exact ⟨world_change (Journal.inner_incrementBalance _ _ _) _, rfl⟩
  | decrementBalance address amount =>
    exact ⟨world_change (Journal.inner_decrementBalance _ _ _) _, rfl⟩
  | incrementNonce address => exact ⟨world_change (Journal.inner_incrementNonce _ _) _, rfl⟩
  | setSlot address key value => exact ⟨world_change (Journal.inner_setSlot _ _ _ _) _, rfl⟩
  | setCode address code => exact ⟨world_change (Journal.inner_setCode _ _ _) _, rfl⟩
  | revert =>
    constructor
    · change s.journal.revert.world = _
      rw [Journal.revert]
      cases s.journal.parents <;> rfl
    · change m.revert.world = _
      rw [Snapshots.revert]
      cases m.saved <;> rfl
  | commit => exact absurd rfl hcommit
  | persist => exact absurd rfl hpersist

/-- **One call** keeps changed storage only of addresses that have an account. -/
theorem Refines.filed_call (h : s.Refines data m) (hf : s.journal.world.Filed data m.world)
    {c : Call} (hc : c.hashed s ⊆ data) :
    (s.call c).2.journal.world.Filed data (m.call c).2.world := by
  by_cases hcommit : c = .commit
  · subst hcommit
    obtain ⟨log, record, h⟩ := h
    obtain ⟨j, record', hrun, -⟩ := h.commit
    rw [Ledger.call, change_eq hrun]
    exact h.filed_commit hf hrun
  by_cases hpersist : c = .persist
  · subst hpersist
    obtain ⟨log, record, h⟩ := h
    obtain ⟨store, hrun, -⟩ := h.holds.persist hc
    simp only [Ledger.call, hrun]
    exact World.filed_of_empty rfl
  · obtain ⟨hworld, hmodel⟩ := world_call (s := s) (m := m) hcommit hpersist
    rw [hworld, hmodel]
    exact hf

/-- A run keeps changed storage only of addresses that have an account. -/
theorem Refines.filed_run (h : s.Refines data m) (hf : s.journal.world.Filed data m.world)
    {cs : List Call} (hcs : hashed cs s ⊆ data) :
    (s.run cs).journal.world.Filed data (m.run cs).world := by
  induction cs generalizing s m with
  | nil => exact hf
  | cons c cs ih =>
    obtain ⟨hc, hrest⟩ := List.append_subset.mp hcs
    exact ih (h.call hc).2 (h.filed_call hf hc) hrest

/-- **The caches of a world agree with its accounts**, whatever was called to get there: changes of
journals in nested scopes, commits and persisting, over a store that never fails and has anything
to begin with.  Every changed storage belongs to an account that has its root.  Every account has
storage that is empty, changed or all in the store, and code that is empty, new or in the store.
The placeholders of the tries in memory stand for nodes in the store.

It is assumed that nothing that was hashed has the hash of something else. -/
theorem caches_agree (entries : Std.ExtTreeMap Bytes Bytes) (cs : List Call)
    (hcol : Collisionless ([] :: Node.null.encode :: hashed cs (start entries))) :
    (run cs (start entries)).journal.world.InStep (run cs (start entries)).store := by
  have hd : Apart ([] :: Node.null.encode :: hashed cs (start entries)) :=
    ⟨hcol, List.mem_cons_self, List.mem_cons_of_mem _ List.mem_cons_self⟩
  have hcs : hashed cs (start entries) ⊆ [] :: Node.null.encode :: hashed cs (start entries) :=
    fun b hb => List.mem_cons_of_mem _ (List.mem_cons_of_mem _ hb)
  have hstart := refines_start hd entries
  obtain ⟨log, record, h⟩ := hstart.run hcs
  exact h.holds.inStep (hstart.filed_run (World.filed_of_empty rfl) hcs)

/-- A slot is written, committed and not persisted. -/
theorem caches_agree_of_slot :
    let cs : List Call := [.setSlot 1 0 7, .commit]
    let s := run cs (start ∅)
    Collisionless ([] :: Node.null.encode :: hashed cs (start ∅)) ∧
      (∃ t : Trie, s.journal.world.storages[(1 : Address)]? = some t ∧
        t.rootHash ≠ Node.emptyHash) ∧
      s.journal.world.InStep s.store := by
  intro cs s
  have hhashed : hashed cs (start ∅) = [Address.toBytes 1, Word.toBytes 0] := by
    rw [hashed, call_setSlot_start, hashed, call_commit_first _ 1 0 7 (by decide)]
    rfl
  have hrun : s = ⟨(start ∅).store, .ofWorld (firstWorld 1 0 7)⟩ := by
    change (call (call (start ∅) (.setSlot 1 0 7)).2 .commit).2 = _
    rw [call_setSlot_start, call_commit_first _ 1 0 7 (by decide)]
  have hcol : Collisionless ([] :: Node.null.encode :: hashed cs (start ∅)) := by
    rw [hhashed]
    decide +kernel
  refine ⟨hcol, ⟨⟨slotLeaf 0 7⟩, ?_, by decide +kernel⟩, caches_agree ∅ cs hcol⟩
  rw [hrun]
  exact Std.ExtTreeMap.getElem?_insert_self

end Ledger
end Ethereum
