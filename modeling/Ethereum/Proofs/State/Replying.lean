/-
# What worlds reply

Two worlds that hold the same accounts in the same records give the same reply to every query,
each over its own store and without fail (`World.Holds.reply_eq`).  That goes for the account at
an address, its code, a slot and a listing of slots, and for arguments of which nothing is known:
an address that has the hash of another gets the account of the other, with its own address.  Only
a world with storage in memory, which is kept by address, has to know the address.

A store that grows keeps the data that it has (`Store.Grows`), and a world over it holds what it
held (`World.Holds.grows`).
-/

import Mathlib
import Ethereum.Proofs.State.Tracking
import Ethereum.Proofs.Trie.Listed

namespace Ethereum

/-! ## Stores that grow -/

namespace Store

/-- The second store fails where the first does, and keeps the data that the first keeps. -/
structure Grows (data : List Bytes) (s s' : Store) : Prop where
  reads_eq : s'.refusesReads = s.refusesReads
  commits_eq : s'.failingCommits = s.failingCommits
  keeps : ∀ b ∈ data, s.Keeps b → s'.Keeps b

variable {data : List Bytes} {s s' s'' : Store} {log : List (Hash × Bytes)}

theorem Grows.refl (s : Store) : Grows data s s := ⟨rfl, rfl, fun _ _ h => h⟩

theorem Grows.trans (h : Grows data s s') (h' : Grows data s' s'') : Grows data s s'' where
  reads_eq := h'.reads_eq.trans h.reads_eq
  commits_eq := h'.commits_eq.trans h.commits_eq
  keeps b hb hkeeps := h'.keeps b hb (h.keeps b hb hkeeps)

/-- What was written stays behind a store that grows. -/
theorem Backs.grows (h : s.Backs data log) (hs : Grows data s s') : s'.Backs data log where
  reads := hs.reads_eq.trans h.reads
  commits := hs.commits_eq.trans h.commits
  addressed := h.addressed
  mem_data := h.mem_data
  keeps w hw hne := hs.keeps w.2 (h.mem_data w hw) (h.keeps w hw hne)

/-- A store bounds the trie nodes that it has: its entries, and the node of the empty trie. -/
theorem bounded_nodes (s : Store) : s.nodes.Bounded := by
  refine ⟨insert Node.emptyHash (s.entries.keys.toFinset.image Word.ofBytes), fun h hh => ?_, ?_⟩
  · rw [Finset.mem_insert]
    by_cases hempty : h = Node.emptyHash
    · exact .inl hempty
    · refine .inr (Finset.mem_image.mpr ⟨Hash.toBytes h, ?_, Word.ofBytes_toBytes h⟩)
      rw [List.mem_toFinset, Std.ExtTreeMap.mem_keys, Std.ExtTreeMap.mem_iff_isSome_getElem?]
      simp only [nodes, node, if_neg hempty, read] at hh
      by_cases hrefuses : s.refusesReads = true
      · simp [hrefuses] at hh
      · rw [if_neg hrefuses] at hh
        exact Option.isSome_iff_ne_none.mpr hh
  · calc (insert Node.emptyHash (s.entries.keys.toFinset.image Word.ofBytes)).card
        ≤ (s.entries.keys.toFinset.image Word.ofBytes).card + 1 := Finset.card_insert_le _ _
      _ ≤ s.entries.keys.toFinset.card + 1 := Nat.succ_le_succ Finset.card_image_le
      _ ≤ s.entries.keys.length + 1 := Nat.succ_le_succ (List.toFinset_card_le _)
      _ = s.nodes.size := by rw [Std.ExtTreeMap.length_keys]; rfl

end Store

namespace World

variable {data : List Bytes} {store store' : Store} {log log' : List (Hash × Bytes)}
  {v w w' : World} {record : Address → Option Account} {plains : Plains} {a : Account} {p : Plain}

/-- What a record leads to stays there when the store grows. -/
theorem Shows.grows (h : w.Shows data store log a p) (hd : Apart data)
    (hbacks : store.Backs data log) (hs : store.Grows data store') :
    w.Shows data store' log a p where
  nonce_eq := h.nonce_eq
  balance_eq := h.balance_eq
  codeHash_eq := h.codeHash_eq
  nonce_le := h.nonce_le
  code_mem := h.code_mem
  hasCode := h.hasCode.imp_right (Or.imp_right (hs.keeps _ h.code_mem))
  slots := Trie.HasHashed.extend h.slots (hbacks.has hd) ((hbacks.grows hs).has hd)
    (List.Subset.refl log)
  root_eq := h.root_eq

/-- **A world holds what it held** when the store under it grows. -/
theorem Holds.grows (h : w.Holds data store log record plains) (hs : store.Grows data store') :
    w.Holds data store' log record plains where
  apart := h.apart
  backs := h.backs.grows hs
  accounts := h.accounts.extend (h.backs.has h.apart) ((h.backs.grows hs).has h.apart)
    (List.Subset.refl log)
  shows address haddress := by
    rcases h.cases haddress with ⟨hrecord, hplain⟩ | ⟨a, p, hrecord, hplain, haddr, hshow⟩
    · rw [hrecord, hplain]
      exact .none
    · rw [hrecord, hplain]
      exact .some ⟨haddr, hshow.grows h.apart h.backs hs⟩
  codes := h.codes

/-- **Persisting a world** grows the store. -/
theorem grows_of_persist (hcol : Collisionless data) (hpending : w.pending ⊆ data)
    (h : w.persist store = .ok w' store') : store.Grows data store' := by
  obtain ⟨_, store₁, hcommit, h⟩ := bind_eq_ok h
  cases h
  rw [Store.commit] at hcommit
  split at hcommit
  · cases hcommit
  · cases hcommit
    obtain ⟨hreads, hcommits⟩ := Store.foldl_write_fails w.writes store
    refine ⟨hreads, hcommits, fun b hb hkeeps => ?_⟩
    refine Store.Keeps.foldl_write hcol (fun x hx => ?_) hb (.inl hkeeps)
    rw [writes_eq] at hx
    exact Store.exists_putting w.addressed_nodes
      (fun c hc => hpending (List.mem_append_left _ hc))
      (fun y hy => hpending (List.mem_append_right _ (List.mem_map_of_mem hy))) hx

/-! ## Queries -/

/-- A query to a world. -/
inductive Query where
  | account (address : Address)
  | code (address : Address)
  | slot (address : Address) (key : Word)
  | slotsFrom (address : Address) (start : Hash) (limit : Nat)
deriving DecidableEq, Repr

/-- The address that a query is about. -/
def Query.address : Query → Address
  | account address | code address | slot address _ | slotsFrom address _ _ => address

/-- What a world replies. -/
inductive Reply where
  | account (found : Option Account)
  | code (code : Bytes)
  | slot (value : Word)
  | slots (found : List (Hash × Word))
deriving DecidableEq, Repr

/-- The reply of a world over a store. -/
def reply (w : World) (store : Store) : Query → Except StateError Reply
  | .account address => (w.account? store address).map .account
  | .code address => (w.code store address).map .code
  | .slot address key => (w.slot store address key).map .slot
  | .slotsFrom address start limit => (w.slotsFrom store address start limit).map .slots

/-! ### Accounts -/

/-- Without storage in memory a record leads to the same from any address. -/
theorem Shows.at (h : w.Shows data store log a p) (hstorages : w.storages = ∅)
    (address : Address) : w.Shows data store log { a with address } p := by
  have hstorage : w.storageOf { a with address } = w.storageOf a := by
    rw [storageOf, storageOf, hstorages, Std.ExtTreeMap.getD_empty, Std.ExtTreeMap.getD_empty]
  refine ⟨h.nonce_eq, h.balance_eq, h.codeHash_eq, h.nonce_le, h.code_mem, h.hasCode, ?_, ?_⟩
  · rw [hstorage]
    exact h.slots
  · rw [hstorage]
    exact h.root_eq

/-- **The account at any address** is one that the world holds, or there is none. -/
theorem Holds.account?_of_hash (h : w.Holds data store log record plains) {address : Address}
    (haddress : Address.toBytes address ∈ data ∨ w.storages = ∅) :
    w.account? store address = .ok none ∨
      ∃ known a p, Address.toBytes known ∈ data ∧ known.hash = address.hash ∧
        record known = some a ∧ plains known = some p ∧
        w.account? store address = .ok (some { a with address }) ∧
        w.Shows data store log { a with address } p := by
  rcases h.accounts.get_cases (Hash.toBytes address.hash) with hnone | ⟨known, hknown, hkey, hget⟩
  · refine .inl ?_
    rw [account?, hnone]
    rfl
  · have hhash : known.hash = address.hash := (Hash.toBytes_injective hkey).symm
    rcases h.cases hknown with ⟨hrecord, -⟩ | ⟨a, p, hrecord, hplain, haddr, hshow⟩
    · refine .inl ?_
      rw [account?, hget, Function.comp_apply, hrecord]
      rfl
    · refine .inr ⟨known, a, p, hknown, hhash, hrecord, hplain, ?_, ?_⟩
      · have hdecode : Account.decode address a.encode = .ok { a with address } :=
          Account.decode_encode (a := { a with address }) (hshow.nonce_eq.trans_le hshow.nonce_le)
        rw [account?, hget, Function.comp_apply, hrecord]
        simp only [Except.mapError, Option.map_some, bind, Except.bind, hdecode]
        rfl
      · rcases haddress with haddress | hstorages
        · have hsame : known = address := Address.toBytes_injective
            (h.apart.collisionless _ hknown _ haddress hhash)
          rw [← hsame, ← haddr]
          exact hshow
        · exact hshow.at hstorages address

/-! ### Slots -/

/-- A slot that is kept is read. -/
theorem exists_word_of_slotEntry {value : Word} {b : Bytes} (h : slotEntry value = some b) :
    ∃ word, Rlp.word b = .ok word := by
  rw [slotEntry] at h
  split at h
  · cases h
  · cases h
    exact ⟨value, Rlp.word_number value⟩

/-- **A slot** is read alike from records that lead to one account. -/
theorem Shows.accountSlot_eq (h : v.Shows data store log a p) (h' : w.Shows data store' log' a p)
    (key : Word) : ∃ value, v.accountSlot store a key = .ok value ∧
      w.accountSlot store' a key = .ok value := by
  obtain ⟨hsame, hcases⟩ := h.slots.get_eq_get h'.slots (Hash.toBytes (slotHash key))
  rw [accountSlot, accountSlot, ← hsame]
  rcases hcases with hnone | ⟨known, -, -, hget⟩
  · rw [hnone]
    exact ⟨0, rfl, rfl⟩
  · rw [hget]
    cases hentry : slotEntry (p.slots known) with
    | none => exact ⟨0, rfl, rfl⟩
    | some b =>
      obtain ⟨word, hword⟩ := exists_word_of_slotEntry hentry
      simp only [Except.mapError, bind, Except.bind, hword]
      exact ⟨word, rfl, rfl⟩

theorem exists_mapM_word {entries : List (Hash × Bytes)}
    (h : ∀ x ∈ entries, ∃ word, Rlp.word x.2 = .ok word) :
    ∃ slots, entries.mapM (fun (h, b) => do
      return (h, ← (Rlp.word b).mapError StateError.decoder)) = .ok slots := by
  induction entries with
  | nil => exact ⟨[], rfl⟩
  | cons x entries ih =>
    obtain ⟨word, hword⟩ := h x List.mem_cons_self
    obtain ⟨slots, hslots⟩ := ih fun y hy => h y (List.mem_cons_of_mem x hy)
    refine ⟨(x.1, word) :: slots, ?_⟩
    rw [List.mapM_cons, hslots]
    simp only [hword]
    rfl

/-- **A listing of slots** is alike from records that lead to one account. -/
theorem Shows.listing_eq (h : v.Shows data store log a p) (h' : w.Shows data store' log' a p)
    (hs : store.nodes.Has log) (hs' : store'.nodes.Has log') (start : Hash) (limit : Nat) :
    ∃ entries slots, (v.storageOf a).entriesFrom store.nodes start limit = .ok entries ∧
      (w.storageOf a).entriesFrom store'.nodes start limit = .ok entries ∧
      entries.mapM (fun (h, b) => do
        return (h, ← (Rlp.word b).mapError StateError.decoder)) = .ok slots := by
  obtain ⟨entries, hlist, hlist', hentries⟩ := h.slots.entriesFrom_eq h'.slots hs hs'
    store.bounded_nodes store'.bounded_nodes start limit
  obtain ⟨slots, hslots⟩ := exists_mapM_word fun x hx => by
    obtain ⟨known, -, hentry⟩ := hentries x hx
    exact exists_word_of_slotEntry hentry
  exact ⟨entries, slots, hlist, hlist', hslots⟩

/-! ### Replies -/

/-- The reply to a query about an address that has no account. -/
def Query.blank : Query → Reply
  | .account _ => .account none
  | .code _ => .code []
  | .slot _ _ => .slot 0
  | .slotsFrom _ _ _ => .slots []

theorem reply_of_none {q : Query} (h : w.account? store q.address = .ok none) :
    w.reply store q = .ok q.blank := by
  cases q with
  | account address =>
    change w.account? store address = _ at h
    rw [reply, h]
    rfl
  | code address =>
    change w.account? store address = _ at h
    rw [reply, code, h]
    rfl
  | slot address key =>
    change w.account? store address = _ at h
    rw [reply, slot, h]
    rfl
  | slotsFrom address start limit =>
    change w.account? store address = _ at h
    rw [reply, slotsFrom, h]
    rfl

/-- Worlds in which one account is found give the same replies, without fail. -/
theorem Holds.reply_eq_of_some (h : v.Holds data store log record plains)
    (h' : w.Holds data store' log' record plains) (ha : v.Shows data store log a p)
    (ha' : w.Shows data store' log' a p) {q : Query}
    (hv : v.account? store q.address = .ok (some a))
    (hw : w.account? store' q.address = .ok (some a)) :
    ∃ r, v.reply store q = .ok r ∧ w.reply store' q = .ok r := by
  -- each reply is a function of the account, once that is read
  cases q with
  | account address =>
    change v.account? store address = _ at hv
    change w.account? store' address = _ at hw
    refine ⟨.account (some a), ?_, ?_⟩
    · rw [reply, hv]
      rfl
    · rw [reply, hw]
      rfl
  | code address =>
    change v.account? store address = _ at hv
    change w.account? store' address = _ at hw
    refine ⟨.code p.code, ?_, ?_⟩
    · rw [reply, code, hv]
      exact congrArg (Except.map Reply.code) (h.accountCode_eq ha)
    · rw [reply, code, hw]
      exact congrArg (Except.map Reply.code) (h'.accountCode_eq ha')
  | slot address key =>
    change v.account? store address = _ at hv
    change w.account? store' address = _ at hw
    obtain ⟨value, hvalue, hvalue'⟩ := ha.accountSlot_eq ha' key
    refine ⟨.slot value, ?_, ?_⟩
    · rw [reply, slot, hv]
      exact congrArg (Except.map Reply.slot) hvalue
    · rw [reply, slot, hw]
      exact congrArg (Except.map Reply.slot) hvalue'
  | slotsFrom address start limit =>
    change v.account? store address = _ at hv
    change w.account? store' address = _ at hw
    obtain ⟨entries, slots, hlist, hlist', hslots⟩ := ha.listing_eq ha' (h.backs.has h.apart)
      (h'.backs.has h'.apart) start limit
    refine ⟨.slots slots, ?_, ?_⟩
    · rw [reply, slotsFrom, hv]
      simp only [bind, Except.bind, hlist, Except.mapError]
      exact congrArg (Except.map Reply.slots) hslots
    · rw [reply, slotsFrom, hw]
      simp only [bind, Except.bind, hlist', Except.mapError]
      exact congrArg (Except.map Reply.slots) hslots

/-- **Worlds that hold the same accounts in the same records give the same replies**, without
fail. -/
theorem Holds.reply_eq (h : v.Holds data store log record plains)
    (h' : w.Holds data store' log' record plains) (q : Query)
    (hv : Address.toBytes q.address ∈ data ∨ v.storages = ∅)
    (hw : Address.toBytes q.address ∈ data ∨ w.storages = ∅) :
    ∃ r, v.reply store q = .ok r ∧ w.reply store' q = .ok r := by
  have hsame : v.account? store q.address = w.account? store' q.address := by
    rw [account?, account?, (h.accounts.get_eq_get h'.accounts _).1]
  rcases h.account?_of_hash hv with hnone | ⟨known, a, p, hknown, hhash, hrecord, hplain, hsome, hshow⟩
  · exact ⟨q.blank, reply_of_none hnone, reply_of_none (hsame ▸ hnone)⟩
  · have hsome' := hsame ▸ hsome
    -- the record that the other world finds is kept under the same address
    rcases h'.account?_of_hash hw with
      hnone | ⟨known', a', p', hknown', hhash', hrecord', hplain', -, hshow'⟩
    · rw [hsome'] at hnone
      cases hnone
    · obtain rfl : known = known' := Address.toBytes_injective
        (h.apart.collisionless _ hknown _ hknown' (hhash.trans hhash'.symm))
      obtain rfl : a = a' := Option.some.inj (hrecord.symm.trans hrecord')
      obtain rfl : p = p' := Option.some.inj (hplain.symm.trans hplain')
      exact h.reply_eq_of_some h' hshow hshow' hsome hsome'

end World
end Ethereum
