/-
# Slots are listed exactly

The slots of an account are listed by the hashes of their keys, from a given hash on.
The trie of slots lists its entries exactly (`Trie.Has.listsExactly`), each of them is
under the hash of a key and writes a word that is not zero, and a slot that is read as
something else than zero has an entry.  So a listing has the slots that are not zero, as
they are read one by one (`World.Holds.listsExactly`).

This goes for every world that calls of journals and persisting leave, and for tries
after any changes, in memory or in a store (`exact_listings`).
-/

import Mathlib
import Ethereum.Proofs.State.Replying
import Ethereum.Proofs.State.Roots
import Ethereum.Proofs.Trie.Ranging

namespace Ethereum
namespace World

variable {data : List Bytes} {store : Store} {log : List (Hash × Bytes)} {w : World}
  {record : Address → Option Account} {plains : Plains} {address : Address} {a : Account} {p : Plain}

/-- The word that an entry of a trie of slots writes. -/
def wordOf (b : Bytes) : Word := (Rlp.word b).toOption.getD 0

theorem wordOf_number (value : Word) : wordOf (Rlp.number value.toNat) = value := by
  rw [wordOf, Rlp.word_number]
  rfl

theorem mapM_word_eq {entries : List (Hash × Bytes)}
    (h : ∀ x ∈ entries, Rlp.word x.2 = .ok (wordOf x.2)) :
    entries.mapM (fun (h, b) => do
      return (h, ← (Rlp.word b).mapError StateError.decoder)) =
        .ok (entries.map fun x => (x.1, wordOf x.2)) := by
  induction entries with
  | nil => rfl
  | cons x entries ih =>
    rw [List.mapM_cons, ih fun y hy => h y (List.mem_cons_of_mem x hy)]
    simp only [h x List.mem_cons_self]
    rfl

/-- What a trie of slots has: words that are not zero, under hashes of keys. -/
theorem Shows.exists_entries (h : w.Shows data store log a p) :
    ∃ m, (w.storageOf a).Has store.nodes log m ∧
      ∀ k b, m (Hash.toBytes k) = some b →
        Rlp.word b = .ok (wordOf b) ∧ wordOf b ≠ 0 ∧ ∃ key, slotHash key = k := by
  obtain ⟨m, hm, -, hentry, honly⟩ := h.slots
  refine ⟨m, hm, fun k b hb => ?_⟩
  obtain ⟨key, hkey, hhash⟩ := honly (Hash.toBytes k) (by rw [hb]; exact Option.some_ne_none b)
  rw [hhash, hentry key hkey] at hb
  change slotEntry (p.slots key) = some b at hb
  rw [slotEntry] at hb
  split at hb
  · cases hb
  · rename_i hzero
    cases hb
    rw [wordOf_number]
    exact ⟨Rlp.word_number _, hzero, key, (Hash.toBytes_injective hhash).symm⟩

/-- **The slots of an account are listed exactly**: those that are not zero, by the hashes
of their keys. -/
theorem Shows.listsExactly (h : w.Shows data store log a p) (hs : store.nodes.Has log)
    (ha : w.account? store address = .ok (some a)) :
    ListsExactly (w.slotsFrom store address) fun k v =>
      v ≠ 0 ∧ ∃ key, slotHash key = k ∧ w.slot store address key = .ok v := by
  obtain ⟨m, hm, hwords⟩ := h.exists_entries
  have hslot (key : Word) : w.slot store address key =
      .ok (((m (Hash.toBytes (slotHash key))).map wordOf).getD 0) := by
    rw [slot, ha]
    show w.accountSlot store a key = _
    rw [accountSlot, hm.get_eq]
    cases hb : m (Hash.toBytes (slotHash key)) with
    | none => rfl
    | some b =>
      simp only [Except.mapError, bind, Except.bind, (hwords _ b hb).1]
      rfl
  have hlist : ListsExactly (w.slotsFrom store address) fun k v =>
      ∃ b, m (Hash.toBytes k) = some b ∧ wordOf b = v := by
    refine (hm.listsExactly hs store.bounded_nodes).map wordOf fun start limit xs hxs hentries => ?_
    rw [slotsFrom, ha]
    simp only [bind, Except.bind, hxs, Except.mapError]
    exact mapM_word_eq fun x hx => (hwords x.1 x.2 (hentries x hx)).1
  refine hlist.congr fun k v => ⟨?_, ?_⟩
  · rintro ⟨b, hb, rfl⟩
    obtain ⟨-, hne, key, rfl⟩ := hwords k b hb
    exact ⟨hne, key, rfl, by rw [hslot, hb]; rfl⟩
  · rintro ⟨hne, key, rfl, hv⟩
    rw [hslot] at hv
    cases hb : m (Hash.toBytes (slotHash key)) with
    | none =>
      rw [hb] at hv
      exact absurd (Except.ok.inj hv).symm hne
    | some b =>
      rw [hb] at hv
      exact ⟨b, rfl, Except.ok.inj hv⟩

/-- There is nothing to list where there is no account. -/
theorem listsExactly_of_none (h : w.account? store address = .ok none) :
    ListsExactly (w.slotsFrom store address) fun k v =>
      v ≠ 0 ∧ ∃ key, slotHash key = k ∧ w.slot store address key = .ok v := by
  refine fun start => ⟨[], .nil, fun k v => ?_, fun limit => ?_⟩
  · refine iff_of_false List.not_mem_nil ?_
    rintro ⟨-, hne, key, -, hv⟩
    rw [slot, h] at hv
    exact hne (Except.ok.inj hv).symm
  · rw [slotsFrom, h, List.take_nil]
    rfl

/-- **Every account of a world has its slots listed exactly.** -/
theorem Holds.listsExactly (h : w.Holds data store log record plains)
    (hcol : Collisionless (Address.toBytes address :: data)) :
    ListsExactly (w.slotsFrom store address) fun k v =>
      v ≠ 0 ∧ ∃ key, slotHash key = k ∧ w.slot store address key = .ok v := by
  rcases h.account?_cases hcol with hnone | ⟨a, p, hsome, -, hshow⟩
  · exact listsExactly_of_none hnone
  · exact hshow.listsExactly (h.backs.has h.apart) hsome

end World

open Trie (left) in
/-- **Ranged listings are exact.**  From any start on and up to any limit, a trie lists
the first entries with a key of 32 bytes that its changes left, in the order of their
bytes, whether it is in memory or reads from a store what was committed to it; and
page by page, each from the key after the last one on, it lists all of them once.  A
world lists in this way the slots of an account that are not zero, by the hashes of
their keys.

In a store no two encodings that were hashed have one hash, and keys and values fit in
memory; a trie is opened again right after a commit only. -/
theorem exact_listings :
    (∀ g h : Hash, g < h ↔ Hash.toBytes g < Hash.toBytes h) ∧
    (∀ cs : List Trie.Call,
      let list := (Trie.Mode.inMemory.run cs).2.trie.entriesFrom .none
      let entry := fun h v => left cs (Hash.toBytes h) = some v
      ListsExactly list entry ∧ PagesExactly list entry) ∧
    (∀ cs : List Trie.Call, (∀ c ∈ cs, c.Fits) →
      (cs.IsChain fun c d => d = .reopen → c = .commit) →
      Collisionless (Trie.encodings (Trie.Mode.stored.run cs).2.log) →
      let list := (Trie.Mode.stored.run cs).2.trie.entriesFrom
        (Trie.Mode.stored.source (Trie.Mode.stored.run cs).2.log)
      let entry := fun h v => left cs (Hash.toBytes h) = some v
      ListsExactly list entry ∧ PagesExactly list entry) ∧
    ∀ (entries : Std.ExtTreeMap Bytes Bytes) (cs : List Call) (address : Address),
      Collisionless (Address.toBytes address :: Ledger.involved cs (Ledger.start entries)) →
      let s := Ledger.run cs (Ledger.start entries)
      let list := s.journal.world.slotsFrom s.store address
      let entry := fun h v =>
        v ≠ 0 ∧ ∃ key, slotHash key = h ∧ s.journal.world.slot s.store address key = .ok v
      ListsExactly list entry ∧ PagesExactly list entry := by
  refine ⟨fun g h => (Hash.toBytes_lt_iff g h).symm, fun cs => ?_,
    fun cs hfit hreopen hcol => ?_, fun entries cs address hcol => ?_⟩
  · have hlists := Trie.listsExactly_inMemory cs
    exact ⟨hlists, hlists.pagesExactly⟩
  · have hlists := Trie.listsExactly_stored hfit hreopen hcol
    exact ⟨hlists, hlists.pagesExactly⟩
  · obtain ⟨log, record, htracks⟩ :=
      Ledger.refines_run entries (hcol.mono (List.subset_cons_self _ _)) (List.Subset.refl _)
    have hlists := htracks.holds.listsExactly hcol
    exact ⟨hlists, hlists.pagesExactly⟩

/-- What is hashed on the way to a world with one slot. -/
theorem Ledger.involved_slot : involved [.setSlot 1 0 7, .commit] (start ∅) =
    [[], Node.null.encode, Address.toBytes 1, Word.toBytes 0, (slotLeaf 0 7).encode,
      (accountLeaf 1 0 7).encode] := by
  rw [involved, List.cons_append, hashed, call_setSlot_start, List.cons_append, hashed,
    call_commit_first _ 1 0 7 (by decide)]
  change [] :: Node.null.encode :: Address.toBytes 1 :: Word.toBytes 0 ::
    ((firstWorld 1 0 7).pending ++ []) = _
  rw [pending_first]
  rfl

/-- A word and the empty key in a store, and a slot of a world. -/
theorem exact_listings_of_few :
    let cs : List Trie.Call :=
      [.change (.put (Hash.toBytes 5) [1]), .change (.put [] [2]), .commit, .reopen]
    let ds : List Call := [.setSlot 1 0 7, .commit]
    let t := (Trie.Mode.stored.run cs).2
    let s := Ledger.run ds (Ledger.start ∅)
    ((∀ c ∈ cs, c.Fits) ∧ (cs.IsChain fun c d => d = .reopen → c = .commit) ∧
      Collisionless (Trie.encodings t.log) ∧
      Collisionless (Address.toBytes 1 :: Ledger.involved ds (Ledger.start ∅))) ∧
    ListsExactly (t.trie.entriesFrom (Trie.Mode.stored.source t.log))
      (fun h v => Trie.left cs (Hash.toBytes h) = some v) ∧
    ListsExactly (s.journal.world.slotsFrom s.store 1) fun h v =>
      v ≠ 0 ∧ ∃ key, slotHash key = h ∧ s.journal.world.slot s.store 1 key = .ok v := by
  intro cs ds t s
  have hfit : ∀ c ∈ cs, c.Fits := by
    simp [cs, Trie.Call.Fits, Trie.Change.Fits, Trie.Change.key, Trie.Change.entry,
      Hash.length_toBytes]
  have hreopen : cs.IsChain fun c d => d = .reopen → c = .commit := by
    simp [cs]
  let leaf : Trie := ⟨.leaf (Path.ofBytes (Hash.toBytes 5)) [1]⟩
  let fork : Trie := ⟨Node.wrap []
    (Node.place [] [2] (Node.place (Path.ofBytes (Hash.toBytes 5)) [1] Node.emptyBranch))⟩
  have hleaf : (Trie.Mode.stored.call ⟨.empty, []⟩ (.change (.put (Hash.toBytes 5) [1]))).2 =
      ⟨leaf, []⟩ := by
    refine congrArg Prod.snd (Trie.Mode.call_change (s := ⟨.empty, []⟩) ?_)
    rw [Trie.change, Trie.insert, Trie.empty, Node.insert_null]
    rfl
  have hfork : (Trie.Mode.stored.call ⟨leaf, []⟩ (.change (.put [] [2]))).2 = ⟨fork, []⟩ := by
    refine congrArg Prod.snd (Trie.Mode.call_change (s := ⟨leaf, []⟩) ?_)
    rw [Trie.change, Trie.insert, Node.insert_leaf]
    rfl
  have hrun : (Trie.Mode.stored.run
      [.change (.put (Hash.toBytes 5) [1]), .change (.put [] [2])]).2 = ⟨fork, []⟩ := by
    rw [Trie.bench_run, List.foldl_cons, hleaf, List.foldl_cons, hfork, List.foldl_nil]
  have hcol : Collisionless (Trie.encodings t.log) := by
    have hlog : t.log = fork.writes := Trie.log_run_commit hrun (by simp)
    rw [hlog]
    decide +kernel
  have hcol' : Collisionless (Address.toBytes 1 :: Ledger.involved ds (Ledger.start ∅)) := by
    rw [Ledger.involved_slot]
    decide +kernel
  obtain ⟨-, -, hstored, hworld⟩ := exact_listings
  exact ⟨⟨hfit, hreopen, hcol, hcol'⟩, (hstored cs hfit hreopen hcol).1, (hworld ∅ ds 1 hcol').1⟩

end Ethereum
