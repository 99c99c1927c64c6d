/-
# Accounts and slots are read as they were written

An account is read back from its encoding at whatever address it is looked up
(`Account.decode_encode_at`), so what is encoded can be told from the encoding
(`Account.eq_of_encode_eq`).

The bytes of a word are never empty, so the trie of slots keeps them.  Reading them gives the
word, one slot at a time (`World.accountSlot_of_stored`) and in a listing, which has one word
for each entry (`World.slotsFrom_eq_ok`).

Writing a scope leaves these bytes under the hash of each slot that it shows
(`World.storedSlot_applyScope`), whatever the world and its store had: the last write of a
slot with the hash decides (`World.get_writeSlots`), and the storage of an address is changed
by its own overlay only (`World.slotsWritten_applyScope`).  So the slots of the scope are
read from the new world one by one, and in every listing that is long enough
(`entries_round_trip`).
-/

import Mathlib
import Ethereum.Proofs.State.Ranging
import Ethereum.Proofs.State.Renewing
import Ethereum.Proofs.Trie.Covering

namespace Ethereum

/-! ## Accounts -/

namespace Account

variable {a b : Account}

/-- An encoding tells all of an account but its address. -/
theorem decode_encode_at (h : a.nonce ≤ Quantity.max) (address : Address) :
    decode address a.encode = .ok { a with address } :=
  decode_encode (a := { a with address }) h

/-- **Accounts with one encoding** differ in their addresses only. -/
theorem eq_of_encode_eq (ha : a.nonce ≤ Quantity.max) (hb : b.nonce ≤ Quantity.max)
    (h : a.encode = b.encode) : { a with address := b.address } = b := by
  have hdecode := decode_encode_at ha b.address
  rw [h, decode_encode hb] at hdecode
  exact (Except.ok.inj hdecode).symm

end Account

namespace World

variable {store : Store} {w w' : World} {a : Account} {address : Address} {key value : Word}
  {o : Overlay} {s : Scope}

/-! ## Reading slots -/

/-- What the storage of an account has for a slot. -/
def storedSlot (w : World) (store : Store) (a : Account) (key : Word) :
    Except TrieError (Option Bytes) :=
  (w.storageOf a).get store.nodes (Hash.toBytes (slotHash key))

/-- **A word is read** from its bytes. -/
theorem accountSlot_of_stored
    (h : w.storedSlot store a key = .ok (some (Rlp.number value.toNat))) :
    w.accountSlot store a key = .ok value := by
  rw [storedSlot] at h
  rw [accountSlot, h]
  simp only [Except.mapError, bind, Except.bind, Rlp.word_number]

/-- Listing reads a word from each entry. -/
theorem eq_of_mapM_word {entries : List (Hash × Bytes)} {slots : List (Hash × Word)}
    (h : entries.mapM (fun (h, b) => do
      return (h, ← (Rlp.word b).mapError StateError.decoder)) = .ok slots) :
    slots = entries.map fun x => (x.1, wordOf x.2) := by
  induction entries generalizing slots with
  | nil => exact (Except.ok.inj h).symm
  | cons x entries ih =>
    rw [List.mapM_cons] at h
    obtain ⟨y, hy, h⟩ := exists_of_bind_eq_ok h
    obtain ⟨ys, hys, h⟩ := exists_of_bind_eq_ok h
    obtain rfl := Except.ok.inj h
    obtain ⟨v, hv, hy⟩ := exists_of_bind_eq_ok hy
    obtain rfl := Except.ok.inj hy
    rw [List.map_cons, ← ih hys, wordOf, mapError_eq_ok hv]
    rfl

variable {start k : Hash} {limit : Nat} {entries : List (Hash × Bytes)}
  {slots : List (Hash × Word)}

/-- **A listing that returns** has the words of all entries that the storage lists. -/
theorem slotsFrom_eq_ok (ha : w.account? store address = .ok (some a))
    (h : w.slotsFrom store address start limit = .ok slots) :
    ∃ entries, (w.storageOf a).entriesFrom store.nodes start limit = .ok entries ∧
      slots = entries.map fun x => (x.1, wordOf x.2) := by
  rw [slotsFrom, ha] at h
  obtain ⟨entries, hentries, hwords⟩ := exists_of_bind_eq_ok (x := ((w.storageOf a).entriesFrom
    store.nodes start limit).mapError StateError.trie) h
  exact ⟨entries, mapError_eq_ok hentries, eq_of_mapM_word hwords⟩

/-- **Words are listed** from their bytes. -/
theorem slotsFrom_of_stored (ha : w.account? store address = .ok (some a))
    (h : (w.storageOf a).entriesFrom store.nodes start limit =
      .ok (slots.map fun x => (x.1, Rlp.number x.2.toNat))) :
    w.slotsFrom store address start limit = .ok slots := by
  have hwords : ∀ x ∈ slots.map fun x => (x.1, Rlp.number x.2.toNat),
      Rlp.word x.2 = .ok (wordOf x.2) := by
    intro x hx
    obtain ⟨y, -, rfl⟩ := List.mem_map.mp hx
    rw [wordOf_number]
    exact Rlp.word_number y.2
  rw [slotsFrom, ha]
  simp only [bind, Except.bind, h, Except.mapError]
  refine (mapM_word_eq hwords).trans (congrArg Except.ok ?_)
  rw [List.map_map]
  refine (List.map_congr_left fun x _ => ?_).trans (List.map_id slots)
  show (x.1, wordOf (Rlp.number x.2.toNat)) = x
  rw [wordOf_number]

/-- The bytes of a word in the storage are its word in the listing. -/
theorem mem_slotsFrom_of_stored (ha : w.account? store address = .ok (some a))
    (hentries : (w.storageOf a).entriesFrom store.nodes start limit = .ok entries)
    (h : w.slotsFrom store address start limit = .ok slots)
    (hmem : (k, Rlp.number value.toNat) ∈ entries) : (k, value) ∈ slots := by
  obtain ⟨entries', hlist, rfl⟩ := slotsFrom_eq_ok ha h
  obtain rfl := Except.ok.inj (hentries.symm.trans hlist)
  have hword := List.mem_map_of_mem (f := fun x : Hash × Bytes => (x.1, wordOf x.2)) hmem
  rwa [wordOf_number] at hword

/-- **A slot that is read is listed**, if the listing starts before it and is not cut off. -/
theorem mem_slotsFrom_of_storedSlot (ha : w.account? store address = .ok (some a))
    (hstored : w.storedSlot store a key = .ok (some (Rlp.number value.toNat)))
    (h : w.slotsFrom store address start limit = .ok slots) (hstart : start ≤ slotHash key)
    (hroom : slots.length < limit) : (slotHash key, value) ∈ slots := by
  obtain ⟨entries, hentries, hslots⟩ := slotsFrom_eq_ok ha h
  refine mem_slotsFrom_of_stored ha hentries h ?_
  refine Trie.mem_of_entriesFrom hentries ?_ hstored hstart
  rwa [hslots, List.length_map] at hroom

/-! ## Writing slots -/

/-- **Slots that are written** leave their entries, where no other slot with the hash is
written as something else. -/
theorem get_writeSlots {l : List (Word × Word)} {t t' : Trie}
    (h : writeSlots store l t = .ok () t') (hmem : (key, value) ∈ l)
    (honly : ∀ x ∈ l, slotHash x.1 = slotHash key → x.2 = value) :
    t'.get store.nodes (Hash.toBytes (slotHash key)) = .ok (slotEntry value) := by
  rw [writeSlots_eq] at h
  have hread := read_of_forM (fun t : Trie => t.get store.nodes (Hash.toBytes (slotHash key)))
    (fun x : Word × Word => slotHash x.1 = slotHash key)
    (fun x answer => answer = .ok (slotEntry x.2)) (l := l) (fun x hx t t' hwrite => by
      have hchange : t.change store.nodes (slotChange x.1 x.2) = .ok t' := by
        rw [Trie.update] at hwrite
        cases hrun : t.change store.nodes (slotChange x.1 x.2) with
        | ok u =>
          simp only [hrun] at hwrite
          cases hwrite
          rfl
        | error e =>
          simp only [hrun] at hwrite
          cases hwrite
      rw [Trie.get_change hchange, key_slotChange, entry_slotChange, ← slotHash]
      by_cases hhash : slotHash x.1 = slotHash key
      · exact .inl ⟨hhash, by rw [hhash, Function.update_self]⟩
      · exact .inr ⟨hhash, Function.update_of_ne
          (fun heq => hhash (Hash.toBytes_injective heq).symm) _ _⟩) h
  rcases hread with ⟨x, hx, hhash, hanswer⟩ | ⟨hnone, -⟩
  · rw [hanswer, honly x hx hhash]
  · exact absurd rfl (hnone (key, value) hmem)

/-- The storage is what writing the slots of an overlay left. -/
def SlotsWritten (store : Store) (o : Overlay) (storage : Option Trie) : Prop :=
  ∃ t t', writeSlots store o.slots.toList t = .ok () t' ∧ storage = some t'

theorem slotsWritten_applyStorage {root : Hash} (hslots : o.slots ≠ ∅)
    (h : applyStorage store o w = .ok root w') :
    SlotsWritten store o w'.storages[o.address]? := by
  have hempty : ¬ o.slots.isEmpty = true := mt Std.ExtTreeMap.isEmpty_iff.mp hslots
  rw [applyStorage, if_neg hempty, applySlots] at h
  split at h
  · rename_i t' hwrite
    cases h
    exact ⟨_, t', hwrite, Std.ExtTreeMap.getElem?_insert_self⟩
  · cases h

theorem slotsWritten_applyOverlay (hslots : o.slots ≠ ∅)
    (h : applyOverlay store o w = .ok () w') :
    SlotsWritten store o w'.storages[o.address]? := by
  obtain ⟨root, w₁, t, hstorage, -, rfl⟩ := applyOverlay_eq_ok h
  show SlotsWritten store o (w₁.withCode o).storages[o.address]?
  rw [storages_withCode]
  exact slotsWritten_applyStorage hslots hstorage

section
variable (hlies : ∀ a o, s.lookup a = some (some o) → Overlay.LiesAt a o)
  (hrun : applyScope store s w = .ok () w') (hlookup : s.lookup address = some (some o))
include hlies hrun hlookup

/-- **The storage of an address** is left by the overlay that the scope shows there. -/
theorem slotsWritten_applyScope (hslots : o.slots ≠ ∅) :
    SlotsWritten store o w'.storages[address]? := by
  obtain ⟨_, w₁, -, hupdate⟩ := bind_eq_ok hrun
  have hupdated := read_of_forM (fun w : World => w.storages[address]?)
    (fun x : Address × Overlay => x.1 = address) (fun _ => SlotsWritten store o)
    (l := s.updated.toList) (fun x hx w w' h => by
      rcases applyOverlay_of_mem hx h with ⟨hshown, hwrite⟩ | ⟨hgone, rfl⟩
      · have haddress := (hlies x.1 x.2 hshown).address_eq
        by_cases hat : x.1 = address
        · rw [hat, hlookup] at hshown
          obtain rfl := Option.some.inj (Option.some.inj hshown)
          refine .inl ⟨hat, ?_⟩
          rw [← hat, ← haddress]
          exact slotsWritten_applyOverlay hslots hwrite
        · refine .inr ⟨hat, storages_applyOverlay (fun heq => hat ?_) hwrite⟩
          exact haddress.symm.trans heq.symm
      · refine .inr ⟨fun hat => ?_, rfl⟩
        rw [hat, hlookup] at hgone
        cases hgone) hupdate
  rcases hupdated with ⟨x, -, -, hwritten⟩ | ⟨hnone, -⟩
  · exact hwritten
  · have hmem := Std.ExtTreeMap.mem_toList_iff_getElem?_eq_some.mpr
      (Scope.updated_of_lookup hlookup)
    exact absurd rfl (hnone (address, o) hmem)

/-- **A slot of a scope that is written** is kept by its entry. -/
theorem storedSlot_applyScope (hslot : o.slots[key]? = some value)
    (honly : ∀ k v, o.slots[k]? = some v → slotHash k = slotHash key → v = value)
    (ha : a.address = address) : w'.storedSlot store a key = .ok (slotEntry value) := by
  have hslots : o.slots ≠ ∅ := by
    rintro hempty
    rw [hempty, Std.ExtTreeMap.getElem?_empty] at hslot
    cases hslot
  obtain ⟨t, t', hwrite, hstorage⟩ := slotsWritten_applyScope hlies hrun hlookup hslots
  have hstorageOf : w'.storageOf a = t' := by
    rw [storageOf, ha, Std.ExtTreeMap.getD_eq_getD_getElem?, hstorage, Option.getD_some]
  rw [storedSlot, hstorageOf]
  refine get_writeSlots hwrite (Std.ExtTreeMap.mem_toList_iff_getElem?_eq_some.mpr hslot) ?_
  exact fun x hx => honly x.1 x.2 (Std.ExtTreeMap.mem_toList_iff_getElem?_eq_some.mp hx)

end

end World

/-! ## The round trips -/

/-- A leaf lists its entry, from the first key on. -/
theorem Trie.entriesFrom_leaf (source : NodeSource) (h : Hash) {value : Bytes} (hvalue : value ≠ [])
    {limit : Nat} (hlimit : 0 < limit) :
    (Trie.mk (.leaf (Path.ofBytes (Hash.toBytes h)) value)).entriesFrom source 0 limit =
      .ok [(h, value)] := by
  have hlength : (Path.ofBytes (Hash.toBytes h)).length = 64 := by
    rw [Path.length_ofBytes, Hash.length_toBytes]
  have hafter : ¬ Path.ofBytes (Hash.toBytes h) < Path.ofBytes (Hash.toBytes 0) := by
    rw [Path.ofBytes_lt_iff, Hash.toBytes_lt_iff]
    exact BitVec.not_lt_zero
  have hword : Word.ofBytes (Hash.toBytes h) = h := Word.ofBytes_toBytes h
  have hasked : Node.asked (Path.ofBytes (Hash.toBytes 0))
      [(Path.ofBytes (Hash.toBytes h), value)] = [(h, value)] := by
    rw [Node.asked, List.filter_cons_of_pos (by simpa using And.intro hlength hafter), List.filter_nil,
      List.map_singleton, Path.toBytes_ofBytes, hword]
  have hleaf : (Node.leaf (Path.ofBytes (Hash.toBytes h)) value).Canonical := fun _ => hvalue
  rw [entriesFrom, Node.entriesFrom_eq hleaf, Node.inOrder, List.nil_append, hasked,
    List.take_of_length_le]
  exact hlimit

/-- **What the state keeps is read as it was written.**

An account is decoded from its encoding at any address, with the hash of that address, and
accounts with one encoding differ in their addresses only.

The bytes of a word that is not zero are not empty.  Wherever the storage of an account has
them for a slot, the slot is read as that word; and a listing returns the words of the bytes
that the storage lists.  Writing a scope leaves these bytes for the slots that the scope
shows, and then each slot is read as its word, and is in every listing that starts before it
and is not cut off.

Where an overlay writes two slots of one hash as different words, only one of them stays; such
slots are left out.  Nothing else is assumed of hashes, of the store or of the world before. -/
theorem entries_round_trip :
    (∀ (a : Account) (address : Address), a.nonce ≤ Quantity.max →
      (Account.decode address a.encode).map (fun b => (b, b.address.hash)) =
        .ok ({ a with address }, keccak (Address.toBytes address))) ∧
    (∀ a b : Account, a.nonce ≤ Quantity.max → b.nonce ≤ Quantity.max → a.encode = b.encode →
      a.nonce = b.nonce ∧ a.balance = b.balance ∧ a.storageRoot = b.storageRoot ∧
        a.codeHash = b.codeHash) ∧
    (∀ (store : Store) (w : World) (address : Address) (a : Account) (start : Hash) (limit : Nat)
        (slots : List (Hash × Word)), w.account? store address = .ok (some a) →
      (w.storageOf a).entriesFrom store.nodes start limit =
        .ok (slots.map fun x => (x.1, Rlp.number x.2.toNat)) →
      w.slotsFrom store address start limit = .ok slots) ∧
    ∀ value : Word, value ≠ 0 → Rlp.number value.toNat ≠ [] ∧
      (∀ (store : Store) (w : World) (a : Account) (key : Word),
        w.storedSlot store a key = .ok (some (Rlp.number value.toNat)) →
          w.accountSlot store a key = .ok value) ∧
      ∀ (store : Store) (s : Scope) (w w' : World) (address : Address) (o : Overlay) (key : Word),
        s.Regular → World.applyScope store s w = .ok () w' →
        s.lookup address = some (some o) → o.slots[key]? = some value →
        (∀ k v, o.slots[k]? = some v → slotHash k = slotHash key → v = value) →
        (∀ a : Account, a.address = address →
          w'.storedSlot store a key = .ok (some (Rlp.number value.toNat)) ∧
            w'.accountSlot store a key = .ok value) ∧
        w'.slot store address key = .ok value ∧
        ∀ start limit slots, w'.slotsFrom store address start limit = .ok slots →
          start ≤ slotHash key → slots.length < limit → (slotHash key, value) ∈ slots := by
  refine ⟨fun a address ha => ?_, fun a b ha hb heq => ?_,
    fun store w address a start limit slots ha hlist => World.slotsFrom_of_stored ha hlist,
    fun value hvalue => ⟨Rlp.number_ne_nil value,
      fun store w a key hstored => World.accountSlot_of_stored hstored, ?_⟩⟩
  · rw [Account.decode_encode_at ha]
    rfl
  · have hsame := Account.eq_of_encode_eq ha hb heq
    rw [← hsame]
    exact ⟨rfl, rfl, rfl, rfl⟩
  · intro store s w w' address o key hs hrun hlookup hslot honly
    have hstored (a : Account) (ha : a.address = address) :
        w'.storedSlot store a key = .ok (some (Rlp.number value.toNat)) :=
      (World.storedSlot_applyScope hs.liesAt hrun hlookup hslot honly ha).trans
        (congrArg Except.ok (if_neg hvalue))
    obtain ⟨a, hread⟩ := World.exists_of_applyScope hs.liesAt hrun hlookup
    have ha := (World.account?_spec hread).1
    refine ⟨fun b hb => ⟨hstored b hb, World.accountSlot_of_stored (hstored b hb)⟩, ?_,
      fun start limit slots hlist hstart hroom =>
        World.mem_slotsFrom_of_storedSlot hread (hstored a ha) hlist hstart hroom⟩
    rw [World.slot, hread]
    exact World.accountSlot_of_stored (hstored a ha)

/-- Two accounts with one encoding, and the first slot of an account that is written. -/
theorem entries_round_trip_of_slot :
    let a := Account.new 1 Quantity.max 300
    let b := Account.new 2 Quantity.max 300
    let store := (Ledger.start ∅).store
    let s := (Ledger.firstJournal 1 0 7).scope
    let o := (Overlay.fresh 1 0 0).setSlot 0 7
    let w := Ledger.firstWorld 1 0 7
    let record := (Overlay.fresh 1 0 0).toAccount (Ledger.slotLeaf 0 7).digest
    (a.nonce ≤ Quantity.max ∧ b.nonce ≤ Quantity.max ∧ a.encode = b.encode) ∧
    (s.Regular ∧ World.applyScope store s .empty = .ok () w ∧ s.lookup 1 = some (some o) ∧
      o.slots[(0 : Word)]? = some 7 ∧
      ∀ k v, o.slots[k]? = some v → slotHash k = slotHash 0 → v = 7) ∧
    (w.account? store 1 = .ok (some record) ∧
      (w.storageOf record).entriesFrom store.nodes 0 2 = .ok [(slotHash 0, Rlp.number 7)]) ∧
    (Account.decode 2 a.encode).map (fun c => (c, c.address.hash)) =
      .ok (b, keccak (Address.toBytes 2)) ∧
    a.balance = b.balance ∧ w.accountSlot store record 0 = .ok 7 ∧ w.slot store 1 0 = .ok 7 ∧
    w.slotsFrom store 1 0 2 = .ok [(slotHash 0, 7)] ∧ (slotHash 0, 7) ∈ [(slotHash 0, (7 : Word))] := by
  intro a b store s o w record
  have hnonce : a.nonce ≤ Quantity.max := le_refl _
  have hlies : o.LiesAt 1 := ⟨rfl, Nat.zero_le _⟩
  have hregular : s.Regular := Scope.regular_empty.put hlies
  have hrun : World.applyScope store s .empty = .ok () w :=
    Ledger.applyScope_first store 1 0 7 (by decide)
  have hlookup : s.lookup 1 = some (some o) := by
    show (Scope.empty.put o).lookup o.address = _
    rw [Scope.lookup_put, Function.update_self]
  have hslot : o.slots[(0 : Word)]? = some 7 := Std.ExtTreeMap.getElem?_insert_self
  have honly : ∀ k v, o.slots[k]? = some v → slotHash k = slotHash 0 → v = 7 := by
    intro k v hv _
    rw [show o.slots = (∅ : Std.ExtTreeMap Word Word).insert 0 7 from rfl,
      Std.ExtTreeMap.getElem?_insert, Std.ExtTreeMap.getElem?_empty] at hv
    split at hv
    · exact (Option.some.inj hv).symm
    · cases hv
  have hrecord : w.account? store 1 = .ok (some record) := by
    refine World.account?_of_written rfl (Nat.zero_le _) ?_
    exact (Node.lookup_leaf _ _ _).trans (congrArg Except.ok (if_pos rfl))
  have hlist : (w.storageOf record).entriesFrom store.nodes 0 2 =
      .ok [(slotHash 0, Rlp.number 7)] := by
    have hstorage : w.storageOf record = ⟨Ledger.slotLeaf 0 7⟩ := Std.ExtTreeMap.getD_insert_self
    rw [hstorage]
    exact Trie.entriesFrom_leaf store.nodes (slotHash 0) (Rlp.number_ne_nil 7) Nat.two_pos
  obtain ⟨hdecode, hsame, hlisted, hwords⟩ := entries_round_trip
  obtain ⟨hne, hread, happlied⟩ := hwords 7 (by decide)
  obtain ⟨hstored, hslotRead, hmem⟩ :=
    happlied store s .empty w 1 o 0 hregular hrun hlookup hslot honly
  have hslots := hlisted store w 1 record 0 2 [(slotHash 0, 7)] hrecord hlist
  exact ⟨⟨hnonce, hnonce, rfl⟩, ⟨hregular, hrun, hlookup, hslot, honly⟩, ⟨hrecord, hlist⟩,
    hdecode a 2 hnonce, (hsame a b hnonce hnonce rfl).2.1, hread store w record 0 (hstored record rfl).1,
    hslotRead, hslots, hmem 0 2 _ hslots (BitVec.le_def.mpr (Nat.zero_le _)) (by decide)⟩

end Ethereum
