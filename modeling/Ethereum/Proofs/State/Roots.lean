/-
# Worlds are told apart by their roots

The root of a world commits to its accounts in two layers of tries: the root of the
storage of an account is part of its record, and its records are the entries of the
trie of accounts.  So worlds with one root answer every read alike
(`World.Holds.reads_agree`), and worlds that hold alike accounts have one root
(`World.Holds.rootHash_eq`), whatever was called to get there and wherever their
nodes are kept (`Ledger.rootHash_eq_iff_agree`).
-/

import Mathlib
import Ethereum.Proofs.State.Refinement

namespace Ethereum

/-- Two accounts as a root tells them apart: the hashes of their code count, and the slots
with the keys among the data. -/
structure Plain.Alike (data : List Bytes) (p q : Plain) : Prop where
  nonce_eq : p.nonce = q.nonce
  balance_eq : p.balance = q.balance
  codeHash_eq : keccak p.code = keccak q.code
  slots_eq : ∀ key, Word.toBytes key ∈ data → p.slots key = q.slots key

theorem Plain.Alike.refl (data : List Bytes) (p : Plain) : p.Alike data p :=
  ⟨rfl, rfl, rfl, fun _ _ => rfl⟩

namespace World

variable {data : List Bytes} {store store' : Store} {log log' : List (Hash × Bytes)} {w w' : World}
  {record record' : Address → Option Account} {plains plains' : Plains} {address : Address}
  {a a' : Account} {p p' : Plain}

/-! ## Alike accounts -/

/-- Alike accounts have one record. -/
theorem Shows.record_eq (h : w.Shows data store log a p) (h' : w'.Shows data store' log' a' p')
    (haddress : a.address = a'.address) (halike : p.Alike data p') : a = a' := by
  have hroot : a.storageRoot = a'.storageRoot := by
    rw [h.root_eq, h'.root_eq]
    exact Trie.HasHashed.rootHash_eq h.slots h'.slots fun key hkey => by
      rw [halike.slots_eq key hkey]
  have hnonce : a.nonce = a'.nonce := by rw [h.nonce_eq, h'.nonce_eq, halike.nonce_eq]
  have hbalance : a.balance = a'.balance := by rw [h.balance_eq, h'.balance_eq, halike.balance_eq]
  have hcode : a.codeHash = a'.codeHash := by rw [h.codeHash_eq, h'.codeHash_eq, halike.codeHash_eq]
  cases a
  cases a'
  simp_all

/-- **Worlds that hold alike accounts have one root.** -/
theorem Holds.rootHash_eq (h : w.Holds data store log record plains)
    (h' : w'.Holds data store' log' record' plains')
    (halike : ∀ address, Address.toBytes address ∈ data →
      Option.Rel (Plain.Alike data) (plains address) (plains' address)) :
    w.rootHash = w'.rootHash := by
  refine h.accounts.rootHash_eq h'.accounts fun address haddress => ?_
  have hrel := halike address haddress
  rcases h.cases haddress with ⟨hrecord, hplain⟩ | ⟨a, p, hrecord, hplain, haddr, hshow⟩
  · rcases h'.cases haddress with ⟨hrecord', -⟩ | ⟨a', p', -, hplain', -, -⟩
    · rw [Function.comp_apply, Function.comp_apply, hrecord, hrecord']
    · rw [hplain, hplain'] at hrel
      cases hrel
  · rcases h'.cases haddress with ⟨-, hplain'⟩ | ⟨a', p', hrecord', hplain', haddr', hshow'⟩
    · rw [hplain, hplain'] at hrel
      cases hrel
    · rw [hplain, hplain'] at hrel
      cases hrel with
      | some hpp' =>
        rw [Function.comp_apply, Function.comp_apply, hrecord, hrecord',
          hshow.record_eq hshow' (haddr.trans haddr'.symm) hpp']

/-! ## Equal roots -/

/-- **An account that is found is among the data**, unless its address has the hash of
something else. -/
theorem Holds.account?_cases (h : w.Holds data store log record plains)
    (hcol : Collisionless (Address.toBytes address :: data)) :
    w.account? store address = .ok none ∨
      ∃ a p, w.account? store address = .ok (some a) ∧ a.address = address ∧
        w.Shows data store log a p := by
  by_cases haddress : Address.toBytes address ∈ data
  · rw [h.account?_eq haddress]
    rcases h.cases haddress with ⟨hrecord, -⟩ | ⟨a, p, hrecord, -, haddr, hshow⟩
    · exact .inl (by rw [hrecord])
    · exact .inr ⟨a, p, by rw [hrecord], haddr, hshow⟩
  · refine .inl ?_
    rcases h.accounts.get_cases (Hash.toBytes address.hash) with hget | ⟨k, hk, hhash, -⟩
    · rw [account?, hget]
      rfl
    · have hname := hcol _ List.mem_cons_self _ (List.mem_cons_of_mem _ hk)
        (Hash.toBytes_injective hhash)
      exact absurd (hname ▸ hk) haddress

/-- Every slot of an account is read. -/
theorem Shows.exists_slot (h : w.Shows data store log a p) (key : Word) :
    ∃ value, w.accountSlot store a key = .ok value := by
  rcases Trie.HasHashed.get_cases h.slots (Hash.toBytes (slotHash key)) with hget | ⟨k, hk, hhash, -⟩
  · refine ⟨0, ?_⟩
    rw [accountSlot, hget]
    rfl
  · refine ⟨p.slots k, ?_⟩
    rw [← Holds.accountSlot_eq h hk, accountSlot, accountSlot, hhash]
    rfl

/-- **Worlds with one root answer alike**: they find the same account at an address, and
the same value of every slot of it. -/
theorem Holds.reads_agree (h : w.Holds data store log record plains)
    (h' : w'.Holds data store' log' record' plains') (hw : w.pending ⊆ data)
    (hw' : w'.pending ⊆ data) (hroot : w.rootHash = w'.rootHash)
    (hcol : Collisionless (Address.toBytes address :: data)) :
    ∃ found, w.account? store address = .ok found ∧ w'.account? store' address = .ok found ∧
      ∀ key, ∃ value, w.slot store address key = .ok value ∧
        w'.slot store' address key = .ok value := by
  have hs := h.backs.has h.apart
  have hs' := h'.backs.has h'.apart
  have hnodes : ∀ x ∈ w.nodes, x.2 ∈ data := fun x hx =>
    hw (List.mem_append_right _ (List.mem_map_of_mem hx))
  have hnodes' : ∀ x ∈ w'.nodes, x.2 ∈ data := fun x hx =>
    hw' (List.mem_append_right _ (List.mem_map_of_mem hx))
  -- one root has one trie behind it, since the nodes have the hashes they are known by
  have hget : ∀ key, w.accounts.get store.nodes key = w'.accounts.get store'.nodes key :=
    h.accounts.get_congr h'.accounts hs hs' h.apart.collisionless h.apart.null_mem h.backs.mem_data
      h'.backs.mem_data (fun x hx => hnodes x (List.mem_append_right _ hx))
      (fun x hx => hnodes' x (List.mem_append_right _ hx)) hroot
  have haccount : w.account? store address = w'.account? store' address := by
    rw [account?, account?, hget]
  rcases h.account?_cases hcol with hnone | ⟨a, p, hsome, haddr, hshow⟩
  · refine ⟨none, hnone, haccount ▸ hnone, fun key => ⟨0, ?_, ?_⟩⟩
    · rw [slot, hnone]
      rfl
    · rw [slot, ← haccount, hnone]
      rfl
  · rcases h'.account?_cases hcol with hnone' | ⟨a', p', hsome', -, hshow'⟩
    · rw [← haccount, hsome] at hnone'
      cases hnone'
    · rw [← haccount, hsome] at hsome'
      cases hsome'
      -- the account names the root of its slots, so these agree too
      have hslots : ∀ key, (w.storageOf a).get store.nodes key =
          (w'.storageOf a).get store'.nodes key :=
        Trie.HasHashed.get_congr hshow.slots hshow'.slots hs hs' h.apart.collisionless
          h.apart.null_mem h.backs.mem_data h'.backs.mem_data
          (fun x hx => hnodes x (w.writes_storageOf_subset a hx))
          (fun x hx => hnodes' x (w'.writes_storageOf_subset a hx))
          (hshow.root_eq.symm.trans hshow'.root_eq)
      refine ⟨some a, hsome, haccount ▸ hsome, fun key => ?_⟩
      obtain ⟨value, hvalue⟩ := hshow.exists_slot key
      refine ⟨value, ?_, ?_⟩
      · rw [slot, hsome]
        exact hvalue
      · rw [slot, ← haccount, hsome]
        rw [accountSlot, hslots, ← accountSlot] at hvalue
        exact hvalue

end World

/-! ## Runs -/

/-- The accounts after calls one after the other. -/
def Snapshots.run (cs : List Call) (m : Snapshots) : Snapshots :=
  cs.foldl (fun m c => (m.call c).2) m

namespace Ledger

/-- What calls one after the other leave. -/
def run (cs : List Call) (s : Ledger) : Ledger := cs.foldl (fun s c => (s.call c).2) s

/-- What is hashed on the way to a world, and if it was persisted in the end: the empty
code and the empty trie have constant hashes. -/
def involved (cs : List Call) (s : Ledger) : List Bytes :=
  [] :: Node.null.encode :: hashed (cs ++ [.persist]) s

/-- Two worlds have the same account at an address: none, or one with the same nonce,
balance and hash of the code, and with the same value of every slot. -/
def Agree (s u : Ledger) (address : Address) : Prop :=
  ∃ found, s.readWorld address .account = .ok (.account found) ∧
    u.readWorld address .account = .ok (.account found) ∧
    (found ≠ none → ∀ key, ∃ value, s.readWorld address (.slot key) = .ok (.word value) ∧
      u.readWorld address (.slot key) = .ok (.word value))

variable {data : List Bytes} {s u : Ledger} {m n : Snapshots} {address : Address}

theorem hashed_append (cs ds : List Call) (s : Ledger) :
    hashed (cs ++ ds) s = hashed cs s ++ hashed ds (s.run cs) := by
  induction cs generalizing s with
  | nil => rfl
  | cons c cs ih =>
    rw [List.cons_append, hashed, hashed, ih, List.append_assoc]
    rfl

theorem hashed_subset_involved (cs : List Call) (s : Ledger) : hashed cs s ⊆ involved cs s := by
  rw [involved, hashed_append]
  exact fun b hb => List.mem_cons_of_mem _ (List.mem_cons_of_mem _ (List.mem_append_left _ hb))

theorem pending_subset_involved (cs : List Call) (s : Ledger) :
    (s.run cs).journal.world.pending ⊆ involved cs s := by
  rw [involved, hashed_append, hashed, hashed, List.append_nil]
  exact fun b hb => List.mem_cons_of_mem _ (List.mem_cons_of_mem _ (List.mem_append_right _ hb))

/-- What calls one after the other leave refines what they leave of the model. -/
theorem Refines.run (h : s.Refines data m) {cs : List Call} (hcs : hashed cs s ⊆ data) :
    (s.run cs).Refines data (m.run cs) := by
  induction cs generalizing s m with
  | nil => exact h
  | cons c cs ih =>
    obtain ⟨hc, hrest⟩ := List.append_subset.mp hcs
    exact ih (h.call hc).2 hrest

/-! ## Equal roots -/

/-- **Worlds with one root agree** wherever an address does not have the hash of something
else. -/
theorem Refines.agree (h : s.Refines data m) (h' : u.Refines data n)
    (hs : s.journal.world.pending ⊆ data) (hu : u.journal.world.pending ⊆ data)
    (hroot : s.journal.world.rootHash = u.journal.world.rootHash)
    (hcol : Collisionless (Address.toBytes address :: data)) : s.Agree u address := by
  obtain ⟨log, record, h⟩ := h
  obtain ⟨log', record', h'⟩ := h'
  obtain ⟨found, hfound, hfound', hslots⟩ := h.holds.reads_agree h'.holds hs hu hroot hcol
  refine ⟨found.map fun a => (a.nonce, a.balance, a.codeHash), ?_, ?_, fun _ key => ?_⟩
  · rw [readWorld, hfound]
    rfl
  · rw [readWorld, hfound']
    rfl
  · obtain ⟨value, hvalue, hvalue'⟩ := hslots key
    refine ⟨value, ?_, ?_⟩
    · rw [readWorld, hvalue]
      rfl
    · rw [readWorld, hvalue']
      rfl

/-- What worlds agree on are alike accounts of their models. -/
theorem Agree.alike (h : s.Refines data m) (h' : u.Refines data n)
    (haddress : Address.toBytes address ∈ data) (hagree : s.Agree u address) :
    Option.Rel (Plain.Alike data) (m.world address) (n.world address) := by
  obtain ⟨found, hfound, hfound', hslots⟩ := hagree
  rw [readWorld_eq h haddress (List.nil_subset _)] at hfound
  rw [readWorld_eq h' haddress (List.nil_subset _)] at hfound'
  obtain rfl := Answer.account.inj (Except.ok.inj hfound)
  have hsame := Answer.account.inj (Except.ok.inj hfound')
  cases hm : m.world address with
  | none =>
    rw [hm, Option.map_none, Option.map_eq_none_iff] at hsame
    rw [hsame]
    exact .none
  | some p =>
    rw [hm, Option.map_some, Option.map_eq_some_iff] at hsame
    obtain ⟨q, hq, heq⟩ := hsame
    simp only [Prod.mk.injEq] at heq
    obtain ⟨hnonce, hbalance, hcode⟩ := heq
    rw [hq]
    refine .some ⟨hnonce.symm, hbalance.symm, hcode.symm, fun key hkey => ?_⟩
    obtain ⟨value, hvalue, hvalue'⟩ := hslots (by rw [hm]; exact nofun) key
    have hhashed : (WorldRead.slot key).hashed ⊆ data := by
      rintro b hb
      rwa [List.mem_singleton.mp hb]
    rw [readWorld_eq h haddress hhashed, hm] at hvalue
    rw [readWorld_eq h' haddress hhashed, hq] at hvalue'
    exact Answer.word.inj (Except.ok.inj (hvalue.trans hvalue'.symm))

/-- **Worlds whose models have alike accounts have one root.** -/
theorem Refines.rootHash_eq (h : s.Refines data m) (h' : u.Refines data n)
    (halike : ∀ address, Address.toBytes address ∈ data →
      Option.Rel (Plain.Alike data) (m.world address) (n.world address)) :
    s.journal.world.rootHash = u.journal.world.rootHash := by
  obtain ⟨log, record, h⟩ := h
  obtain ⟨log', record', h'⟩ := h'
  exact h.holds.rootHash_eq h'.holds halike

theorem refines_run (entries : Std.ExtTreeMap Bytes Bytes) {cs : List Call}
    (hcol : Collisionless data) (hsub : involved cs (start entries) ⊆ data) :
    (run cs (start entries)).Refines data (Snapshots.start.run cs) := by
  have hd : Apart data := ⟨hcol, hsub List.mem_cons_self,
    hsub (List.mem_cons_of_mem _ List.mem_cons_self)⟩
  exact (refines_start hd entries).run (List.Subset.trans (hashed_subset_involved cs _) hsub)

/-- **Equality by root is equality of the accounts.**  Two worlds that calls of journals
and persisting leave, over stores that never fail, have one root if and only if they agree
on every address.  They do if the plain model has the same accounts after both, so the
root does not depend on how changes are ordered or grouped into scopes and commits, on
accounts and slots that came and went, on slots that hold a zero, or on what was persisted.

It is assumed that nothing that was hashed has the hash of something else, and this of an
address too that is looked up. -/
theorem rootHash_eq_iff_agree (entries entries' : Std.ExtTreeMap Bytes Bytes) (cs ds : List Call)
    (hcol : Collisionless (involved cs (start entries) ++ involved ds (start entries'))) :
    ((run cs (start entries)).journal.world.rootHash =
        (run ds (start entries')).journal.world.rootHash ↔
      ∀ address, Collisionless
          (Address.toBytes address :: (involved cs (start entries) ++ involved ds (start entries'))) →
        (run cs (start entries)).Agree (run ds (start entries')) address) ∧
    ((Snapshots.start.run cs).world = (Snapshots.start.run ds).world →
      (run cs (start entries)).journal.world.rootHash =
        (run ds (start entries')).journal.world.rootHash) := by
  have hleft := List.subset_append_left (involved cs (start entries)) (involved ds (start entries'))
  have hright := List.subset_append_right (involved cs (start entries)) (involved ds (start entries'))
  have h := refines_run entries hcol hleft
  have h' := refines_run entries' hcol hright
  refine ⟨⟨fun hroot address haddress => ?_, fun hagree => ?_⟩, fun hworld => ?_⟩
  · exact h.agree h' (List.Subset.trans (pending_subset_involved cs _) hleft)
      (List.Subset.trans (pending_subset_involved ds _) hright) hroot haddress
  · refine h.rootHash_eq h' fun address haddress =>
      Agree.alike h h' haddress (hagree address ?_)
    exact hcol.mono (List.cons_subset.mpr ⟨haddress, List.Subset.refl _⟩)
  · refine h.rootHash_eq h' fun address _ => ?_
    rw [hworld]
    cases (Snapshots.start.run ds).world address with
    | none => exact .none
    | some p => exact .some (.refl _ p)

/-- A slot that was persisted, and the same slot still in memory over a store that has
something else. -/
theorem rootHash_eq_iff_agree_of_slot :
    let cs : List Call := [.setSlot 1 0 7, .commit, .persist]
    let ds : List Call := [.setSlot 1 0 7, .commit]
    let entries : Std.ExtTreeMap Bytes Bytes := (∅ : Std.ExtTreeMap Bytes Bytes).insert [1] [2]
    Collisionless (involved cs (start ∅) ++ involved ds (start entries)) ∧
      ((run cs (start ∅)).journal.world.rootHash = (run ds (start entries)).journal.world.rootHash ↔
        ∀ address, Collisionless
            (Address.toBytes address :: (involved cs (start ∅) ++ involved ds (start entries))) →
          (run cs (start ∅)).Agree (run ds (start entries)) address) ∧
      ((Snapshots.start.run cs).world = (Snapshots.start.run ds).world →
        (run cs (start ∅)).journal.world.rootHash =
          (run ds (start entries)).journal.world.rootHash) := by
  intro cs ds entries
  have hslot (entries : Std.ExtTreeMap Bytes Bytes) (rest : List Call) :
      involved (.setSlot 1 0 7 :: .commit :: rest) (start entries) =
        [] :: Node.null.encode :: Address.toBytes 1 :: Word.toBytes 0 ::
          hashed (rest ++ [.persist]) ⟨(start entries).store, .ofWorld (firstWorld 1 0 7)⟩ := by
    rw [involved, List.cons_append, List.cons_append, hashed, call_setSlot_start, hashed,
      call_commit_first _ 1 0 7 (by decide)]
    rfl
  have hcs : involved cs (start ∅) = [[], Node.null.encode, Address.toBytes 1, Word.toBytes 0,
      (slotLeaf 0 7).encode, (accountLeaf 1 0 7).encode] := by
    rw [hslot]
    change [] :: Node.null.encode :: Address.toBytes 1 :: Word.toBytes 0 ::
      ((firstWorld 1 0 7).pending ++ ((firstWorld 1 0 7).settled.pending ++ [])) = _
    rw [pending_first]
    rfl
  have hds : involved ds (start entries) = [[], Node.null.encode, Address.toBytes 1, Word.toBytes 0,
      (slotLeaf 0 7).encode, (accountLeaf 1 0 7).encode] := by
    rw [hslot]
    change [] :: Node.null.encode :: Address.toBytes 1 :: Word.toBytes 0 ::
      ((firstWorld 1 0 7).pending ++ []) = _
    rw [pending_first]
    rfl
  have hcol : Collisionless (involved cs (start ∅) ++ involved ds (start entries)) := by
    rw [hcs, hds]
    decide +kernel
  exact ⟨hcol, rootHash_eq_iff_agree ∅ entries cs ds hcol⟩

end Ledger
end Ethereum
