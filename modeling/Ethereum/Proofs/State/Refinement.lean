/-
# Journals over a store answer like snapshots

Every call of a journal over a store that never fails succeeds, and it answers what the
model by snapshots answers (`Ledger.answers_eq_snapshots`): whatever the scopes hide,
delete or clear, wherever an account was read from, and whichever tries and code are in
memory or were persisted.

It is assumed that no two of the byte strings that are hashed on the way have one hash:
addresses, keys of slots, code, and what is persisted.
-/

import Mathlib
import Ethereum.Proofs.State.Tracking

namespace Ethereum

/-! ## Reads -/

section
variable {data : List Bytes} {store : Store} {log : List (Hash × Bytes)} {w : World}
  {record : Address → Option Account} {plains : Plains} {address : Address} {o : Overlay} {p : Plain}

/-- An account under an overlay. -/
theorem World.Holds.exists_of_base (h : w.Holds data store log record plains)
    (ho : o.Sound data record plains) {a : Account} (ha : o.base = some a) :
    ∃ p, plains o.address = some p ∧ w.Shows data store log a p := by
  have hrecord := ho.base_eq a ha
  rcases h.cases ho.address_mem with ⟨hnone, -⟩ | ⟨b, p, hsome, hplain, -, hshow⟩
  · rw [hnone] at hrecord
    contradiction
  · rw [hsome] at hrecord
    exact ⟨p, hplain, Option.some.inj hrecord ▸ hshow⟩

/-- **The code of an overlay.** -/
theorem Overlay.Renders.code_eq (ho : o.Renders data record plains address p)
    (h : w.Holds data store log record plains) : o.code w store = .ok p.code := by
  obtain ⟨rfl, hsound, rfl⟩ := ho
  change _ = Except.ok (o.plainCode (plains o.address))
  rw [Overlay.code, Overlay.plainCode]
  cases o.newCode with
  | some code => rfl
  | none =>
    cases hbase : o.base with
    | none => rfl
    | some a =>
      obtain ⟨q, hplain, hshow⟩ := h.exists_of_base hsound hbase
      rw [hplain]
      exact h.accountCode_eq hshow

/-- **The slots of an overlay.** -/
theorem Overlay.Renders.slot_eq (ho : o.Renders data record plains address p)
    (h : w.Holds data store log record plains) {key : Word} (hkey : Word.toBytes key ∈ data) :
    o.slot w store key = .ok (p.slots key) := by
  obtain ⟨rfl, hsound, rfl⟩ := ho
  change _ = Except.ok ((o.slots[key]?).getD (o.underSlots (plains o.address) key))
  rw [Overlay.slot, Overlay.underSlots]
  cases o.slots[key]? with
  | some value => rfl
  | none =>
    cases hbase : o.visibleBase with
    | none => rfl
    | some a =>
      obtain ⟨q, hplain, hshow⟩ := h.exists_of_base hsound (Overlay.base_of_visibleBase hbase)
      rw [hplain]
      exact World.Holds.accountSlot_eq hshow hkey

theorem Overlay.Renders.codeHash_eq (ho : o.Renders data record plains address p) :
    o.codeHash = keccak p.code := by
  obtain ⟨rfl, hsound, rfl⟩ := ho
  exact hsound.codeHash_eq

/-- An overlay is empty if the account that it shows is. -/
theorem Overlay.Renders.isEmpty_eq (ho : o.Renders data record plains address p)
    (hd : Apart data) :
    o.isEmpty = decide (p.nonce = 0 ∧ p.balance = 0 ∧ p.code = []) := by
  have hhash := ho.codeHash_eq
  obtain ⟨rfl, hsound, rfl⟩ := ho
  have hcode : o.codeHash = Store.emptyCodeHash ↔ (o.plain (plains o.address)).code = [] := by
    rw [hhash]
    exact hd.keccak_eq_emptyCodeHash_iff hsound.code_mem
  rw [Overlay.isEmpty, Bool.eq_iff_iff, Bool.and_eq_true, Bool.and_eq_true, decide_eq_true_iff,
    decide_eq_true_iff, decide_eq_true_iff, decide_eq_true_iff, hcode, and_assoc]
  rfl

end

namespace Ledger

/-- The journal over its store tracks the model, with some trie nodes written and some
records in the world. -/
def Refines (data : List Bytes) (s : Ledger) (m : Snapshots) : Prop :=
  ∃ log record, s.journal.Tracks data s.store log record m

variable {data : List Bytes} {s : Ledger} {m : Snapshots} {address : Address}

theorem refines_start (hd : Apart data) (entries : Std.ExtTreeMap Bytes Bytes) :
    (start entries).Refines data .start :=
  ⟨[], fun _ => none, Journal.tracks_ofWorld (World.holds_empty hd (Store.backs_nil entries))⟩

theorem change_eq {α : Type} {c : Journal.Change α} {answer : α → Answer} {a : α} {j : Journal}
    (h : c s.journal = .ok a j) :
    s.change c answer = (.ok (answer a), { s with journal := j }) := by
  rw [change]
  simp only [h]

/-- **Every read of the journal** answers what the innermost scope shows. -/
theorem read_eq (h : s.Refines data m) (haddress : Address.toBytes address ∈ data) {r : Read}
    (hr : r.hashed ⊆ data) : s.read address r = .ok (r.plain (m.current address)) := by
  obtain ⟨log, record, h⟩ := h
  -- an overlay shows what the plain account has, field by field
  rcases h.find?_cases haddress with ⟨hfind, hcurrent⟩ | ⟨o, p, hfind, hcurrent, ho⟩
  · rw [hcurrent]
    cases r <;> simp only [read, Journal.exists?, Journal.isEmpty, Journal.balance, Journal.nonce,
      Journal.code, Journal.codeHash, Journal.slot, hfind] <;> rfl
  · rw [hcurrent]
    cases r with
    | present =>
      simp only [read, Journal.exists?, hfind]
      rfl
    | isEmpty =>
      simp only [read, Journal.isEmpty, hfind]
      change Except.ok (Answer.flag o.isEmpty) = _
      rw [ho.isEmpty_eq h.holds.apart]
      rfl
    | balance =>
      simp only [read, Journal.balance, hfind]
      change Except.ok (Answer.word o.balance) = _
      rw [← ho.plain_eq]
      rfl
    | nonce =>
      simp only [read, Journal.nonce, hfind]
      change Except.ok (Answer.number o.nonce) = _
      rw [← ho.plain_eq]
      rfl
    | code =>
      simp only [read, Journal.code, hfind]
      change (o.code s.journal.world s.store).map Answer.bytes = _
      rw [ho.code_eq h.holds]
      rfl
    | codeHash =>
      simp only [read, Journal.codeHash, hfind]
      change Except.ok (Answer.word o.codeHash) = _
      rw [ho.codeHash_eq]
      rfl
    | slot key =>
      simp only [read, Journal.slot, hfind]
      change (o.slot s.journal.world s.store key).map Answer.word = _
      rw [ho.slot_eq h.holds (hr List.mem_cons_self)]
      rfl

/-- **Every read of the world** answers what the world has. -/
theorem readWorld_eq (h : s.Refines data m) (haddress : Address.toBytes address ∈ data)
    {r : WorldRead} (hr : r.hashed ⊆ data) :
    s.readWorld address r = .ok (r.plain (m.world address)) := by
  obtain ⟨log, record, h⟩ := h
  cases r with
  | account =>
    rw [readWorld, h.holds.account?_eq haddress, WorldRead.plain]
    rcases h.holds.cases haddress with ⟨hrecord, hplain⟩ | ⟨a, p, hrecord, hplain, -, hshow⟩
    · rw [hrecord, hplain]
      rfl
    · rw [hrecord, hplain, Option.map_some, ← hshow.nonce_eq, ← hshow.balance_eq,
        ← hshow.codeHash_eq]
      rfl
  | code =>
    rw [readWorld, h.holds.code_eq haddress]
    rfl
  | slot key =>
    rw [readWorld, h.holds.slot_eq haddress (hr List.mem_cons_self)]
    rfl

/-! ## Calls -/

/-- **A change of an account**, which the journal creates if there is none.  What it
returns is read off the overlay before the change. -/
theorem Refines.change (h : s.Refines data m) (haddress : Address.toBytes address ∈ data)
    {edit : Overlay → Overlay} {f : Plain → Plain} (hedit : Overlay.Does data edit f) {α : Type}
    {c : Journal.Change α} {out : Overlay → α} {answer : α → Answer} {a : Answer}
    (hc : c = do return out (← Journal.update s.store address edit))
    (ha : ∀ {o}, o.plain (m.world address) = m.findOrFresh address → answer (out o) = a) :
    (s.change c answer).1 = .ok a ∧ (s.change c answer).2.Refines data (m.update address f) := by
  obtain ⟨log, record, h⟩ := h
  obtain ⟨o, hrun, ho, hleft⟩ := h.update haddress hedit
  have hchange : c s.journal = .ok (out o) (s.journal.put (edit o)) := by
    rw [hc]
    change EStateM.bind _ _ s.journal = _
    rw [EStateM.bind, hrun]
    rfl
  rw [change_eq hchange, ha ho.plain_eq]
  exact ⟨rfl, log, record, hleft⟩

/-- **One call.**  It succeeds and answers like the model, and the journal left refines
the model left. -/
theorem Refines.call (h : s.Refines data m) {c : Call} (hc : c.hashed s ⊆ data) :
    (s.call c).1 = .ok (m.call c).1 ∧ (s.call c).2.Refines data (m.call c).2 := by
  -- most calls change the account at one address, and differ in the change alone
  cases c with
  | reopen =>
    obtain ⟨log, record, h⟩ := h
    exact ⟨rfl, log, record, Journal.tracks_ofWorld h.holds⟩
  | createAccount address nonce balance =>
    obtain ⟨log, record, h⟩ := h
    have hfresh : (Overlay.fresh address nonce.toNat balance).Renders data record m.world address
        (.fresh nonce.toNat balance) :=
      Overlay.renders_fresh h.holds.apart (hc List.mem_cons_self) (Quantity.toNat_le_max nonce)
        balance
    exact ⟨rfl, log, record, h.put hfresh⟩
  | getOrCreate address =>
    exact h.change (hc List.mem_cons_self) Overlay.does_id rfl fun _ => rfl
  | mutate address edits =>
    obtain ⟨log, record, h⟩ := h
    obtain ⟨haddress, hedits⟩ := List.cons_subset.mp hc
    -- an account that is not there is left alone by both
    rcases h.update? haddress (Overlay.does_edits hedits) with
      ⟨hrun, hcurrent⟩ | ⟨o, p, hrun, hcurrent, hleft⟩
    · rw [Ledger.call, change_eq hrun]
      simp only [Snapshots.call, hcurrent]
      exact ⟨rfl, log, record, h⟩
    · rw [Ledger.call, change_eq hrun]
      simp only [Snapshots.call, hcurrent]
      exact ⟨rfl, log, record, hleft⟩
  | incrementBalance address amount =>
    exact h.change (hc List.mem_cons_self) (Overlay.does_incrementBalance amount) rfl
      fun ho => congrArg (Answer.word ∘ Plain.balance) ho
  | decrementBalance address amount =>
    exact h.change (hc List.mem_cons_self) (Overlay.does_decrementBalance amount) rfl
      fun ho => congrArg (Answer.word ∘ Plain.balance) ho
  | incrementNonce address =>
    exact h.change (hc List.mem_cons_self) Overlay.does_incrementNonce rfl
      fun ho => congrArg (Answer.number ∘ Plain.nonce) ho
  | setSlot address key value =>
    obtain ⟨haddress, hkey⟩ := List.cons_subset.mp hc
    exact h.change haddress (Overlay.does_setSlot (hkey List.mem_cons_self) value) rfl fun _ => rfl
  | setCode address code =>
    obtain ⟨haddress, hcode⟩ := List.cons_subset.mp hc
    exact h.change haddress (Overlay.does_setCode (hcode List.mem_cons_self)) rfl fun _ => rfl
  | deleteAccount address =>
    obtain ⟨log, record, h⟩ := h
    exact ⟨rfl, log, record, h.delete (hc List.mem_cons_self)⟩
  | enter =>
    obtain ⟨log, record, h⟩ := h
    exact ⟨rfl, log, record, h.enter⟩
  | commit =>
    obtain ⟨log, record, h⟩ := h
    obtain ⟨j, record', hrun, hleft⟩ := h.commit
    rw [Ledger.call, change_eq hrun]
    exact ⟨rfl, log, record', hleft⟩
  | revert =>
    obtain ⟨log, record, h⟩ := h
    exact ⟨rfl, log, record, h.revert⟩
  | persist =>
    obtain ⟨log, record, h⟩ := h
    -- what is persisted holds the same, with new nodes in the store
    obtain ⟨store, hrun, hholds⟩ := h.holds.persist hc
    simp only [Ledger.call, hrun]
    exact ⟨rfl, _, record, Journal.tracks_ofWorld hholds⟩
  | read address r =>
    obtain ⟨haddress, hr⟩ := List.cons_subset.mp hc
    exact ⟨read_eq h haddress hr, h⟩
  | readWorld address r =>
    obtain ⟨haddress, hr⟩ := List.cons_subset.mp hc
    exact ⟨readWorld_eq h haddress hr, h⟩

/-- The answers to calls one after the other, from where a ledger refines a model. -/
theorem Refines.answers (h : s.Refines data m) {cs : List Call} (hcs : hashed cs s ⊆ data) :
    s.answers cs = (m.answers cs).map .ok := by
  induction cs generalizing s m with
  | nil => rfl
  | cons c cs ih =>
    obtain ⟨hc, hrest⟩ := List.append_subset.mp hcs
    obtain ⟨hanswer, hleft⟩ := h.call hc
    rw [Ledger.answers, Snapshots.answers, List.map_cons, hanswer, ih hleft hrest]

/-! ## A first slot -/

section

/-- The node of a slot that is alone in its trie. -/
def slotLeaf (key value : Word) : Node :=
  .leaf (Path.ofBytes (Hash.toBytes (slotHash key))) (Rlp.number value.toNat)

/-- The node of an account that is alone and has one slot. -/
def accountLeaf (address : Address) (key value : Word) : Node :=
  .leaf (Path.ofBytes (Hash.toBytes address.hash))
    ((Overlay.fresh address 0 0).toAccount (slotLeaf key value).digest).encode

/-- The world that has one account with one slot. -/
def firstWorld (address : Address) (key value : Word) : World where
  accounts := ⟨accountLeaf address key value⟩
  storages := (∅ : Std.ExtTreeMap Address Trie).insert address ⟨slotLeaf key value⟩
  codes := ∅

/-- The journal that writes a slot of the first account. -/
def firstJournal (address : Address) (key value : Word) : Journal :=
  (Journal.ofWorld .empty).put ((Overlay.fresh address 0 0).setSlot key value)

variable (store : Store) (address : Address) (key value : Word)

theorem setSlot_start : Journal.setSlot store address key value (.ofWorld .empty) =
    .ok () (firstJournal address key value) := by
  have hfresh : (Journal.ofWorld .empty).findOrFresh store address = .ok (.fresh address 0 0) :=
    Journal.findOrFresh_of_absent (Journal.find?_empty store address)
  exact Journal.setSlot_eq hfresh key value

theorem writeSlots_first (hvalue : value ≠ 0) :
    World.writeSlots store [(key, value)] .empty = .ok () ⟨slotLeaf key value⟩ := by
  have hentry : (slotChange key value).entry = some (Rlp.number value.toNat) :=
    (entry_slotChange key value).trans (if_neg hvalue)
  have hchange : Trie.empty.change store.nodes (slotChange key value) = _ :=
    Trie.change_empty hentry
  rw [key_slotChange] at hchange
  rw [World.writeSlots_eq]
  change EStateM.bind (Trie.update _) _ _ = _
  simp only [EStateM.bind, Trie.update, hchange]
  rfl

theorem applyOverlay_first (hvalue : value ≠ 0) :
    World.applyOverlay store ((Overlay.fresh address 0 0).setSlot key value) .empty =
      .ok () (firstWorld address key value) := by
  have hrun : World.applyStorage store ((Overlay.fresh address 0 0).setSlot key value)
      ⟨.empty, ∅, ∅⟩ = .ok (slotLeaf key value).digest
        { firstWorld address key value with accounts := .empty } := by
    have hempty : Trie.ofRoot Node.emptyHash = .empty := if_pos rfl
    have hslots : ((Overlay.fresh address 0 0).setSlot key value).slots.toList = [(key, value)] :=
      rfl
    change World.applySlots store _ Node.emptyHash ⟨.empty, ∅, ∅⟩ = _
    rw [World.applySlots]
    simp only [Std.ExtTreeMap.getD_empty, hempty, hslots, writeSlots_first store key value hvalue]
    rfl
  have hentry : (Trie.Change.put (Hash.toBytes address.hash)
      ((Overlay.fresh address 0 0).toAccount (slotLeaf key value).digest).encode).entry = some _ :=
    if_neg (Account.encode_ne_nil _)
  exact (World.applyOverlay_eq hrun).trans (World.updateAccounts_eq (Trie.change_empty hentry))

theorem applyScope_first (hvalue : value ≠ 0) :
    World.applyScope store (firstJournal address key value).scope .empty =
      .ok () (firstWorld address key value) := by
  change EStateM.bind (World.applyOverlay store
    ((Overlay.fresh address 0 0).setSlot key value)) (fun _ => pure ()) .empty = _
  rw [EStateM.bind, applyOverlay_first store address key value hvalue]
  rfl

theorem commit_first (hvalue : value ≠ 0) :
    Journal.commit store (firstJournal address key value) =
      .ok () (.ofWorld (firstWorld address key value)) := by
  have hparents : (firstJournal address key value).parents = [] := rfl
  have hworld : (firstJournal address key value).world = .empty := rfl
  simp only [Journal.commit, hparents, hworld, applyScope_first store address key value hvalue]
  rfl

theorem call_setSlot_first : call ⟨store, .ofWorld .empty⟩ (.setSlot address key value) =
    (.ok .done, ⟨store, firstJournal address key value⟩) :=
  change_eq (setSlot_start store address key value)

theorem call_setSlot_start (entries : Std.ExtTreeMap Bytes Bytes) :
    call (start entries) (.setSlot address key value) =
      (.ok .done, ⟨(start entries).store, firstJournal address key value⟩) :=
  call_setSlot_first _ address key value

theorem call_commit_first (hvalue : value ≠ 0) :
    call ⟨store, firstJournal address key value⟩ .commit =
      (.ok .done, ⟨store, .ofWorld (firstWorld address key value)⟩) :=
  change_eq (commit_first store address key value hvalue)

theorem pending_first : (firstWorld address key value).pending =
    [(slotLeaf key value).encode, (accountLeaf address key value).encode] := rfl

end

/-! ## The refinement -/

/-- **Journals over a store answer like snapshots.**  From the empty world over a store
that never fails, whatever it has, every call succeeds and answers what the model does,
in any order of changes, scopes, reads and persisting. -/
theorem answers_eq_snapshots (entries : Std.ExtTreeMap Bytes Bytes) (cs : List Call)
    (hcol : Collisionless ([] :: Node.null.encode :: hashed cs (start entries))) :
    (start entries).answers cs = (Snapshots.start.answers cs).map .ok := by
  have hd : Apart ([] :: Node.null.encode :: hashed cs (start entries)) :=
    ⟨hcol, List.mem_cons_self, List.mem_cons_of_mem _ List.mem_cons_self⟩
  exact (refines_start hd entries).answers fun b hb =>
    List.mem_cons_of_mem _ (List.mem_cons_of_mem _ hb)

/-- A slot is written, committed, persisted and read from the store. -/
theorem answers_eq_snapshots_of_slot :
    let cs : List Call := [.setSlot 1 0 7, .commit, .persist, .readWorld 1 (.slot 0)]
    Collisionless ([] :: Node.null.encode :: hashed cs (start ∅)) ∧
      (start ∅).answers cs = (Snapshots.start.answers cs).map .ok := by
  intro cs
  have hhashed : hashed cs (start ∅) = [Address.toBytes 1, Word.toBytes 0,
      (slotLeaf 0 7).encode, (accountLeaf 1 0 7).encode, Address.toBytes 1, Word.toBytes 0] := by
    rw [hashed, call_setSlot_start, hashed, call_commit_first _ 1 0 7 (by decide), hashed]
    change [Address.toBytes 1, Word.toBytes 0] ++ ([] ++ ((firstWorld 1 0 7).pending ++
      ([Address.toBytes 1, Word.toBytes 0] ++ []))) = _
    rw [pending_first]
    rfl
  have hcol : Collisionless ([] :: Node.null.encode :: hashed cs (start ∅)) := by
    rw [hhashed]
    decide +kernel
  exact ⟨hcol, answers_eq_snapshots ∅ cs hcol⟩

end Ledger
end Ethereum
