/-
# Persisted roots are snapshots

Worlds that share a store are opened, copied, changed and persisted in any order.  The store
only grows by it, since all that is put into it stands under its own hash (`Shared.Sound.act`).
So a world that is opened at a root that was persisted replies what the world that was persisted
replied then, whatever was done since (`Shared.persisted_replies`).

It is assumed that no two of the byte strings that are hashed on the way have one hash.  Of what
is asked for nothing is assumed, but that the address does not have the hash of something else
where the world replies before it is persisted: it keeps storage by address until then.
-/

import Mathlib
import Ethereum.Proofs.State.Replying
import Ethereum.Proofs.State.Refinement

namespace Ethereum

/-! ## Ledgers over stores that grow -/

namespace Ledger

variable {data : List Bytes} {store store' : Store} {j : Journal} {m : Snapshots} {s : Ledger}

theorem Refines.grows (h : Refines data ⟨store, j⟩ m) (hs : store.Grows data store') :
    Refines data ⟨store', j⟩ m := by
  obtain ⟨log, record, h⟩ := h
  exact ⟨log, record, h.holds.grows hs, h.scopes, h.views_eq⟩

theorem change_store {α : Type} (c : Journal.Change α) (answer : α → Answer) :
    (s.change c answer).2.store = s.store := by
  rw [change]
  split <;> rfl

/-- **Persisting** leaves a world that is the one opened at its root. -/
theorem Refines.persist (h : s.Refines data m) (hpending : s.journal.world.pending ⊆ data) :
    ∃ store', s.journal.world.persist s.store = .ok s.journal.world.settled store' ∧
      s.store.Grows data store' ∧
      World.ofRoot s.journal.world.settled.rootHash = s.journal.world.settled ∧
      ∃ log log' record, s.journal.world.Holds data s.store log record m.world ∧
        s.journal.world.settled.Holds data store' log' record m.world := by
  obtain ⟨log, record, h⟩ := h
  obtain ⟨store', hrun, hholds⟩ := h.holds.persist hpending
  refine ⟨store', hrun, World.grows_of_persist h.holds.apart.collisionless hpending hrun, ?_,
    log, _, record, h.holds, hholds⟩
  obtain ⟨entries, hhas, hfits, -⟩ := hholds.accounts
  have htrie : Trie.ofRoot s.journal.world.settled.accounts.rootHash =
      s.journal.world.settled.accounts :=
    hhas.ofRoot_eq hfits (hholds.backs.emptyOnly hholds.apart)
      (Trie.settled_collapse s.journal.world.accounts)
  exact congrArg (fun t => World.mk t ∅ ∅) htrie

/-- **Every call** leaves a store that has grown. -/
theorem Refines.grows_call (h : s.Refines data m) {c : Call} (hc : c.hashed s ⊆ data) :
    s.store.Grows data (s.call c).2.store := by
  cases c with
  | persist =>
    obtain ⟨store', hrun, hgrows, -⟩ := h.persist hc
    simp only [Ledger.call, hrun]
    exact hgrows
  | reopen | enter | revert | read | readWorld => exact .refl _
  | createAccount | getOrCreate | mutate | incrementBalance | decrementBalance | incrementNonce
  | setSlot | setCode | deleteAccount | commit =>
    rw [Ledger.call, change_store]
    exact .refl _

end Ledger

/-! ## Worlds that share a store -/

/-- Worlds over one store, each under a journal, and the roots that were persisted. -/
structure Shared where
  store : Store
  journals : List Journal
  roots : List Hash

namespace Shared

/-- What is done to worlds that share a store.  Worlds and roots go by their numbers, and
nothing is done where there is none. -/
inductive Action where
  /-- Opens an empty world. -/
  | new
  /-- Opens a world at a root that was persisted. -/
  | reopen (root : Nat)
  /-- Copies a world. -/
  | copy (world : Nat)
  /-- Calls the journal of a world, or persists the world. -/
  | call (world : Nat) (c : Call)
deriving DecidableEq, Repr

/-- No worlds over a store that never fails. -/
def start (entries : Std.ExtTreeMap Bytes Bytes) : Shared := ⟨⟨entries, 0, false⟩, [], []⟩

/-- One more world. -/
def add (s : Shared) (w : World) : Shared := { s with journals := s.journals ++ [.ofWorld w] }

/-- The root that a call persists, if it does. -/
def persisted (c : Call) (left : Except StateError Answer × Ledger) : List Hash :=
  match c, left.1 with
  | .persist, .ok _ => [left.2.journal.world.rootHash]
  | _, _ => []

/-- An action. -/
def act (s : Shared) : Action → Shared
  | .new => s.add .empty
  | .reopen n =>
    match s.roots[n]? with
    | some r => s.add (.ofRoot r)
    | none => s
  | .copy n =>
    match s.journals[n]? with
    | some j => s.add j.world
    | none => s
  | .call n c =>
    match s.journals[n]? with
    | some j =>
      let left := Ledger.call ⟨s.store, j⟩ c
      ⟨left.2.store, s.journals.set n left.2.journal, s.roots ++ persisted c left⟩
    | none => s

/-- What actions one after the other leave. -/
def run : List Action → Shared → Shared
  | [], s => s
  | a :: as, s => run as (s.act a)

theorem mem_persisted {c : Call} {left : Except StateError Answer × Ledger} {r : Hash}
    (h : r ∈ persisted c left) : c = .persist ∧ r = left.2.journal.world.rootHash := by
  unfold persisted at h
  split at h
  · exact ⟨rfl, List.mem_singleton.mp h⟩
  · cases h

/-- The bytes that an action hashes. -/
def Action.hashed (s : Shared) : Action → List Bytes
  | .call n c =>
    match s.journals[n]? with
    | some j => c.hashed ⟨s.store, j⟩
    | none => []
  | _ => []

/-- The bytes that are hashed by actions one after the other. -/
def hashed : List Action → Shared → List Bytes
  | [], _ => []
  | a :: as, s => a.hashed s ++ hashed as (s.act a)

theorem run_append (as bs : List Action) (s : Shared) :
    run (as ++ bs) s = run bs (run as s) := by
  induction as generalizing s with
  | nil => rfl
  | cons a as ih => exact ih (s.act a)

theorem hashed_append (as bs : List Action) (s : Shared) :
    hashed (as ++ bs) s = hashed as s ++ hashed bs (run as s) := by
  induction as generalizing s with
  | nil => rfl
  | cons a as ih =>
    rw [List.cons_append, hashed, hashed, ih, List.append_assoc]
    rfl

/-! ### The invariant -/

/-- Every world that is open, and every world that can be opened at a root that was persisted,
holds accounts. -/
structure Sound (data : List Bytes) (s : Shared) : Prop where
  apart : Apart data
  backs : s.store.Backs data []
  journals : ∀ j ∈ s.journals, ∃ m, Ledger.Refines data ⟨s.store, j⟩ m
  roots : ∀ r ∈ s.roots, ∃ m, Ledger.Refines data ⟨s.store, .ofWorld (.ofRoot r)⟩ m

variable {data : List Bytes} {s : Shared}

theorem sound_start (hd : Apart data) (entries : Std.ExtTreeMap Bytes Bytes) :
    (start entries).Sound data :=
  ⟨hd, Store.backs_nil entries, nofun, nofun⟩

/-- One more world that holds accounts. -/
theorem Sound.add (h : s.Sound data) {w : World}
    (hw : ∃ m, Ledger.Refines data ⟨s.store, .ofWorld w⟩ m) : (s.add w).Sound data := by
  refine ⟨h.apart, h.backs, fun j hj => ?_, h.roots⟩
  rcases List.mem_append.mp hj with hj | hj
  · exact h.journals j hj
  · rw [List.mem_singleton.mp hj]
    exact hw

/-- **A call of one journal** leaves the others sound, and the roots: the store has grown. -/
theorem Sound.call (h : s.Sound data) {n : Nat} {j : Journal} (hj : s.journals[n]? = some j)
    {c : Call} (hc : c.hashed ⟨s.store, j⟩ ⊆ data) :
    s.store.Grows data (s.act (.call n c)).store ∧ (s.act (.call n c)).Sound data := by
  obtain ⟨m, hm⟩ := h.journals j (List.mem_of_getElem? hj)
  have hgrows := hm.grows_call hc
  obtain ⟨-, hleft⟩ := hm.call hc
  simp only [act, hj]
  refine ⟨hgrows, h.apart, h.backs.grows hgrows, fun i hi => ?_, fun r hr => ?_⟩
  · rcases List.mem_or_eq_of_mem_set hi with hi | rfl
    · obtain ⟨m', hm'⟩ := h.journals i hi
      exact ⟨m', hm'.grows hgrows⟩
    · exact ⟨_, hleft⟩
  · rcases List.mem_append.mp hr with hr | hr
    · obtain ⟨m', hm'⟩ := h.roots r hr
      exact ⟨m', hm'.grows hgrows⟩
    · obtain ⟨rfl, rfl⟩ := mem_persisted hr
      obtain ⟨store', hrun, -, hopened, -⟩ := hm.persist hc
      simp only [Ledger.call, hrun] at hleft ⊢
      change ∃ m', Ledger.Refines data ⟨store', .ofWorld (.ofRoot j.world.settled.rootHash)⟩ m'
      rw [hopened]
      exact ⟨_, hleft⟩

/-- **One action.**  The store grows, and what was sound stays sound. -/
theorem Sound.act (h : s.Sound data) {a : Action} (ha : a.hashed s ⊆ data) :
    s.store.Grows data (s.act a).store ∧ (s.act a).Sound data := by
  have hnone {t : Shared} (ht : t = s) : s.store.Grows data t.store ∧ t.Sound data := by
    rw [ht]
    exact ⟨.refl _, h⟩
  cases a with
  | new =>
    have hempty := Journal.tracks_ofWorld (World.holds_empty h.apart h.backs)
    exact ⟨.refl _, h.add ⟨_, [], _, hempty⟩⟩
  | reopen n =>
    cases hr : s.roots[n]? with
    | none => exact hnone (by simp only [Shared.act, hr])
    | some r =>
      simp only [Shared.act, hr]
      exact ⟨.refl _, h.add (h.roots r (List.mem_of_getElem? hr))⟩
  | copy n =>
    cases hj : s.journals[n]? with
    | none => exact hnone (by simp only [Shared.act, hj])
    | some j =>
      obtain ⟨m, log, record, hm⟩ := h.journals j (List.mem_of_getElem? hj)
      simp only [Shared.act, hj]
      exact ⟨.refl _, h.add ⟨_, log, record, Journal.tracks_ofWorld hm.holds⟩⟩
  | call n c =>
    cases hj : s.journals[n]? with
    | none => exact hnone (by simp only [Shared.act, hj])
    | some j =>
      simp only [Action.hashed, hj] at ha
      exact h.call hj ha

/-- **Actions one after the other.** -/
theorem Sound.run (h : s.Sound data) {as : List Action} (has : hashed as s ⊆ data) :
    s.store.Grows data (run as s).store ∧ (run as s).Sound data := by
  induction as generalizing s with
  | nil => exact ⟨.refl _, h⟩
  | cons a as ih =>
    obtain ⟨ha, hrest⟩ := List.append_subset.mp has
    obtain ⟨hgrows, hleft⟩ := h.act ha
    obtain ⟨hgrows', hlast⟩ := ih hleft hrest
    exact ⟨hgrows.trans hgrows', hlast⟩

/-! ### Snapshots -/

/-- A world that is persisted replies as before, and so does the one at its root, over the store
that is left and over one that has grown from it. -/
theorem Sound.persist (h : s.Sound data) {n : Nat} {j : Journal}
    (hj : s.journals[n]? = some j) (hpending : j.world.pending ⊆ data) :
    ∃ w store', j.world.persist s.store = .ok w store' ∧
      s.act (.call n .persist) =
        ⟨store', s.journals.set n (.ofWorld w), s.roots ++ [w.rootHash]⟩ ∧
      ∀ q : World.Query, ∃ r, w.reply store' q = .ok r ∧
        (∀ later, store'.Grows data later → (World.ofRoot w.rootHash).reply later q = .ok r) ∧
        (Address.toBytes q.address ∈ data → j.world.reply s.store q = .ok r) := by
  obtain ⟨m, hm⟩ := h.journals j (List.mem_of_getElem? hj)
  obtain ⟨store', hrun, -, hopened, log, log', record, hold, hnew⟩ := hm.persist hpending
  refine ⟨j.world.settled, store', hrun, ?_, fun q => ?_⟩
  · simp only [Shared.act, hj, Ledger.call, hrun]
    rfl
  obtain ⟨r, hr, -⟩ := hnew.reply_eq hnew q (.inr rfl) (.inr rfl)
  refine ⟨r, hr, fun later hlater => ?_, fun haddress => ?_⟩
  · obtain ⟨r', hr', hlast⟩ := hnew.reply_eq (hnew.grows hlater) q (.inr rfl) (.inr rfl)
    rw [hopened, hlast, ← hr', hr]
  · obtain ⟨r', hr', hlast⟩ := hold.reply_eq hnew q (.inl haddress) (.inr rfl)
    rw [hr', ← hlast, hr]

/-! ### A slot in a new world -/

/-- A slot of the first account of a new world is written. -/
def writing (n : Nat) (value : Word) : List Action :=
  [.new, .call n (.setSlot 1 0 value), .call n .commit]

theorem run_writing (s : Shared) {value : Word} (hvalue : value ≠ 0) :
    run (writing s.journals.length value) s = s.add (Ledger.firstWorld 1 0 value) := by
  simp only [writing, run, act, add, List.getElem?_concat_length, Ledger.call_setSlot_first,
    Ledger.call_commit_first _ 1 0 value hvalue, persisted, List.append_nil,
    List.set_append_right, Nat.sub_self, le_refl, List.set_cons_zero]

theorem hashed_writing (s : Shared) (value : Word) :
    hashed (writing s.journals.length value) s = [Address.toBytes 1, Word.toBytes 0] := by
  simp only [writing, hashed, Action.hashed, act, add, List.getElem?_concat_length,
    Ledger.call_setSlot_first, persisted, List.append_nil, List.set_append_right, Nat.sub_self,
    le_refl, List.set_cons_zero, Call.hashed, List.nil_append]

/-! ### Roots that were persisted -/

/-- What is hashed by actions one after the other, and what has a constant hash: the empty code
and the empty trie. -/
def involved (as : List Action) (s : Shared) : List Bytes :=
  [] :: Node.null.encode :: hashed as s

/-- Where a world is persisted, all are sound, and what is hashed then and later is among the
data. -/
theorem sound_before {entries : Std.ExtTreeMap Bytes Bytes} {before after : List Action} {n : Nat}
    {j : Journal} (hj : (run before (start entries)).journals[n]? = some j)
    (hcol : Collisionless data)
    (hsub : involved (before ++ .call n .persist :: after) (start entries) ⊆ data) :
    (run before (start entries)).Sound data ∧ j.world.pending ⊆ data ∧
      hashed after ((run before (start entries)).act (.call n .persist)) ⊆ data := by
  obtain ⟨hnil, hnull, hsub⟩ := List.cons_subset.mp hsub |>.imp_right List.cons_subset.mp
  rw [hashed_append, hashed, List.append_subset, List.append_subset] at hsub
  obtain ⟨hbefore, hpersist, hafter⟩ := hsub
  refine ⟨((sound_start ⟨hcol, hnil, hnull⟩ entries).run hbefore).2, ?_, hafter⟩
  simp only [Action.hashed, hj] at hpersist
  exact hpersist

/-- **Persisted roots are snapshots.**  Among worlds that share a store which never fails, whatever
it has, persisting a world succeeds.  From then on the world that is opened at its root replies to
every query, without fail, what the persisted world replies then, at every point of whatever is
done to the worlds after.  That is what the world replied before it was persisted too. -/
theorem persisted_replies (entries : Std.ExtTreeMap Bytes Bytes) (before after : List Action)
    (n : Nat) {j : Journal} (hj : (run before (start entries)).journals[n]? = some j)
    (hcol : Collisionless (involved (before ++ .call n .persist :: after) (start entries))) :
    ∃ w store', j.world.persist (run before (start entries)).store = .ok w store' ∧
      (run (before ++ [.call n .persist]) (start entries)).store = store' ∧
      w.rootHash ∈ (run (before ++ [.call n .persist]) (start entries)).roots ∧
      ∀ q : World.Query, ∃ r, w.reply store' q = .ok r ∧
        (∀ since, since <+: after → (World.ofRoot w.rootHash).reply
          (run (before ++ .call n .persist :: since) (start entries)).store q = .ok r) ∧
        (Collisionless (Address.toBytes q.address ::
            involved (before ++ .call n .persist :: after) (start entries)) →
          j.world.reply (run before (start entries)).store q = .ok r) := by
  have hrun (since : List Action) : run (before ++ .call n .persist :: since) (start entries) =
      run since ((run before (start entries)).act (.call n .persist)) := run_append _ _ _
  obtain ⟨hs, hpending, hafter⟩ := sound_before hj hcol (List.Subset.refl _)
  obtain ⟨w, store', hpersist, hact, hreply⟩ := hs.persist hj hpending
  have hnext := (hs.call (c := .persist) hj hpending).2
  refine ⟨w, store', hpersist, ?_, ?_, fun q => ?_⟩
  · rw [hrun, run, hact]
  · rw [hrun, run, hact]
    exact List.mem_append_right _ List.mem_cons_self
  · obtain ⟨r, hr, hlater, -⟩ := hreply q
    -- the store only grows after that, so the root is read as it was persisted
    refine ⟨r, hr, fun since hsince => ?_, fun haddress => ?_⟩
    · obtain ⟨rest, rfl⟩ := hsince
      rw [hashed_append, List.append_subset] at hafter
      have hgrows := (hnext.run hafter.1).1
      rw [hrun]
      refine hlater _ ?_
      rw [hact] at hgrows ⊢
      exact hgrows
    · -- the data with the address of the query among them
      obtain ⟨hs', hpending', -⟩ := sound_before hj haddress (List.subset_cons_self _ _)
      obtain ⟨w', store'', hpersist', -, hreply'⟩ := hs'.persist hj hpending'
      rw [hpersist] at hpersist'
      cases hpersist'
      obtain ⟨r', hr', -, hold⟩ := hreply' q
      rw [hold List.mem_cons_self, ← hr', hr]

/-- A world with a slot is persisted, and after it another one in which the slot has another
value. -/
theorem persisted_replies_of_slots :
    let before : List Action := writing 0 7
    let after : List Action := writing 1 8 ++ [.call 1 .persist, .reopen 0]
    ∃ j, (run before (start ∅)).journals[0]? = some j ∧
      Collisionless (involved (before ++ .call 0 .persist :: after) (start ∅)) ∧
      ∃ w store', j.world.persist (run before (start ∅)).store = .ok w store' ∧
        (run (before ++ [.call 0 .persist]) (start ∅)).store = store' ∧
        w.rootHash ∈ (run (before ++ [.call 0 .persist]) (start ∅)).roots ∧
        ∀ q : World.Query, ∃ r, w.reply store' q = .ok r ∧
          (∀ since, since <+: after → (World.ofRoot w.rootHash).reply
            (run (before ++ .call 0 .persist :: since) (start ∅)).store q = .ok r) ∧
          (Collisionless (Address.toBytes q.address ::
              involved (before ++ .call 0 .persist :: after) (start ∅)) →
            j.world.reply (run before (start ∅)).store q = .ok r) := by
  intro before after
  have hrun : run before (start ∅) = (start ∅).add (Ledger.firstWorld 1 0 7) :=
    run_writing (start ∅) (by decide)
  have hj : (run before (start ∅)).journals[0]? = some (.ofWorld (Ledger.firstWorld 1 0 7)) := by
    rw [hrun]
    rfl
  have hinvolved : involved (before ++ .call 0 .persist :: after) (start ∅) =
      [[], Node.null.encode, Address.toBytes 1, Word.toBytes 0,
        (Ledger.slotLeaf 0 7).encode, (Ledger.accountLeaf 1 0 7).encode,
        Address.toBytes 1, Word.toBytes 0,
        (Ledger.slotLeaf 0 8).encode, (Ledger.accountLeaf 1 0 8).encode] := by
    have hset : hashed before (start ∅) = [Address.toBytes 1, Word.toBytes 0] :=
      hashed_writing (start ∅) 7
    have hpersist : Action.hashed ((start ∅).add (Ledger.firstWorld 1 0 7)) (.call 0 .persist) =
        [(Ledger.slotLeaf 0 7).encode, (Ledger.accountLeaf 1 0 7).encode] :=
      Ledger.pending_first 1 0 7
    -- the second world is the one with number 1
    obtain ⟨s, hs, hlength⟩ : ∃ s : Shared,
        ((start ∅).add (Ledger.firstWorld 1 0 7)).act (.call 0 .persist) = s ∧
          s.journals.length = 1 := ⟨_, rfl, rfl⟩
    have hset' : hashed (writing 1 8) s = [Address.toBytes 1, Word.toBytes 0] := by
      rw [← hlength]
      exact hashed_writing s 8
    have hrun' : run (writing 1 8) s = s.add (Ledger.firstWorld 1 0 8) := by
      rw [← hlength]
      exact run_writing s (by decide)
    have hj' : (s.add (Ledger.firstWorld 1 0 8)).journals[1]? =
        some (.ofWorld (Ledger.firstWorld 1 0 8)) := by
      rw [add, ← hlength]
      exact List.getElem?_concat_length
    have hpersist' : Action.hashed (s.add (Ledger.firstWorld 1 0 8)) (.call 1 .persist) =
        [(Ledger.slotLeaf 0 8).encode, (Ledger.accountLeaf 1 0 8).encode] := by
      simp only [Action.hashed, hj']
      exact Ledger.pending_first 1 0 8
    rw [involved, hashed_append, hset, hrun, hashed, hpersist, hs, hashed_append, hset', hrun',
      hashed, hpersist']
    rfl
  have hcol : Collisionless (involved (before ++ .call 0 .persist :: after) (start ∅)) := by
    rw [hinvolved]
    decide +kernel
  exact ⟨_, hj, hcol, persisted_replies ∅ before after 0 hj hcol⟩

end Shared
end Ethereum
