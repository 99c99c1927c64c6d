/-
# Sound journals

A journal is sound over a store if it refines some model by snapshots (`Journal.Sound`).  Then
every read of it is answered (`Journal.Answered`) and every change succeeds and leaves it sound
(`Journal.Succeeds`), so long as the addresses, keys and code are among the data.  Which model it
refines does not matter any more.
-/

import Mathlib
import Ethereum.Proofs.Programs
import Ethereum.Proofs.State.Refinement

namespace Ethereum

/-- An account is known by its address. -/
abbrev Address.Known (data : List Bytes) (address : Address) : Prop := Address.toBytes address ∈ data

namespace Journal

variable {α β : Type} {data : List Bytes} {store : Store} {j : Journal} {address : Address}

/-- The journal over a store refines some model. -/
def Sound (data : List Bytes) (store : Store) (j : Journal) : Prop :=
  ∃ m, Ledger.Refines data ⟨store, j⟩ m

/-- The read is answered by every sound journal. -/
def Answered (data : List Bytes) (read : Journal → Store → Except StateError α) : Prop :=
  ∀ (store : Store) (j : Journal), j.Sound data store → ∃ a, read j store = .ok a

/-- The change succeeds on every sound journal and leaves a sound one. -/
def Succeeds (data : List Bytes) (change : Store → Change α) : Prop :=
  ∀ (store : Store) (j : Journal), j.Sound data store →
    ∃ a j', change store j = .ok a j' ∧ j'.Sound data store

/-! ## Reads -/

section
variable (haddress : address.Known data)
include haddress

theorem answered_exists : Answered data (·.exists? · address) := by
  rintro store j ⟨m, h⟩
  obtain ⟨found, hfound, -⟩ := exists_of_map_eq_ok
    (Ledger.read_eq h haddress (r := .present) (List.nil_subset _))
  exact ⟨found, hfound⟩

theorem answered_isEmpty : Answered data (·.isEmpty · address) := by
  rintro store j ⟨m, h⟩
  obtain ⟨isEmpty, hisEmpty, -⟩ := exists_of_map_eq_ok
    (Ledger.read_eq h haddress (r := .isEmpty) (List.nil_subset _))
  exact ⟨isEmpty, hisEmpty⟩

theorem answered_balance : Answered data (·.balance · address) := by
  rintro store j ⟨m, h⟩
  obtain ⟨balance, hbalance, -⟩ := exists_of_map_eq_ok
    (Ledger.read_eq h haddress (r := .balance) (List.nil_subset _))
  exact ⟨balance, hbalance⟩

theorem answered_nonce : Answered data (·.nonce · address) := by
  rintro store j ⟨m, h⟩
  obtain ⟨nonce, hnonce, -⟩ := exists_of_map_eq_ok
    (Ledger.read_eq h haddress (r := .nonce) (List.nil_subset _))
  exact ⟨nonce, hnonce⟩

theorem answered_code : Answered data (·.code · address) := by
  rintro store j ⟨m, h⟩
  obtain ⟨code, hcode, -⟩ := exists_of_map_eq_ok
    (Ledger.read_eq h haddress (r := .code) (List.nil_subset _))
  exact ⟨code, hcode⟩

theorem answered_codeHash : Answered data (·.codeHash · address) := by
  rintro store j ⟨m, h⟩
  obtain ⟨codeHash, hcodeHash, -⟩ := exists_of_map_eq_ok
    (Ledger.read_eq h haddress (r := .codeHash) (List.nil_subset _))
  exact ⟨codeHash, hcodeHash⟩

theorem answered_slot {key : Word} (hkey : Word.toBytes key ∈ data) :
    Answered data (·.slot · address key) := by
  rintro store j ⟨m, h⟩
  obtain ⟨value, hvalue, -⟩ := exists_of_map_eq_ok
    (Ledger.read_eq h haddress (r := .slot key) (List.cons_subset.mpr ⟨hkey, List.nil_subset _⟩))
  exact ⟨value, hvalue⟩

end

/-! ## Changes -/

/-- A change that a call makes. -/
theorem Sound.of_call (h : j.Sound data store) (call : Call) {change : Change α}
    {answer : α → Answer} (hcall : Ledger.call ⟨store, j⟩ call = Ledger.change ⟨store, j⟩ change answer)
    (hhashed : call.hashed ⟨store, j⟩ ⊆ data) :
    ∃ a j', change j = .ok a j' ∧ j'.Sound data store := by
  obtain ⟨m, h⟩ := h
  obtain ⟨hanswer, hleft⟩ := h.call hhashed
  rw [hcall, Ledger.change] at hanswer hleft
  cases hchange : change j with
  | ok a j' =>
    rw [hchange] at hleft
    exact ⟨a, j', rfl, _, hleft⟩
  | error e j' =>
    rw [hchange] at hanswer
    cases hanswer

theorem Succeeds.bind {change : Store → Change α} (h : Succeeds data change)
    (rest : Store → α → Change β) (hrest : ∀ a, Succeeds data (rest · a)) :
    Succeeds data fun store => change store >>= rest store := by
  intro store j hj
  obtain ⟨a, j₁, hchange, hj₁⟩ := h store j hj
  obtain ⟨b, j₂, hrest, hj₂⟩ := hrest a store j₁ hj₁
  exact ⟨b, j₂, (bind_eq_of_ok hchange).trans hrest, hj₂⟩

theorem succeeds_pure (a : α) : Succeeds data fun _ => pure a := fun _ j hj => ⟨a, j, rfl, hj⟩

section
variable (haddress : address.Known data)
include haddress

theorem succeeds_getOrCreate : Succeeds data (getOrCreate · address) := fun _ _ hj =>
  hj.of_call (.getOrCreate address) rfl (List.cons_subset.mpr ⟨haddress, List.nil_subset _⟩)

theorem succeeds_incrementBalance (amount : Word) :
    Succeeds data (incrementBalance · address amount) := fun _ _ hj =>
  hj.of_call (.incrementBalance address amount) rfl
    (List.cons_subset.mpr ⟨haddress, List.nil_subset _⟩)

theorem succeeds_decrementBalance (amount : Word) :
    Succeeds data (decrementBalance · address amount) := fun _ _ hj =>
  hj.of_call (.decrementBalance address amount) rfl
    (List.cons_subset.mpr ⟨haddress, List.nil_subset _⟩)

theorem succeeds_incrementNonce : Succeeds data (incrementNonce · address) := fun _ _ hj =>
  hj.of_call (.incrementNonce address) rfl (List.cons_subset.mpr ⟨haddress, List.nil_subset _⟩)

theorem succeeds_setSlot {key : Word} (hkey : Word.toBytes key ∈ data) (value : Word) :
    Succeeds data (setSlot · address key value) := fun _ _ hj =>
  hj.of_call (.setSlot address key value) rfl
    (List.cons_subset.mpr ⟨haddress, List.cons_subset.mpr ⟨hkey, List.nil_subset _⟩⟩)

theorem succeeds_setCode {code : Bytes} (hcode : code ∈ data) :
    Succeeds data (setCode · address code) := fun _ _ hj =>
  hj.of_call (.setCode address code) rfl
    (List.cons_subset.mpr ⟨haddress, List.cons_subset.mpr ⟨hcode, List.nil_subset _⟩⟩)

theorem succeeds_deleteAccount : Succeeds data fun _ => deleteAccount address := by
  intro store j hj
  have hcall : Ledger.call ⟨store, j⟩ (.deleteAccount address) =
      Ledger.change ⟨store, j⟩ (deleteAccount address) fun _ => .done := rfl
  exact hj.of_call _ hcall (List.cons_subset.mpr ⟨haddress, List.nil_subset _⟩)

end

theorem succeeds_transfer {source target : Address} (hsource : source.Known data)
    (htarget : target.Known data) (value : Word) :
    Succeeds data (transfer · source target value) := by
  refine (succeeds_getOrCreate htarget).bind (fun store _ => do
    unless source = target do
      let _ ← decrementBalance store source value
      let _ ← incrementBalance store target value) fun _ => ?_
  by_cases hsame : source = target
  · simp only [hsame, if_true]
    exact succeeds_pure ()
  · simp only [if_neg hsame]
    refine (succeeds_decrementBalance hsource value).bind (fun store _ => do
      let _ ← incrementBalance store target value) fun _ => ?_
    exact (succeeds_incrementBalance htarget value).bind (fun _ _ => pure ()) fun _ =>
      succeeds_pure ()

/-! ## Scopes -/

theorem succeeds_commit : Succeeds data commit := fun _ _ hj =>
  hj.of_call .commit rfl (List.nil_subset _)

theorem Sound.enter (h : j.Sound data store) : j.enter.Sound data store := by
  obtain ⟨m, h⟩ := h
  exact ⟨_, (h.call (c := .enter) (List.nil_subset _)).2⟩

theorem Sound.revert (h : j.Sound data store) : j.revert.Sound data store := by
  obtain ⟨m, h⟩ := h
  exact ⟨_, (h.call (c := .revert) (List.nil_subset _)).2⟩

/-- An account that was touched is known. -/
theorem Sound.known_of_touched (h : j.Sound data store) (haddress : address ∈ j.touched) :
    address.Known data := by
  obtain ⟨m, log, record, h⟩ := h
  rw [touched, Scope.touched, Std.ExtTreeMap.mem_keys, Std.ExtTreeMap.mem_iff_isSome_getElem?] at haddress
  obtain ⟨o, ho⟩ := Option.isSome_iff_exists.mp haddress
  obtain ⟨rfl, hsound⟩ := h.scope.updated address o (h.scope.separate.lookup_of_updated ho)
  exact hsound.address_mem

end Journal
end Ethereum
