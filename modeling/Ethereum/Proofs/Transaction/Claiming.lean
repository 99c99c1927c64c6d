/-
# Creations at addresses without an account

A creation reads the account at its address before anything else, and then puts one there.  So
where there is no account, it starts as if there was a new one without anything
(`Lifecycle.start_claimed`).  What starts alike goes on alike: the frame advances, its tree runs and
hashes the same (`Lifecycle.runTree_claimed`, `Lifecycle.hashedTree_claimed`).
-/

import Mathlib
import Ethereum.Proofs.State.Balances
import Ethereum.Proofs.Transaction.Safety

namespace Ethereum

/-- **A transfer to an address without an account** puts a new one there first. -/
theorem Journal.transfer_of_absent {store : Store} {j : Journal} {target : Address}
    (h : j.find? store target = .ok none) (source : Address) (value : Word) :
    transfer store source target value (j.put (.fresh target 0 0)) =
      transfer store source target value j := by
  have hput : (j.put (.fresh target 0 0)).findOrFresh store target = .ok (.fresh target 0 0) := by
    simp only [findOrFresh, find?_put, Overlay.fresh, if_true]
    rfl
  have htwice : (j.put (.fresh target 0 0)).put (.fresh target 0 0) = j.put (.fresh target 0 0) :=
    congrArg (fun scope => { j with scope }) (Scope.put_put j.scope _)
  have hcreate : getOrCreate store target (j.put (.fresh target 0 0)) = getOrCreate store target j := by
    rw [getOrCreate_eq hput, htwice, getOrCreate_eq (findOrFresh_of_absent h)]
  exact bind_eq_of_eq hcreate

namespace Lifecycle

variable {s : Setting} {m m' : Machine} {parents : List Frame} {fuel : Nat}

/-- The frame is about to create a contract at an address without an account. -/
structure Claims (s : Setting) (m : Machine) : Prop where
  state : m.frame.state = .notStarted
  kind : m.frame.message.kind = .creation
  absent : m.journal.find? s.store m.frame.message.contract = .ok none

/-- The machine with a new account at the address of the contract. -/
def claimed (m : Machine) : Machine :=
  { m with journal := m.journal.put (.fresh m.frame.message.contract 0 0) }

/-- **An address is taken** by an account with code, or with a nonce. -/
theorem isTaken_eq {address : Address} {found : Option Overlay}
    (hfound : m.journal.find? s.store address = .ok found) :
    isTaken address s m = .ok (found.any fun o =>
      (o.codeHash ≠ 0 ∧ o.codeHash ≠ Store.emptyCodeHash) ∨ o.nonce ≠ 0) m := by
  have hcode : reading (·.codeHash · address) s m =
      .ok ((found.map Overlay.codeHash).getD 0) m := by
    simp only [reading, Journal.codeHash, hfound]
    rfl
  have hnonce : reading (·.nonce · address) s m = .ok ((found.map Overlay.nonce).getD 0) m := by
    simp only [reading, Journal.nonce, hfound]
    rfl
  refine (reader_bind_eq_of_ok hcode).trans ?_
  cases found with
  | none => exact reader_bind_eq_of_ok hnonce
  | some o =>
    dsimp only [Option.map_some, Option.getD_some, Option.any_some]
    by_cases hcoded : o.codeHash ≠ 0 ∧ o.codeHash ≠ Store.emptyCodeHash
    · rw [if_pos hcoded, decide_eq_true (.inl hcoded)]
      rfl
    · rw [if_neg hcoded, decide_eq_decide.mpr (or_iff_right hcoded)]
      exact reader_bind_eq_of_ok hnonce

/-- An address is free if there is no account, or one without code and nonce. -/
theorem isTaken_eq_false {address : Address} {found : Option Overlay}
    (hfound : m.journal.find? s.store address = .ok found)
    (h : ∀ o ∈ found, o.codeHash = Store.emptyCodeHash ∧ o.nonce = 0) :
    isTaken address s m = .ok false m := by
  rw [isTaken_eq hfound]
  cases found with
  | none => rfl
  | some o =>
    obtain ⟨hhash, hzero⟩ := h o rfl
    simp [hhash, hzero]

theorem start_of_creation (hkind : m.frame.message.kind = .creation) :
    start s m = startCreation s m := by
  have hframe : frame s m = .ok m.frame m := rfl
  refine (reader_bind_eq_of_ok hframe).trans ?_
  rw [hkind]

/-- **A creation at an address without an account** starts as if there was a new one. -/
theorem start_claimed (h : Claims s m) : start s (claimed m) = start s m := by
  have htransfer : transferValue m.frame.message.contract s (claimed m) =
      transferValue m.frame.message.contract s m := by
    have hboth := Journal.transfer_of_absent h.absent m.frame.message.sender m.frame.message.value
    have hchange : changing (Journal.transfer · m.frame.message.sender m.frame.message.contract
        m.frame.message.value) s (claimed m) = changing (Journal.transfer · m.frame.message.sender
          m.frame.message.contract m.frame.message.value) s m := by
      simp only [changing, Machine.changing, claimed, hboth]
    exact hchange
  have hput : (claimed m).journal.find? s.store m.frame.message.contract =
      .ok (some (.fresh m.frame.message.contract 0 0)) := by
    rw [claimed, Journal.find?_put]
    exact if_pos rfl
  have hfree := isTaken_eq_false h.absent (by simp)
  have hfree' := isTaken_eq_false hput (by rintro _ ⟨⟩; exact ⟨rfl, rfl⟩)
  have hcreation : startCreation s (claimed m) = startCreation s m := by
    refine (reader_bind_eq_of_ok hfree').trans (Eq.trans ?_ (reader_bind_eq_of_ok hfree).symm)
    exact bind_eq_of_eq htransfer
  have hkind : (claimed m).frame.message.kind = .creation := h.kind
  exact (start_of_creation hkind).trans (hcreation.trans (start_of_creation h.kind).symm)

theorem work_claimed (h : Claims s m) : work s (claimed m) = work s m := by
  have hframe (m : Machine) : frame s m = .ok m.frame m := rfl
  rw [work, reader_bind_eq_of_ok (hframe (claimed m)), reader_bind_eq_of_ok (hframe m),
    if_pos h.state, if_pos (show (claimed m).frame.state = .notStarted from h.state)]
  exact bind_eq_of_eq (start_claimed h)

theorem hashed_claimed (h : Claims s m) : hashed s (claimed m) = hashed s m := by
  rw [hashed, hashed, if_pos h.state, if_pos (show (claimed m).frame.state = _ from h.state),
    start_claimed h]
  rfl

end Lifecycle
end Ethereum
