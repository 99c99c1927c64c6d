/-
# Changes stay in the innermost scope

Whatever a store reads, and whether a change of an account succeeds or fails, the world
and the scopes around the innermost one stay as they are (`Journal.Inner`).  A change of
an account that is found, or created, succeeds and puts the changed account there
(`Journal.update_eq`).
-/

import Mathlib
import Ethereum.Proofs.Programs
import Ethereum.State.Journal

namespace Ethereum
namespace Journal

/-- The journals differ in nothing but their innermost scope. -/
structure Inner (j j' : Journal) : Prop where
  world_eq : j'.world = j.world
  parents_eq : j'.parents = j.parents

namespace Inner

variable {j j' j'' : Journal}

theorem refl (j : Journal) : j.Inner j := ⟨rfl, rfl⟩

theorem trans (h : j.Inner j') (h' : j'.Inner j'') : j.Inner j'' :=
  ⟨h'.world_eq.trans h.world_eq, h'.parents_eq.trans h.parents_eq⟩

/-- **Reverting drops all that was done since the scope was entered.** -/
theorem revert_eq (h : j.enter.Inner j') : j'.revert = j := by
  obtain ⟨hworld, hparents⟩ := h
  rw [revert, hparents]
  change { j' with scope := j.scope, parents := j.parents } = j
  rw [hworld]
  rfl

end Inner

instance : Std.Refl Inner := ⟨Inner.refl⟩

instance : IsTrans Journal Inner := ⟨fun _ _ _ => Inner.trans⟩

section
variable (store : Store) (address : Address)

/-- What changing an account comes to. -/
theorem update_run (change : Overlay → Overlay) (j : Journal) : update store address change j =
    match j.findOrFresh store address with
    | .ok o => .ok o (j.put (change o))
    | .error e => .error e j := by
  change EStateM.bind (reading _) _ j = _
  simp only [EStateM.bind, reading]
  cases j.findOrFresh store address <;> rfl

/-- What changing an account comes to, if there is one. -/
theorem update?_run (change : Overlay → Overlay) (j : Journal) : update? store address change j =
    match j.find? store address with
    | .ok none => .ok none j
    | .ok (some o) => .ok (some o) (j.put (change o))
    | .error e => .error e j := by
  change EStateM.bind (reading _) _ j = _
  simp only [EStateM.bind, reading]
  rcases j.find? store address with e | (_ | o) <;> rfl

theorem inner_put (o : Overlay) (j : Journal) : j.Inner (j.put o) := ⟨rfl, rfl⟩

/-- **Changing an account** stays in the innermost scope. -/
theorem inner_update (change : Overlay → Overlay) : Leads Inner (update store address change) := by
  intro j
  rw [Ends, update_run]
  cases j.findOrFresh store address with
  | ok o => exact inner_put (change o) j
  | error e => exact .refl j

/-- So does changing an account if there is one. -/
theorem inner_update? (change : Overlay → Overlay) :
    Leads Inner (update? store address change) := by
  intro j
  rw [Ends, update?_run]
  rcases j.find? store address with e | (_ | o)
  · exact .refl j
  · exact .refl j
  · exact inner_put (change o) j

theorem inner_getOrCreate : Leads Inner (getOrCreate store address) :=
  (inner_update _ _ _).bind fun _ => leads_pure _

theorem inner_setSlot (key value : Word) : Leads Inner (setSlot store address key value) :=
  (inner_update _ _ _).bind fun _ => leads_pure _

theorem inner_setCode (code : Bytes) : Leads Inner (setCode store address code) :=
  (inner_update _ _ _).bind fun _ => leads_pure _

theorem inner_incrementNonce : Leads Inner (incrementNonce store address) :=
  (inner_update _ _ _).bind fun _ => leads_pure _

/-- A nonce that cannot be raised leaves the journal as it was. -/
theorem eq_of_incrementNonce_eq_error {e : StateError} {j j' : Journal}
    (h : incrementNonce store address j = .error e j') : j' = j := by
  rcases bind_eq_error h with h | ⟨o, j₁, -, h⟩
  · rw [update_run] at h
    split at h
    · cases h
    · exact (EStateM.Result.error.inj h).2.symm
  · cases h

theorem inner_incrementBalance (amount : Word) :
    Leads Inner (incrementBalance store address amount) :=
  (inner_update _ _ _).bind fun _ => leads_pure _

theorem inner_decrementBalance (amount : Word) :
    Leads Inner (decrementBalance store address amount) :=
  (inner_update _ _ _).bind fun _ => leads_pure _

theorem inner_transfer (source target : Address) (value : Word) :
    Leads Inner (transfer store source target value) := by
  refine (inner_getOrCreate _ _).bind fun _ => ?_
  split
  · exact leads_pure _
  · exact (inner_decrementBalance _ _ _).bind fun _ =>
      (inner_incrementBalance _ _ _).bind fun _ => leads_pure _

end

/-! ## Changes that succeed -/

section
variable {store : Store} {address : Address} {j : Journal} {o : Overlay}

theorem findOrFresh_of_absent (h : j.find? store address = .ok none) :
    j.findOrFresh store address = .ok (.fresh address 0 0) := by
  rw [findOrFresh, h]
  rfl

/-- What a change of an account that succeeds comes to. -/
theorem update_eq_ok {change : Overlay → Overlay} {j' : Journal}
    (h : update store address change j = .ok o j') :
    j.findOrFresh store address = .ok o ∧ j' = j.put (change o) := by
  rw [update_run] at h
  split at h
  · rename_i o' hfound
    cases h
    exact ⟨hfound, rfl⟩
  · cases h

variable (h : j.findOrFresh store address = .ok o)
include h

theorem update_eq (change : Overlay → Overlay) :
    update store address change j = .ok o (j.put (change o)) := by
  rw [update_run, h]

theorem getOrCreate_eq : getOrCreate store address j = .ok () (j.put o) :=
  bind_eq_of_ok (update_eq h _)

theorem incrementNonce_eq :
    incrementNonce store address j = .ok o.nonce (j.put o.incrementNonce) :=
  bind_eq_of_ok (update_eq h _)

theorem setSlot_eq (key value : Word) :
    setSlot store address key value j = .ok () (j.put (o.setSlot key value)) :=
  bind_eq_of_ok (update_eq h _)

theorem incrementBalance_eq (amount : Word) :
    incrementBalance store address amount j = .ok o.balance (j.put (o.incrementBalance amount)) :=
  bind_eq_of_ok (update_eq h _)

theorem decrementBalance_eq (amount : Word) :
    decrementBalance store address amount j = .ok o.balance (j.put (o.decrementBalance amount)) :=
  bind_eq_of_ok (update_eq h _)

end
end Journal
end Ethereum
