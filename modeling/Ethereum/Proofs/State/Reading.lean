/-
# What can be read

An account can be read if a scope says something about it, or else the world can read it
(`Journal.Readable`).  Every change of an account reads it first, so what can be read after a
change could be read before (`Journal.ReadsBack`), and merging a scope adds nothing to what it
reads through to.  So whatever was written in a scope can be read under it
(`Journal.ReadsBack.touched`), and be created there again (`Journal.Readable.exists_getOrCreate`).
-/

import Mathlib
import Ethereum.Proofs.State.Steady

namespace Ethereum
namespace Journal

/-! ## Readable accounts -/

variable {store : Store} {j j' inner : Journal} {address : Address}

/-- Whether there is an account at an address can be told. -/
def Readable (store : Store) (j : Journal) (address : Address) : Prop :=
  ∃ found, j.find? store address = .ok found

theorem Readable.put (h : j.Readable store address) (o : Overlay) :
    (j.put o).Readable store address := by
  rw [Readable, find?_put]
  split
  · exact ⟨_, rfl⟩
  · exact h

/-- What was touched in a scope can be read. -/
theorem Regular.readable_of_touched (hj : j.Regular) (h : address ∈ j.touched) :
    j.Readable store address := by
  rw [touched, Scope.touched, Std.ExtTreeMap.mem_keys,
    Std.ExtTreeMap.mem_iff_isSome_getElem?] at h
  obtain ⟨o, ho⟩ := Option.isSome_iff_exists.mp h
  exact ⟨some o, find?_of_lookup ((hj _ List.mem_cons_self).separate.lookup_of_updated ho)⟩

/-- The second journal is regular if the first one is, and then all that can be read there can be
read here. -/
def ReadsBack (store : Store) (j j' : Journal) : Prop :=
  j.Regular → j'.Regular ∧ ∀ address, j'.Readable store address → j.Readable store address

instance : Std.Refl (ReadsBack store) := ⟨fun _ h => ⟨h, fun _ => id⟩⟩

instance : IsTrans Journal (ReadsBack store) where
  trans _ _ _ h h' hj := by
    obtain ⟨hj', hback⟩ := h hj
    obtain ⟨hj'', hback'⟩ := h' hj'
    exact ⟨hj'', fun address => hback address ∘ hback' address⟩

theorem readsBack_enter (j : Journal) : j.ReadsBack store j.enter := by
  refine fun h => ⟨h.enter, fun address hread => ?_⟩
  rwa [Readable, find?_enter] at hread

/-- **A change of an account** reads it first. -/
theorem readsBack_update (store : Store) : ThroughUpdates store (ReadsBack store) := by
  intro address change f hchange
  refine leads_update fun j o hfound hj => ?_
  have hat := hchange.liesAt (hj.liesAt_of_findOrFresh hfound)
  refine ⟨hj.put hat, fun a hread => ?_⟩
  rw [Readable, find?_put, hat.address_eq] at hread
  by_cases ha : a = address
  · obtain ⟨found, hfind, -⟩ := exists_of_bind_eq_ok hfound
    exact ha ▸ ⟨found, hfind⟩
  · rwa [if_neg ha] at hread

/-- A scope that is merged reads back as it did before. -/
theorem ReadsBack.merge (hinner : j.enter.Inner inner) (h : j.ReadsBack store inner) :
    j.ReadsBack store { j with scope := j.scope.merge inner.scope } := by
  intro hj
  obtain ⟨hregular, hback⟩ := h hj
  obtain ⟨hmerged, hfind⟩ := hregular.merge hinner
  refine ⟨hmerged, fun address hread => hback address ?_⟩
  rwa [Readable, hfind] at hread

/-- What was written in a scope can be read under it. -/
theorem ReadsBack.touched (hj : j.Regular) (h : j.ReadsBack store inner)
    (haddress : address ∈ inner.touched) : j.Readable store address := by
  obtain ⟨hregular, hback⟩ := h hj
  exact hback address (hregular.readable_of_touched haddress)

/-! ## Creating what can be read -/

theorem Readable.exists_getOrCreate (h : j.Readable store address) :
    ∃ o : Overlay, getOrCreate store address j = .ok () (j.put o) := by
  obtain ⟨found, hfound⟩ := h
  have hfresh : j.findOrFresh store address = .ok (found.getD (.fresh address 0 0)) := by
    rw [findOrFresh, hfound]
    rfl
  exact ⟨_, getOrCreate_eq hfresh⟩

end Journal
end Ethereum
