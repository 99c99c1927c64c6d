/-
# Accounts as they are read

Through a journal an account is either missing, or it has a nonce, a balance, the hash of its code,
its code and its slots (`Seen`).  All that is read of accounts is told by that
(`Ledger.read_eq_seen`): whether an account is there and whether it is empty are no further facts.

A change of one account makes another of what is seen at its address, where it is there from then
on, and leaves what is seen elsewhere (`Journal.Reshapes`).  So all reads of the account are known
before and after (`Journal.Alters`), and all reads of other accounts are the same
(`Journal.SameAt`).
-/

import Mathlib
import Ethereum.Proofs.State.Snapshots
import Ethereum.Proofs.State.Steady

namespace Ethereum

/-- An account that is there, as it is read.  The store may fail to give its code and its slots. -/
structure Seen where
  nonce : Nat
  balance : Word
  codeHash : Hash
  code : Except StateError Bytes
  slot : Word → Except StateError Word

namespace Seen

/-- A new account, which has nothing. -/
def fresh : Seen := ⟨0, 0, Store.emptyCodeHash, .ok [], fun _ => .ok 0⟩

/-- Whether there is neither code nor nonce nor balance. -/
def isEmpty (s : Seen) : Bool :=
  s.nonce = 0 && s.balance = 0 && s.codeHash = Store.emptyCodeHash

/-- The account with a nonce that is higher by one, up to the largest quantity. -/
def raiseNonce (s : Seen) : Seen := { s with nonce := Quantity.satAdd s.nonce 1 }

/-- The account with another balance. -/
def withBalance (amount : Word) (s : Seen) : Seen := { s with balance := amount }

/-- The account with a value in a slot. -/
def setSlot (key value : Word) (s : Seen) : Seen :=
  { s with slot := Function.update s.slot key (.ok value) }

end Seen

/-- What is read of an account that is seen, or where there is none. -/
def Read.seen (found : Option Seen) : Read → Except StateError Answer
  | present => .ok (.flag found.isSome)
  | isEmpty => .ok (.flag ((found.map Seen.isEmpty).getD false))
  | balance => .ok (.word ((found.map Seen.balance).getD 0))
  | nonce => .ok (.number ((found.map Seen.nonce).getD 0))
  | code => ((found.map Seen.code).getD (.ok [])).map .bytes
  | codeHash => .ok (.word ((found.map Seen.codeHash).getD 0))
  | slot key => ((found.map fun s : Seen => s.slot key).getD (.ok 0)).map .word

/-! ## Overlays -/

namespace Overlay

/-- The account that an overlay shows over a world. -/
def seen (o : Overlay) (w : World) (store : Store) : Seen :=
  ⟨o.nonce, o.balance, o.codeHash, o.code w store, o.slot w store⟩

variable (o : Overlay) (w : World) (store : Store)

@[simp] theorem seen_fresh (address : Address) : (fresh address 0 0).seen w store = .fresh := by
  have hslots : (fresh address 0 0).slot w store = fun _ => .ok 0 := by
    funext key
    rw [slot, fresh, Std.ExtTreeMap.getElem?_empty]
    rfl
  rw [seen, hslots]
  rfl

theorem seen_setSlot (key value : Word) :
    (o.setSlot key value).seen w store = (o.seen w store).setSlot key value := by
  have hslots : (o.setSlot key value).slot w store =
      Function.update (o.slot w store) key (.ok value) := by
    funext k
    rw [slot, setSlot, Std.ExtTreeMap.getElem?_insert, Function.update_apply]
    simp only [Std.compare_eq_iff_eq]
    by_cases hk : key = k
    · rw [if_pos hk, if_pos hk.symm]
    · rw [if_neg hk, if_neg (Ne.symm hk)]
      rfl
  rw [seen, hslots]
  rfl

end Overlay

/-! ## Journals -/

/-- The account at an address as it is read, if there is one. -/
def Journal.seen (j : Journal) (store : Store) (address : Address) :
    Except StateError (Option Seen) :=
  (j.find? store address).map fun found => found.map fun o => o.seen j.world store

/-- **All reads of an account** are told by what is seen of it. -/
theorem Ledger.read_eq_seen (s : Ledger) (address : Address) (r : Read) :
    s.read address r = s.journal.seen s.store address >>= r.seen := by
  cases hfind : s.journal.find? s.store address with
  | error e =>
    cases r <;> simp only [read, Journal.exists?, Journal.isEmpty, Journal.balance, Journal.nonce,
      Journal.code, Journal.codeHash, Journal.slot, Journal.seen, hfind] <;> rfl
  | ok found =>
    cases found <;> cases r <;> simp only [read, Journal.exists?, Journal.isEmpty, Journal.balance,
      Journal.nonce, Journal.code, Journal.codeHash, Journal.slot, Journal.seen, hfind] <;> rfl

namespace Journal

variable {store : Store} {j j' j'' : Journal} {address : Address} {change change' : Seen → Seen}

/-- All that is read of an account is the same. -/
def SameAt (store : Store) (j j' : Journal) (address : Address) : Prop :=
  ∀ r, Ledger.read ⟨store, j'⟩ address r = Ledger.read ⟨store, j⟩ address r

/-- All that is read of an account is what a change makes of what was read before, or of a new
account if there was none. -/
def Alters (store : Store) (j j' : Journal) (address : Address) (change : Seen → Seen) : Prop :=
  ∃ found : Option Seen, (∀ r, Ledger.read ⟨store, j⟩ address r = r.seen found) ∧
    ∀ r, Ledger.read ⟨store, j'⟩ address r = r.seen (some (change (found.getD .fresh)))

/-- What is seen of one account is changed, or of a new one if there was none, and what is seen of
all others is the same. -/
structure Reshapes (store : Store) (j j' : Journal) (address : Address) (change : Seen → Seen) :
    Prop where
  here : ∃ found, j.seen store address = .ok found ∧
    j'.seen store address = .ok (some (change (found.getD .fresh)))
  elsewhere : ∀ a ≠ address, j'.seen store a = j.seen store a

theorem sameAt_of_seen_eq (h : j'.seen store address = j.seen store address) :
    j.SameAt store j' address := fun r => by
  rw [Ledger.read_eq_seen, Ledger.read_eq_seen, h]

theorem alters_of_seen {found : Option Seen} (hbefore : j.seen store address = .ok found)
    (hafter : j'.seen store address = .ok (some (change (found.getD .fresh)))) :
    j.Alters store j' address change := by
  refine ⟨found, fun r => ?_, fun r => ?_⟩
  · rw [Ledger.read_eq_seen, hbefore]
    rfl
  · rw [Ledger.read_eq_seen, hafter]
    rfl

/-- What is found or created at an address is what is seen there, or a new account. -/
theorem seen_of_findOrFresh {o : Overlay} (h : j.findOrFresh store address = .ok o) :
    ∃ found, j.seen store address = .ok found ∧ o.seen j.world store = found.getD .fresh := by
  obtain ⟨found, hfind, h⟩ := exists_of_bind_eq_ok h
  refine ⟨found.map fun o => o.seen j.world store, by rw [seen, hfind]; rfl, ?_⟩
  cases found <;> cases h
  · exact Overlay.seen_fresh _ _ _
  · rfl

theorem seen_put (j : Journal) (o : Overlay) (a : Address) : (j.put o).seen store a =
    if a = o.address then .ok (some (o.seen j.world store)) else j.seen store a := by
  rw [seen, seen, find?_put]
  split <;> rfl

namespace Reshapes

/-- **A change of an account** that is found or created. -/
theorem of_update (hj : j.Regular) {onOverlay : Overlay → Overlay} {f : Word → Word} {o : Overlay}
    (hpays : Overlay.Pays onOverlay f)
    (hseen : ∀ o : Overlay, (onOverlay o).seen j.world store = change (o.seen j.world store))
    (h : update store address onOverlay j = .ok o j') : j.Reshapes store j' address change := by
  obtain ⟨hfound, rfl⟩ := update_eq_ok h
  obtain ⟨found, hbefore, hat⟩ := seen_of_findOrFresh hfound
  have haddress := (hpays.liesAt (hj.liesAt_of_findOrFresh hfound)).address_eq
  refine ⟨⟨found, hbefore, ?_⟩, fun a ha => ?_⟩
  · rw [seen_put, haddress, if_pos rfl, hseen, hat]
  · rw [seen_put, haddress, if_neg ha]

theorem of_setSlot (hj : j.Regular) {key value : Word}
    (h : setSlot store address key value j = .ok () j') :
    j.Reshapes store j' address (.setSlot key value) := by
  obtain ⟨o, j₁, hupdate, h⟩ := bind_eq_ok h
  cases h
  exact of_update hj (Overlay.pays_setSlot key value)
    (fun o => o.seen_setSlot j.world store key value) hupdate

theorem of_incrementNonce (hj : j.Regular) {nonce : Nat}
    (h : incrementNonce store address j = .ok nonce j') :
    j.Reshapes store j' address .raiseNonce := by
  obtain ⟨o, j₁, hupdate, h⟩ := bind_eq_ok h
  cases h
  exact of_update hj Overlay.pays_incrementNonce (fun _ => rfl) hupdate

theorem of_getOrCreate (hj : j.Regular) (h : getOrCreate store address j = .ok () j') :
    j.Reshapes store j' address id := by
  obtain ⟨o, j₁, hupdate, h⟩ := bind_eq_ok h
  cases h
  exact of_update hj Overlay.pays_id (fun _ => rfl) hupdate

theorem of_incrementBalance (hj : j.Regular) {amount before : Word}
    (h : incrementBalance store address amount j = .ok before j') :
    j.Reshapes store j' address fun s => s.withBalance (Word.satAdd s.balance amount) := by
  obtain ⟨o, j₁, hupdate, h⟩ := bind_eq_ok h
  cases h
  exact of_update hj (Overlay.pays_incrementBalance amount) (fun _ => rfl) hupdate

theorem of_decrementBalance (hj : j.Regular) {amount before : Word}
    (h : decrementBalance store address amount j = .ok before j') :
    j.Reshapes store j' address fun s => s.withBalance (Word.satSub s.balance amount) := by
  obtain ⟨o, j₁, hupdate, h⟩ := bind_eq_ok h
  cases h
  exact of_update hj (Overlay.pays_decrementBalance amount) (fun _ => rfl) hupdate

theorem alters (h : j.Reshapes store j' address change) : j.Alters store j' address change := by
  obtain ⟨found, hbefore, hafter⟩ := h.here
  exact alters_of_seen hbefore hafter

theorem sameAt (h : j.Reshapes store j' address change) {a : Address} (ha : a ≠ address) :
    j.SameAt store j' a :=
  sameAt_of_seen_eq (h.elsewhere a ha)

/-- Changes of one account one after the other. -/
theorem trans (h : j.Reshapes store j' address change)
    (h' : j'.Reshapes store j'' address change') :
    j.Reshapes store j'' address (change' ∘ change) := by
  obtain ⟨found, hbefore, hbetween⟩ := h.here
  obtain ⟨found', hbetween', hafter⟩ := h'.here
  obtain rfl := Except.ok.inj (hbetween'.symm.trans hbetween)
  exact ⟨⟨found, hbefore, hafter⟩, fun a ha => (h'.elsewhere a ha).trans (h.elsewhere a ha)⟩

theorem rebalances {f : Seen → Word}
    (h : j.Reshapes store j' address fun s => s.withBalance (f s)) :
    ∃ balance, j.Alters store j' address (.withBalance balance) := by
  obtain ⟨found, hbefore, hafter⟩ := h.here
  exact ⟨f (found.getD .fresh), alters_of_seen hbefore hafter⟩

/-- **Two balances that are changed** one after the other, be they of one account. -/
theorem rebalances_both {first second : Address} {f g : Seen → Word}
    (h : j.Reshapes store j' first fun s => s.withBalance (f s))
    (h' : j'.Reshapes store j'' second fun s => s.withBalance (g s)) :
    (∃ balance, j.Alters store j'' first (.withBalance balance)) ∧
      (∃ balance, j.Alters store j'' second (.withBalance balance)) ∧
      ∀ a, a ≠ first → a ≠ second → j.SameAt store j'' a := by
  refine ⟨?_, ?_, fun a ha ha' => ?_⟩
  · by_cases heq : first = second
    · subst heq
      exact rebalances (f := fun s => g (s.withBalance (f s))) (h.trans h')
    · obtain ⟨found, hbefore, hbetween⟩ := h.here
      exact ⟨_, alters_of_seen hbefore ((h'.elsewhere first heq).trans hbetween)⟩
  · by_cases heq : second = first
    · subst heq
      exact rebalances (f := fun s => g (s.withBalance (f s))) (h.trans h')
    · obtain ⟨found, hbetween, hafter⟩ := h'.here
      exact ⟨_, alters_of_seen ((h.elsewhere second heq).symm.trans hbetween) hafter⟩
  · exact sameAt_of_seen_eq ((h'.elsewhere a ha').trans (h.elsewhere a ha))

end Reshapes
end Journal
end Ethereum
