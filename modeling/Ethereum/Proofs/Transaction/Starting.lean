/-
# Creations that are started

A creation is refused where its address is taken, by code or by a nonce, and then nothing is
changed.  Else it moves its value there and, where the rules say so, raises the nonce to one
(`Journal.exists_begun`).  Neither of the two touches anything else of the account
(`Journal.exists_transfer`): an account that was there already keeps its balance under the value,
and the slots that it has.  So init code sees an empty storage where there was no account
(`Journal.Begun.empty_of_absent`), and else whatever was left there.  Where the two accounts can be
read, a creation does not fail to start (`Lifecycle.creation_begins`).
-/

import Mathlib
import Ethereum.Proofs.State.Seen
import Ethereum.Proofs.Transaction.Claiming
import Ethereum.Proofs.Transaction.Trees

namespace Ethereum

/-! ## What is seen -/

namespace Journal

variable {store : Store} {j j' : Journal} {address : Address} {found : Option Seen}

/-- What is read of an account at an address, or where there is none. -/
structure Shows (store : Store) (j : Journal) (address : Address) (found : Option Seen) : Prop where
  exists?_eq : j.exists? store address = .ok found.isSome
  balance_eq : j.balance store address = .ok ((found.map Seen.balance).getD 0)
  nonce_eq : j.nonce store address = .ok ((found.map Seen.nonce).getD 0)
  code_eq : j.code store address = (found.map Seen.code).getD (.ok [])
  codeHash_eq : j.codeHash store address = .ok ((found.map Seen.codeHash).getD 0)
  slot_eq : ∀ key, j.slot store address key = (found.map fun s => s.slot key).getD (.ok 0)

theorem shows_of_seen (h : j.seen store address = .ok found) : j.Shows store address found := by
  obtain ⟨held, hfind, rfl⟩ := exists_of_map_eq_ok h
  constructor
  · rw [exists?, hfind]
    cases held <;> rfl
  · rw [balance, hfind]
    cases held <;> rfl
  · rw [nonce, hfind]
    cases held <;> rfl
  · rw [code, hfind]
    cases held <;> rfl
  · rw [codeHash, hfind]
    cases held <;> rfl
  · intro key
    rw [slot, hfind]
    cases held <;> rfl

/-- An account is seen, or that there is none, where its balance is read. -/
theorem exists_seen_of_balance {b : Word} (h : j.balance store address = .ok b) :
    ∃ found, j.seen store address = .ok found ∧ (found.getD .fresh).balance = b := by
  obtain ⟨held, hfind, hheld⟩ := exists_of_bind_eq_ok h
  refine ⟨held.map fun o => o.seen j.world store, by rw [seen, hfind]; rfl, ?_⟩
  cases held <;> exact Except.ok.inj hheld

/-! ## Changes that succeed -/

/-- What is seen of an account after a change of it. -/
theorem Reshapes.seen_eq {change : Seen → Seen} (h : j.Reshapes store j' address change)
    (hfound : j.seen store address = .ok found) :
    j'.seen store address = .ok (some (change (found.getD .fresh))) := by
  obtain ⟨found', hbefore, hafter⟩ := h.here
  cases hfound.symm.trans hbefore
  exact hafter

/-- The change does not fail where the account can be seen, and makes another account of it, or of
a new one where none is seen. -/
def Makes {α : Type} (store : Store) (address : Address) (change : Seen → Seen) (c : Change α) :
    Prop :=
  ∀ ⦃j : Journal⦄ ⦃found : Option Seen⦄, j.Regular → j.seen store address = .ok found →
    ∃ a j', c j = .ok a j' ∧ j'.Regular ∧ j.Reshapes store j' address change

theorem makes_update {onOverlay : Overlay → Overlay} {f : Word → Word} {change : Seen → Seen}
    (hpays : Overlay.Pays onOverlay f)
    (hseen : ∀ (o : Overlay) (w : World), (onOverlay o).seen w store = change (o.seen w store)) :
    Makes store address change (update store address onOverlay) := by
  intro j found hj h
  obtain ⟨held, hfind, -⟩ := exists_of_map_eq_ok h
  have hfound : j.findOrFresh store address = .ok (held.getD (.fresh address 0 0)) := by
    rw [findOrFresh, hfind]
    rfl
  have hupdate := update_eq hfound onOverlay
  exact ⟨_, _, hupdate, hj.put (hpays.liesAt (hj.liesAt_of_findOrFresh hfound)),
    .of_update hj hpays (fun o => hseen o j.world) hupdate⟩

theorem Makes.returning {α β : Type} {change : Seen → Seen} {c : Change α}
    (h : Makes store address change c) (g : α → β) :
    Makes store address change (c >>= fun a => pure (g a)) := by
  intro j found hj hfound
  obtain ⟨a, j', hrun, hj', hreshapes⟩ := h hj hfound
  exact ⟨g a, j', bind_eq_of_ok hrun, hj', hreshapes⟩

theorem makes_getOrCreate : Makes store address id (getOrCreate store address) :=
  Makes.returning (makes_update Overlay.pays_id fun _ _ => rfl) _

theorem makes_incrementNonce : Makes store address .raiseNonce (incrementNonce store address) :=
  Makes.returning (makes_update Overlay.pays_incrementNonce fun _ _ => rfl) _

theorem makes_incrementBalance (amount : Word) :
    Makes store address (fun s => s.withBalance (Word.satAdd s.balance amount))
      (incrementBalance store address amount) :=
  Makes.returning (makes_update (Overlay.pays_incrementBalance amount) fun _ _ => rfl) _

theorem makes_decrementBalance (amount : Word) :
    Makes store address (fun s => s.withBalance (Word.satSub s.balance amount))
      (decrementBalance store address amount) :=
  Makes.returning (makes_update (Overlay.pays_decrementBalance amount) fun _ _ => rfl) _

/-- **A transfer** between two accounts that are seen changes their balances and nothing else. -/
theorem exists_transfer {source target : Address} {payer payee : Option Seen} (hj : j.Regular)
    (hne : source ≠ target) (hsource : j.seen store source = .ok payer)
    (htarget : j.seen store target = .ok payee) (value : Word) :
    ∃ j', transfer store source target value j = .ok () j' ∧ j'.Regular ∧
      j'.seen store source = .ok (some ((payer.getD .fresh).withBalance
        (Word.satSub (payer.getD .fresh).balance value))) ∧
      j'.seen store target = .ok (some ((payee.getD .fresh).withBalance
        (Word.satAdd (payee.getD .fresh).balance value))) ∧
      ∀ a, a ≠ source → a ≠ target → j'.seen store a = j.seen store a := by
  obtain ⟨_, j₁, hcreate, hj₁, h₁⟩ := makes_getOrCreate hj htarget
  have hsource₁ := (h₁.elsewhere source hne).trans hsource
  obtain ⟨_, j₂, hlower, hj₂, h₂⟩ := makes_decrementBalance value hj₁ hsource₁
  have htarget₂ := (h₂.elsewhere target hne.symm).trans (h₁.seen_eq htarget)
  obtain ⟨_, j₃, hraise, hj₃, h₃⟩ := makes_incrementBalance value hj₂ htarget₂
  have htarget₃ := h₃.seen_eq htarget₂
  refine ⟨j₃, ?_, hj₃, (h₃.elsewhere source hne).trans (h₂.seen_eq hsource₁), htarget₃,
    fun a hasource hatarget => ?_⟩
  · refine (bind_eq_of_ok hcreate).trans ?_
    rw [if_neg hne]
    exact (bind_eq_of_ok hlower).trans (bind_eq_of_ok hraise)
  · rw [h₃.elsewhere a hatarget, h₂.elsewhere a hasource, h₁.elsewhere a hatarget]

/-- What a creation leaves that begins, with its nonce raised or not. -/
structure Begun (store : Store) (message : Message) (raises : Bool) (j j' : Journal) : Prop where
  exists?_eq : j'.exists? store message.contract = .ok true
  nonce_eq : j'.nonce store message.contract = .ok (if raises then 1 else 0)
  /-- The value is on top of what was there. -/
  balance_eq : ∃ before after, j.balance store message.contract = .ok before ∧
    j'.balance store message.contract = .ok after ∧
    after.toNat = before.toNat + message.value.toNat
  /-- The account has no code. -/
  codeHash_eq : ∃ h, j'.codeHash store message.contract = .ok h ∧
    (h = 0 ∨ h = Store.emptyCodeHash) ∧
    j'.code store message.contract = j.code store message.contract
  /-- The slots are those that were there. -/
  slot_eq : ∀ key, j'.slot store message.contract key = j.slot store message.contract key
  /-- The sender has less by the value. -/
  sender : ∃ before after, j.balance store message.sender = .ok before ∧
    j.Alters store j' message.sender (.withBalance after) ∧
    after.toNat + message.value.toNat = before.toNat
  elsewhere : ∀ a, a ≠ message.sender → a ≠ message.contract → j.SameAt store j' a

/-- **Init code sees an empty account** where there was none. -/
theorem Begun.empty_of_absent {message : Message} {raises : Bool}
    (h : j.Begun store message raises j') (habsent : j.exists? store message.contract = .ok false) :
    j'.code store message.contract = .ok [] ∧
      ∀ key, j'.slot store message.contract key = .ok 0 := by
  obtain ⟨held, hfind, hnone⟩ := exists_of_bind_eq_ok habsent
  cases held with
  | some o => cases hnone
  | none =>
    obtain ⟨-, -, -, hcode⟩ := h.codeHash_eq
    refine ⟨hcode.trans ?_, fun key => (h.slot_eq key).trans ?_⟩
    · rw [code, hfind]
      rfl
    · rw [slot, hfind]
      rfl

/-- A free account has neither code nor a nonce, as it is seen. -/
theorem Free.seen (h : j.Free store address) (hseen : j.seen store address = .ok found) :
    ((found.getD .fresh).codeHash = 0 ∨ (found.getD .fresh).codeHash = Store.emptyCodeHash) ∧
      (found.getD .fresh).nonce = 0 := by
  obtain ⟨held, hfind, hfree⟩ := h
  obtain ⟨held', hfind', rfl⟩ := exists_of_map_eq_ok hseen
  cases hfind.symm.trans hfind'
  cases held with
  | none => exact ⟨.inr rfl, rfl⟩
  | some o => exact hfree o rfl

/-- A creation has begun where the account at its address has the nonce of the rules and the value
on top, and the sender less by the value. -/
theorem begun_of_seen {message : Message} {raises : Bool} {payer : Option Seen}
    (hfree : j.Free store message.contract)
    (hcontract : j.seen store message.contract = .ok found)
    (hsender : j.seen store message.sender = .ok payer)
    (hafford : message.value ≤ (payer.getD .fresh).balance)
    (hfits : (found.getD .fresh).balance.toNat + message.value.toNat < 2 ^ 256)
    (hcontract' : j'.seen store message.contract = .ok (some { found.getD .fresh with
      nonce := if raises then 1 else 0
      balance := Word.satAdd (found.getD .fresh).balance message.value }))
    (hsender' : j'.seen store message.sender = .ok (some ((payer.getD .fresh).withBalance
      (Word.satSub (payer.getD .fresh).balance message.value))))
    (helsewhere : ∀ a, a ≠ message.sender → a ≠ message.contract →
      j'.seen store a = j.seen store a) :
    j.Begun store message raises j' := by
  obtain ⟨hcode, -⟩ := hfree.seen hcontract
  have hbefore := shows_of_seen hcontract
  have hafter := shows_of_seen hcontract'
  -- neither sum saturates, as the balances are known to allow the transfer
  have hraised : (Word.satAdd (found.getD .fresh).balance message.value).toNat =
      (found.getD .fresh).balance.toNat + message.value.toNat := by
    rw [Word.satAdd_eq, BitVec.toNat_ofNat]
    omega
  have hlowered : (Word.satSub (payer.getD .fresh).balance message.value).toNat +
      message.value.toNat = (payer.getD .fresh).balance.toNat := by
    have hlt := (payer.getD .fresh).balance.isLt
    have hle := BitVec.le_def.mp hafford
    rw [Word.satSub_eq, BitVec.toNat_ofNat]
    omega
  refine ⟨hafter.exists?_eq, hafter.nonce_eq, ⟨(found.getD .fresh).balance, _, ?_,
    hafter.balance_eq, hraised⟩, ⟨_, hafter.codeHash_eq, hcode, hafter.code_eq.trans ?_⟩,
    fun key => (hafter.slot_eq key).trans ?_, ⟨(payer.getD .fresh).balance, _, ?_,
    alters_of_seen hsender hsender', hlowered⟩,
    fun a hasender hacontract => sameAt_of_seen_eq (helsewhere a hasender hacontract)⟩
  · rw [hbefore.balance_eq]
    cases found <;> rfl
  · rw [hbefore.code_eq]
    cases found <;> rfl
  · rw [hbefore.slot_eq]
    cases found <;> rfl
  · rw [(shows_of_seen hsender).balance_eq]
    cases payer <;> rfl

/-- **A creation begins** at a free address: its value can be moved there, and its nonce can be raised
then. -/
theorem exists_begun {message : Message} {payer : Option Seen} (hj : j.Regular)
    (hne : message.sender ≠ message.contract) (hfree : j.Free store message.contract)
    (hcontract : j.seen store message.contract = .ok found)
    (hsender : j.seen store message.sender = .ok payer)
    (hafford : message.value ≤ (payer.getD .fresh).balance)
    (hfits : (found.getD .fresh).balance.toNat + message.value.toNat < 2 ^ 256) :
    ∃ j₁, transfer store message.sender message.contract message.value j = .ok () j₁ ∧
      j.Begun store message false j₁ ∧
      ∃ nonce j₂, incrementNonce store message.contract j₁ = .ok nonce j₂ ∧
        j.Begun store message true j₂ := by
  have hnonce := (hfree.seen hcontract).2
  obtain ⟨j₁, htransfer, hj₁, hsender₁, hcontract₁, helsewhere₁⟩ :=
    exists_transfer hj hne hsender hcontract message.value
  obtain ⟨nonce, j₂, hraise, -, h₂⟩ := makes_incrementNonce hj₁ hcontract₁
  have hbegun : j.Begun store message false j₁ := by
    refine begun_of_seen hfree hcontract hsender hafford hfits ?_ hsender₁ helsewhere₁
    rw [hcontract₁, Seen.withBalance, if_neg Bool.false_ne_true, ← hnonce]
  have hraised : j.Begun store message true j₂ := by
    refine begun_of_seen hfree hcontract hsender hafford hfits ?_
      ((h₂.elsewhere _ hne).trans hsender₁) fun a ha ha' =>
        (h₂.elsewhere a ha').trans (helsewhere₁ a ha ha')
    rw [h₂.seen_eq hcontract₁, Option.getD_some, Seen.raiseNonce, Seen.withBalance, hnonce]
    rfl
  exact ⟨j₁, htransfer, hbegun, nonce, j₂, hraise, hraised⟩

end Journal

namespace Lifecycle

variable {s : Setting} {m : Machine} {address : Address}

/-- **Whether an address is taken** is known where the account is seen: a free one is not. -/
theorem exists_isTaken {found : Option Seen} (h : m.journal.seen s.store address = .ok found) :
    ∃ taken, isTaken address s m = .ok taken m ∧
      (taken = false ↔ m.journal.Free s.store address) := by
  obtain ⟨held, hfind, -⟩ := exists_of_map_eq_ok h
  refine ⟨_, isTaken_eq hfind, ?_⟩
  have hfree : m.journal.Free s.store address ↔
      ∀ o ∈ held, (o.codeHash = 0 ∨ o.codeHash = Store.emptyCodeHash) ∧ o.nonce = 0 := by
    refine ⟨fun h => ?_, fun hheld => ⟨held, hfind, hheld⟩⟩
    obtain ⟨held', hfind', hheld⟩ := h
    cases hfind.symm.trans hfind'
    exact hheld
  rw [hfree]
  cases held with
  | none => simp
  | some o => simp [or_iff_not_imp_left]

/-- How a creation starts whose accounts can be read. -/
inductive Begins (s : Setting) (m : Machine) : Except ExitFatal Unit → Machine → Prop
  /-- The address is taken, and nothing changed. -/
  | collided {m' : Machine} (htaken : ¬ m.journal.Free s.store m.frame.message.contract)
    (hframe : m'.frame = m.frame.halt .createCollision) (hjournal : m'.journal = m.journal) :
    Begins s m (.ok ()) m'
  | begun {m' : Machine} (hfree : m.journal.Free s.store m.frame.message.contract)
    (hframe : m'.frame = { m.frame with state := .codeExecuting })
    (hjournal : m.journal.Begun s.store m.frame.message s.config.createIncreaseNonce m'.journal) :
    Begins s m (.ok ()) m'

/-- **How creations start.**  Let the balances of the sender and of the address be read, be the two
different, and let the sender have the value and the address have room for it.  Then the start of a
creation returns.  Where the address is taken, by code or by a nonce, the frame halts and nothing has
changed.  Else its code is about to run, and the account at the address is there, without code, with
a nonce of zero or one as the rules say, and with the value on top of its balance.  Its slots are
those that were there before: nothing clears them. -/
theorem creation_begins {there sent : Word} (hkind : m.frame.message.kind = .creation)
    (hj : m.journal.Regular) (hne : m.frame.message.sender ≠ m.frame.message.contract)
    (hthere : m.journal.balance s.store m.frame.message.contract = .ok there)
    (hsent : m.journal.balance s.store m.frame.message.sender = .ok sent)
    (hafford : m.frame.message.value ≤ sent)
    (hfits : there.toNat + m.frame.message.value.toNat < 2 ^ 256) :
    Ends (start s) m (Begins s m) := by
  suffices h : Ends (startCreation s) m (Begins s m) by rwa [Ends, start_of_creation hkind]
  obtain ⟨found, hfound, rfl⟩ := Journal.exists_seen_of_balance hthere
  obtain ⟨payer, hpayer, rfl⟩ := Journal.exists_seen_of_balance hsent
  obtain ⟨taken, htaken, hfree⟩ := exists_isTaken hfound
  refine bind_ends_of_ok rfl (bind_ends_of_ok htaken ?_)
  -- an address with code or a nonce is taken, and then the creation collides
  cases taken with
  | true => exact .collided (fun h => by cases hfree.mpr h) rfl rfl
  | false =>
    replace hfree := hfree.mp rfl
    obtain ⟨j₁, htransfer, hbegun, nonce, j₂, hraise, hraised⟩ :=
      Journal.exists_begun hj hne hfree hfound hpayer hafford hfits
    have htransferred : transferValue m.frame.message.contract s m =
        .ok () { m with journal := j₁ } := by
      have hframe : frame s m = .ok m.frame m := rfl
      exact (reader_bind_eq_of_ok hframe).trans (Machine.changing_eq htransfer)
    refine bind_ends_of_ok htransferred (bind_ends_of_ok rfl ?_)
    by_cases hraises : s.config.createIncreaseNonce
    · rw [if_pos hraises]
      refine bind_ends_of_ok (Machine.changing_eq hraise) (.begun hfree rfl ?_)
      rw [hraises]
      exact hraised
    · rw [if_neg hraises]
      refine .begun hfree rfl ?_
      rw [Bool.eq_false_of_not_eq_true hraises]
      exact hbegun

/-! ### A creation where something is left -/

/-- Account 1, which has 16, is about to create a contract at address 3 with a value of 1.  Account 3
has 100 already, and 5 in slot 1, but neither code nor a nonce. -/
def settler : Machine where
  frame := .new .petersburg ⟨0, 0, 0, 0, 0, #[]⟩ {
    kind := .creation, sender := 1, recipient := 3, contract := 3, originator := 1, gasPrice := 0,
    value := 1, apparentValue := 1, input := [], code := [0x60, 1, 0x54], gas := 100000,
    depth := 0, isStatic := false }
  journal := ((Journal.ofWorld .empty).put (.fresh 1 1 16)).put ((Overlay.fresh 3 0 100).setSlot 1 5)
  trace := .off

theorem regular_settler : settler.journal.Regular := by
  have hsender : (Overlay.fresh 1 1 16).LiesAt 1 := ⟨rfl, by decide⟩
  have hcontract : ((Overlay.fresh 3 0 100).setSlot 1 5).LiesAt 3 := ⟨rfl, by decide⟩
  exact ((Journal.regular_ofWorld .empty).put hsender).put hcontract

/-- The code runs on a nonce of 1 and a balance of 101, and slot 1 still has 5. -/
theorem creation_begins_of_settler : ∃ m', start bare settler = .ok () m' ∧
    m'.frame.state = .codeExecuting ∧ m'.journal.nonce bare.store 3 = .ok 1 ∧
    m'.journal.balance bare.store 3 = .ok 101 ∧ m'.journal.slot bare.store 3 1 = .ok 5 := by
  have hbalances : settler.journal.balance bare.store 3 = .ok 100 ∧
      settler.journal.balance bare.store 1 = .ok 16 ∧
      settler.journal.slot bare.store 3 1 = .ok 5 := by decide +kernel
  have hstate : endState (start bare settler) = some .codeExecuting := by decide +kernel
  obtain ⟨_, m', hstart, hexecuting⟩ := exists_of_endState hstate
  have hends : Ends (start bare) settler (Begins bare settler) :=
    creation_begins rfl regular_settler (by decide) hbalances.1 hbalances.2.1 (by decide)
      (by decide)
  cases hends.of_ok hstart with
  | collided htaken hframe =>
    rw [hframe] at hexecuting
    cases hexecuting
  | begun hfree hframe hjournal =>
    obtain ⟨before, after, hbefore, hafter, hsum⟩ := hjournal.balance_eq
    obtain rfl := Except.ok.inj (hbalances.1.symm.trans hbefore)
    obtain rfl : after = 101 := BitVec.eq_of_toNat_eq hsum
    exact ⟨m', hstart, hexecuting, hjournal.nonce_eq, hafter,
      (hjournal.slot_eq 1).trans hbalances.2.2⟩

end Lifecycle
end Ethereum
