/-
# Transactions that end fatally

A read that fails while frames run reverts all scopes that were opened since
(`Lifecycle.round_fails`).  Under them all is the scope of the transaction, which is dropped then, so
the world and the logs are the same as before (`Transact.tree_fails`).

Once the tree has ended, its logs are kept before anything is known of the rest.  A failure to
clear empty accounts still leaves the world as it was.  A failure to commit leaves in the world
what was written before (`Session.fatal_aborts`), which may be nothing at all: the trie that
could not be changed is empty then, and so is its root (`Session.fatal_aborts_of_torn`).
-/

import Mathlib
import Ethereum.Proofs.Transaction.Failing

namespace Ethereum

namespace Journal

/-- The journal lies over a world, with at most `n` scopes around the innermost. -/
structure Over (w : World) (n : Nat) (j : Journal) : Prop where
  world_eq : j.world = w
  length_le : j.parents.length ≤ n

namespace Over

variable {w : World} {n k : Nat} {j j' : Journal}

theorem ofWorld (w : World) : Over w 0 (.ofWorld w) := ⟨rfl, le_rfl⟩

theorem inner (h : Over w n j) (hj : j.Inner j') : Over w n j' where
  world_eq := hj.world_eq.trans h.world_eq
  length_le := hj.parents_eq ▸ h.length_le

theorem mono (h : Over w n j) (hn : n ≤ k) : Over w k j := ⟨h.world_eq, h.length_le.trans hn⟩

theorem enter (h : Over w n j) : Over w (n + 1) j.enter where
  world_eq := h.world_eq
  length_le := Nat.succ_le_succ h.length_le

theorem revert (h : Over w (n + 1) j) : Over w n j.revert := by
  obtain ⟨hworld, hlength⟩ := h
  rw [Journal.revert]
  split
  · rename_i hparents
    exact ⟨hworld, hparents ▸ Nat.zero_le n⟩
  · rename_i hparents
    rw [hparents, List.length_cons] at hlength
    exact ⟨hworld, Nat.le_of_succ_le_succ hlength⟩

/-- The outermost scope is reverted to the world alone. -/
theorem revert_eq (h : Over w 0 j) : j.revert = .ofWorld w := by
  obtain ⟨hworld, hlength⟩ := h
  have hparents : j.parents = [] := List.eq_nil_of_length_eq_zero (Nat.le_zero.mp hlength)
  rw [Journal.revert, hparents, Journal.ofWorld, ← hworld]

theorem unwind (h : Over w (n + k) j) : Over w n (Lifecycle.unwind k j) := by
  induction k generalizing j with
  | zero => exact h
  | succ k ih => exact ih h.revert

end Over

/-- The outermost scope is written into the world. -/
theorem Over.commit_eq {w : World} {j : Journal} (store : Store) (h : Over w 0 j) :
    commit store j = match World.applyScope store j.scope w with
      | .ok _ w' => .ok () (.ofWorld w')
      | .error e w' => .error e (.ofWorld w') := by
  obtain ⟨hworld, hlength⟩ := h
  rw [commit, List.eq_nil_of_length_eq_zero (Nat.le_zero.mp hlength), hworld]
  rfl

/-- Journals that are nested lie over the world of the outermost. -/
theorem Nested.over {j outer : Journal} {js : List Journal} (h : j.Nested js)
    (hlast : js.getLast? = some outer) :
    Over outer.world (outer.parents.length + js.length) j := by
  induction js generalizing j with
  | nil => cases hlast
  | cons next js ih =>
    obtain ⟨hinner, hrest⟩ := h
    cases js with
    | nil =>
      obtain rfl : next = outer := Option.some.inj hlast
      exact (Over.enter ⟨rfl, le_rfl⟩).inner hinner
    | cons after js => exact (ih hrest hlast).enter.inner hinner

theorem inner_delete (j : Journal) (address : Address) :
    j.Inner { j with scope := j.scope.delete address } := ⟨rfl, rfl⟩

/-- The journals differ in that some accounts are deleted. -/
structure Deletes (gone : Finset Address) (j j' : Journal) : Prop where
  inner : j.Inner j'
  lookup_eq : ∀ address,
    j'.scope.lookup address = if address ∈ gone then some none else j.scope.lookup address

end Journal

/-! ## Frames -/

namespace Machine

/-- The machines have one journal. -/
def SameJournal (m m' : Machine) : Prop := m'.journal = m.journal

instance : Std.Refl SameJournal := ⟨fun _ => rfl⟩

instance : IsTrans Machine SameJournal := ⟨fun _ _ _ h h' => Eq.trans h' h⟩

theorem sameJournal_modifyFrame {ε : Type} (change : Frame → Frame) :
    Leads SameJournal (modifyFrame change : EStateM ε Machine Unit) := fun _ => rfl

theorem sameJournal_throw {ε α : Type} (e : ε) :
    Leads SameJournal (throw e : EStateM ε Machine α) := fun _ => rfl

theorem sameJournal_get {ε : Type} :
    Leads SameJournal (get : EStateM ε Machine Machine) := fun _ => rfl

/-- **A parent that goes on** changes nothing in the journal, and if it cannot it does not
either. -/
theorem sameJournal_resume (child : Frame) : Leads SameJournal (resume child) := by
  have hcontinue (result : Word) : Leads SameJournal (continueWith result) := by
    -- resuming changes the frame of the parent alone
    refine sameJournal_get.bind fun m => ?_
    split
    · exact sameJournal_modifyFrame _
    · exact sameJournal_throw _
  have hreceive (success : Bool) (how : Resume) :
      Leads SameJournal (receive child success how) := by
    cases how with
    | call offset length =>
      have houtput : Leads SameJournal (receiveOutput offset length child.output) := by
        refine sameJournal_get.bind fun m => ?_
        split
        · exact sameJournal_modifyFrame _
        · exact sameJournal_throw _
      exact houtput.bind fun _ => (sameJournal_modifyFrame _).bind fun _ => hcontinue _
    | create =>
      rw [receive]
      dsimp only
      split
      · exact hcontinue _
      · exact (sameJournal_modifyFrame _).bind fun _ => hcontinue _
  have habsorb : Leads SameJournal (absorb child) :=
    (sameJournal_modifyFrame _).bind fun _ => fun _ => rfl
  refine sameJournal_get.bind fun m => ?_
  cases m.frame.resume with
  | none => exact sameJournal_throw _
  | some how =>
    refine (sameJournal_modifyFrame _).bind fun _ => (sameJournal_modifyFrame _).bind fun _ => ?_
    by_cases hsuccess : child.state = .completedSuccess
    · rw [if_pos (decide_eq_true hsuccess)]
      exact habsorb.bind fun _ => hreceive _ how
    · rw [if_neg fun h => hsuccess (of_decide_eq_true h)]
      exact hreceive _ how

end Machine

namespace Lifecycle

open Journal

variable {s : Setting} {root m m' : Machine} {j : Journal} {js : List Journal}
  {parents : List Frame} {e : ExitFatal}

theorem unwinding_eq_error {α : Type} {scopes : Nat} {program : Lifecycle α}
    (h : unwinding scopes program s m = .error e m') : ∃ m₁, program s m = .error e m₁ ∧
      m' = { m₁ with journal := unwind scopes m₁.journal } := by
  rw [unwinding] at h
  cases hprogram : program s m with
  | ok a m₁ =>
    rw [hprogram] at h
    cases h
  | error e₁ m₁ =>
    rw [hprogram] at h
    obtain ⟨rfl, rfl⟩ := EStateM.Result.error.inj h
    exact ⟨m₁, rfl, rfl⟩

theorem inner_forM_changing (change : Address → Store → Journal.Change Unit)
    (hchange : ∀ address, Leads Inner (change address s.store)) (l : List Address) :
    Ends ((l.forM fun address => changing (change address)) s) m fun _ m' =>
      m.journal.Inner m'.journal := by
  induction l generalizing m with
  | nil => exact Inner.refl _
  | cons address l ih =>
    refine Ends.bind (Machine.changing_ends (fun e j hj => ?_) fun _ j hj => ?_)
    · exact (hchange address _).of_error hj
    · exact ih.mono fun _ _ h => ((hchange address _).of_ok hj).trans h

/-- The scope of a frame cannot be settled only if a forced address cannot be created again,
and then it is reverted already. -/
theorem settleScope_fails (hj : j.enter.Inner m.journal)
    (h : settleScope s m = .error e m') : j.Inner m'.journal := by
  have hends : Ends (settleScope s) m fun r m' => ∀ e, r = .error e → j.Inner m'.journal := by
    refine bind_ends_of_ok rfl ?_
    cases m.frame.state with
    | completedSuccess =>
      refine Machine.changing_ends (fun e j' hcommit => ?_) fun _ _ _ => nofun
      rw [hj.commit_eq] at hcommit
      cases hcommit
    | completedFailed =>
      refine bind_ends_of_ok rfl (bind_ends_of_ok rfl (bind_ends_of_ok rfl ?_))
      refine (inner_forM_changing (fun address store => getOrCreate store address)
        (inner_getOrCreate s.store) _).mono fun r m₁ h₁ e _ => ?_
      have hrevert : m.journal.revert = j := hj.revert_eq
      exact hrevert ▸ h₁
    | _ => exact nofun
  exact hends.of_error h e rfl

/-- **A frame that fails fatally** has left at most its own scope open. -/
theorem advance_fails {w : World} {n : Nat} (hj : j.enter.Inner m.journal) (hover : j.Over w n)
    (h : advance s m = .error e m') : m'.journal.Over w (n + 1) := by
  rw [advance_eq] at h
  rcases reader_bind_eq_error h with h | ⟨_, m₁, hwork, h⟩
  · exact hover.enter.inner (hj.trans (work_inner.of_error h))
  · have hinner := settleScope_fails (hj.trans (work_inner.of_ok hwork)) h
    exact (hover.inner hinner).mono (Nat.le_succ n)

theorem descend_fails (h : descend parents s m = .error e m') : m'.journal = m.journal := by
  have hends : Ends (descend parents s) m fun r m' => ∀ e, r = .error e →
      m'.journal = m.journal := by
    refine bind_ends_of_ok rfl ?_
    rw [Frame.takeChild]
    cases m.frame.child with
    | none => exact fun _ _ => rfl
    | some message =>
      intro e he
      cases he
  exact hends.of_error h e rfl

theorem sameJournal_ascend (parent : Frame) (rest : List Frame) :
    Leads Machine.SameJournal (ascend parent rest s) := by
  intro m
  refine bind_ends_of_ok rfl (bind_ends_of_ok rfl ?_)
  exact (Machine.sameJournal_resume m.frame).bind (fun _ => leads_pure _) _

/-- **Where a round fails:** the frame did not advance, or it did and then no child began or its
parent did not go on.  The last two leave the journal as it was, and all scopes that are open are
unwound. -/
theorem round_error_cases (h : round parents s m = .error e m') :
    (∃ m₁, advance s m = .error e m₁ ∧
      m'.journal = unwind (parents.length + 1) m₁.journal) ∨
    ∃ m₁, advance s m = .ok () m₁ ∧
      (m₁.frame.state = .codeSuspended ∧ m'.journal = unwind (parents.length + 1) m₁.journal ∨
        m₁.frame.state ≠ .codeSuspended ∧ parents ≠ [] ∧
          m'.journal = unwind parents.length m₁.journal) := by
  rcases reader_bind_eq_error h with h | ⟨_, m₁, hadvance, h⟩
  · obtain ⟨m₁, hadvance, rfl⟩ := unwinding_eq_error h
    exact .inl ⟨m₁, hadvance, rfl⟩
  rcases reader_bind_eq_error h with h | ⟨f, m₂, hf, h⟩
  · cases h
  obtain ⟨rfl, rfl⟩ := EStateM.Result.ok.inj hf
  refine .inr ⟨m₁, unwinding_eq_ok hadvance, ?_⟩
  by_cases hsuspended : m₁.frame.state = .codeSuspended
  · rw [if_pos hsuspended] at h
    obtain ⟨m₂, hdescend, rfl⟩ := unwinding_eq_error h
    exact .inl ⟨hsuspended, congrArg (unwind _) (descend_fails hdescend)⟩
  · rw [if_neg hsuspended] at h
    cases parents with
    | nil => cases h
    | cons parent rest =>
      obtain ⟨m₂, hascend, rfl⟩ := unwinding_eq_error h
      have hsame : m₂.journal = m₁.journal := (sameJournal_ascend parent rest _).of_error hascend
      exact .inr ⟨hsuspended, List.cons_ne_nil parent rest, congrArg (unwind _) hsame⟩

/-- **A round that fails** leaves no scope open that was opened since the tree began, and no
other world. -/
theorem round_fails (hready : Ready root js parents m)
    (h : round parents s m = .error e m') :
    m'.journal.Over root.journal.world root.journal.parents.length := by
  obtain ⟨j, js, rfl⟩ := hready.exists_cons
  obtain ⟨hstate, hlength, hnested, hlast⟩ := hready
  have hinner := hnested.1
  have hover : j.Over root.journal.world (root.journal.parents.length + parents.length) := by
    have houter := hnested.over hlast
    rw [hlength] at houter
    have hparents : j.parents.length + 1 ≤ root.journal.parents.length + parents.length + 1 := by
      have hle := houter.length_le
      rwa [hinner.parents_eq] at hle
    exact ⟨hinner.world_eq.symm.trans houter.world_eq, Nat.le_of_succ_le_succ hparents⟩
  rcases round_error_cases h with ⟨m₁, hadvance, hleft⟩ | ⟨m₁, hadvance, hleft⟩
  · have hopen : m₁.journal.Over root.journal.world
        (root.journal.parents.length + (parents.length + 1)) := advance_fails hinner hover hadvance
    exact hleft ▸ hopen.unwind
  have hsettles := (advance_cases hstate hinner hadvance).2
  rcases hleft with ⟨hsuspended, hleft⟩ | ⟨hsuspended, -, hleft⟩
  · cases hsettles with
    | waiting _ hwaiting =>
      have hopen : m₁.journal.Over root.journal.world
          (root.journal.parents.length + (parents.length + 1)) := hover.enter.inner hwaiting
      exact hleft ▸ hopen.unwind
    | committed h => cases h.symm.trans hsuspended
    | reverted h => cases h.symm.trans hsuspended
  · -- the scope of the frame was closed, so there is one less to unwind
    exact hleft ▸ (hover.inner (hsettles.inner hsuspended)).unwind

/-- **A tree that fails** leaves no scope open of its own, and the world as it was. -/
theorem runTree_fails (hroot : root.frame.state = .notStarted)
    (h : runTree s root = .error e m') :
    m'.journal.Over root.journal.world root.journal.parents.length := by
  obtain ⟨js, parents, m, hreached, hround⟩ := exists_round_of_runTree hroot h
  exact round_fails (hreached.ready hroot) hround

/-- A tree that ends has changed one scope. -/
theorem runTree_inner (hroot : root.frame.state = .notStarted)
    (h : runTree s root = .ok () m') : root.journal.Inner m'.journal := by
  obtain ⟨m₁, hreached, hadvance, hstate⟩ := runTree_reaches hroot h
  have hready := hreached.ready hroot
  exact (advance_cases hready.state hready.nested.1 hadvance).2.inner hstate

/-! ### Why trees end -/

/-- **No tree ends fatally** by the account of its root: what fails fatally leaves no frame. -/
theorem exitReason_of_runTree (hroot : root.frame.state = .notStarted)
    (h : runTree s root = .ok () m') (e : ExitFatal) : m'.frame.exitReason ≠ .fatal e := by
  obtain ⟨m₁, hreached, hadvance, hstate⟩ := runTree_reaches hroot h
  have hready := hreached.ready hroot
  have hcandid := advance_candid hready.state hadvance
  have hexit : (∃ how, m'.frame.exit = some (.succeed how)) ∨ m'.frame.exit = some .revert ∨
      ∃ e, m'.frame.exit = some (.error e) := by
    rw [Frame.Candid] at hcandid
    cases (advance_cases hready.state hready.nested.1 hadvance).2 with
    | waiting h => exact absurd h hstate
    | committed h => exact .inl (by rwa [h] at hcandid)
    | reverted h => exact .inr (by rwa [h] at hcandid)
  rw [Frame.exitReason]
  rcases hexit with ⟨how, hexit⟩ | hexit | ⟨e, hexit⟩ <;> rw [hexit] <;> rintro ⟨⟩

end Lifecycle

/-! ## Transactions -/

namespace Transact

open Journal

variable {setting : SessionSetting} {t : Transaction} {s s' : Session} {w : World} {f : Frame}
  {reason : ExitReason}

theorem changing_eq_error {α : Type} {change : Store → Journal.Change α}
    (h : changing change setting s = .error reason s') :
    ∃ e j, change setting.store s.journal = .error e j ∧ s' = { s with journal := j } := by
  rw [changing] at h
  cases hchange : change setting.store s.journal with
  | ok a j =>
    rw [hchange] at h
    cases h
  | error e j =>
    rw [hchange] at h
    exact ⟨e, j, rfl, (EStateM.Result.error.inj h).2.symm⟩

theorem reverting_eq_error {α : Type} {p : Transact α}
    (h : reverting p setting s = .error reason s') : ∃ s₁, p setting s = .error reason s₁ ∧
      s' = { s₁ with journal := s₁.journal.revert } := by
  rw [reverting] at h
  cases hp : p setting s with
  | ok a s₁ =>
    rw [hp] at h
    cases h
  | error reason₁ s₁ =>
    rw [hp] at h
    obtain ⟨rfl, rfl⟩ := EStateM.Result.error.inj h
    exact ⟨s₁, rfl, rfl⟩

theorem reading_eq_error {α : Type} {read : Journal → Store → Except StateError α}
    (h : reading read setting s = .error reason s') : s' = s := by
  rw [reading] at h
  split at h
  · cases h
  · exact (EStateM.Result.error.inj h).2.symm

/-- **A transaction whose tree fails**, or that is rejected, leaves the world and the logs as
they were. -/
theorem tree_fails (hfresh : s.journal = .ofWorld w) (h : tree t setting s = .error reason s') :
    s'.journal = .ofWorld w ∧ s'.logs = s.logs := by
  -- it fails before its message is built, where only the nonce was raised, or while it runs
  rw [tree_eq] at h
  rcases reader_bind_eq_error h with horder | ⟨m, s₁, horder, h⟩
  · rcases reader_bind_eq_error horder with hbegin | ⟨begun, s₁, hbegin, horder⟩
    · cases begin_ends.of_error hbegin <;> exact ⟨hfresh, rfl⟩
    · obtain ⟨-, -, -, hnonce⟩ := begin_ends.of_ok hbegin
      have hover : Over w 0 _ :=
        (hfresh ▸ Over.ofWorld w).inner ((inner_incrementNonce _ _ _).of_ok hnonce)
      dsimp only at horder
      cases htarget : t.target with
      | some target =>
        rw [htarget] at horder
        rcases reader_bind_eq_error horder with hcode | ⟨_, s₂, hcode, hrest⟩
        · obtain ⟨s₂, hread, rfl⟩ := reverting_eq_error hcode
          obtain rfl := reading_eq_error hread
          exact ⟨hover.revert_eq, rfl⟩
        · cases hrest
      | none =>
        rw [htarget] at horder
        cases horder
  · have hordered := order_ends.of_ok horder
    obtain ⟨nonce, hnonce⟩ := hordered.nonce
    have hover : s₁.journal.Over w 0 :=
      (hfresh ▸ Over.ofWorld w).inner ((inner_incrementNonce _ _ _).of_ok hnonce)
    obtain ⟨s₂, hrun, rfl⟩ := reverting_eq_error h
    rw [runMessage] at hrun
    split at hrun
    · cases hrun
    · rename_i e machine htree
      obtain ⟨-, rfl⟩ := EStateM.Result.error.inj hrun
      have hfailed := Lifecycle.runTree_fails rfl htree
      have hmachine : machine.journal.Over w 0 :=
        ⟨hfailed.world_eq.trans hover.world_eq, hfailed.length_le.trans hover.length_le⟩
      exact ⟨hmachine.revert_eq, hordered.logs_eq⟩

/-- A transaction whose tree ended has changed its own scope, and no logs. -/
theorem tree_inner (h : tree t setting s = .ok f s') :
    s.journal.Inner s'.journal ∧ s'.logs = s.logs := by
  obtain ⟨m, s₁, machine, horder, hrun, -, rfl⟩ := tree_eq_ok h
  have hordered := order_ends.of_ok horder
  obtain ⟨nonce, hnonce⟩ := hordered.nonce
  have hinner := (inner_incrementNonce _ _ _).of_ok hnonce
  exact ⟨hinner.trans (Lifecycle.runTree_inner rfl hrun), hordered.logs_eq⟩

/-- The logs that a root frame adds to those of its session. -/
def leftLogs (f : Frame) : Array Log := if f.state = .completedSuccess then f.logs else #[]

/-- Accounts that are deleted are deleted in the innermost scope, and nothing else changes. -/
theorem forM_deleteAccount_deletes (l : List Address) :
    Ends ((l.forM fun address => changing fun _ => Journal.deleteAccount address) setting) s
      fun r s' => r = .ok () ∧ s.journal.Deletes l.toFinset s'.journal ∧ s'.logs = s.logs := by
  induction l generalizing s with
  | nil => exact ⟨rfl, ⟨.refl _, fun address => rfl⟩, rfl⟩
  | cons gone l ih =>
    refine bind_ends_of_ok rfl (ih.mono ?_)
    rintro r s' ⟨hr, ⟨hinner, hlookup⟩, hlogs⟩
    refine ⟨hr, ⟨(inner_delete _ gone).trans hinner, fun address => ?_⟩, hlogs⟩
    have hdelete : (s.journal.scope.delete gone).lookup address =
        if address = gone then some none else s.journal.scope.lookup address := by
      rw [Scope.lookup_delete, Function.update_apply]
    rw [hlookup, hdelete, List.toFinset_cons]
    by_cases hgone : address = gone
    · simp [hgone]
    · simp [hgone]

/-- **What a root frame leaves is taken over** without fail: its deletions and its logs. -/
theorem takeOver_ends : Ends (takeOver f setting) s fun r s' => r = .ok () ∧
    s.journal.Deletes f.deletions s'.journal ∧ s'.logs = s.logs ++ leftLogs f := by
  unfold takeOver Frame.deletions leftLogs
  by_cases hsuccess : f.state = .completedSuccess
  · rw [if_pos hsuccess, if_pos hsuccess, if_pos hsuccess]
    refine Ends.bind ((forM_deleteAccount_deletes _).mono ?_)
    rintro r s₁ ⟨rfl, hdeletes, hlogs⟩
    exact ⟨rfl, hdeletes, congrArg (· ++ f.logs) hlogs⟩
  · rw [if_neg hsuccess, if_neg hsuccess, if_neg hsuccess, Array.append_empty]
    exact ⟨rfl, ⟨.refl _, fun address => rfl⟩, rfl⟩

/-- Empty accounts are cleared in the innermost scope. -/
theorem clearEmptyAccounts_inner : Ends (clearEmptyAccounts setting) s fun _ s' =>
    s.journal.Inner s'.journal ∧ s'.logs = s.logs := by
  have hclear (l : List Address) (s : Session) :
      Ends ((l.forM fun address => do
        if ← reading (·.isEmpty · address) then
          changing fun _ => Journal.deleteAccount address : Transact Unit) setting) s
        fun _ s' => s.journal.Inner s'.journal ∧ s'.logs = s.logs := by
    induction l generalizing s with
    | nil => exact ⟨.refl _, rfl⟩
    | cons address l ih =>
      refine Ends.bind (reading_bind_ends (fun e => ⟨.refl _, rfl⟩) fun empty hempty => ?_)
      cases empty with
      | false => exact ih s
      | true =>
        refine Ends.ok rfl ((ih _).mono fun r s' h => ?_)
        exact ⟨(inner_delete _ address).trans h.1, h.2⟩
  refine bind_ends_of_ok rfl ?_
  split
  · exact bind_ends_of_ok rfl (hclear _ s)
  · exact ⟨.refl _, rfl⟩

end Transact

namespace Session

open Transact Journal

variable {setting : SessionSetting} {t : Transaction} {s s' : Session} {w : World}
  {receipt : Receipt}

/-- How a transaction over a world is aborted, and what that leaves of its session. -/
inductive Aborted (setting : SessionSetting) (t : Transaction) (s : Session) (w : World)
    (s' : Session) : Prop
  /-- The transaction did not begin, or its tree failed. -/
  | running {reason : ExitReason} {s₁ : Session}
    (htree : tree t setting (s.opened t) = .error reason s₁)
    (hjournal : s'.journal = .ofWorld w) (hlogs : s'.logs = s.logs)
  /-- Empty accounts could not be told. -/
  | clearing {f : Frame} {s₁ s₂ s₃ : Session} {reason : ExitReason}
    (htree : tree t setting (s.opened t) = .ok f s₁)
    (htakeOver : takeOver f setting s₁ = .ok () s₂)
    (hclear : clearEmptyAccounts setting s₂ = .error reason s₃)
    (hjournal : s'.journal = .ofWorld w) (hlogs : s'.logs = s.logs ++ leftLogs f)
  /-- The world could not be written, or only in part. -/
  | committing {f : Frame} {s₁ s₂ s₃ : Session} {e : StateError} {w' : World}
    (htree : tree t setting (s.opened t) = .ok f s₁)
    (htakeOver : takeOver f setting s₁ = .ok () s₂)
    (hclear : clearEmptyAccounts setting s₂ = .ok () s₃)
    (hwritten : World.applyScope setting.store s₃.journal.scope w = .error e w')
    (hjournal : s'.journal = .ofWorld w') (hlogs : s'.logs = s.logs ++ leftLogs f)

/-- A transaction whose tree ended is aborted while it is closed. -/
theorem aborted_of_close {f : Frame} {s₁ s₂ : Session} {reason : ExitReason}
    (hopened : (s.opened t).journal = .ofWorld w)
    (htree : tree t setting (s.opened t) = .ok f s₁)
    (hclose : close t.gasLimit f setting s₁ = .error reason s₂) (trace : Trace) :
    Aborted setting t s w { s₂ with trace } := by
  obtain ⟨hinner, hlogs⟩ := tree_inner htree
  have hover : s₁.journal.Over w 0 := (hopened ▸ Over.ofWorld w).inner hinner
  -- the accounts that deleted themselves are gone by then; clearing or committing can fail
  rw [close_eq_parts] at hclose
  rcases reader_bind_eq_error hclose with htakeOver | ⟨_, s₃, htakeOver, hclose⟩
  · cases (takeOver_ends.of_error htakeOver).1
  obtain ⟨-, htaken, hleft⟩ := takeOver_ends.of_ok htakeOver
  rw [hlogs, logs_opened] at hleft
  rcases reader_bind_eq_error hclose with hsettle | ⟨_, s₄, -, haccount⟩
  · obtain ⟨s₄, hboth, rfl⟩ := reverting_eq_error hsettle
    rcases reader_bind_eq_error hboth with hclear | ⟨_, s₅, hclear, hcommit⟩
    · obtain ⟨hcleared, hlogs'⟩ := clearEmptyAccounts_inner.of_error hclear
      exact .clearing htree htakeOver hclear ((hover.inner htaken.inner).inner hcleared).revert_eq
        (hlogs'.trans hleft)
    · obtain ⟨hcleared, hlogs'⟩ := clearEmptyAccounts_inner.of_ok hclear
      obtain ⟨e, j, hwrite, rfl⟩ := changing_eq_error hcommit
      rw [((hover.inner htaken.inner).inner hcleared).commit_eq] at hwrite
      cases hwritten : World.applyScope setting.store s₅.journal.scope w with
      | ok _ w' =>
        rw [hwritten] at hwrite
        cases hwrite
      | error e₁ w' =>
        rw [hwritten] at hwrite
        obtain ⟨-, rfl⟩ := EStateM.Result.error.inj hwrite
        exact .committing htree htakeOver hclear hwritten rfl (hlogs'.trans hleft)
  · cases haccount

/-- **A transaction that ends fatally** leaves the world and the logs as they were, if it was
while its frames ran.  Afterwards its logs are kept, and if it was while its scope was
committed, the world is left as far as it was written. -/
theorem fatal_aborts (hfresh : s.journal = .ofWorld w)
    (hrun : s.transact setting t = (receipt, s')) (hfatal : receipt.reason.isFatal) :
    Aborted setting t s w s' := by
  have hends := transact_ends setting t s
  rw [hrun] at hends
  have hopened : (s.opened t).journal = .ofWorld w := (journal_opened t s).trans hfresh
  cases hresult : (tree t >>= close t.gasLimit) setting (s.opened t) with
  | ok receipt₁ s₁ =>
    obtain ⟨-, rfl⟩ := hends.of_ok hresult
    obtain ⟨f, s₂, htree, hclose⟩ := reader_bind_eq_ok hresult
    obtain ⟨m, s₃, machine, -, hmachine, hf, -⟩ := tree_eq_ok htree
    obtain ⟨-, -, -, -, hreceipt, -⟩ := close_spec hclose
    replace hreceipt : receipt = ⟨f.exitReason, f.output⟩ := hreceipt
    rw [hreceipt] at hfatal
    cases hreason : f.exitReason with
    | fatal e => exact absurd (hf ▸ hreason) (Lifecycle.exitReason_of_runTree rfl hmachine e)
    | _ => simp [hreason, ExitReason.isFatal] at hfatal
  | error reason s₁ =>
    obtain ⟨⟨trace, rfl⟩, rfl⟩ := hends.of_error hresult
    rcases reader_bind_eq_error hresult with htree | ⟨f, s₂, htree, hclose⟩
    · obtain ⟨hjournal, hlogs⟩ := tree_fails hopened htree
      exact .running htree hjournal (hlogs.trans (logs_opened t s))
    · exact aborted_of_close hopened htree hclose trace

/-! ### An account that cannot be removed from its trie -/

/-- Code that leaves a log and deletes its account. -/
def crierCode : Bytes := [0x60, 0, 0x60, 0, 0xa0, 0x30, 0xff]

/-- An account that leaves a log and deletes itself when it is called. -/
def crier : Account := ⟨1, 0, 100, Node.emptyHash, keccak crierCode⟩

/-- The rest of the path to the account, which starts with 1. -/
def crierPath : Path := (Path.ofBytes (Hash.toBytes crier.address.hash)).tail

/-- A world of the account and of a node that is missing. -/
def torn : World where
  accounts := ⟨.branch (Node.setChild (Node.setChild (fun _ => .null) 2 (.hash 0)) 1
    (.leaf crierPath crier.encode)) none⟩
  storages := ∅
  codes := (∅ : Std.ExtTreeMap Hash Bytes).insert (keccak crierCode) crierCode

/-- The account calls itself. -/
def crying : Transaction := ⟨1, some 1, 0, [], 100000⟩

/-- The session over the world. -/
def tornSession : Session := .ofJournal (.ofWorld torn) .off

/-- The session when the nonce of the account is raised. -/
def tornBegun : Session :=
  { tornSession.opened crying with
    journal := (Journal.ofWorld torn).put (Overlay.ofAccount crier).incrementNonce
    usedGas := 0 }

theorem path_crier : Path.ofBytes (Hash.toBytes (Address.hash 1)) = 1 :: crierPath := by
  decide +kernel

theorem find?_torn : (Journal.ofWorld torn).find? bareSession.store 1 =
    .ok (some (.ofAccount crier)) := by
  have hget : torn.accounts.get bareSession.store.nodes (Hash.toBytes (Address.hash 1)) =
      .ok (some crier.encode) := by
    rw [Trie.get, path_crier, torn, Node.lookup_branch_cons, Node.setChild, if_pos rfl,
      Node.lookup_leaf, if_pos rfl]
  have hdecode : Account.decode 1 crier.encode = .ok crier :=
    Account.decode_encode (a := crier) (by decide)
  rw [Journal.find?_ofWorld, World.account?, hget]
  simp only [Except.mapError, bind, Except.bind, hdecode]
  rfl

theorem tree_torn : tree crying bareSession (tornSession.opened crying) =
    callTree crying 1 79000 bareSession tornBegun := by
  have hbalance : (Journal.ofWorld torn).balance bareSession.store 1 = .ok 100 := by
    rw [Journal.balance, find?_torn]
    rfl
  have hfresh : (Journal.ofWorld torn).findOrFresh bareSession.store 1 =
      .ok (.ofAccount crier) := by
    rw [Journal.findOrFresh, find?_torn]
    rfl
  have hnonce : Journal.incrementNonce bareSession.store 1 (.ofWorld torn) =
      .ok 0 tornBegun.journal := Journal.incrementNonce_eq hfresh
  exact tree_eq_callTree rfl (begin_eq_ok (by decide) hbalance (by decide) hnonce)

/-- The number of logs that a root frame leaves, and the accounts that its scope updated and
deleted. -/
def remains (result : EStateM.Result ExitReason Session Frame) :
    Option (Nat × List Address × List Address) :=
  match result with
  | .ok f s =>
    some ((leftLogs f).size, s.journal.scope.updated.keys, s.journal.scope.deleted.toList)
  | .error _ _ => none

theorem remains_torn : remains ((do
    let f ← callTree crying 1 79000
    takeOver f
    clearEmptyAccounts
    return f : Transact Frame) bareSession tornBegun) = some (1, [], [1]) := by decide +kernel

theorem rootHash_torn : torn.rootHash ≠ Node.emptyHash := by decide +kernel

/-- The account cannot be removed, since the node beside it is missing. -/
theorem applyScope_torn {scope : Scope} (hdeleted : scope.deleted.toList = [1]) :
    World.applyScope bareSession.store scope torn =
      .error (.trie (.missingNode 0)) { torn with accounts := .empty } := by
  have hcollapse : Node.collapse bareSession.store.nodes (Node.setChild (Node.setChild
      (Node.setChild (fun _ => .null) 2 (.hash 0)) 1 (.leaf crierPath crier.encode)) 1 .null)
        none = .error (.missingNode 0) := rfl
  have herase : torn.accounts.erase bareSession.store.nodes (Hash.toBytes (Address.hash 1)) =
      .error (.missingNode 0) := by
    have hchild : (Node.leaf crierPath crier.encode).remove bareSession.store.nodes crierPath =
        .ok .null := by
      rw [Node.remove_leaf, if_pos rfl]
    rw [Trie.erase, path_crier, torn]
    dsimp only
    rw [Node.remove_branch_cons, Node.setChild, if_pos rfl, hchild]
    exact congrArg (fun r => r >>= fun n => pure (Trie.mk n)) hcollapse
  have hdelete : World.deleteAccount bareSession.store 1 torn =
      .error (.trie (.missingNode 0)) { torn with accounts := .empty } := by
    have hupdate : World.updateAccounts
        (fun t => t.erase bareSession.store.nodes (Hash.toBytes (Address.hash 1))) torn =
          .error (.trie (.missingNode 0)) { torn with accounts := .empty } := by
      rw [World.updateAccounts, Trie.update, herase]
    exact bind_eq_of_error hupdate
  rw [World.applyScope, hdeleted]
  exact bind_eq_of_error (bind_eq_of_error hdelete)

theorem exists_of_remains {result : EStateM.Result ExitReason Session Frame} {n : Nat}
    {updated deleted : List Address} (h : remains result = some (n, updated, deleted)) :
    ∃ f s, result = .ok f s ∧ (leftLogs f).size = n ∧ s.journal.scope.deleted.toList = deleted := by
  cases result with
  | ok f s =>
    simp only [remains, Option.some.injEq, Prod.mk.injEq] at h
    exact ⟨f, s, rfl, h.1, h.2.2⟩
  | error => cases h

/-- The frame of the account ends well, with one log and the account to delete. -/
theorem closing_torn : ∃ f s₁ s₂ s₃, tree crying bareSession (tornSession.opened crying) = .ok f s₁ ∧
    takeOver f bareSession s₁ = .ok () s₂ ∧ clearEmptyAccounts bareSession s₂ = .ok () s₃ ∧
    s₃.journal.Over torn 0 ∧ (leftLogs f).size = 1 ∧ s₃.journal.scope.deleted.toList = [1] := by
  obtain ⟨f, s₃, hrun, hlogs, hdeleted⟩ := exists_of_remains remains_torn
  obtain ⟨f, s₁, htree, hrun⟩ := reader_bind_eq_ok hrun
  obtain ⟨_, s₂, htakeOver, hrun⟩ := reader_bind_eq_ok hrun
  obtain ⟨_, s₃, hclear, hrun⟩ := reader_bind_eq_ok hrun
  obtain ⟨rfl, rfl⟩ := EStateM.Result.ok.inj hrun
  replace htree := tree_torn.trans htree
  have htreed := (Over.ofWorld torn).inner (tree_inner htree).1
  have htaken := htreed.inner (takeOver_ends.of_ok htakeOver).2.1.inner
  have hcleared := htaken.inner (clearEmptyAccounts_inner.of_ok hclear).1
  exact ⟨f, s₁, s₂, s₃, htree, htakeOver, hclear, hcleared, hlogs, hdeleted⟩

theorem fatal_torn : (tornSession.transact bareSession crying).1.reason.isFatal := by
  obtain ⟨f, s₁, s₂, s₃, htree, htakeOver, hclear, hover, -, hdeleted⟩ := closing_torn
  have hends := transact_ends bareSession crying tornSession
  cases hresult : (tree crying >>= close crying.gasLimit) bareSession (tornSession.opened crying) with
  | ok receipt s' =>
    obtain ⟨f', s₁', htree', hclose⟩ := reader_bind_eq_ok hresult
    obtain ⟨rfl, rfl⟩ := EStateM.Result.ok.inj (htree'.symm.trans htree)
    obtain ⟨s₂', s₄, htakeOver', hsettle, -, -⟩ := close_spec hclose
    obtain ⟨-, rfl⟩ := EStateM.Result.ok.inj (htakeOver'.symm.trans htakeOver)
    obtain ⟨_, s₃', hclear', hcommit⟩ := reader_bind_eq_ok (reverting_eq_ok hsettle)
    obtain ⟨-, rfl⟩ := EStateM.Result.ok.inj (hclear'.symm.trans hclear)
    obtain ⟨j, hwrite, -⟩ := changing_eq_ok hcommit
    rw [hover.commit_eq, applyScope_torn hdeleted] at hwrite
    cases hwrite
  | error reason s' =>
    rw [(hends.of_error hresult).2]
    rcases reader_bind_eq_error hresult with htree' | ⟨f', s₁', htree', hclose⟩
    · cases htree'.symm.trans htree
    · obtain ⟨e, rfl⟩ := (failsFatally_close _ _ _ _).of_error hclose reason rfl
      rfl

/-- The account deletes itself and leaves a log, but cannot be removed from the trie.  The log
is kept and all accounts are lost. -/
theorem fatal_aborts_of_torn :
    (tornSession.transact bareSession crying).1.reason.isFatal ∧
      (tornSession.transact bareSession crying).2.journal.world.rootHash ≠ torn.rootHash ∧
      (tornSession.transact bareSession crying).2.logs.size = 1 := by
  obtain ⟨f, s₁, s₂, s₃, htree, htakeOver, hclear, -, hlogs, hdeleted⟩ := closing_torn
  have haborted := fatal_aborts rfl
    (Prod.mk.eta (p := tornSession.transact bareSession crying)).symm fatal_torn
  refine ⟨fatal_torn, ?_⟩
  cases haborted with
  | running htree' => cases htree'.symm.trans htree
  | clearing htree' htakeOver' hclear' =>
    obtain ⟨rfl, rfl⟩ := EStateM.Result.ok.inj (htree'.symm.trans htree)
    obtain ⟨-, rfl⟩ := EStateM.Result.ok.inj (htakeOver'.symm.trans htakeOver)
    cases hclear'.symm.trans hclear
  | committing htree' htakeOver' hclear' hwritten hjournal hlogs' =>
    obtain ⟨rfl, rfl⟩ := EStateM.Result.ok.inj (htree'.symm.trans htree)
    obtain ⟨-, rfl⟩ := EStateM.Result.ok.inj (htakeOver'.symm.trans htakeOver)
    obtain ⟨-, rfl⟩ := EStateM.Result.ok.inj (hclear'.symm.trans hclear)
    obtain ⟨-, rfl⟩ := EStateM.Result.error.inj (hwritten.symm.trans (applyScope_torn hdeleted))
    rw [hjournal, hlogs']
    have hroot : World.rootHash { torn with accounts := .empty } = Node.emptyHash :=
      Trie.rootHash_empty
    refine ⟨?_, ?_⟩
    · rw [Journal.ofWorld, hroot]
      exact rootHash_torn.symm
    · rw [Array.size_append, hlogs]
      rfl

end Session
end Ethereum
