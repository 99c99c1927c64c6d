/-
# Failed transactions

A frame that has ended says why (`Frame.Candid`).  So a transaction that gives an error or a revert
had a root frame that failed, and its tree leaves the journal that it was given
(`Lifecycle.journal_of_failed`).  All that is left is the raised nonce of the sender, which keeps
the sender from being removed as empty (`Transact.clearEmptyAccounts_eq`) and is committed
(`Session.failed_raises_nonce_only`).
-/

import Mathlib
import Ethereum.Proofs.State.Renewing
import Ethereum.Proofs.Transaction.Ordering

namespace Ethereum

/-! ## What frames say -/

/-- Once the code of a frame has ended, its exit is why it is in its state. -/
def Frame.Candid (f : Frame) : Prop :=
  match f.state with
  | .notStarted | .codeExecuting | .codeSuspended => True
  | .codeSuccess | .completedSuccess => ∃ how, f.exit = some (.succeed how)
  | .exceptionalHalt => ∃ e, f.exit = some (.error e)
  | .revert => f.exit = some .revert
  | .completedFailed => f.exit = some .revert ∨ ∃ e, f.exit = some (.error e)

theorem Frame.candid_of_executing {f : Frame} (h : f.state = .codeExecuting) : f.Candid := by
  rw [Candid, h]
  trivial

theorem Frame.candid_halt (f : Frame) (e : ExitError) : (f.halt e).Candid := ⟨e, rfl⟩

/-- A step says how the code ended. -/
theorem Run.Stepped.candid {c : Context} {m m' : Machine} (h : Stepped c m (.ok ()) m')
    (hstate : m.frame.state = .codeExecuting) : m'.frame.Candid := by
  cases h with
  | past hpc hjournal hframe => exact hframe ▸ ⟨_, rfl⟩
  | rejected he hjournal hframe => exact hframe ▸ Frame.candid_halt _ _
  | @continued i control m₁ _ hi h hjournal hframe =>
    have hexecuting (pc : Nat) : { m₁.frame with pc }.Candid :=
      Frame.candid_of_executing ((h.kept nofun).state_eq.trans hstate)
    rw [hframe]
    cases control with
    | next => exact hexecuting _
    | suspend => exact trivial
    | jump position =>
      rw [Frame.advance]
      split
      · exact hexecuting _
      · exact Frame.candid_halt _ _
  | left hi h hjournal hframe =>
    rename_i reason m₁
    cases reason with
    | succeed how => exact Except.ok.inj hframe ▸ ⟨how, rfl⟩
    | error e => exact Except.ok.inj hframe ▸ Frame.candid_halt _ _
    | revert => exact Except.ok.inj hframe ▸ rfl
    | fatal e => cases hframe

namespace Lifecycle

variable {s : Setting} {m m' root : Machine}

theorem Started.candid (h : Started s m (.ok ()) m') : m'.frame.Candid := by
  cases h with
  | executing hjournal hframe => exact hframe ▸ trivial
  | completed gas output hgas hjournal hframe => exact hframe ▸ ⟨_, rfl⟩
  | halted gas e hgas hjournal hframe => exact hframe ▸ Frame.candid_halt _ _

theorem Succeeded.candid (h : Succeeded s m (.ok ()) m') (hstate : m.frame.state = .codeSuccess)
    (hm : m.frame.Candid) : m'.frame.Candid := by
  rw [Frame.Candid, hstate] at hm
  cases h with
  | completed hjournal hframe => exact hframe ▸ hm
  | deployed hkind hlimit hgas hcode hframe => exact hframe ▸ hm
  | halted e hjournal hframe => exact hframe ▸ Frame.candid_halt _ _

theorem candid_failed {f : Frame} (h : f.Candid) : (failed f).Candid := by
  rw [failed]
  split
  · rename_i hstate
    rw [Frame.Candid, hstate] at h
    exact .inr h
  · rename_i hstate
    rw [Frame.Candid, hstate] at h
    exact .inl h
  · exact h

/-- **A frame that advances** says why its code ended. -/
theorem advance_candid (hm : m.frame.state = .notStarted ∨ m.frame.state = .codeExecuting)
    (h : advance s m = .ok () m') : m'.frame.Candid := by
  obtain ⟨m₁, hwork, hframe⟩ := exists_work_of_advance h
  have hopen : m.frame.Candid := by
    rw [Frame.Candid]
    rcases hm with hm | hm <;> rw [hm] <;> trivial
  have hends : Ends (work s) m fun r m' => r = .ok () → m'.frame.Candid := by
    refine work_ends ?_ ?_ ?_ (fun m₁ h₁ _ => candid_failed (h₁ rfl)) fun _ => hopen
    · rintro m₁ r m₂ - - h rfl
      exact h.candid
    · rintro m₁ r m₂ hstate - h rfl
      exact h.candid hstate
    · rintro m₁ r m₂ hstate h₁ h rfl
      exact h.candid hstate (h₁ rfl)
  exact hframe ▸ hends.of_ok hwork rfl

/-- **The tree of a root that failed** leaves the journal that it was given. -/
theorem journal_of_failed (hforced : s.forced = ∅) (hroot : root.frame.state = .notStarted)
    (h : runTree s root = .ok () m') (hreason : ∀ how, m'.frame.exitReason ≠ .succeed how) :
    m'.frame.state = .completedFailed ∧ m'.journal = root.journal := by
  obtain ⟨m₁, hreached, hadvance, hstate⟩ := runTree_reaches hroot h
  have hready := hreached.ready hroot
  have hcandid := advance_candid hready.state hadvance
  cases (advance_cases hready.state hready.nested.1 hadvance).2 with
  | waiting h => exact absurd h hstate
  | committed h =>
    rw [Frame.Candid, h] at hcandid
    obtain ⟨how, hexit⟩ := hcandid
    exact absurd (congrArg (·.getD (.succeed .stopped)) hexit) (hreason how)
  | reverted hfailed forced hmem hjournal =>
    refine ⟨hfailed, ?_⟩
    have hnone : forced = [] := List.eq_nil_iff_forall_not_mem.mpr fun address h => by
      have hmem := hmem address h
      rw [hforced] at hmem
      exact Std.ExtTreeSet.not_mem_empty hmem
    rw [hnone] at hjournal
    exact (EStateM.Result.ok.inj hjournal).2.symm

end Lifecycle

/-! ## What is left of a failed transaction -/

namespace Transact

variable {setting : SessionSetting} {t : Transaction} {s s' : Session} {w : World} {o : Overlay}
  {address : Address}

/-- **The tree of a transaction that fails** has raised the nonce of its sender, and nothing
else. -/
theorem raised_of_failed {f : Frame} (hforced : setting.forced = ∅)
    (h : tree t setting s = .ok f s') (hreason : ∀ how, f.exitReason ≠ .succeed how) :
    f.state = .completedFailed ∧ s'.logs = s.logs ∧
      ∃ nonce, Journal.incrementNonce setting.store t.sender s.journal = .ok nonce s'.journal := by
  obtain ⟨m, s₁, machine, horder, hrun, rfl, rfl⟩ := tree_eq_ok h
  have hordered := order_ends.of_ok horder
  obtain ⟨hstate, hjournal⟩ := Lifecycle.journal_of_failed hforced rfl hrun hreason
  obtain ⟨nonce, hnonce⟩ := hordered.nonce
  replace hjournal : machine.journal = s₁.journal := hjournal
  rw [← hjournal] at hnonce
  exact ⟨hstate, hordered.logs_eq, nonce, hnonce⟩

/-- A lone overlay that is not empty is not removed. -/
theorem clearEmptyAccounts_eq (hjournal : s.journal = (Journal.ofWorld w).put o)
    (ho : o.isEmpty = false) : clearEmptyAccounts setting s = .ok () s := by
  have hempty : reading (·.isEmpty · o.address) setting s = .ok false s := by
    have hfind : s.journal.find? setting.store o.address = .ok (some o) := by
      rw [hjournal, Journal.find?_put, if_pos rfl]
    simp only [reading, Journal.isEmpty, hfind]
    exact congrArg (fun b => EStateM.Result.ok b s) ho
  have htouched : s.journal.touched = [o.address] := by
    rw [hjournal]
    rfl
  have hget : (get : Transact Session) setting s = .ok s s := rfl
  refine (reader_bind_eq_of_ok rfl).trans ?_
  split
  · refine (reader_bind_eq_of_ok hget).trans ?_
    rw [htouched]
    exact reader_bind_eq_of_ok ((reader_bind_eq_of_ok hempty).trans rfl)
  · rfl

/-- **A failed transaction that is closed** has raised the nonce of its sender, and nothing
else. -/
theorem raisesNonce_of_close {nonce gasLimit : Nat} {f : Frame} {receipt : Receipt}
    (hfailed : f.state = .completedFailed)
    (hnonce : Journal.incrementNonce setting.store address (.ofWorld w) = .ok nonce s.journal)
    (h : close gasLimit f setting s = .ok receipt s') : s'.logs = s.logs ∧
      ∃ w', s'.journal = .ofWorld w' ∧
        (Journal.ofWorld w).RaisesNonce setting.store address (.ofWorld w') := by
  obtain ⟨o, hfound, hjournal⟩ := Journal.incrementNonce_eq_ok hnonce
  obtain ⟨s₁, s₂, htakeOver, hsettle, -, rfl⟩ := close_spec h
  rw [takeOver, if_neg (by simp [hfailed])] at htakeOver
  obtain ⟨-, rfl⟩ := EStateM.Result.ok.inj htakeOver
  have hfull : o.incrementNonce.isEmpty = false := by
    have hne : Quantity.satAdd o.nonce 1 ≠ 0 := by
      rw [Quantity.satAdd, Quantity.max]
      omega
    simp [Overlay.isEmpty, Overlay.incrementNonce, hne]
  obtain ⟨_, s₁, hclear, hcommit⟩ := reader_bind_eq_ok (reverting_eq_ok hsettle)
  obtain ⟨-, rfl⟩ :=
    EStateM.Result.ok.inj ((clearEmptyAccounts_eq hjournal hfull).symm.trans hclear)
  obtain ⟨j, hwritten, rfl⟩ := changing_eq_ok hcommit
  rw [hjournal] at hwritten
  exact ⟨rfl, Journal.raisesNonce_of_commit hfound hwritten⟩

end Transact

namespace Session

open Transact

variable {setting : SessionSetting} {t : Transaction} {s s' : Session} {w : World}
  {receipt : Receipt}

theorem rejected_of_opened {reason : ExitReason} (h : Rejected setting t (s.opened t) reason) :
    Rejected setting t s reason := by
  cases h with
  | outOfGas hgas => exact .outOfGas hgas
  | outOfFund hbalance hvalue => exact .outOfFund (journal_opened t s ▸ hbalance) hvalue

/-- **A failed transaction raises the nonce of its sender** at most.  A transaction over a world
without forced addresses that gives an error or a revert leaves a world, and the logs as they
were.  It was rejected and the world is the same, or the nonce of the sender is higher by one
and all else is read as before. -/
theorem failed_raises_nonce_only (hforced : setting.forced = ∅) (hfresh : s.journal = .ofWorld w)
    (hrun : s.transact setting t = (receipt, s'))
    (hfailed : receipt.reason.isError ∨ receipt.reason.isRevert) :
    s'.logs = s.logs ∧ ∃ w', s'.journal = .ofWorld w' ∧
      (Rejected setting t s receipt.reason ∧ w' = w ∨
        (Journal.ofWorld w).RaisesNonce setting.store t.sender (.ofWorld w')) := by
  have hends := transact_ends setting t s
  rw [hrun] at hends
  have hfatal (e : ExitFatal) : receipt.reason ≠ .fatal e := by
    intro he
    simp [he, ExitReason.isError, ExitReason.isRevert] at hfailed
  have hunsuccessful (how : ExitSucceed) : receipt.reason ≠ .succeed how := by
    intro he
    simp [he, ExitReason.isError, ExitReason.isRevert] at hfailed
  -- it ended in a frame that failed, or was rejected before there was one
  cases hresult : (tree t >>= close t.gasLimit) setting (s.opened t) with
  | ok _ s₃ =>
    obtain ⟨⟨trace, rfl⟩, rfl⟩ := hends.of_ok hresult
    obtain ⟨f, s₁, htree, hclose⟩ := reader_bind_eq_ok hresult
    obtain ⟨_, _, -, -, rfl, -⟩ := close_spec hclose
    obtain ⟨hstate, hlogs, nonce, hnonce⟩ := raised_of_failed hforced htree hunsuccessful
    rw [journal_opened, hfresh] at hnonce
    obtain ⟨hlogs', w', hw', hraises⟩ := raisesNonce_of_close hstate hnonce hclose
    exact ⟨hlogs'.trans (hlogs.trans (logs_opened t s)), w', hw', .inr hraises⟩
  | error reason s₃ =>
    obtain ⟨⟨trace, rfl⟩, rfl⟩ := hends.of_error hresult
    rcases bind_eq_error hresult with htree | ⟨f, s₁, -, hclose⟩
    · rcases tree_eq_error htree with ⟨e, rfl⟩ | horder
      · exact absurd rfl (hfatal e)
      · rcases order_ends.of_error horder with ⟨e, rfl⟩ | ⟨hrejected, rfl⟩
        · exact absurd rfl (hfatal e)
        · exact ⟨logs_opened t s, w, (journal_opened t s).trans hfresh,
            .inl ⟨rejected_of_opened hrejected, rfl⟩⟩
    · obtain ⟨e, rfl⟩ := (failsFatally_close _ _ _ _).of_error hclose reason rfl
      exact absurd rfl (hfatal e)

/-! ### An account that cannot pay for what it does -/

/-- The account calls itself, with too little gas to delete itself. -/
def starving : Transaction := { leaving with gasLimit := 21002 }

/-- The session when the nonce of the account is raised. -/
def starvingBegun : Session := { leaverBegun with trace := (leaverSession.opened starving).trace }

theorem tree_starving : tree starving bareSession (leaverSession.opened starving) =
    callTree starving 1 2 bareSession starvingBegun := by
  have hbalance : (Journal.ofWorld (.single leaver leaverCode)).balance bareSession.store
      leaver.address = .ok 100 := by
    rw [Journal.balance, find?_single (by decide)]
    rfl
  exact tree_eq_callTree rfl (begin_eq_ok (by decide) hbalance (by decide)
    (incrementNonce_single (by decide)))

theorem summary_starving : summary (callTree starving 1 2 bareSession starvingBegun) =
    some (.completedFailed, .error .outOfGas, [], [1], []) := by decide +kernel

/-- A raised nonce of the one account of a world can be written. -/
theorem commit_raised_single (store : Store) (a : Account) (code : Bytes) : ∃ j,
    Journal.commit store
      ((Journal.ofWorld (.single a code)).put (Overlay.ofAccount a).incrementNonce) = .ok () j := by
  have hstorage : World.applyStorage store (Overlay.ofAccount a).incrementNonce
      ((World.single a code).uncovered (Overlay.ofAccount a).incrementNonce) =
        .ok a.storageRoot (.single a code) := rfl
  have hinsert (b : Bytes) (hb : b ≠ []) : ∃ t, (World.single a code).accounts.insert store.nodes
      (Hash.toBytes a.address.hash) b = .ok t := by
    rw [Trie.insert, if_neg (by simpa using hb), World.single, Node.insert_leaf, if_pos rfl]
    exact ⟨_, rfl⟩
  obtain ⟨t, ht⟩ := hinsert _
    ((Overlay.ofAccount a).incrementNonce.toAccount a.storageRoot).encode_ne_nil
  have happly := (World.applyOverlay_eq hstorage).trans (World.updateAccounts_eq ht)
  have hscope : World.applyScope store
      ((Journal.ofWorld (.single a code)).put (Overlay.ofAccount a).incrementNonce).scope
        (.single a code) = .ok () { World.single a code with accounts := t } :=
    bind_eq_of_ok happly
  rw [Journal.commit]
  simp only [Journal.put, Journal.ofWorld] at hscope ⊢
  rw [hscope]
  exact ⟨_, rfl⟩

theorem close_eq_ok_of_failed {gasLimit : Nat} {f : Frame} {s₁ : Session} {j : Journal}
    (hfailed : f.state = .completedFailed) (hclear : clearEmptyAccounts setting s = .ok () s₁)
    (hcommit : Journal.commit setting.store s₁.journal = .ok () j) :
    ∃ s', close gasLimit f setting s = .ok ⟨f.exitReason, f.output⟩ s' := by
  have htakeOver : takeOver f setting s = .ok () s := by
    rw [takeOver, if_neg (by simp [hfailed])]
    rfl
  have hchange : changing Journal.commit setting s₁ = .ok () { s₁ with journal := j } := by
    simp only [changing, hcommit]
  have hboth : (clearEmptyAccounts >>= fun _ => changing Journal.commit) setting s =
      .ok () { s₁ with journal := j } := (reader_bind_eq_of_ok hclear).trans hchange
  have hsettle : settle setting s = .ok () { s₁ with journal := j } := by
    simp only [settle, reverting, hboth]
  rw [close_eq_parts]
  exact ⟨_, (reader_bind_eq_of_ok htakeOver).trans (reader_bind_eq_of_ok hsettle)⟩

theorem reason_starving :
    (leaverSession.transact bareSession starving).1.reason = .error .outOfGas := by
  obtain ⟨f, s₁, hrun, hstate, hreason, -⟩ := exists_of_summary summary_starving
  have htree := tree_starving.trans hrun
  obtain ⟨-, -, nonce, hnonce⟩ := raised_of_failed rfl htree (by simp [hreason])
  obtain ⟨-, hjournal⟩ := EStateM.Result.ok.inj
    (hnonce.symm.trans (incrementNonce_single (a := leaver) (by decide)))
  obtain ⟨j, hcommit⟩ := commit_raised_single bareSession.store leaver leaverCode
  rw [← hjournal] at hcommit
  have hclear : clearEmptyAccounts bareSession s₁ = .ok () s₁ :=
    clearEmptyAccounts_eq hjournal (by decide)
  have hclose : ∃ s', close starving.gasLimit f bareSession s₁ = .ok ⟨f.exitReason, f.output⟩ s' :=
    close_eq_ok_of_failed hstate hclear hcommit
  obtain ⟨s₂, hclose⟩ := hclose
  have hreceipt := ((transact_ends bareSession starving leaverSession).of_ok
    ((reader_bind_eq_of_ok htree).trans hclose)).2
  rw [hreceipt]
  exact hreason

/-- The account has no gas for what it does, and its nonce is raised all the same. -/
theorem failed_raises_nonce_only_of_starving :
    (leaverSession.transact bareSession starving).1.reason = .error .outOfGas ∧
      ∃ w', (leaverSession.transact bareSession starving).2.journal = .ofWorld w' ∧
        (Journal.ofWorld (.single leaver leaverCode)).RaisesNonce bareSession.store leaver.address
          (.ofWorld w') := by
  have hfailed := failed_raises_nonce_only rfl rfl
    (Prod.mk.eta (p := leaverSession.transact bareSession starving)).symm
    (.inl (congrArg ExitReason.isError reason_starving))
  obtain ⟨-, w', hw', ⟨hrejected, -⟩ | hraises⟩ := hfailed
  · rw [reason_starving] at hrejected
    cases hrejected with
    | outOfGas hgas => exact absurd hgas (by decide)
  · exact ⟨reason_starving, w', hw', hraises⟩

end Session
end Ethereum
