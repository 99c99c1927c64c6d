/-
# Forced addresses across transactions

The tree of a transaction runs over the scope of the transaction, in which only the nonce of the
sender was raised (`Transact.begun_of_order`).  So a forced address that some frame has touched is in
that scope when the tree has ended, and the account is written unless it deleted itself or is cleared
(`Session.forced_survive`).

If surviving frames leave the account as they find it, the scope shows it as it was when the tree was
started, and that has neither code nor slots of its own.  So what is read of it from the new world is
what was read then.
-/

import Mathlib
import Ethereum.Proofs.Transaction.Enduring
import Ethereum.Proofs.Transaction.Forcing

namespace Ethereum

/-! ## What a tree runs over -/

namespace Transact

variable {setting : SessionSetting} {t : Transaction} {s s₁ : Session} {w : World}
  {message : Message} {a : Address} {o : Overlay}

/-- When the tree of a transaction over a world starts, only the nonce of the sender was raised. -/
theorem begun_of_order (hfresh : s.journal = .ofWorld w)
    (horder : order t setting s = .ok message s₁) :
    ∃ sender, (Journal.ofWorld w).findOrFresh setting.store t.sender = .ok sender ∧
      s₁.journal = (Journal.ofWorld w).put sender.incrementNonce := by
  obtain ⟨nonce, hnonce⟩ := (order_ends.of_ok horder).nonce
  rw [hfresh] at hnonce
  exact Journal.incrementNonce_eq_ok hnonce

/-- The journal is whole when the tree of a transaction starts. -/
theorem whole_of_order (hfresh : s.journal = .ofWorld w)
    (horder : order t setting s = .ok message s₁) : s₁.journal.Whole := by
  obtain ⟨sender, hsender, hjournal⟩ := begun_of_order hfresh horder
  have hregular := Journal.regular_ofWorld w
  have hwhole : (Journal.ofWorld w).Whole := ⟨hregular, Scope.undeleted_empty⟩
  have hat := Overlay.pays_incrementNonce.liesAt (hregular.liesAt_of_findOrFresh hsender)
  exact hjournal ▸ (hwhole.put hat).1

/-- What is found when the tree of a transaction starts has neither code nor slots of its own. -/
theorem bare_of_order (hfresh : s.journal = .ofWorld w)
    (horder : order t setting s = .ok message s₁)
    (hfound : s₁.journal.findOrFresh setting.store a = .ok o) : o.Bare a := by
  obtain ⟨sender, hsender, hjournal⟩ := begun_of_order hfresh horder
  have hbare := (Journal.bare_of_findOrFresh hsender).incrementNonce
  rw [hjournal, Journal.findOrFresh, Journal.find?_put, hbare.address_eq] at hfound
  by_cases ha : a = t.sender
  · rw [if_pos ha] at hfound
    obtain rfl := Except.ok.inj hfound
    exact ha ▸ hbare
  · rw [if_neg ha] at hfound
    exact Journal.bare_of_findOrFresh hfound

end Transact

namespace Session

open Transact

variable {setting : SessionSetting} {t : Transaction} {s s' s₁ : Session} {w w' : World}
  {receipt : Receipt} {message : Message} {m : Machine} {f : Frame} {scope : Scope}
  {a : Address} {n : Nat} {o : Overlay}

/-! ## What is written of an account -/

namespace Wrote

/-- What the written scope says something about is involved in the transaction. -/
theorem mem_involved (h : s.Wrote setting t w w' f scope n) (ha : scope.lookup a ≠ none) :
    a ∈ s.involved setting t := by
  obtain ⟨held, hheld⟩ := Option.ne_none_iff_exists'.mp ha
  have hwritten := (h.lookup_eq a).symm.trans hheld
  cases held with
  | none =>
    rcases gone_of_written hwritten with hdeleted | hgone | ⟨o, ho, -⟩
    · exact .inr (h.deletions_eq ▸ hdeleted)
    · exact .inl (by simp [hgone])
    · exact .inl (by simp [ho])
  | some o => exact .inl (by simp [(held_of_written hwritten).1])

/-- **An account that is held** at the end of the tree is there afterwards, unless it deleted itself
in a surviving frame or was empty and is cleared. -/
theorem exists_of_lookup (h : s.Wrote setting t w w' f scope n)
    (ho : (s.treeEnd setting t).1.scope.lookup a = some (some o)) :
    (∃ found, w'.account? setting.store a = .ok (some found)) ∨
      .destroyed a ∈ Mark.surviving (Transact.history setting t (s.opened t)) ∨
      setting.config.clearEmptyAccounts = true ∧ o.isEmpty = true := by
  rcases written_of_lookup setting f ho with hdeleted | hcleared | hwritten
  · obtain ⟨s₁, htree⟩ := h.tree_eq
    rw [(leaves_of_tree htree).deletions_eq] at hdeleted
    exact .inr (.inl (Effect.mem_recipients.mp hdeleted))
  · exact .inr (.inr hcleared)
  · exact .inl (World.exists_of_applyScope h.liesAt h.writes ((h.lookup_eq a).trans hwritten))

/-- **An account that is still there** was written as the scope held it, where hashes tell it from the
accounts that are involved. -/
theorem lookup_of_exists (h : s.Wrote setting t w w' f scope n)
    (ho : (s.treeEnd setting t).1.scope.lookup a = some (some o))
    (happart : ∀ x ∈ s.involved setting t, x.hash = a.hash → x = a) {found : Account}
    (hfound : w'.account? setting.store a = .ok (some found)) : scope.lookup a = some (some o) := by
  have hheld : scope.lookup a ≠ none := by
    rw [h.lookup_eq]
    exact written_ne_none (by simp [ho])
  cases World.written_applyScope h.liesAt h.writes a with
  | kept hnone => exact absurd (hnone a rfl) hheld
  | gone hhash hgone hread => cases hfound.symm.trans hread
  | renewed hhash hrenewed =>
    obtain rfl := happart _ (h.mem_involved (by simp [hrenewed])) hhash
    have hsame := (held_of_written ((h.lookup_eq _).symm.trans hrenewed)).1
    obtain rfl := Option.some.inj (Option.some.inj (hsame.symm.trans ho))
    exact hrenewed

end Wrote

/-- A transaction that has begun and does not end fatally runs its tree to the end. -/
theorem tree_of_order (hrun : s.transact setting t = (receipt, s'))
    (hfatal : ∀ e, receipt.reason ≠ .fatal e)
    (horder : order t setting (s.opened t) = .ok message s₁) : ∃ m',
      Lifecycle.runTree setting.toSetting (setting.root message s₁) = .ok () m' ∧
        tree t setting (s.opened t) =
          .ok m'.frame { s₁ with journal := m'.journal, trace := m'.trace } := by
  rcases transact_cases hrun with ⟨s₂, htree, -⟩ | ⟨f, s₂, htree, -⟩
  · rcases tree_eq_error htree with ⟨e, he⟩ | herror
    · exact absurd he (hfatal e)
    · cases horder.symm.trans herror
  · obtain ⟨message', s₁', m', horder', hrun', rfl, rfl⟩ := tree_eq_ok htree
    obtain ⟨rfl, rfl⟩ := EStateM.Result.ok.inj (horder.symm.trans horder')
    exact ⟨m', hrun', htree⟩

/-- **Forced addresses survive.**  If a frame of a transaction that does not end fatally has touched a
forced address when it completes, or waits, then whatever the frames around it come to, the address
is touched in the scope of the transaction when its tree has ended.  So the account is in the new
world, unless it deleted itself in a surviving frame or was empty and is cleared.

If the surviving frames leave the account as they find it, it is then as it was when the scope of the
root frame was opened, or new if there was none.  Its nonce, its balance, its code and its slots are
read from the new world as they were read then, where hashes tell it from the accounts that are
involved, and its code from new code. -/
theorem forced_survive (hfresh : s.journal = .ofWorld w)
    (hrun : s.transact setting t = (receipt, s')) (hfatal : ∀ e, receipt.reason ≠ .fatal e)
    (horder : order t setting (s.opened t) = .ok message s₁) (hforced : a ∈ setting.forced)
    (hworked : Lifecycle.Worked setting.toSetting (setting.root message s₁) m)
    (htouched : a ∈ m.journal.touched) :
    a ∈ (s.treeEnd setting t).1.touched ∧ ∃ w', s'.journal = .ofWorld w' ∧
      ((∃ found, w'.account? setting.store a = .ok (some found)) ∨
        .destroyed a ∈ Mark.surviving (Transact.history setting t (s.opened t)) ∨
        setting.config.clearEmptyAccounts = true ∧
          (s.treeEnd setting t).1.isEmpty setting.store a = .ok true) ∧
      (Lifecycle.Spares setting.toSetting (setting.root message s₁) a →
        (s.treeEnd setting t).1.findOrFresh setting.store a =
            s₁.journal.findOrFresh setting.store a ∧
          ((∀ x ∈ s.involved setting t, x.hash = a.hash → x = a) →
            (∀ code ∈ s.deployed setting t,
              s₁.journal.codeHash setting.store a = .ok (keccak code) →
                s₁.journal.code setting.store a = .ok code) →
            ∀ found, w'.account? setting.store a = .ok (some found) →
              s₁.journal.SameHoldings setting.store s'.journal a ∧
                s'.journal.nonce setting.store a = s₁.journal.nonce setting.store a)) := by
  have hopened : (s.opened t).journal = .ofWorld w := (journal_opened t s).trans hfresh
  obtain ⟨m', htree, hend⟩ := tree_of_order hrun hfatal horder
  have hleft : (s.treeEnd setting t).1 = m'.journal := by
    rw [treeEnd, hend]
  have hwhole : (setting.root message s₁).journal.Whole := whole_of_order hopened horder
  have htouched' : a ∈ (s.treeEnd setting t).1.touched :=
    hleft ▸ hworked.touched rfl hwhole htree hforced htouched
  refine ⟨htouched', ?_⟩
  obtain ⟨w', hw', ⟨reason, s₂, herror, -⟩ | ⟨f, scope, n, h⟩⟩ :=
    transact_writes hfresh hrun hfatal
  · cases hend.symm.trans herror
  have hregular := h.built.regular
  -- what is touched and not deleted has an overlay in the scope that is closed last
  obtain ⟨o, ho⟩ := (hregular _ List.mem_cons_self).separate.mem_touched_iff.mp htouched'
  have hfind : (s.treeEnd setting t).1.find? setting.store a = .ok (some o) :=
    Journal.find?_of_lookup ho
  refine ⟨w', hw', ?_, fun hspares => ?_⟩
  · refine (h.exists_of_lookup ho).imp_right (Or.imp_right (And.imp_right fun hempty => ?_))
    rw [Journal.isEmpty, hfind]
    exact congrArg Except.ok hempty
  have hsame : (s.treeEnd setting t).1.findOrFresh setting.store a =
      s₁.journal.findOrFresh setting.store a :=
    hleft ▸ hspares.findOrFresh_eq rfl hwhole htree
  refine ⟨hsame, fun happart hcodes found hfound => ?_⟩
  have hstart : s₁.journal.findOrFresh setting.store a = .ok o := by
    rw [← hsame, Journal.findOrFresh, hfind]
    rfl
  have hbare := bare_of_order hopened horder hstart
  have hretained := World.retained_applyScope h.liesAt h.writes
    (h.lookup_of_exists ho happart hfound) hbare fun x hx => happart x (h.mem_involved hx)
  obtain ⟨sender, -, hjournal⟩ := begun_of_order hopened horder
  have hworld : s₁.journal.world = w := by
    rw [hjournal]
    rfl
  -- the code is read by its hash, under which new code may stand
  rw [hw']
  refine Journal.sameHoldings_of_retained hstart hbare (hworld ▸ hretained) ?_
  rw [hworld, hbare.code_eq o.rootUnder]
  refine h.addsCode.accountCode_eq fun hne code hcode hkeccak => ?_
  have hread := hcodes code hcode ((Journal.codeHash_of_findOrFresh hstart hne).trans
    (congrArg Except.ok hkeccak.symm))
  rw [← hbare.code_eq, ← hworld, ← (Journal.reads_of_findOrFresh hstart).2.2.1, hread]

/-! ### A creation that writes and halts -/

/-- Account 1 creates a contract, and the init code writes 7 into slot 0 and halts. -/
def halting : Transaction := ⟨1, none, 0, Lifecycle.haltingCode, 100000⟩

/-- The address of the contract. -/
def haltingAddress : Address := createdAddress halting 0

/-- The rules of Frontier over an empty store, with the address of the contract forced to stay. -/
def forcingSession : SessionSetting where
  config := .frontier
  instructions := .ofConfig .frontier
  store := .empty
  precompiles := ∅
  forced := Std.ExtTreeSet.empty.insert haltingAddress
  block := bareSession.block
  gasPrice := 0

/-- The machine that the tree starts from. -/
def haltingRoot : Machine := creationRoot forcingSession halting

theorem order_halting : order halting forcingSession (emptySession.opened halting) =
    .ok (creationMessage forcingSession halting) (creationBegun halting) :=
  order_creation rfl rfl (by decide)

theorem claims_halting : Lifecycle.Claims forcingSession.toSetting
    { haltingRoot with journal := haltingRoot.journal.enter } :=
  claims_creation (by decide +kernel)

/-- The state in which a program left its frame, and the forced addresses that it has touched. -/
def leftForced (s : Setting) (result : EStateM.Result ExitFatal Machine Unit) :
    Option (FrameState × List Address) :=
  match result with
  | .ok _ m => some (m.frame.state, m.journal.touched.filter (s.forced.contains ·))
  | .error _ _ => none

/-- The init code fails when the address of the contract was touched. -/
theorem work_halting : ∃ m, Lifecycle.work forcingSession.toSetting
      { haltingRoot with journal := haltingRoot.journal.enter } = .ok () m ∧
    m.frame.state = .completedFailed ∧
      m.journal.touched.filter (forcingSession.forced.contains ·) = [haltingAddress] := by
  have hwork : leftForced forcingSession.toSetting (Lifecycle.work forcingSession.toSetting
      { haltingRoot with journal := haltingRoot.journal.enter }) =
        some (.completedFailed, [haltingAddress]) := by
    rw [← Lifecycle.work_claimed claims_halting]
    decide +kernel
  cases hrun : Lifecycle.work forcingSession.toSetting
      { haltingRoot with journal := haltingRoot.journal.enter } with
  | error e m =>
    rw [hrun] at hwork
    cases hwork
  | ok _ m =>
    rw [hrun] at hwork
    obtain ⟨hstate, hforced⟩ := Prod.mk.inj (Option.some.inj hwork)
    exact ⟨m, rfl, hstate, hforced⟩

/-- There is no account at the address of the contract when the tree starts. -/
theorem find?_halting : (creationBegun halting).journal.find? forcingSession.store haltingAddress =
    .ok none := by
  rw [creationBegun, Journal.find?_put]
  exact (if_neg (by decide +kernel)).trans (Journal.find?_empty _ _)

/-- The tree ends at once, and leaves an account without anything at the address of the contract. -/
theorem runTree_halting : ∃ m,
    Lifecycle.round [] forcingSession.toSetting
        { haltingRoot with journal := haltingRoot.journal.enter } = .ok .done m ∧
      Lifecycle.runTree forcingSession.toSetting haltingRoot = .ok () m ∧
      m.frame.state = .completedFailed ∧
      m.journal = (creationBegun halting).journal.put (.fresh haltingAddress 0 0) := by
  obtain ⟨m₁, hwork, hfailed, hforced⟩ := work_halting
  have hwhole : haltingRoot.journal.Whole := whole_of_order rfl order_halting
  obtain ⟨m, hround, hrun, hframe, hcreate⟩ :=
    Lifecycle.exists_runTree_of_failed hwhole.regular hwork hfailed
  rw [hforced] at hcreate
  have hput := Journal.getOrCreate_eq (Journal.findOrFresh_of_absent find?_halting)
  obtain ⟨-, hjournal⟩ := EStateM.Result.ok.inj
    (hcreate.symm.trans ((bind_eq_of_ok hput).trans (show _ = EStateM.Result.ok () _ from rfl)))
  exact ⟨m, hround, hrun, hframe ▸ hfailed, hjournal⟩

theorem treeEnd_halting : ∃ f s₁,
    tree halting forcingSession (emptySession.opened halting) = .ok f s₁ ∧ f.deletions = ∅ ∧
      emptySession.treeEnd forcingSession halting =
        ((creationBegun halting).journal.put (.fresh haltingAddress 0 0), ∅) := by
  obtain ⟨m, -, hrun, hfailed, hjournal⟩ := runTree_halting
  have htree := tree_eq_of_runTree order_halting hrun
  have hdeletions : m.frame.deletions = ∅ := by
    rw [Frame.deletions, if_neg (by simp [hfailed])]
  refine ⟨_, _, htree, hdeletions, ?_⟩
  rw [treeEnd, htree, hjournal]
  exact congrArg (Prod.mk _) hdeletions

/-- The accounts that the tree leaves have no new code. -/
theorem lookup_halting {x : Address} {found : Option Overlay}
    (h : (emptySession.treeEnd forcingSession halting).1.scope.lookup x = some found) :
    (x = 1 ∨ x = haltingAddress) ∧ ∀ o ∈ found, o.newCode = none := by
  obtain ⟨f, s₁, -, -, hend⟩ := treeEnd_halting
  rw [hend] at h
  change ((Scope.empty.put (.fresh 1 1 0)).put (.fresh haltingAddress 0 0)).lookup x = _ at h
  rw [Scope.lookup_put, Scope.lookup_put, Function.update_apply, Function.update_apply,
    Scope.lookup_empty] at h
  split at h
  · rename_i hx
    obtain rfl := Option.some.inj h
    exact ⟨.inr hx, fun o ho => Option.some.inj ho ▸ rfl⟩
  · split at h
    · rename_i hx
      obtain rfl := Option.some.inj h
      exact ⟨.inl hx, fun o ho => Option.some.inj ho ▸ rfl⟩
    · cases h

theorem reason_halting (e : ExitFatal) :
    (emptySession.transact forcingSession halting).1.reason ≠ .fatal e := by
  have hhashed : Transact.hashed forcingSession halting (emptySession.opened halting) ⊆
      [Address.toBytes 1, Address.toBytes haltingAddress, Word.toBytes 0] := by
    obtain ⟨m, hround, -⟩ := runTree_halting
    rw [Transact.hashed, order_halting]
    show _ :: ([] ++ Lifecycle.hashedTree forcingSession.toSetting haltingRoot) ⊆ _
    rw [Lifecycle.hashedTree, Lifecycle.hashedRounds, hround,
      ← Lifecycle.hashed_claimed claims_halting]
    show _ :: (Lifecycle.hashed forcingSession.toSetting (Lifecycle.claimed
      { haltingRoot with journal := haltingRoot.journal.enter }) ++ []) ⊆ _
    decide +kernel
  exact reason_creation rfl rfl (by decide +kernel) hhashed e

/-- The contract is there although its creation failed, and nothing is left of the slot that was
written. -/
theorem forced_survive_of_halting : ∃ w' found,
    (emptySession.transact forcingSession halting).2.journal = .ofWorld w' ∧
      w'.account? forcingSession.store haltingAddress = .ok (some found) ∧
      (emptySession.transact forcingSession halting).2.journal.nonce forcingSession.store
        haltingAddress = .ok 0 ∧
      (emptySession.transact forcingSession halting).2.journal.slot forcingSession.store
        haltingAddress 0 = .ok 0 := by
  obtain ⟨m₁, hwork, -, htouched⟩ := work_halting
  have hmem : haltingAddress ∈ m₁.journal.touched :=
    (List.mem_filter.mp (htouched ▸ List.mem_singleton_self _)).1
  obtain ⟨m, -, hrun, hfailed, -⟩ := runTree_halting
  obtain ⟨f, s₁, htree, hdeletions, hend⟩ := treeEnd_halting
  obtain ⟨-, w', hw', hexists, hvalues⟩ := forced_survive rfl
    (Prod.mk.eta (p := emptySession.transact forcingSession halting)).symm reason_halting
    order_halting Std.ExtTreeSet.mem_insert_self ⟨_, _, _, .start, hwork⟩ hmem
  obtain ⟨found, hfound⟩ : ∃ found,
      w'.account? forcingSession.store haltingAddress = .ok (some found) := by
    rcases hexists with h | hdestroyed | ⟨hclears, -⟩
    · exact h
    · have hgone := Effect.mem_recipients.mpr hdestroyed
      rw [← (leaves_of_tree htree).deletions_eq, hdeletions] at hgone
      exact absurd hgone (Finset.notMem_empty _)
    · cases hclears
  have happart : ∀ x ∈ emptySession.involved forcingSession halting,
      x.hash = haltingAddress.hash → x = haltingAddress := by
    rintro x (hx | hx) hhash
    · obtain ⟨held, hheld⟩ := Option.ne_none_iff_exists'.mp hx
      rcases (lookup_halting hheld).1 with rfl | rfl
      · exact absurd hhash (by decide +kernel)
      · rfl
    · rw [hend] at hx
      exact absurd hx (Finset.notMem_empty x)
  have hcodes : ∀ code ∈ emptySession.deployed forcingSession halting,
      (creationBegun halting).journal.codeHash forcingSession.store haltingAddress =
          .ok (keccak code) →
        (creationBegun halting).journal.code forcingSession.store haltingAddress = .ok code := by
    rintro code ⟨x, o, ho, hnew⟩
    cases ((lookup_halting ho).2 o rfl).symm.trans hnew
  have hspares : Lifecycle.Spares forcingSession.toSetting haltingRoot haltingAddress :=
    Lifecycle.spares_of_failed rfl hrun (by simp [hfailed]) _
  obtain ⟨hholdings, hnonce⟩ := (hvalues hspares).2 happart hcodes found hfound
  refine ⟨w', found, hw', hfound, ?_, ?_⟩
  · rw [hnonce, Journal.nonce, find?_halting]
    rfl
  · rw [hholdings.slot_eq, Journal.slot, find?_halting]
    rfl

end Session
end Ethereum
