/-
# Transactions create no value

A transaction that does not end fatally is rejected and changes nothing, or it runs a tree of
frames, which conserves value, and then deletes accounts.  So the total after a transaction is
the total before, less what the accounts had that deleted themselves
(`Session.transact_conserves`).

The world knows accounts by the hashes of their addresses only, so totals are taken over
addresses that share no hash with another one that the transaction involves.
-/

import Mathlib
import Ethereum.Proofs.Transaction.Closing

namespace Ethereum
namespace Session

open Transact

variable {setting : SessionSetting} {t : Transaction} {s s' : Session} {w : World}
  {receipt : Receipt}

/-- The session once a transaction is on record.  Creations are put on record when they have
begun. -/
def opened (t : Transaction) (s : Session) : Session :=
  match t.target with
  | some target => s.record (.transactCall t.sender target t.value t.data t.gasLimit)
  | none => s

/-- The journal at the end of the tree of a transaction, and the accounts to delete.  A
transaction that is rejected has no tree and deletes nothing. -/
def treeEnd (setting : SessionSetting) (t : Transaction) (s : Session) : Journal × Finset Address :=
  match tree t setting (s.opened t) with
  | .ok f s' => (s'.journal, f.deletions)
  | .error _ s' => (s'.journal, ∅)

/-- The addresses that a transaction involves: those in its scope at the end of its tree, and
those of the accounts to delete. -/
def involved (setting : SessionSetting) (t : Transaction) (s : Session) : Set Address :=
  { address | (s.treeEnd setting t).1.scope.lookup address ≠ none ∨
    address ∈ (s.treeEnd setting t).2 }

/-- A transaction runs its tree, and then what is left of it. -/
theorem transact_eq (setting : SessionSetting) (t : Transaction) (s : Session) :
    ∃ address, s.transact setting t =
      conclude address ((tree t >>= close t.gasLimit) setting (s.opened t)) := by
  rw [transact, opened]
  cases htarget : t.target with
  | some target => exact ⟨target, by rw [← call_eq htarget]⟩
  | none =>
    have htree : tree t =
        begin t >>= fun begun => createTree t begun.1 (createdAddress t begun.2) := by
      rw [tree, htarget]
    rw [htree, bind_assoc]
    simp only [← create_eq]
    change ∃ address, _ = conclude address (EStateM.bind (begin t setting) _ s)
    rw [EStateM.bind]
    cases hbegin : begin t setting s with
    | error reason s₁ => exact ⟨t.sender, rfl⟩
    | ok begun s₁ => exact ⟨createdAddress t begun.2, rfl⟩

/-- A transaction is rejected before its tree, or its end follows its tree. -/
theorem transact_cases (hrun : s.transact setting t = (receipt, s')) :
    (∃ s₁, tree t setting (s.opened t) = .error receipt.reason s₁ ∧ s'.journal = s₁.journal) ∨
      ∃ f s₁, tree t setting (s.opened t) = .ok f s₁ ∧
        ((∃ s₂, close t.gasLimit f setting s₁ = .ok receipt s₂ ∧ s'.journal = s₂.journal) ∨
          ∃ s₂, close t.gasLimit f setting s₁ = .error receipt.reason s₂) := by
  obtain ⟨address, heq⟩ := transact_eq setting t s
  rw [heq] at hrun
  cases hresult : (tree t >>= close t.gasLimit) setting (s.opened t) with
  | ok r s₂ =>
    rw [hresult] at hrun
    cases hrun
    obtain ⟨f, s₁, htree, hclose⟩ := reader_bind_eq_ok hresult
    exact .inr ⟨f, s₁, htree, .inl ⟨s₂, hclose, rfl⟩⟩
  | error reason s₂ =>
    rw [hresult] at hrun
    cases hrun
    rcases bind_eq_error hresult with htree | ⟨f, s₁, htree, hclose⟩
    · exact .inl ⟨s₂, htree, rfl⟩
    · exact .inr ⟨f, s₁, htree, .inr ⟨s₂, hclose⟩⟩

/-- **The end of the tree, and the world after it.**  A transaction that does not end fatally
has moved balances only until its tree ends.  Then it deletes accounts. -/
theorem transact_closes {before : Balances} (hfresh : s.journal = .ofWorld w)
    (hreads : ∀ address, w.balance setting.store address = .ok (before address))
    (htotal : before.total < 2 ^ 255) (hrun : s.transact setting t = (receipt, s'))
    (hfatal : ∀ e, receipt.reason ≠ .fatal e) :
    ∃ (w' : World) (atEnd : Balances), s'.journal = .ofWorld w' ∧ atEnd.total = before.total ∧
      (s.treeEnd setting t).1.Closing setting.store w (s.involved setting t) atEnd ∧
      ∀ address : Address, (∀ a ∈ s.involved setting t, a.hash = address.hash → a = address) →
        w'.balance setting.store address =
          .ok (atEnd.without (s.treeEnd setting t).2 address) := by
  have hjournal : (s.opened t).journal = .ofWorld w := by
    rw [opened]
    split <;> exact hfresh
  have hb : (s.opened t).journal.HasBalances setting.store before :=
    hjournal ▸ Journal.hasBalances_ofWorld hreads
  have htree := tree_ends (t := t) hb htotal
  rw [hjournal] at htree
  -- the addresses that the tree changed or deleted are among those involved
  have hmentions : ∀ a, (s.treeEnd setting t).1.scope.lookup a ≠ none → a ∈ s.involved setting t :=
    fun a ha => .inl ha
  have hdeleted : ∀ a ∈ (s.treeEnd setting t).2, a ∈ s.involved setting t := fun a ha => .inr ha
  -- the tree was not run, or it was and the transaction is closed
  rcases transact_cases hrun with ⟨s₁, hend, hs'⟩ | ⟨f, s₁, hend, hclose⟩
  · have hworld : s₁.journal = .ofWorld w := by
      rcases htree.of_error hend with ⟨e, he⟩ | hworld
      · exact absurd he (hfatal e)
      · exact hworld
    have htreeEnd : s.treeEnd setting t = (.ofWorld w, ∅) := by
      rw [treeEnd, hend]
      exact congrArg (·, ∅) hworld
    rw [htreeEnd] at hmentions ⊢
    refine ⟨w, before, hs'.trans hworld, rfl,
      ⟨rfl, rfl, hmentions, Journal.hasBalances_ofWorld hreads⟩, fun address _ => ?_⟩
    rw [Balances.without_empty]
    exact hreads address
  · obtain ⟨⟨atEnd, hatEnd, htotal'⟩, hworld, hparents⟩ := htree.of_ok hend
    have htreeEnd : s.treeEnd setting t = (s₁.journal, f.deletions) := by
      rw [treeEnd, hend]
    rw [htreeEnd] at hmentions hdeleted ⊢
    have hclosing : s₁.journal.Closing setting.store w (s.involved setting t) atEnd :=
      ⟨hworld, hparents, hmentions, hatEnd⟩
    rcases hclose with ⟨s₂, hclose, hs'⟩ | ⟨s₂, hclose⟩
    · obtain ⟨w', hw', hafter⟩ := (close_ends hclosing hdeleted).of_ok hclose
      exact ⟨w', atEnd, hs'.trans hw', htotal', hclosing, hafter⟩
    · obtain ⟨e, he⟩ := (close_ends hclosing hdeleted).of_error hclose
      exact absurd he (hfatal e)

/-- **No transaction creates value.**  A transaction over a world whose accounts can be read and
have less than `2 ^ 255` together leaves a world whose accounts have as much, less what the
accounts that it deletes have at the end of its tree because they deleted themselves.  The sums
are taken over any addresses that contain the involved ones and share no hash with them. -/
theorem transact_conserves {before : Balances} {among : Finset Address}
    (hfresh : s.journal = .ofWorld w)
    (hreads : ∀ address, w.balance setting.store address = .ok (before address))
    (htotal : before.total < 2 ^ 255) (hrun : s.transact setting t = (receipt, s'))
    (hfatal : ∀ e, receipt.reason ≠ .fatal e) (hinvolved : ∀ a ∈ s.involved setting t, a ∈ among)
    (hhash : ∀ a ∈ s.involved setting t, ∀ x ∈ among, a.hash = x.hash → a = x) :
    ∃ (w' : World) (atEnd after : Balances), s'.journal = .ofWorld w' ∧
      (∀ address, (s.treeEnd setting t).1.balance setting.store address = .ok (atEnd address)) ∧
      (∀ address ∈ among, w'.balance setting.store address = .ok (after address)) ∧
      ∑ a ∈ among, (after a).toNat + ∑ a ∈ (s.treeEnd setting t).2, (atEnd a).toNat =
        ∑ a ∈ among, (before a).toNat := by
  obtain ⟨w', atEnd, hw', htotal', hclosing, hafter⟩ :=
    transact_closes hfresh hreads htotal hrun hfatal
  have hdeleted : (s.treeEnd setting t).2 ⊆ among := fun a ha => hinvolved a (.inr ha)
  have helsewhere (a : Address) (ha : a ∉ among) : atEnd a = before a :=
    Except.ok.inj ((hclosing.balance_world fun h => ha (hinvolved a h)).symm.trans (hreads a))
  refine ⟨w', atEnd, atEnd.without (s.treeEnd setting t).2, hw', hclosing.balances.balance_eq,
    fun a ha => hafter a fun x hx => hhash x hx a ha, ?_⟩
  rw [Balances.sum_without hdeleted, Balances.sum_eq_of_total htotal' helsewhere]

end Session

namespace Transact
variable {setting : SessionSetting} {t : Transaction} {s : Session}

theorem begin_eq_ok {balance : Word} {nonce : Nat} {j : Journal}
    (hgas : setting.config.schedule.intrinsic t.data t.target.isNone ≤ t.gasLimit)
    (hbalance : s.journal.balance setting.store t.sender = .ok balance) (hle : t.value ≤ balance)
    (hnonce : Journal.incrementNonce setting.store t.sender s.journal = .ok nonce j) :
    begin t setting s =
      .ok (t.gasLimit - setting.config.schedule.intrinsic t.data t.target.isNone, nonce)
        { s with journal := j, usedGas := 0 } := by
  have hread : reading (·.balance · t.sender) setting { s with usedGas := 0 } =
      .ok balance { s with usedGas := 0 } := by
    simp only [reading, hbalance]
  have hchange : changing (Journal.incrementNonce · t.sender) setting { s with usedGas := 0 } =
      .ok nonce { s with journal := j, usedGas := 0 } := by
    simp only [changing, hnonce]
  have hends : Ends (begin t setting) s fun r s' =>
      r = .ok (t.gasLimit - setting.config.schedule.intrinsic t.data t.target.isNone, nonce) ∧
        s' = { s with journal := j, usedGas := 0 } := by
    refine bind_ends_of_ok rfl (bind_ends_of_ok rfl ?_)
    rw [if_neg (not_lt.mpr hgas)]
    refine bind_ends_of_ok hread ?_
    rw [if_neg (BitVec.not_lt.mpr hle)]
    exact bind_ends_of_ok hchange ⟨rfl, rfl⟩
  rw [Ends] at hends
  cases hbegin : begin t setting s with
  | ok begun s' =>
    rw [hbegin] at hends
    rw [Except.ok.inj hends.1, hends.2]
  | error reason s' =>
    rw [hbegin] at hends
    cases hends.1

theorem tree_eq_callTree {target : Address} {gas nonce : Nat} {s₁ : Session}
    (htarget : t.target = some target) (hbegin : begin t setting s = .ok (gas, nonce) s₁) :
    tree t setting s = callTree t target gas setting s₁ := by
  rw [tree, reader_bind_eq_of_ok hbegin, htarget]

theorem close_eq_ok {gasLimit : Nat} {f : Frame} {s₁ s₂ : Session} {j : Journal}
    (hstate : f.state = .completedSuccess) (hcollect : collect f setting s = .ok () s₁)
    (hclear : clearEmptyAccounts setting s₁ = .ok () s₂)
    (hcommit : Journal.commit setting.store s₂.journal = .ok () j) :
    ∃ s', close gasLimit f setting s = .ok ⟨f.exitReason, f.output⟩ s' := by
  have hchange : changing Journal.commit setting s₂ = .ok () { s₂ with journal := j } := by
    simp only [changing, hcommit]
  have hwritten : reverting (do clearEmptyAccounts; changing Journal.commit) setting s₁ =
      .ok () { s₂ with journal := j } := by
    have hboth : (do clearEmptyAccounts; changing Journal.commit : Transact Unit) setting s₁ =
        .ok () { s₂ with journal := j } := (reader_bind_eq_of_ok hclear).trans hchange
    simp only [reverting, hboth]
  rw [close]
  dsimp only
  rw [if_pos (decide_eq_true hstate)]
  exact ⟨_, (reader_bind_eq_of_ok hcollect).trans ((reader_bind_eq_of_ok hwritten).trans rfl)⟩

end Transact

/-! ### An account that leaves what it has to itself -/

/-- The world of one account, with its code. -/
def World.single (a : Account) (code : Bytes) : World where
  accounts := ⟨.leaf (Path.ofBytes (Hash.toBytes a.address.hash)) a.encode⟩
  storages := ∅
  codes := (∅ : Std.ExtTreeMap Hash Bytes).insert (keccak code) code

section
variable {a : Account} {code : Bytes} {store : Store}

theorem account?_single (hnonce : a.nonce ≤ Quantity.max) (address : Address) :
    (World.single a code).account? store address =
      .ok (if a.address.hash = address.hash then some { a with address } else none) := by
  have hget : (World.single a code).accounts.get store.nodes (Hash.toBytes address.hash) =
      .ok (if a.address.hash = address.hash then some a.encode else none) := by
    have hinj : Path.ofBytes (Hash.toBytes a.address.hash) =
        Path.ofBytes (Hash.toBytes address.hash) ↔ a.address.hash = address.hash :=
      ((Function.LeftInverse.injective Path.toBytes_ofBytes).comp Hash.toBytes_injective).eq_iff
    exact (Node.lookup_leaf _ _ _).trans (congrArg _ (if_congr hinj rfl rfl))
  have hdecode : Account.decode address a.encode = .ok { a with address } :=
    Account.decode_encode (a := { a with address }) hnonce
  rw [World.account?, hget]
  split
  · simp only [Except.mapError, bind, Except.bind, hdecode]
    rfl
  · rfl

theorem balance_single (hnonce : a.nonce ≤ Quantity.max) (address : Address) :
    (World.single a code).balance store address =
      .ok (if a.address.hash = address.hash then a.balance else 0) := by
  rw [World.balance, account?_single hnonce]
  split <;> rfl

/-- All accounts have less than `2 ^ 255` if the one has less than `2 ^ 95`: there are `2 ^ 160`
addresses, and who knows their hashes. -/
theorem total_single_lt (h : a.balance.toNat < 2 ^ 95) :
    Balances.total (fun address => if a.address.hash = address.hash then a.balance else 0) <
      2 ^ 255 := by
  have hcard : Fintype.card Address = 2 ^ 160 :=
    (Fintype.card_congr (⟨BitVec.toFin, BitVec.ofFin, fun _ => rfl, fun _ => rfl⟩ :
      Address ≃ Fin (2 ^ 160))).trans (Fintype.card_fin _)
  have hle :
      Balances.total (fun address => if a.address.hash = address.hash then a.balance else 0) ≤
        (Finset.univ : Finset Address).card • a.balance.toNat := by
    refine Finset.sum_le_card_nsmul _ _ _ fun address _ => ?_
    dsimp only
    split
    · exact le_rfl
    · exact Nat.zero_le _
  rw [Finset.card_univ, hcard, smul_eq_mul] at hle
  omega

theorem find?_single (hnonce : a.nonce ≤ Quantity.max) :
    (Journal.ofWorld (.single a code)).find? store a.address = .ok (some (.ofAccount a)) := by
  rw [Journal.find?_ofWorld, account?_single hnonce, if_pos rfl]
  rfl

theorem incrementNonce_single (hnonce : a.nonce ≤ Quantity.max) :
    Journal.incrementNonce store a.address (.ofWorld (.single a code)) =
      .ok a.nonce ((Journal.ofWorld (.single a code)).put (Overlay.ofAccount a).incrementNonce) := by
  have hfresh : (Journal.ofWorld (.single a code)).findOrFresh store a.address =
      .ok (.ofAccount a) := by
    rw [Journal.findOrFresh, find?_single hnonce]
    rfl
  exact Journal.incrementNonce_eq hfresh

/-- A scope that deletes the account can be written. -/
theorem commit_single {j : Journal} (hworld : j.world = .single a code)
    (hparents : j.parents = []) (hupdated : j.scope.updated.keys = [])
    (hdeleted : j.scope.deleted.toList = [a.address]) :
    ∃ j', Journal.commit store j = .ok () j' := by
  have herase : (World.single a code).accounts.erase store.nodes (Hash.toBytes a.address.hash) =
      .ok ⟨.null⟩ := by
    rw [Trie.erase, World.single, Node.remove_leaf, if_pos rfl]
    rfl
  have hupdate : World.updateAccounts
      (fun t => t.erase store.nodes (Hash.toBytes a.address.hash)) (.single a code) =
        .ok () { World.single a code with accounts := ⟨.null⟩ } := World.updateAccounts_eq herase
  have hdelete : World.deleteAccount store a.address (.single a code) = .ok ()
      { World.single a code with
        accounts := ⟨.null⟩, storages := (World.single a code).storages.erase a.address } :=
    bind_eq_of_ok hupdate
  have hnil : j.scope.updated.toList = [] :=
    List.map_eq_nil_iff.mp (Std.ExtTreeMap.map_fst_toList_eq_keys.trans hupdated)
  have happly : ∃ w, World.applyScope store j.scope (.single a code) = .ok () w := by
    rw [World.applyScope, hdeleted, hnil]
    exact ⟨_, bind_eq_of_ok (bind_eq_of_ok hdelete)⟩
  obtain ⟨w, happly⟩ := happly
  rw [Journal.commit, hparents, hworld]
  simp only [happly]
  exact ⟨_, rfl⟩

end

namespace Session
open Transact

/-- The code `ADDRESS SELFDESTRUCT`. -/
def leaverCode : Bytes := [0x30, 0xff]

/-- An account that leaves its 100 to itself when it is called. -/
def leaver : Account := ⟨1, 0, 100, Node.emptyHash, keccak leaverCode⟩

/-- The rules of Petersburg over an empty store. -/
def bareSession : SessionSetting where
  toSetting := Lifecycle.bare
  block := ⟨0, 0, 0, 0, 0, #[]⟩
  gasPrice := 0

/-- The account calls itself. -/
def leaving : Transaction := ⟨leaver.address, some leaver.address, 0, [], 100000⟩

/-- The session over the world of the account. -/
def leaverSession : Session := .ofJournal (.ofWorld (.single leaver leaverCode)) .off

/-- The session when the nonce of the account is raised. -/
def leaverBegun : Session :=
  { leaverSession.opened leaving with
    journal :=
      (Journal.ofWorld (.single leaver leaverCode)).put (Overlay.ofAccount leaver).incrementNonce
    usedGas := 0 }

theorem begin_leaving : begin leaving bareSession (leaverSession.opened leaving) =
    .ok (79000, 0) leaverBegun := by
  have hfind : (Journal.ofWorld (.single leaver leaverCode)).find? bareSession.store
      leaver.address = .ok (some (.ofAccount leaver)) := find?_single (by decide)
  have hbalance : (Journal.ofWorld (.single leaver leaverCode)).balance bareSession.store
      leaver.address = .ok 100 := by
    rw [Journal.balance, hfind]
    rfl
  have hnonce : Journal.incrementNonce bareSession.store leaver.address
      (.ofWorld (.single leaver leaverCode)) = .ok leaver.nonce leaverBegun.journal :=
    incrementNonce_single (by decide)
  exact begin_eq_ok (by decide) hbalance (by decide) hnonce

theorem tree_leaving : tree leaving bareSession (leaverSession.opened leaving) =
    callTree leaving 1 79000 bareSession leaverBegun :=
  tree_eq_callTree rfl begin_leaving

/-- What a root frame and its scope leave to do: how and why the frame ended, the accounts that
it deletes, and those that its scope updated and deleted. -/
def summary (result : EStateM.Result ExitReason Session Frame) :
    Option (FrameState × ExitReason × List Address × List Address × List Address) :=
  match result with
  | .ok f s => some (f.state, f.exitReason, f.selfDestructs.toList, s.journal.scope.updated.keys,
      s.journal.scope.deleted.toList)
  | .error _ _ => none

theorem exists_of_summary {result : EStateM.Result ExitReason Session Frame}
    {state : FrameState} {reason : ExitReason} {gone updated deleted : List Address}
    (h : summary result = some (state, reason, gone, updated, deleted)) :
    ∃ f s, result = .ok f s ∧ f.state = state ∧ f.exitReason = reason ∧
      f.selfDestructs.toList = gone ∧ s.journal.scope.updated.keys = updated ∧
      s.journal.scope.deleted.toList = deleted := by
  cases result with
  | ok f s =>
    simp only [summary, Option.some.injEq, Prod.mk.injEq] at h
    exact ⟨f, s, rfl, h⟩
  | error => cases h

theorem summary_leaving : summary (callTree leaving 1 79000 bareSession leaverBegun) =
    some (.completedSuccess, .succeed .selfDestructed, [1], [1], []) := by decide +kernel

theorem summary_collected : summary ((do
    let f ← callTree leaving 1 79000
    collect f
    clearEmptyAccounts
    return f : Transact Frame) bareSession leaverBegun) =
    some (.completedSuccess, .succeed .selfDestructed, [1], [], [1]) := by decide +kernel

theorem involved_leaving : (leaverSession.treeEnd bareSession leaving).2 = {1} ∧
    ∀ a ∈ leaverSession.involved bareSession leaving, a ∈ ({1} : Finset Address) := by
  obtain ⟨f, s, hrun, hstate, -, hgone, hupdated, hdeleted⟩ := exists_of_summary summary_leaving
  have htreeEnd : leaverSession.treeEnd bareSession leaving = (s.journal, {1}) := by
    rw [treeEnd, tree_leaving, hrun]
    dsimp only
    rw [Frame.deletions, if_pos hstate, hgone]
    rfl
  rw [involved, htreeEnd]
  refine ⟨rfl, fun a ha => ?_⟩
  rcases ha with ha | ha
  · by_contra hne
    rw [Finset.mem_singleton] at hne
    refine ha (Scope.lookup_eq_none (fun hmem => ?_) fun o ho => hne ?_)
    · rw [← Std.ExtTreeSet.mem_toList, hdeleted] at hmem
      cases hmem
    · have hmem : a ∈ s.journal.scope.updated.keys := by
        rw [Std.ExtTreeMap.mem_keys, Std.ExtTreeMap.mem_iff_isSome_getElem?, ho]
        rfl
      rw [hupdated] at hmem
      exact List.mem_singleton.mp hmem
  · exact ha

theorem hasBalances_opened : (leaverSession.opened leaving).journal.HasBalances bareSession.store
    fun address => if leaver.address.hash = address.hash then leaver.balance else 0 :=
  Journal.hasBalances_ofWorld (balance_single (by decide))

theorem reason_leaving (e : ExitFatal) :
    (leaverSession.transact bareSession leaving).1.reason ≠ .fatal e := by
  obtain ⟨f, s₃, hrun, hstate, hreason, -, hupdated, hdeleted⟩ :=
    exists_of_summary summary_collected
  obtain ⟨f, s₁, htree, hrun⟩ := reader_bind_eq_ok hrun
  obtain ⟨_, s₂, hcollect, hrun⟩ := reader_bind_eq_ok hrun
  obtain ⟨_, s₃, hclear, hrun⟩ := reader_bind_eq_ok hrun
  obtain ⟨rfl, rfl⟩ := EStateM.Result.ok.inj hrun
  rw [← tree_leaving] at htree
  obtain ⟨⟨b, hb, -⟩, hworld, hparents⟩ :=
    (tree_ends hasBalances_opened (total_single_lt (by decide))).of_ok htree
  have hclosing : s₁.journal.Closing bareSession.store (.single leaver leaverCode) Set.univ b :=
    ⟨hworld, hparents, fun _ _ => trivial, hb⟩
  have hcollected := ((collect_ends hclosing fun _ _ => trivial).of_ok hcollect).2
  have hcleared := (clearEmptyAccounts_ends hcollected).of_ok hclear
  have hcommit : ∃ j, Journal.commit bareSession.store s₃.journal = .ok () j :=
    commit_single hcleared.world_eq hcleared.parents_eq hupdated hdeleted
  obtain ⟨j, hcommit⟩ := hcommit
  have hclose : ∃ s', close leaving.gasLimit f bareSession s₁ = .ok ⟨f.exitReason, f.output⟩ s' :=
    close_eq_ok hstate hcollect hclear hcommit
  obtain ⟨s', hclose⟩ := hclose
  rcases transact_cases (Prod.mk.eta (p := leaverSession.transact bareSession leaving)).symm with
    ⟨s₁', hend, -⟩ | ⟨f₁, s₁', hend, ⟨s₂', hclose', -⟩ | ⟨s₂', hclose'⟩⟩
  · cases hend.symm.trans htree
  · obtain ⟨rfl, rfl⟩ := EStateM.Result.ok.inj (hend.symm.trans htree)
    rw [(EStateM.Result.ok.inj (hclose'.symm.trans hclose)).1]
    simp [hreason]
  · obtain ⟨rfl, rfl⟩ := EStateM.Result.ok.inj (hend.symm.trans htree)
    cases hclose'.symm.trans hclose

/-- The account leaves its 100 to itself, and they are gone with it. -/
theorem transact_conserves_of_leaver : (leaverSession.treeEnd bareSession leaving).2 = {1} ∧
    ∃ (w' : World) (atEnd after : Balances),
      (leaverSession.transact bareSession leaving).2.journal = .ofWorld w' ∧
      (∀ address, (leaverSession.treeEnd bareSession leaving).1.balance bareSession.store address =
        .ok (atEnd address)) ∧
      (∀ address ∈ ({1} : Finset Address),
        w'.balance bareSession.store address = .ok (after address)) ∧
      ∑ a ∈ ({1} : Finset Address), (after a).toNat +
        ∑ a ∈ ({1} : Finset Address), (atEnd a).toNat = 100 := by
  obtain ⟨hdeleted, hinvolved⟩ := involved_leaving
  have hhash : ∀ a ∈ leaverSession.involved bareSession leaving, ∀ x ∈ ({1} : Finset Address),
      a.hash = x.hash → a = x := fun a ha x hx _ =>
    (Finset.mem_singleton.mp (hinvolved a ha)).trans (Finset.mem_singleton.mp hx).symm
  have hbefore : (if leaver.address.hash = Address.hash 1 then leaver.balance else 0).toNat = 100 :=
    congrArg BitVec.toNat (if_pos rfl)
  obtain ⟨w', atEnd, after, hw', hatEnd, hafter, hsum⟩ := transact_conserves rfl
    (balance_single (by decide)) (total_single_lt (by decide))
    (Prod.mk.eta (p := leaverSession.transact bareSession leaving)).symm reason_leaving hinvolved
    hhash
  rw [hdeleted] at hsum
  exact ⟨hdeleted, w', atEnd, after, hw', hatEnd, hafter,
    hsum.trans ((Finset.sum_singleton _ _).trans hbefore)⟩

end Session
end Ethereum
