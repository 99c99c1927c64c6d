/-
# Empty accounts are cleared

A transaction that has run its tree deletes accounts and writes its scope into the world.  Clearing
empty accounts cannot fail: it reads no account that the scope does not hold, and it drops from the
scope exactly those that are empty (`Transact.clearEmptyAccounts_drops`).  So the scope that is
written is told by the one that the tree leaves (`Transact.close_writes`), and each account that it
writes was looked at.

An account that the scope does not hold is the one from before.  So a world in which no account is
empty is left as one by every transaction that clears empty accounts and does not end fatally,
whatever its frames touched, drained, created again or reverted (`Session.leaves_none_empty`).
-/

import Mathlib
import Ethereum.Proofs.Transaction.Aborting
import Ethereum.Proofs.Transaction.Regularity

namespace Ethereum

/-- Every account can be read, and none is empty. -/
def World.NoneEmpty (store : Store) (w : World) : Prop :=
  ∀ address, ∃ found, w.account? store address = .ok found ∧ ∀ a ∈ found, a.isEmpty = false

/-- What a scope says, with an account dropped that is empty. -/
def Scope.dropEmpty (found : Option (Option Overlay)) : Option (Option Overlay) :=
  found.map fun o => o.filter fun o => !o.isEmpty

theorem Scope.dropEmpty_of_isEmpty {held : Option Overlay}
    (h : (held.map Overlay.isEmpty).getD false = true) : dropEmpty (some held) = some none := by
  cases held with
  | none => rfl
  | some o =>
    have ho : o.isEmpty = true := h
    simp [dropEmpty, Option.filter, ho]

theorem Scope.dropEmpty_of_not_isEmpty {held : Option Overlay}
    (h : ¬ (held.map Overlay.isEmpty).getD false = true) :
    dropEmpty (some held) = some held := by
  cases held with
  | none => rfl
  | some o =>
    have ho : o.isEmpty = false := Bool.eq_false_of_not_eq_true h
    simp [dropEmpty, Option.filter, ho]

theorem Scope.dropEmpty_dropEmpty (found : Option (Option Overlay)) :
    dropEmpty (dropEmpty found) = dropEmpty found := by
  cases found with
  | none => rfl
  | some held =>
    by_cases h : (held.map Overlay.isEmpty).getD false = true
    · rw [dropEmpty_of_isEmpty h]
      rfl
    · rw [dropEmpty_of_not_isEmpty h, dropEmpty_of_not_isEmpty h]

theorem Scope.isEmpty_of_dropEmpty {found : Option (Option Overlay)} {o : Overlay}
    (h : dropEmpty found = some (some o)) : found = some (some o) ∧ o.isEmpty = false := by
  obtain ⟨held, rfl, hheld⟩ := Option.map_eq_some_iff.mp h
  obtain ⟨rfl, hfull⟩ := Option.filter_eq_some_iff.mp hheld
  exact ⟨rfl, by simpa using hfull⟩

theorem Scope.lookup_of_not_touched {s : Scope} {address : Address} {o : Overlay}
    (h : address ∉ s.touched) : s.lookup address ≠ some (some o) := by
  intro hlookup
  refine h (Std.ExtTreeMap.mem_keys.mpr ?_)
  rw [Std.ExtTreeMap.mem_iff_isSome_getElem?, updated_of_lookup hlookup]
  rfl

namespace Transact

variable {setting : SessionSetting} {t : Transaction} {s s' : Session} {f : Frame}

/-! ## Clearing -/

/-- Deletes an account if it is empty. -/
def clear (address : Address) : Transact Unit := do
  if ← reading (·.isEmpty · address) then
    changing fun _ => Journal.deleteAccount address

/-- **An account that the scope holds** is dropped if it is empty. -/
theorem clear_drops {address : Address} (h : s.journal.scope.lookup address ≠ none) :
    Ends (clear address setting) s fun r s' => r = .ok () ∧ s.journal.Inner s'.journal ∧
      ∀ a, s'.journal.scope.lookup a = if a = address then
        Scope.dropEmpty (s.journal.scope.lookup a) else s.journal.scope.lookup a := by
  obtain ⟨held, hheld⟩ := Option.ne_none_iff_exists'.mp h
  have hfind : s.journal.find? setting.store address = .ok held := Journal.find?_of_lookup hheld
  have hread : reading (·.isEmpty · address) setting s =
      .ok ((held.map Overlay.isEmpty).getD false) s := by
    simp only [reading, Journal.isEmpty, hfind]
    rfl
  refine bind_ends_of_ok hread ?_
  by_cases hempty : (held.map Overlay.isEmpty).getD false = true
  · rw [if_pos hempty]
    refine ⟨rfl, Journal.inner_delete _ address, fun a => ?_⟩
    show (s.journal.scope.delete address).lookup a = _
    rw [Scope.lookup_delete, Function.update_apply]
    split
    · rename_i ha
      rw [ha, hheld, Scope.dropEmpty_of_isEmpty hempty]
    · rfl
  · rw [if_neg hempty]
    refine ⟨rfl, .refl _, fun a => ?_⟩
    split
    · rename_i ha
      rw [ha, hheld, Scope.dropEmpty_of_not_isEmpty hempty]
    · rfl

/-- **Accounts that the scope holds** are dropped if they are empty. -/
theorem forM_clear_drops {l : List Address} (hl : ∀ a ∈ l, s.journal.scope.lookup a ≠ none) :
    Ends (l.forM clear setting) s fun r s' => r = .ok () ∧ s.journal.Inner s'.journal ∧
      ∀ a, s'.journal.scope.lookup a = if a ∈ l then
        Scope.dropEmpty (s.journal.scope.lookup a) else s.journal.scope.lookup a := by
  induction l generalizing s with
  | nil => exact ⟨rfl, .refl _, fun a => rfl⟩
  | cons address l ih =>
    obtain ⟨hfirst, hrest⟩ := List.forall_mem_cons.mp hl
    refine Ends.bind ((clear_drops hfirst).mono ?_)
    rintro r s₁ ⟨rfl, hinner₁, hlookup₁⟩
    refine (ih fun a ha => ?_).mono ?_
    · rw [hlookup₁]
      split
      · exact mt Option.map_eq_none_iff.mp (hrest a ha)
      · exact hrest a ha
    · rintro r s' ⟨rfl, hinner, hlookup⟩
      refine ⟨rfl, hinner₁.trans hinner, fun a => ?_⟩
      rw [hlookup, hlookup₁]
      -- an address that the list holds twice is looked at again, and nothing is left to drop
      by_cases ha : a = address
      · simp [ha, Scope.dropEmpty_dropEmpty]
      · simp [ha]

/-- **Clearing empty accounts** drops from the scope those that are empty, and does not fail. -/
theorem clearEmptyAccounts_drops : Ends (clearEmptyAccounts setting) s fun r s' =>
    r = .ok () ∧ s.journal.Inner s'.journal ∧ ∀ address, s'.journal.scope.lookup address =
      if setting.config.clearEmptyAccounts then Scope.dropEmpty (s.journal.scope.lookup address)
      else s.journal.scope.lookup address := by
  refine bind_ends_of_ok rfl ?_
  by_cases hclears : setting.config.clearEmptyAccounts
  · rw [if_pos hclears]
    refine bind_ends_of_ok rfl
      ((forM_clear_drops fun a ha => Scope.lookup_of_touched ha).mono ?_)
    rintro r s' ⟨rfl, hinner, hlookup⟩
    refine ⟨rfl, hinner, fun address => ?_⟩
    rw [hlookup, if_pos hclears]
    split
    · rfl
    · rename_i htouched
      cases hheld : s.journal.scope.lookup address with
      | none => rfl
      | some held =>
        cases held with
        | none => rfl
        | some o => exact absurd hheld (Scope.lookup_of_not_touched htouched)
  · rw [if_neg hclears]
    exact ⟨rfl, .refl _, fun address => (if_neg hclears).symm⟩

/-! ## What is written -/

/-- What the scope of a transaction says about an address when it is written: the accounts are gone
that deleted themselves, and empty ones if the rules say so. -/
def written (setting : SessionSetting) (f : Frame) (scope : Scope) (address : Address) :
    Option (Option Overlay) :=
  let left := if address ∈ f.deletions then some none else scope.lookup address
  if setting.config.clearEmptyAccounts then Scope.dropEmpty left else left

/-- What is written was held, and is not empty if empty accounts are cleared. -/
theorem held_of_written {scope : Scope} {address : Address} {o : Overlay}
    (h : written setting f scope address = some (some o)) :
    scope.lookup address = some (some o) ∧
      (setting.config.clearEmptyAccounts = true → o.isEmpty = false) := by
  have hheld {left : Option (Option Overlay)} (h : left = some (some o))
      (hleft : left = if address ∈ f.deletions then some none else scope.lookup address) :
      scope.lookup address = some (some o) := by
    rw [h] at hleft
    split at hleft
    · cases hleft
    · exact hleft.symm
  unfold written at h
  dsimp only at h
  by_cases hclears : setting.config.clearEmptyAccounts = true
  · rw [if_pos hclears] at h
    obtain ⟨h, hfull⟩ := Scope.isEmpty_of_dropEmpty h
    exact ⟨hheld h rfl, fun _ => hfull⟩
  · rw [if_neg hclears] at h
    exact ⟨hheld h rfl, fun hc => absurd hc hclears⟩

/-- An account is gone when the scope is written because it deleted itself, or was gone or empty
before. -/
theorem gone_of_written {scope : Scope} {address : Address}
    (h : written setting f scope address = some none) : address ∈ f.deletions ∨
      scope.lookup address = some none ∨
        ∃ o, scope.lookup address = some (some o) ∧ o.isEmpty = true := by
  unfold written at h
  dsimp only at h
  by_cases hdeleted : address ∈ f.deletions
  · exact .inl hdeleted
  · rw [if_neg hdeleted] at h
    by_cases hclears : setting.config.clearEmptyAccounts = true
    · rw [if_pos hclears] at h
      cases hheld : scope.lookup address with
      | none =>
        rw [hheld] at h
        cases h
      | some held =>
        cases held with
        | none => exact .inr (.inl rfl)
        | some o =>
          rw [hheld] at h
          refine .inr (.inr ⟨o, rfl, ?_⟩)
          by_contra hfull
          simp [Scope.dropEmpty, Option.filter, hfull] at h
    · rw [if_neg hclears] at h
      exact .inr (.inl h)

theorem written_ne_none {scope : Scope} {address : Address} (h : scope.lookup address ≠ none) :
    written setting f scope address ≠ none := by
  have hleft : (if address ∈ f.deletions then some none else scope.lookup address) ≠ none := by
    split
    · exact Option.some_ne_none _
    · exact h
  unfold written
  dsimp only
  split
  · exact mt Option.map_eq_none_iff.mp hleft
  · exact hleft

/-- An account that was held is written as it was held, unless it deleted itself or is cleared. -/
theorem written_of_lookup (setting : SessionSetting) (f : Frame) {scope : Scope}
    {address : Address} {o : Overlay}
    (h : scope.lookup address = some (some o)) : address ∈ f.deletions ∨
      (setting.config.clearEmptyAccounts = true ∧ o.isEmpty = true) ∨
        written setting f scope address = some (some o) := by
  rw [written]
  by_cases hdeleted : address ∈ f.deletions
  · exact .inl hdeleted
  by_cases hclears : setting.config.clearEmptyAccounts = true
  · by_cases hempty : o.isEmpty = true
    · exact .inr (.inl ⟨hclears, hempty⟩)
    · refine .inr (.inr ?_)
      rw [if_neg hdeleted, if_pos hclears, h]
      exact Scope.dropEmpty_of_not_isEmpty hempty
  · refine .inr (.inr ?_)
    rw [if_neg hdeleted, if_neg hclears, h]

/-- The tree of a transaction keeps journals regular. -/
theorem tree_regular (h : tree t setting s = .ok f s') : s.journal.RegularTo s'.journal := by
  obtain ⟨m, s₁, machine, horder, hrun, -, rfl⟩ := tree_eq_ok h
  obtain ⟨nonce, hnonce⟩ := (order_ends.of_ok horder).nonce
  obtain ⟨m₁, hreached, hadvance, -⟩ := Lifecycle.runTree_reaches rfl hrun
  intro hregular
  exact Lifecycle.advance_regular hadvance
    (hreached.regular ((Journal.regular_incrementNonce _ _ _).of_ok hnonce hregular))

/-- **What a transaction writes** after its tree: one scope, which is told by the one that the tree
leaves. -/
theorem close_writes {w : World} {gasLimit : Nat} {receipt : Receipt}
    (hover : (Journal.ofWorld w).Inner s.journal)
    (h : close gasLimit f setting s = .ok receipt s') : ∃ scope w',
      (∀ address, scope.lookup address = written setting f s.journal.scope address) ∧
      World.applyScope setting.store scope w = .ok () w' ∧ s'.journal = .ofWorld w' := by
  obtain ⟨s₁, s₂, htake, hsettle, -, rfl⟩ := close_spec h
  obtain ⟨-, ⟨hinner₁, hdeleted⟩, -⟩ := takeOver_ends.of_ok htake
  obtain ⟨_, s₃, hclear, hcommit⟩ := reader_bind_eq_ok (reverting_eq_ok hsettle)
  obtain ⟨-, hinner₂, hdropped⟩ := clearEmptyAccounts_drops.of_ok hclear
  obtain ⟨j, hwrite, rfl⟩ := changing_eq_ok hcommit
  obtain ⟨hworld, hparents⟩ := (hover.trans hinner₁).trans hinner₂
  refine ⟨s₃.journal.scope, j.world, fun address => ?_, ?_⟩
  · rw [hdropped, hdeleted]
    rfl
  · change s₃.journal.parents = [] at hparents
    change s₃.journal.world = w at hworld
    rw [Journal.commit, hparents, hworld] at hwrite
    cases happly : World.applyScope setting.store s₃.journal.scope w with
    | error e w' =>
      simp only [happly] at hwrite
      cases hwrite
    | ok _ w' =>
      simp only [happly] at hwrite
      cases hwrite
      exact ⟨rfl, rfl⟩

end Transact

namespace Session

open Transact

variable {setting : SessionSetting} {t : Transaction} {s s' : Session} {w : World}
  {receipt : Receipt}

/-- What a transaction over a world has come to, if it did not end fatally: it was rejected and the
world is the same, or it ran its tree and wrote a scope. -/
inductive Concluded (setting : SessionSetting) (t : Transaction) (s : Session) (w w' : World) : Prop
  | rejected {reason : ExitReason} {s₁ : Session}
    (htree : tree t setting (s.opened t) = .error reason s₁) (hworld : w' = w)
  | wrote {f : Frame} {s₁ : Session} {scope : Scope}
    (htree : tree t setting (s.opened t) = .ok f s₁) (hregular : s₁.journal.Regular)
    (hover : (Journal.ofWorld w).Inner s₁.journal)
    (hlookup : ∀ address, scope.lookup address = written setting f s₁.journal.scope address)
    (hwrites : World.applyScope setting.store scope w = .ok () w')

/-- **What a transaction has come to** that did not end fatally. -/
theorem transact_concludes (hfresh : s.journal = .ofWorld w)
    (hrun : s.transact setting t = (receipt, s')) (hfatal : ∀ e, receipt.reason ≠ .fatal e) :
    ∃ w', s'.journal = .ofWorld w' ∧ Concluded setting t s w w' := by
  have hopened : (s.opened t).journal = .ofWorld w := (journal_opened t s).trans hfresh
  rcases transact_cases hrun with ⟨s₁, htree, hs'⟩ | ⟨f, s₁, htree, hclose⟩
  · have horder := (tree_eq_error htree).resolve_left fun ⟨e, he⟩ => hfatal e he
    obtain ⟨-, rfl⟩ := (order_ends.of_error horder).resolve_left fun ⟨e, he⟩ => hfatal e he
    exact ⟨w, hs'.trans hopened, .rejected htree rfl⟩
  · have hover : (Journal.ofWorld w).Inner s₁.journal := hopened ▸ (tree_inner htree).1
    have hregular : s₁.journal.Regular :=
      tree_regular htree (hopened ▸ Journal.regular_ofWorld w)
    rcases hclose with ⟨s₂, hclose, hs'⟩ | ⟨s₂, hclose⟩
    · obtain ⟨scope, w', hlookup, hwrites, hs₂⟩ := close_writes hover hclose
      exact ⟨w', hs'.trans hs₂, .wrote htree hregular hover hlookup hwrites⟩
    · obtain ⟨e, he⟩ := (failsFatally_close _ _ setting s₁).of_error hclose _ rfl
      exact absurd he (hfatal e)

/-- **A transaction leaves no empty account** where empty accounts are cleared.  If every account of
a world can be read and none is empty, the same holds of the world that a transaction leaves that
does not end fatally. -/
theorem leaves_none_empty (hclears : setting.config.clearEmptyAccounts = true)
    (hfresh : s.journal = .ofWorld w) (hw : w.NoneEmpty setting.store)
    (hrun : s.transact setting t = (receipt, s')) (hfatal : ∀ e, receipt.reason ≠ .fatal e) :
    ∃ w', s'.journal = .ofWorld w' ∧ w'.NoneEmpty setting.store := by
  obtain ⟨w', hw', hconcluded⟩ := transact_concludes hfresh hrun hfatal
  refine ⟨w', hw', fun address => ?_⟩
  cases hconcluded with
  | rejected htree hworld => exact hworld ▸ hw address
  | @wrote f s₁ scope htree hregular hover hlookup hwrites =>
    have hheld {a : Address} {o : Overlay} (h : scope.lookup a = some (some o)) :
        o.LiesAt a ∧ o.isEmpty = false := by
      obtain ⟨hheld, hfull⟩ := held_of_written ((hlookup a).symm.trans h)
      exact ⟨(hregular _ List.mem_cons_self).liesAt a o hheld, hfull hclears⟩
    cases World.written_applyScope (fun a o h => (hheld h).1) hwrites address with
    | kept hnone hread => exact hread ▸ hw address
    | gone hhash hgone hread => exact ⟨none, hread, by simp⟩
    | @renewed a o root hhash hrenewed hread =>
      refine ⟨_, hread, fun account haccount => ?_⟩
      obtain rfl := Option.some.inj haccount
      exact (hheld hrenewed).2

/-- The one account of its world is not empty, whatever its code. -/
theorem noneEmpty_leaver : (World.single leaver leaverCode).NoneEmpty bareSession.store := by
  intro address
  refine ⟨_, account?_single (by decide) address, fun a ha => ?_⟩
  split at ha
  · obtain rfl := Option.some.inj ha
    rfl
  · cases ha

/-- The account that leaves what it has to itself is gone, and nothing empty is left of it. -/
theorem leaves_none_empty_of_leaver : ∃ w',
    (leaverSession.transact bareSession leaving).2.journal = .ofWorld w' ∧
      w'.NoneEmpty bareSession.store :=
  leaves_none_empty rfl rfl noneEmpty_leaver
    (Prod.mk.eta (p := leaverSession.transact bareSession leaving)).symm reason_leaving

end Session
end Ethereum
