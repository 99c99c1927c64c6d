/-
# What frames preserve of their journal

Instructions and steps, and the start of a frame, lead through mild changes of single accounts, and
so does all the work of a frame but for the code that it deploys (`Lifecycle.work_leads`).  What
such changes preserve holds along trees.  So all journals of a tree are regular if that of its root
is (`Lifecycle.Reached.regular`).
-/

import Mathlib
import Ethereum.Proofs.State.Steady
import Ethereum.Proofs.Transaction.Trees

namespace Ethereum

/-! ## Changes that frames make -/

section
variable {R : Journal → Journal → Prop} [Std.Refl R] [IsTrans Journal R]

open Journal

theorem Instruction.Performed.leads {c : Context} {m m' : Machine} {i : Instruction}
    {r : Except ExitReason Control} (hR : ThroughMildUpdates c.store R) (h : Performed c m i r m')
    (hr : ∀ e, r ≠ .error (.fatal e)) : R m.journal m'.journal := by
  cases h with
  | unpaid hjournal => exact hjournal ▸ refl _
  | paid hcost hpaid houtcome => exact hpaid.journal_eq ▸ houtcome.leads hR hr

theorem Run.Stepped.leads {c : Context} {m m' : Machine} (hR : ThroughMildUpdates c.store R)
    (h : Stepped c m (.ok ()) m') : R m.journal m'.journal := by
  cases h with
  | past hpc hjournal => exact hjournal ▸ refl _
  | rejected he hjournal => exact hjournal ▸ refl _
  | continued hi h hjournal => exact hjournal ▸ h.leads hR nofun
  | @left i reason m₁ _ hi h hjournal hframe =>
    cases reason with
    | fatal e => cases hframe
    | _ => exact hjournal ▸ h.leads hR nofun

namespace Lifecycle

/-- **The work of a frame** that does not fail leads through the changes that it makes. -/
theorem work_leads {s : Setting} {m : Machine} (hR : ThroughUpdates s.store R) :
    Ends (work s) m fun r m' => r = .ok () → R m.journal m'.journal := by
  refine work_ends (P := fun r m' => r = .ok () → R m.journal m'.journal)
    (fun m₁ r m₂ _ h₁ h => ?_) (fun m₁ r m₂ _ h₁ h => ?_) (fun m₁ r m₂ _ h₁ h => ?_)
    (fun m₁ h₁ => h₁) fun _ => refl _
  · cases h with
    | executing hopened => exact fun _ => IsTrans.trans _ _ _ (h₁ rfl) (hopened.leads hR.mild)
    | completed gas output hgas hopened =>
      exact fun _ => IsTrans.trans _ _ _ (h₁ rfl) (hopened.leads hR.mild)
    | halted gas e hgas hopened => exact fun _ => IsTrans.trans _ _ _ (h₁ rfl) (hopened.leads hR.mild)
    | fatal => exact nofun
  · cases r with
    | error e => exact nofun
    | ok => exact fun _ => IsTrans.trans _ _ _ (h₁ rfl) (h.leads hR.mild)
  · cases h with
    | completed hjournal => exact fun _ => hjournal ▸ h₁ rfl
    | deployed hkind hlimit hgas hcode =>
      exact fun _ => IsTrans.trans _ _ _ (h₁ rfl) ((hR.setCode _ _ _).of_ok hcode)
    | halted e hjournal => exact fun _ => hjournal ▸ h₁ rfl
    | fatal => exact nofun

end Lifecycle
end

/-! ## Regular journals -/

namespace Lifecycle

variable {s : Setting} {root m m' : Machine} {js : List Journal} {parents : List Frame}

theorem Settled.regular (h : Settled s m (.ok ()) m') : m.journal.RegularTo m'.journal := by
  cases h with
  | waiting => exact id
  | committed hstate hcommit => exact (Journal.regular_commit _ _).of_ok hcommit
  | reverted hstate hforced =>
    exact ((Journal.regular_update _).mild.forM_getOrCreate _ _).of_ok hforced ∘
      Journal.Regular.revert

theorem advance_regular (h : advance s m = .ok () m') : m.journal.RegularTo m'.journal := by
  rw [advance_eq] at h
  obtain ⟨_, m₁, hwork, hsettle⟩ := reader_bind_eq_ok h
  exact (settleScope_ends.of_ok hsettle).regular ∘
    (work_leads (Journal.regular_update s.store)).of_ok hwork rfl

theorem Reached.regular (hregular : root.journal.Regular) (h : Reached s root js parents m) :
    m.journal.Regular := by
  induction h with
  | start => exact hregular.enter
  | descend _ hadvance hstate hround ih =>
    obtain ⟨message, -, -, hjournal, -⟩ := descends_of_round hadvance hstate hround
    exact hjournal ▸ (advance_regular hadvance ih).enter
  | ascend _ hadvance hstate hround ih =>
    obtain ⟨parent, -, hjournal, -⟩ := ascends_of_round hadvance hstate hround
    exact hjournal ▸ advance_regular hadvance ih

end Lifecycle
end Ethereum
