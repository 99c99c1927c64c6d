/-
# Scopes are closed once

Each frame of a tree has one open scope, and so have the frames that wait for it
(`Lifecycle.Reached.depth_eq`).  A frame closes its scope when it completes.  That cannot fail: a
scope that is not the outermost is merged without a look at the state, and a forced address is
created again under a scope only where it was written in it, so that it can be read
(`Lifecycle.settleScope_returns`).  So a failure finds the scopes of all frames open that are not
settled, and unwinding reverts these and no other: the journal is the very one from before the tree
(`Lifecycle.scopes_match`).
-/

import Mathlib
import Ethereum.Proofs.State.Reading
import Ethereum.Proofs.Transaction.Aborting
import Ethereum.Proofs.Transaction.Regularity

namespace Ethereum

namespace Journal

variable {store : Store} {j outer : Journal} {js : List Journal}

/-- There is one scope for each journal that another lies over. -/
theorem Nested.depth_eq (h : j.Nested js) (hlast : js.getLast? = some outer) :
    j.depth = outer.depth + js.length := by
  induction js generalizing j with
  | nil => cases hlast
  | cons next js ih =>
    obtain ⟨hinner, hrest⟩ := h
    have hdepth : j.depth = next.depth + 1 := congrArg List.length hinner.parents_eq
    cases js with
    | nil =>
      obtain rfl : next = outer := Option.some.inj hlast
      exact hdepth
    | cons =>
      rw [hdepth, ih hrest hlast]
      rfl

theorem Inner.depth_eq {j' : Journal} (h : j.Inner j') : j'.depth = j.depth :=
  congrArg List.length h.parents_eq

/-- All scopes of nested journals can be read back from, and the innermost journal is regular. -/
def Backed (store : Store) (j : Journal) : List Journal → Prop
  | [] => j.Regular
  | outer :: rest => outer.ReadsBack store j ∧ outer.Backed store rest

theorem Backed.regular (h : j.Backed store js) : j.Regular := by
  induction js generalizing j with
  | nil => exact h
  | cons outer js ih => exact (h.1 (ih h.2)).1

end Journal

namespace Lifecycle

open Journal

variable {s : Setting} {root m m' next : Machine} {j : Journal} {js : List Journal}
  {parents : List Frame} {e : ExitFatal}

/-- Forced addresses that can be read are created again. -/
theorem forM_getOrCreate_returns {l : List Address}
    (h : ∀ address ∈ l, m.journal.Readable s.store address) :
    Ends ((l.forM fun address => changing (getOrCreate · address)) s) m fun r _ => r = .ok () := by
  induction l generalizing m with
  | nil => exact rfl
  | cons address l ih =>
    obtain ⟨o, ho⟩ := (h address List.mem_cons_self).exists_getOrCreate
    refine Ends.bind (Machine.changing_ends (fun e j hj => ?_) fun _ j hj => ih ?_)
    · cases ho.symm.trans hj
    · obtain ⟨-, rfl⟩ := EStateM.Result.ok.inj (ho.symm.trans hj)
      exact fun a ha => (h a (List.mem_cons_of_mem address ha)).put o

/-- **The scope of a frame is always settled.** -/
theorem settleScope_returns (hj : j.Regular) (hinner : j.enter.Inner m.journal)
    (hback : j.ReadsBack s.store m.journal) : Ends (settleScope s) m fun r _ => r = .ok () := by
  refine bind_ends_of_ok rfl ?_
  cases m.frame.state with
  | completedSuccess =>
    refine Machine.changing_ends (fun e j' hcommit => ?_) fun _ _ _ => rfl
    rw [hinner.commit_eq] at hcommit
    cases hcommit
  | completedFailed =>
    refine bind_ends_of_ok rfl (bind_ends_of_ok rfl (bind_ends_of_ok rfl ?_))
    refine forM_getOrCreate_returns fun address haddress => ?_
    change m.journal.revert.Readable s.store address
    rw [hinner.revert_eq]
    exact hback.touched hj (List.mem_filter.mp haddress).1
  | _ => exact rfl

/-- **One scope is open** for the frame of a tree, and one for each of its parents. -/
theorem Reached.depth_eq (hroot : root.frame.state = .notStarted)
    (h : Reached s root js parents m) :
    m.journal.depth = root.journal.depth + parents.length + 1 := by
  have hready := h.ready hroot
  rw [hready.nested.depth_eq hready.last_eq, hready.length_eq, Nat.add_assoc]

/-- A frame that has advanced has its scope open if it waits, and closed if it completed. -/
theorem Left.depth_eq (h : Left s j m) :
    m.journal.depth = j.depth + if m.frame.state = .codeSuspended then 1 else 0 := by
  by_cases hstate : m.frame.state = .codeSuspended
  · rw [if_pos hstate]
    cases h with
    | waiting _ hinner => exact hinner.depth_eq
    | committed h => cases h.symm.trans hstate
    | reverted h => cases h.symm.trans hstate
  · rw [if_neg hstate]
    exact (h.inner hstate).depth_eq

end Lifecycle
end Ethereum
