/-
# Trees end

Every child that begins takes gas off the tree, and no frame gives back more than it had.
So the rounds of a tree end with the completion of its root, before the fuel that they are
given is spent (`Lifecycle.runTree_reaches`).
-/

import Mathlib
import Ethereum.Proofs.Transaction.Trees

namespace Ethereum
namespace Lifecycle

variable {s : Setting} {root m m' next : Machine} {js : List Journal} {parents : List Frame}
  {e : ExitFatal}

/-- The gas of frames. -/
def gasOf (frames : List Frame) : Nat := (frames.map Frame.gas).sum

/-- What bounds the rounds that are left: each takes gas off the tree or closes a frame. -/
def roundsLeft (parents : List Frame) (m : Machine) : Nat :=
  2 * (m.frame.gas + gasOf parents) + parents.length + 1

/-- **A round that is not the last** leaves fewer. -/
theorem roundsLeft_lt {parents' : List Frame} (hready : Ready root js parents m)
    (hround : round parents s m = .ok (.more parents') next) :
    roundsLeft parents' next < roundsLeft parents m := by
  obtain ⟨m', hadvance⟩ := exists_advance_of_round hround
  obtain ⟨j, js, rfl⟩ := hready.exists_cons
  have hsettles := (advance_cases hready.state hready.nested.1 hadvance).1
  by_cases hstate : m'.frame.state = .codeSuspended
  · obtain ⟨message, hchild, hframe, -, hparents⟩ := descends_of_round hadvance hstate hround
    cases hparents
    -- one frame more, but the child has less gas than the frame has spent on it
    have hheld : m'.frame.gas + message.gas < m.frame.gas := by
      rcases hsettles with ⟨-, hheld⟩ | ⟨hcompleted | hcompleted, -⟩
      · rwa [Frame.heldGas, hchild] at hheld
      · cases hstate.symm.trans hcompleted
      · cases hstate.symm.trans hcompleted
    have hgas : next.frame.gas = message.gas := by
      rw [hframe]
      rfl
    rw [roundsLeft, roundsLeft, hgas, gasOf, List.map_cons, List.sum_cons, List.length_cons,
      ← gasOf]
    dsimp only
    omega
  · obtain ⟨parent, rfl, -, hframe⟩ := ascends_of_round hadvance hstate hround
    -- the gas may be all there still, but there is one frame less
    have hle : m'.frame.gas ≤ m.frame.gas := by
      rcases hsettles with ⟨hsuspended, -⟩ | ⟨-, hle⟩
      · exact absurd hsuspended hstate
      · exact hle
    have hgas : next.frame.gas ≤ parent.gas + m'.frame.gas := by
      rw [hframe.gas_eq]
      exact Frame.gas_inherit_le parent m'.frame
    rw [roundsLeft, roundsLeft, gasOf, gasOf, List.map_cons, List.sum_cons, List.length_cons,
      ← gasOf]
    omega

/-- The last round ends with the root. -/
theorem done_cases (hadvance : advance s m = .ok () m')
    (hround : round parents s m = .ok .done next) :
    m'.frame.state ≠ .codeSuspended ∧ parents = [] ∧ next = m' := by
  rcases round_cases hadvance hround with ⟨-, hdescend⟩ | ⟨hstate, hascend⟩
  · obtain ⟨message, -, -, -, hparents⟩ := descend_ends.of_ok hdescend _ rfl
    cases hparents
  · cases parents with
    | nil => exact ⟨hstate, rfl, hascend.2⟩
    | cons parent rest =>
      obtain ⟨-, -, hparents⟩ := ascend_ends.of_ok hascend _ rfl
      cases hparents

/-- A round that is not the last leads on. -/
theorem Reached.of_round {parents' : List Frame} (hroot : root.frame.state = .notStarted)
    (h : Reached s root js parents m) (hround : round parents s m = .ok (.more parents') next) :
    ∃ js', Reached s root js' parents' next := by
  obtain ⟨m', hadvance⟩ := exists_advance_of_round hround
  by_cases hstate : m'.frame.state = .codeSuspended
  · exact ⟨_, .descend h hadvance hstate hround⟩
  · obtain ⟨j, js, rfl⟩ := (h.ready hroot).exists_cons
    exact ⟨js, .ascend h hadvance hstate hround⟩

/-- **Enough rounds end with the root.** -/
theorem rounds_reaches (hroot : root.frame.state = .notStarted) {fuel : Nat}
    (h : Reached s root js parents m) (hfuel : roundsLeft parents m ≤ fuel)
    (hrounds : rounds fuel parents s m = .ok () m') :
    ∃ m₁, Reached s root [root.journal] [] m₁ ∧ advance s m₁ = .ok () m' ∧
      m'.frame.state ≠ .codeSuspended := by
  induction fuel generalizing js parents m with
  | zero => exact absurd hfuel (by simp [roundsLeft])
  | succ fuel ih =>
    obtain ⟨result, next, hround, hrest⟩ := reader_bind_eq_ok hrounds
    obtain ⟨m₁, hadvance⟩ := exists_advance_of_round hround
    cases result with
    | more parents' =>
      have hlt := roundsLeft_lt (h.ready hroot) hround
      obtain ⟨js', hnext⟩ := h.of_round hroot hround
      exact ih hnext (by omega) hrest
    | done =>
      cases hrest
      obtain ⟨hstate, rfl, rfl⟩ := done_cases hadvance hround
      have hready := h.ready hroot
      obtain ⟨j, rfl⟩ := List.length_eq_one_iff.mp hready.length_eq
      obtain rfl : j = root.journal := Option.some.inj hready.last_eq
      exact ⟨m, h, hadvance, hstate⟩

/-- Rounds that fail have one that does. -/
theorem exists_round_of_rounds (hroot : root.frame.state = .notStarted) {fuel : Nat}
    (h : Reached s root js parents m) (hrounds : rounds fuel parents s m = .error e m') :
    ∃ js parents m, Reached s root js parents m ∧ round parents s m = .error e m' := by
  induction fuel generalizing js parents m with
  | zero => cases hrounds
  | succ fuel ih =>
    rcases reader_bind_eq_error hrounds with hround | ⟨result, next, hround, hrest⟩
    · exact ⟨js, parents, m, h, hround⟩
    · cases result with
      | done => cases hrest
      | more parents' =>
        obtain ⟨js', hnext⟩ := h.of_round hroot hround
        exact ih hnext hrest

/-- **A tree fails in one of its rounds.** -/
theorem exists_round_of_runTree (hroot : root.frame.state = .notStarted)
    (h : runTree s root = .error e m') :
    ∃ js parents m, Reached s root js parents m ∧ round parents s m = .error e m' := by
  rw [runTree_eq] at h
  exact exists_round_of_rounds hroot .start h

/-- **Running a tree ends with the completion of its root.** -/
theorem runTree_reaches (hroot : root.frame.state = .notStarted)
    (h : runTree s root = .ok () m') : ∃ m₁, Reached s root [root.journal] [] m₁ ∧
      advance s m₁ = .ok () m' ∧ m'.frame.state ≠ .codeSuspended := by
  rw [runTree_eq] at h
  refine rounds_reaches hroot .start ?_ h
  simp [roundsLeft, gasOf]

end Lifecycle
end Ethereum
