/-
# Execution ends

A frame runs by a loop of steps while its code executes, and a tree by a loop of rounds until
its root has completed.  `Run.Loop` and `Lifecycle.Loop` are the histories of these loops that
end; nothing in them bounds how long they are.  Every step after which the code executes on
takes gas off its frame, and every round but the last begins a child with gas of the tree or
closes a frame (`Lifecycle.roundsLeft_lt`).  So the steps and rounds that `Run.toHalt` and
`Lifecycle.runTree` make are the whole loops, and while a tree runs no more frames are open than
the call stack may hold (`Lifecycle.execution_ends`).
-/

import Mathlib
import Ethereum.Proofs.Transaction.Ending
import Ethereum.Proofs.Transaction.Waiting

namespace Ethereum

/-! ## The loop of steps -/

/-- The loop that makes steps while the code executes ends after a number of steps. -/
inductive Run.Loop (c : Context) : Nat → Machine → Except ExitFatal Unit → Machine → Prop
  | halted {m : Machine} (hstate : m.frame.state ≠ .codeExecuting) : Loop c 0 m (.ok ()) m
  | failed {m m' : Machine} {e : ExitFatal} (hstate : m.frame.state = .codeExecuting)
    (hstep : step c m = .error e m') : Loop c 1 m (.error e) m'
  | more {n : Nat} {m m₁ m' : Machine} {r : Except ExitFatal Unit}
    (hstate : m.frame.state = .codeExecuting) (hstep : step c m = .ok () m₁)
    (hrest : Loop c n m₁ r m') : Loop c (n + 1) m r m'

/-- **More steps than there is gas** are the whole loop. -/
theorem Run.steps_loop {c : Context} {m : Machine} {n : Nat}
    (h : m.frame.state ≠ .codeExecuting ∨ m.frame.gas < n) :
    Ends (steps n c) m fun r m' => ∃ k ≤ n, Loop c k m r m' := by
  induction n generalizing m with
  | zero => exact ⟨0, le_rfl, .halted (h.resolve_right (Nat.not_lt_zero _))⟩
  | succ n ih =>
    by_cases hstate : m.frame.state = .codeExecuting
    · have hgas := h.resolve_left (not_not_intro hstate)
      refine bind_ends_of_ok rfl ?_
      rw [if_pos hstate]
      refine Ends.bind_of_run (fun _ m₁ hstep => ?_) fun e m₁ hstep =>
        ⟨1, Nat.le_add_left 1 n, .failed hstate hstep⟩
      have hnext : m₁.frame.state ≠ .codeExecuting ∨ m₁.frame.gas < n := by
        have hcases := (step_ends.of_ok hstep).gas_cases hstate
        rcases hcases with ⟨-, hless⟩ | ⟨hstate₁, -⟩ | ⟨hstopped, -⟩
        · exact .inr (by omega)
        · exact .inl (by simp [hstate₁])
        · refine .inl fun hexecuting => ?_
          simp [hexecuting, FrameState.hasStopped] at hstopped
      refine (ih hnext).mono ?_
      rintro r m' ⟨k, hk, hloop⟩
      exact ⟨k + 1, Nat.succ_le_succ hk, .more hstate hstep hloop⟩
    · exact .ok (steps_eq_of_ne hstate) ⟨0, Nat.zero_le _, .halted hstate⟩

theorem Run.toHalt_loop (c : Context) (m : Machine) :
    Ends (toHalt c) m fun r m' => ∃ n ≤ m.frame.gas + 1, Loop c n m r m' :=
  bind_ends_of_ok rfl (steps_loop (.inr (Nat.lt_succ_self _)))

namespace Lifecycle

variable {s : Setting} {root m m' next : Machine} {js : List Journal} {parents : List Frame}

/-! ## The loop of rounds -/

/-- The loop that makes rounds until the root has completed ends after a number of rounds. -/
inductive Loop (s : Setting) : Nat → List Frame → Machine → Except ExitFatal Unit → Machine → Prop
  | done {parents : List Frame} {m m' : Machine} (hround : round parents s m = .ok .done m') :
    Loop s 1 parents m (.ok ()) m'
  | failed {parents : List Frame} {m m' : Machine} {e : ExitFatal}
    (hround : round parents s m = .error e m') : Loop s 1 parents m (.error e) m'
  | more {n : Nat} {parents parents' : List Frame} {m m₁ m' : Machine} {r : Except ExitFatal Unit}
    (hround : round parents s m = .ok (.more parents') m₁) (hrest : Loop s n parents' m₁ r m') :
    Loop s (n + 1) parents m r m'

/-- **Enough rounds** are the whole loop. -/
theorem rounds_loop (hroot : root.frame.state = .notStarted) {n : Nat}
    (h : Reached s root js parents m) (hn : roundsLeft parents m ≤ n) :
    Ends (rounds n parents s) m fun r m' => ∃ k ≤ n, Loop s k parents m r m' := by
  induction n generalizing js parents m with
  | zero => exact absurd hn (by simp [roundsLeft])
  | succ n ih =>
    refine Ends.bind_of_run (fun result m₁ hround => ?_) fun e m₁ hround =>
      ⟨1, Nat.le_add_left 1 n, .failed hround⟩
    cases result with
    | done => exact ⟨1, Nat.le_add_left 1 n, .done hround⟩
    | more parents' =>
      have hlt := roundsLeft_lt (h.ready hroot) hround
      obtain ⟨js', hnext⟩ := h.of_round hroot hround
      refine (ih hnext (by omega)).mono ?_
      rintro r m' ⟨k, hk, hloop⟩
      exact ⟨k + 1, Nat.succ_le_succ hk, .more hround hloop⟩

theorem runTree_loop (hroot : root.frame.state = .notStarted) :
    Ends (runTree s) root fun r m' => ∃ n ≤ 2 * root.frame.gas + 2,
      Loop s n [] { root with journal := root.journal.enter } r m' := by
  refine bind_ends_of_ok rfl (bind_ends_of_ok rfl (rounds_loop hroot .start ?_))
  simp [roundsLeft, gasOf]

/-! ## The open frames -/

/-- The frames that are open at some time while a tree runs, the innermost first: at the start
of a round, or when its frame has advanced. -/
inductive Open (s : Setting) (root : Machine) : List Frame → Prop
  | start {js : List Journal} {parents : List Frame} {m : Machine}
    (h : Reached s root js parents m) : Open s root (m.frame :: parents)
  | advanced {js : List Journal} {parents : List Frame} {m m' : Machine}
    (h : Reached s root js parents m) (hadvance : advance s m = .ok () m') :
    Open s root (m'.frame :: parents)

theorem Open.chained {frames : List Frame} (hroot : root.frame.state = .notStarted)
    (h : Open s root frames) : Chained s.config root.frame.message frames := by
  cases h with
  | start h => exact h.chained hroot
  | advanced h hadvance =>
    exact (h.chained hroot).of_message_eq (advance_waits (h.ready hroot).state hadvance).1

/-- **Execution ends.**  The code of a frame stops after at most one step more than there is gas,
and a tree after a number of rounds that its gas bounds, however far the code jumps and however
many frames it opens.  While the tree runs there is at most one frame more than the call stack
may hold, and the depth of each is its position from the root. -/
theorem execution_ends (s : Setting) :
    (∀ m : Machine, Ends (Run.toHalt s.toContext) m fun r m' =>
      ∃ n ≤ m.frame.gas + 1, Run.Loop s.toContext n m r m') ∧
    ∀ root : Machine, root.frame.state = .notStarted → root.frame.message.depth = 0 →
      (Ends (runTree s) root fun r m' => ∃ n ≤ 2 * root.frame.gas + 2,
        Loop s n [] { root with journal := root.journal.enter } r m') ∧
      ∀ frames, Open s root frames → frames.length ≤ s.config.callStackLimit + 1 ∧
        ∀ (i : Nat) (f : Frame), frames.reverse[i]? = some f → f.message.depth = i := by
  refine ⟨Run.toHalt_loop s.toContext, fun root hroot hdepth => ⟨runTree_loop hroot, ?_⟩⟩
  intro frames hopen
  have hchained := hopen.chained hroot
  exact ⟨hchained.length_le hdepth, fun i f => hchained.depth_of_getElem? hdepth⟩

/-- The caller and its callee end, and the callee stands at depth 1. -/
theorem execution_ends_of_caller :
    (Ends (runTree bare) callerRoot fun r m' => ∃ n ≤ 2 * callerRoot.frame.gas + 2,
      Loop bare n [] { callerRoot with journal := callerRoot.journal.enter } r m') ∧
    ∃ callee caller : Frame, Open bare callerRoot [callee, caller] ∧
      [callee, caller].length ≤ bare.config.callStackLimit + 1 ∧
      callee.message.depth = 1 ∧ caller.message.depth = 0 := by
  refine And.imp_right (fun hframes => ?_) ((execution_ends bare).2 callerRoot rfl rfl)
  obtain ⟨m', caller, m, hadvance, hsuspended, hround⟩ := callee_begins
  have hopen := Open.start (.descend .start hadvance hsuspended hround)
  obtain ⟨hlength, hdepth⟩ := hframes _ hopen
  exact ⟨m.frame, caller, hopen, hlength, hdepth 1 _ rfl, hdepth 0 _ rfl⟩

end Lifecycle
end Ethereum
