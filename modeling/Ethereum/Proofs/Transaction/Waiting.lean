/-
# Frames that wait for each other

A frame keeps its message while it advances, and where it comes to wait for a child it has
asked for it (`Lifecycle.advance_waits`).  So the open frames of a tree are a chain, in which
each is the child of the next (`Lifecycle.Reached.chained`): every frame stands as deep as there
are frames under it, and the limit of the call stack bounds how many there are.
-/

import Mathlib
import Ethereum.Proofs.Interpreter.Spawning
import Ethereum.Proofs.Transaction.Trees

namespace Ethereum

/-- The frame runs what a parent asked for that does not stand too deep. -/
structure Frame.ChildOf (config : Config) (f parent : Frame) : Prop where
  spawned : parent.Spawns f.message
  depth_lt : parent.message.depth < config.callStackLimit

/-- A parent goes on with its own message. -/
theorem Frame.message_resumed (f child : Frame) : (f.resumed child).message = f.message := by
  rw [resumed, inherit]
  split <;> rfl

namespace Lifecycle

variable {s : Setting} {root m m' next : Machine} {js : List Journal} {parents : List Frame}

theorem message_failed (f : Frame) : (failed f).message = f.message := by
  rw [failed]
  split <;> rfl

theorem failed_of_suspended {f : Frame} (h : (failed f).state = .codeSuspended) : failed f = f := by
  rw [failed] at h ⊢
  split at h
  · cases h
  · cases h
  · rfl

theorem work_waits (hm : m.frame.state ≠ .codeSuspended) : Ends (work s) m fun r m' => r = .ok () →
    m'.frame.message = m.frame.message ∧ (m'.frame.state = .codeSuspended →
      ∃ child, m'.frame.WaitsFor s.config child) := by
  refine work_ends (P := fun r m' => r = .ok () → m'.frame.message = m.frame.message ∧
    (m'.frame.state = .codeSuspended → ∃ child, m'.frame.WaitsFor s.config child))
    (fun m₁ r m₂ _ h₁ h => ?_) (fun m₁ r m₂ hstate h₁ h => ?_) (fun m₁ r m₂ _ h₁ h => ?_)
    (fun m₁ h₁ _ => ?_) fun _ => ⟨rfl, fun h => absurd h hm⟩
  · have hmessage := (h₁ rfl).1
    cases h with
    | executing hjournal hframe => exact fun _ => hframe ▸ ⟨hmessage, nofun⟩
    | completed gas output hgas hjournal hframe => exact fun _ => hframe ▸ ⟨hmessage, nofun⟩
    | halted gas e hgas hjournal hframe => exact fun _ => hframe ▸ ⟨hmessage, nofun⟩
    | fatal => exact nofun
  · cases r with
    | error e => exact nofun
    | ok => exact fun _ => ⟨h.message_eq.trans (h₁ rfl).1, h.waitsFor hstate⟩
  · have hmessage := (h₁ rfl).1
    cases h with
    | completed hjournal hframe => exact fun _ => hframe ▸ ⟨hmessage, nofun⟩
    | deployed hkind hlimit hgas hcode hframe => exact fun _ => hframe ▸ ⟨hmessage, nofun⟩
    | halted e hjournal hframe => exact fun _ => hframe ▸ ⟨hmessage, nofun⟩
    | fatal => exact nofun
  · obtain ⟨hmessage, hwaits⟩ := h₁ rfl
    refine ⟨(message_failed _).trans hmessage, fun hsuspended => ?_⟩
    have heq := failed_of_suspended hsuspended
    dsimp only at hsuspended ⊢
    rw [heq] at hsuspended ⊢
    exact hwaits hsuspended

/-- **A frame that advances** keeps its message, and if it waits for a child it has asked for
it. -/
theorem advance_waits (hm : m.frame.state = .notStarted ∨ m.frame.state = .codeExecuting)
    (h : advance s m = .ok () m') : m'.frame.message = m.frame.message ∧
      (m'.frame.state = .codeSuspended → ∃ child, m'.frame.WaitsFor s.config child) := by
  obtain ⟨m₁, hwork, hframe⟩ := exists_work_of_advance h
  rw [hframe]
  exact (work_waits (by rcases hm with hm | hm <;> simp [hm])).of_ok hwork rfl

/-! ## The chain of open frames -/

/-- Each frame is the child of the next, and the last runs the first message of all. -/
structure Chained (config : Config) (first : Message) (frames : List Frame) : Prop where
  isChain : frames.IsChain (Frame.ChildOf config)
  last_eq : frames.getLast?.map Frame.message = some first

namespace Chained

variable {config : Config} {first : Message} {f f' : Frame}

/-- A chain depends on the messages of its frames only. -/
theorem of_message_eq (h : Chained config first (f :: parents)) (hf : f'.message = f.message) :
    Chained config first (f' :: parents) := by
  obtain ⟨hchain, hlast⟩ := h
  cases parents with
  | nil =>
    exact ⟨.singleton _, (congrArg some hf).trans hlast⟩
  | cons parent rest =>
    obtain ⟨⟨hspawned, hdepth⟩, hrest⟩ := List.isChain_cons_cons.mp hchain
    exact ⟨.cons_cons ⟨hf ▸ hspawned, hdepth⟩ hrest, hlast⟩

theorem child (h : Chained config first (f :: parents)) (hf : f'.ChildOf config f) :
    Chained config first (f' :: f :: parents) :=
  ⟨.cons_cons hf h.isChain, h.last_eq⟩

theorem parent (h : Chained config first (f' :: f :: parents)) :
    Chained config first (f :: parents) :=
  ⟨h.isChain.tail, h.last_eq⟩

/-- **Every frame stands as deep as there are frames under it.** -/
theorem depth_eq {frames : List Frame} (h : Chained config first (f :: frames))
    (hfirst : first.depth = 0) : f.message.depth = frames.length := by
  induction frames generalizing f with
  | nil => exact (congrArg Message.depth (Option.some.inj h.last_eq)).trans hfirst
  | cons parent rest ih =>
    rw [(List.isChain_cons_cons.mp h.isChain).1.spawned.depth_eq, ih h.parent, List.length_cons]

/-- From the first frame on, the depth of each is its position. -/
theorem depth_of_getElem? {frames : List Frame} {i : Nat} (h : Chained config first frames)
    (hfirst : first.depth = 0) (hf : frames.reverse[i]? = some f) : f.message.depth = i := by
  induction frames with
  | nil => cases hf
  | cons g below ih =>
    rw [List.reverse_cons] at hf
    by_cases hi : i < below.reverse.length
    · rw [List.getElem?_append_left hi] at hf
      cases below with
      | nil => cases hi
      | cons parent rest => exact ih h.parent hf
    · rw [List.getElem?_append_right (not_lt.mp hi), List.getElem?_singleton] at hf
      split at hf
      · cases hf
        rw [h.depth_eq hfirst]
        rw [List.length_reverse] at *
        omega
      · cases hf

/-- **The limit of the call stack bounds the frames.** -/
theorem length_le {frames : List Frame} (h : Chained config first frames)
    (hfirst : first.depth = 0) : frames.length ≤ config.callStackLimit + 1 := by
  match frames with
  | [] => exact Nat.zero_le _
  | [f] => exact Nat.le_add_left 1 _
  | f :: parent :: rest =>
    have hlt := (List.isChain_cons_cons.mp h.isChain).1.depth_lt
    rw [h.parent.depth_eq hfirst] at hlt
    exact Nat.succ_le_succ hlt

end Chained

/-- **The open frames are a chain** that goes back to the message of the root. -/
theorem Reached.chained (hroot : root.frame.state = .notStarted)
    (h : Reached s root js parents m) :
    Chained s.config root.frame.message (m.frame :: parents) := by
  induction h with
  | start => exact ⟨.singleton _, rfl⟩
  | @descend _ _ _ _ _ next hreached hadvance hstate hround ih =>
    obtain ⟨hmessage, hwaits⟩ := advance_waits (hreached.ready hroot).state hadvance
    obtain ⟨child, hchild, hspawns, hdepth⟩ := hwaits hstate
    obtain ⟨message, hmessage', hframe, -, hparents⟩ := descends_of_round hadvance hstate hround
    cases hparents
    obtain rfl := Option.some.inj (hmessage'.symm.trans hchild)
    have hnext : next.frame.message = message := by
      rw [hframe]
      rfl
    refine Chained.child (ih.of_message_eq hmessage) ⟨?_, hdepth⟩
    exact hnext ▸ hspawns.congr rfl
  | ascend _ hadvance hstate hround ih =>
    obtain ⟨parent, rfl, -, hframe⟩ := ascends_of_round hadvance hstate hround
    refine ih.parent.of_message_eq ?_
    rw [hframe.message_eq, Frame.message_resumed]

end Lifecycle
end Ethereum
