/-
# Trees of frames

The machines that the rounds of a tree lead to are reached with the journals from before
each open scope was entered, the innermost first (`Lifecycle.Reached`).  Each of these
journals differs from the next in one scope (`Journal.Nested`), since a frame changes only
its own scope, and then commits it into the one around it or reverts it
(`Lifecycle.exists_closes_of_advance`).

So a frame that failed leaves the very journal from before its scope was entered, whatever
its descendants did, and its parent goes on with its own logs, deletions and refund counter
(`Lifecycle.failed_leaves_no_trace`).
-/

import Mathlib
import Ethereum.Proofs.Interpreter.Resuming
import Ethereum.Proofs.Transaction.Living
import Ethereum.Transaction.Tree

namespace Ethereum

namespace Journal

/-- The journal lies over the journals from before its scopes were entered, the innermost
first. -/
def Nested (j : Journal) : List Journal → Prop
  | [] => True
  | outer :: rest => outer.enter.Inner j ∧ outer.Nested rest

theorem Nested.of_inner {j j' : Journal} {js : List Journal} (h : j.Nested js) (hj : j.Inner j') :
    j'.Nested js := by
  cases js with
  | nil => trivial
  | cons outer rest => exact ⟨h.1.trans hj, h.2⟩

/-- A scope that is not the outermost is merged into the one around it. -/
theorem Inner.commit_eq {j j' : Journal} (store : Store) (h : j.enter.Inner j') :
    commit store j' = .ok () { j with scope := j.scope.merge j'.scope } := by
  obtain ⟨hworld, hparents⟩ := h
  rw [commit, hparents]
  change EStateM.Result.ok () { j' with scope := j.scope.merge j'.scope, parents := j.parents } = _
  rw [hworld]
  rfl

theorem inner_forM_getOrCreate (store : Store) (l : List Address) :
    Leads Inner (l.forM (getOrCreate store)) := by
  induction l with
  | nil => exact leads_pure _
  | cons address l ih => exact (inner_getOrCreate store address).bind fun _ => ih

end Journal

namespace Lifecycle

variable {s : Setting} {m m' next : Machine} {j : Journal} {js : List Journal}
  {parents rest : List Frame} {parent : Frame}

/-! ## One frame -/

/-- How a frame that has worked closes its scope over a journal. -/
inductive Closes (s : Setting) (j : Journal) (m : Machine) (j' : Journal) : Prop
  | merged (hstate : m.frame.state = .completedSuccess)
    (hjournal : j' = { j with scope := j.scope.merge m.journal.scope })
  /-- The scope is dropped, and the forced addresses in it are touched again. -/
  | dropped (hstate : m.frame.state = .completedFailed)
    (hforced : (m.journal.touched.filter (s.forced.contains ·)).forM
      (Journal.getOrCreate s.store) j = .ok () j')

/-- **A frame that advances** works, and keeps its scope open or closes it. -/
theorem exists_closes_of_advance (hj : j.enter.Inner m.journal) (h : advance s m = .ok () m') :
    ∃ m₁, work s m = .ok () m₁ ∧ m'.frame = m₁.frame ∧ j.enter.Inner m₁.journal ∧
      (m' = m₁ ∧ m₁.frame.state ≠ .completedSuccess ∧ m₁.frame.state ≠ .completedFailed ∨
        Closes s j m₁ m'.journal) := by
  rw [advance_eq] at h
  obtain ⟨_, m₁, hwork, hsettle⟩ := reader_bind_eq_ok h
  have hinner := hj.trans (work_inner.of_ok hwork)
  refine ⟨m₁, hwork, ?_⟩
  cases settleScope_ends.of_ok hsettle with
  | waiting hsuccess hfailed => exact ⟨rfl, hinner, .inl ⟨rfl, hsuccess, hfailed⟩⟩
  | committed hstate hcommit hframe =>
    rw [hinner.commit_eq] at hcommit
    obtain ⟨-, hjournal⟩ := EStateM.Result.ok.inj hcommit
    exact ⟨hframe, hinner, .inr (.merged hstate hjournal.symm)⟩
  | reverted hstate hforced hframe =>
    rw [hinner.revert_eq] at hforced
    exact ⟨hframe, hinner, .inr (.dropped hstate hforced)⟩

/-- How a frame leaves its scope, which lay over a journal. -/
inductive Left (s : Setting) (j : Journal) (m : Machine) : Prop
  /-- The frame waits for a child, and its scope is open. -/
  | waiting (hstate : m.frame.state = .codeSuspended) (hinner : j.enter.Inner m.journal)
  | committed (hstate : m.frame.state = .completedSuccess) (inner : Journal)
    (hinner : j.enter.Inner inner)
    (hjournal : m.journal = { j with scope := j.scope.merge inner.scope })
  | reverted (hstate : m.frame.state = .completedFailed) (forced : List Address)
    (hforced : ∀ address ∈ forced, address ∈ s.forced)
    (hjournal : forced.forM (Journal.getOrCreate s.store) j = .ok () m.journal)

/-- **How a frame advances** in a scope of its own. -/
theorem advance_cases (hm : m.frame.state = .notStarted ∨ m.frame.state = .codeExecuting)
    (hj : j.enter.Inner m.journal) (h : advance s m = .ok () m') :
    Settles m.frame.gas m'.frame ∧ Left s j m' := by
  obtain ⟨m₁, hwork, hframe, hinner, hends⟩ := exists_closes_of_advance hj h
  have hsettles := (work_settles hm).of_ok hwork rfl
  rw [hframe]
  refine ⟨hsettles, ?_⟩
  rcases hends with ⟨rfl, hsuccess, hfailed⟩ | ⟨hstate, hjournal⟩ | ⟨hstate, hforced⟩
  · refine .waiting ?_ hinner
    rcases hsettles with ⟨hstate, -⟩ | ⟨hstate | hstate, -⟩
    · exact hstate
    · exact absurd hstate hsuccess
    · exact absurd hstate hfailed
  · exact .committed (hframe ▸ hstate) m₁.journal hinner hjournal
  · refine .reverted (hframe ▸ hstate) _ (fun address hmem => ?_) hforced
    exact Std.ExtTreeSet.contains_iff_mem.mp (List.of_mem_filter hmem)

/-- A frame that completed changed only the scope around its own. -/
theorem Left.inner (h : Left s j m) (hstate : m.frame.state ≠ .codeSuspended) :
    j.Inner m.journal := by
  cases h with
  | waiting h => exact absurd h hstate
  | committed _ inner hinner hjournal => exact hjournal ▸ ⟨rfl, rfl⟩
  | reverted _ forced hforced hjournal =>
    exact (Journal.inner_forM_getOrCreate _ _ _).of_ok hjournal

/-! ## One round -/

theorem unwinding_eq_ok {α : Type} {scopes : Nat} {program : Lifecycle α} {a : α}
    (h : unwinding scopes program s m = .ok a m') : program s m = .ok a m' := by
  rw [unwinding] at h
  cases hprogram : program s m with
  | ok b m₁ => rwa [hprogram] at h
  | error e m₁ =>
    rw [hprogram] at h
    cases h

/-- **A child begins** in a scope of its own. -/
theorem descend_ends : Ends (descend parents s) m fun r next => ∀ result, r = .ok result →
    ∃ message, m.frame.child = some message ∧
      next.frame = .ofMessage message m.frame.block m.frame.stack.limit m.frame.memory.limit ∧
      next.journal = m.journal.enter ∧
      result = .more ({ m.frame with child := none } :: parents) := by
  refine bind_ends_of_ok rfl ?_
  rw [Frame.takeChild]
  cases m.frame.child with
  | none => exact nofun
  | some message =>
    rintro result hresult
    exact ⟨message, rfl, rfl, rfl, (Except.ok.inj hresult).symm⟩

/-- **A parent goes on.** -/
theorem ascend_ends : Ends (ascend parent rest s) m fun r next => ∀ result, r = .ok result →
    next.journal = m.journal ∧ (parent.resumed m.frame).Quiet next.frame ∧
      result = .more rest := by
  refine bind_ends_of_ok rfl (bind_ends_of_ok rfl (Ends.bind (Machine.resume_ends.mono ?_)))
  rintro (e | ⟨⟩) m₁ h₁
  · exact nofun
  · obtain ⟨hjournal, hframe⟩ := h₁ rfl
    rintro result hresult
    exact ⟨hjournal, hframe, (Except.ok.inj hresult).symm⟩

/-- A round advances the frame. -/
theorem exists_advance_of_round {result : Round} (h : round parents s m = .ok result next) :
    ∃ m', advance s m = .ok () m' := by
  obtain ⟨_, m', hadvance, -⟩ := reader_bind_eq_ok h
  exact ⟨m', unwinding_eq_ok hadvance⟩

/-- **What a round does** once its frame advanced: the child of the frame begins, or its parent
goes on. -/
theorem round_cases {result : Round} (hadvance : advance s m = .ok () m')
    (h : round parents s m = .ok result next) :
    (m'.frame.state = .codeSuspended ∧ descend parents s m' = .ok result next) ∨
      (m'.frame.state ≠ .codeSuspended ∧ match parents with
        | [] => result = .done ∧ next = m'
        | parent :: rest => ascend parent rest s m' = .ok result next) := by
  obtain ⟨_, m₁, hadvance₁, h⟩ := reader_bind_eq_ok h
  obtain ⟨-, rfl⟩ := EStateM.Result.ok.inj ((unwinding_eq_ok hadvance₁).symm.trans hadvance)
  obtain ⟨f, m₂, hf, h⟩ := reader_bind_eq_ok h
  cases hf
  by_cases hstate : m₁.frame.state = .codeSuspended
  · rw [if_pos hstate] at h
    exact .inl ⟨hstate, unwinding_eq_ok h⟩
  · rw [if_neg hstate] at h
    refine .inr ⟨hstate, ?_⟩
    cases parents with
    | nil =>
      cases h
      exact ⟨rfl, rfl⟩
    | cons parent rest => exact unwinding_eq_ok h

/-- **A frame that was suspended** waits for its child, which begins in a scope of its own. -/
theorem descends_of_round {result : Round} (hadvance : advance s m = .ok () m')
    (hstate : m'.frame.state = .codeSuspended) (hround : round parents s m = .ok result next) :
    ∃ message, m'.frame.child = some message ∧
      next.frame =
        .ofMessage message m'.frame.block m'.frame.stack.limit m'.frame.memory.limit ∧
      next.journal = m'.journal.enter ∧
      result = .more ({ m'.frame with child := none } :: parents) := by
  rcases round_cases hadvance hround with ⟨-, hdescend⟩ | ⟨hne, -⟩
  · exact descend_ends.of_ok hdescend _ rfl
  · exact absurd hstate hne

/-- **A frame that completed** leaves its journal to its parent, which goes on with what it
takes over. -/
theorem ascends_of_round {parents' : List Frame} (hadvance : advance s m = .ok () m')
    (hstate : m'.frame.state ≠ .codeSuspended)
    (hround : round parents s m = .ok (.more parents') next) :
    ∃ parent, parents = parent :: parents' ∧ next.journal = m'.journal ∧
      (parent.resumed m'.frame).Quiet next.frame := by
  rcases round_cases hadvance hround with ⟨hsuspended, -⟩ | ⟨-, hascend⟩
  · exact absurd hsuspended hstate
  · cases parents with
    | nil => cases hascend.1
    | cons parent rest =>
      obtain ⟨hjournal, hframe, hparents⟩ := ascend_ends.of_ok hascend _ rfl
      cases hparents
      exact ⟨parent, rfl, hjournal, hframe⟩

/-! ## Whole trees -/

/-- A tree is run in a scope of its own. -/
theorem runTree_eq (s : Setting) (root : Machine) : runTree s root =
    rounds (2 * root.frame.gas + 2) [] s { root with journal := root.journal.enter } := rfl

/-- The machines that the rounds of a tree lead to from its root.  Beside each stand the
journals from before its open scopes were entered, the innermost first, and the parents of
its frame. -/
inductive Reached (s : Setting) (root : Machine) : List Journal → List Frame → Machine → Prop
  | start : Reached s root [root.journal] [] { root with journal := root.journal.enter }
  | descend {js : List Journal} {parents parents' : List Frame} {m m' next : Machine}
    (h : Reached s root js parents m) (hadvance : advance s m = .ok () m')
    (hstate : m'.frame.state = .codeSuspended)
    (hround : round parents s m = .ok (.more parents') next) :
    Reached s root (m'.journal :: js) parents' next
  | ascend {j : Journal} {js : List Journal} {parents parents' : List Frame}
    {m m' next : Machine} (h : Reached s root (j :: js) parents m)
    (hadvance : advance s m = .ok () m') (hstate : m'.frame.state ≠ .codeSuspended)
    (hround : round parents s m = .ok (.more parents') next) : Reached s root js parents' next

/-- What holds of all machines that are reached: the frame is about to run, there is one open
scope for it and one for each parent, these are nested, and the outermost lies over the
journal of the root. -/
structure Ready (root : Machine) (js : List Journal) (parents : List Frame) (m : Machine) :
    Prop where
  state : m.frame.state = .notStarted ∨ m.frame.state = .codeExecuting
  length_eq : js.length = parents.length + 1
  nested : m.journal.Nested js
  last_eq : js.getLast? = some root.journal

/-- The frame itself has an open scope. -/
theorem Ready.exists_cons {root : Machine} (h : Ready root js parents m) :
    ∃ j outer, js = j :: outer := by
  cases js with
  | nil => cases h.length_eq
  | cons j outer => exact ⟨j, outer, rfl⟩

/-- **All machines that are reached are ready** to run. -/
theorem Reached.ready {root : Machine} (hroot : root.frame.state = .notStarted)
    (h : Reached s root js parents m) : Ready root js parents m := by
  induction h with
  | start => exact ⟨.inl hroot, rfl, ⟨.refl _, trivial⟩, rfl⟩
  | descend _ hadvance hstate hround ih =>
    obtain ⟨j, js, rfl⟩ := ih.exists_cons
    obtain ⟨hready, hlength, ⟨hinner, hrest⟩, hlast⟩ := ih
    obtain ⟨message, -, hframe, hjournal, hparents⟩ := descends_of_round hadvance hstate hround
    cases hparents
    cases (advance_cases hready hinner hadvance).2 with
    | waiting _ hinner' =>
      exact ⟨.inl (hframe ▸ rfl), congrArg Nat.succ hlength,
        hjournal ▸ ⟨.refl _, hinner', hrest⟩, hlast⟩
    | committed h => cases h.symm.trans hstate
    | reverted h => cases h.symm.trans hstate
  | @ascend j js _ _ _ _ _ _ hadvance hstate hround ih =>
    obtain ⟨hready, hlength, ⟨hinner, hrest⟩, hlast⟩ := ih
    obtain ⟨parent, rfl, hjournal, hframe⟩ := ascends_of_round hadvance hstate hround
    refine ⟨.inr ?_, Nat.succ.inj hlength, ?_, ?_⟩
    · rw [hframe.kept.state_eq]
      rfl
    · rw [hjournal]
      exact hrest.of_inner ((advance_cases hready hinner hadvance).2.inner hstate)
    · -- the scope of the root is not the one that was closed
      cases js with
      | nil => cases Nat.succ.inj hlength
      | cons outer js => exact hlast

/-- **A frame that failed leaves no trace.**  Its journal is the one from before its scope was
entered, and its parent goes on over it with its own logs, deletions and refund counter. -/
theorem failed_leaves_no_trace {root : Machine} (hforced : s.forced = ∅)
    (hroot : root.frame.state = .notStarted) (h : Reached s root (j :: js) parents m)
    (hadvance : advance s m = .ok () m') (hfailed : m'.frame.state = .completedFailed) :
    m'.journal = j ∧ ∀ parent rest result next, parents = parent :: rest →
      round parents s m = .ok result next → result = .more rest ∧ next.journal = j ∧
        next.frame.logs = parent.logs ∧ next.frame.selfDestructs = parent.selfDestructs ∧
        next.frame.refund = parent.refund := by
  have hready := h.ready hroot
  have hjournal : m'.journal = j := by
    cases (advance_cases hready.state hready.nested.1 hadvance).2 with
    | waiting h => cases h.symm.trans hfailed
    | committed h => cases h.symm.trans hfailed
    | reverted _ forced hmem hforced' =>
      have hnone : forced = [] := by
        refine List.eq_nil_iff_forall_not_mem.mpr fun address h => ?_
        have hmem := hmem address h
        rw [hforced] at hmem
        exact Std.ExtTreeSet.not_mem_empty hmem
      rw [hnone] at hforced'
      exact (EStateM.Result.ok.inj hforced').2.symm
  refine ⟨hjournal, ?_⟩
  rintro parent rest result next rfl hround
  rcases round_cases hadvance hround with ⟨hsuspended, -⟩ | ⟨-, hascend⟩
  · cases hsuspended.symm.trans hfailed
  · obtain ⟨hnext, hframe, hresult⟩ := ascend_ends.of_ok hascend _ rfl
    -- a child that failed is not absorbed: its parent takes over the gas that is left
    have hresumed : parent.resumed m'.frame =
        { parent.giveGas m'.frame.gas with resume := none, state := .codeExecuting } := by
      rw [Frame.resumed, Frame.inherit_of_ne (by simp [hfailed])]
    rw [hresumed] at hframe
    rw [hframe]
    exact ⟨hresult, hnext.trans hjournal, rfl, rfl, rfl⟩

/-! ### A callee that halts after it wrote -/

/-- The rules of Petersburg over an empty store, without precompiled contracts. -/
def bare : Setting where
  config := .petersburg
  instructions := .ofConfig .petersburg
  store := .empty
  precompiles := ∅
  forced := ∅

/-- Code that gives all its gas to a call of account 3. -/
def callerCode : Bytes :=
  [0x60, 0, 0x60, 0, 0x60, 0, 0x60, 0, 0x60, 0, 0x60, 3, 0x5a, 0xf1]

/-- Code that writes 7 into slot 0 and halts. -/
def haltingCode : Bytes := [0x60, 7, 0x60, 0, 0x55, 0xfe]

/-- A call of account 2, which has the code that calls account 3, which halts. -/
def callerRoot : Machine where
  frame := .new .petersburg ⟨0, 0, 0, 0, 0, #[]⟩ {
    kind := .call, sender := 1, recipient := 2, contract := 2, originator := 1, gasPrice := 0,
    value := 0, apparentValue := 0, input := [], code := callerCode, gas := 100000, depth := 0,
    isStatic := false }
  journal := (((Journal.ofWorld .empty).put (.fresh 1 0 0)).put
    ((Overlay.fresh 2 1 0).setCode callerCode)).put ((Overlay.fresh 3 1 0).setCode haltingCode)
  trace := .off

/-- The state of the frame that a program leaves. -/
def endState {α : Type} (result : EStateM.Result ExitFatal Machine α) : Option FrameState :=
  match result with
  | .ok _ m => some m.frame.state
  | .error _ _ => none

theorem exists_of_endState {α : Type} {result : EStateM.Result ExitFatal Machine α}
    {state : FrameState} (h : endState result = some state) :
    ∃ a m, result = .ok a m ∧ m.frame.state = state := by
  cases result with
  | ok a m => exact ⟨a, m, rfl, Option.some.inj h⟩
  | error => cases h

/-- The caller comes to wait, and then its callee begins. -/
theorem callee_begins : ∃ m' parent m,
    advance bare { callerRoot with journal := callerRoot.journal.enter } = .ok () m' ∧
      m'.frame.state = .codeSuspended ∧
      round [] bare { callerRoot with journal := callerRoot.journal.enter } =
        .ok (.more [parent]) m := by
  have hcaller : endState (advance bare { callerRoot with journal := callerRoot.journal.enter }) =
      some .codeSuspended := by decide +kernel
  have hcallee : endState (round [] bare
      { callerRoot with journal := callerRoot.journal.enter }) = some .notStarted := by
    decide +kernel
  obtain ⟨_, m', hadvance, hsuspended⟩ := exists_of_endState hcaller
  obtain ⟨result, m, hround, -⟩ := exists_of_endState hcallee
  obtain ⟨message, -, -, -, rfl⟩ := descends_of_round hadvance hsuspended hround
  exact ⟨m', _, m, hadvance, hsuspended, hround⟩

/-- Account 3 writes a slot and halts.  The journal is again the one from before it was
called. -/
theorem failed_leaves_no_trace_of_callee : ∃ j parent m m',
    Reached bare callerRoot [j, callerRoot.journal] [parent] m ∧ advance bare m = .ok () m' ∧
      m'.frame.state = .completedFailed ∧ m'.journal = j ∧
      ∀ result next, round [parent] bare m = .ok result next → result = .more [] ∧
        next.journal = j ∧ next.frame.logs = parent.logs ∧
        next.frame.selfDestructs = parent.selfDestructs ∧ next.frame.refund = parent.refund := by
  have hcaller : endState (advance bare { callerRoot with journal := callerRoot.journal.enter }) =
      some .codeSuspended := by decide +kernel
  have hcallee : endState ((round [] >>= fun _ => advance) bare
      { callerRoot with journal := callerRoot.journal.enter }) = some .completedFailed := by
    decide +kernel
  obtain ⟨_, m₁, hadvance₁, hsuspended⟩ := exists_of_endState hcaller
  obtain ⟨_, m', hcallee, hfailed⟩ := exists_of_endState hcallee
  obtain ⟨result, m, hround, hadvance⟩ := reader_bind_eq_ok hcallee
  rcases round_cases hadvance₁ hround with ⟨-, hdescend⟩ | ⟨hne, -⟩
  · obtain ⟨message, -, -, -, rfl⟩ := descend_ends.of_ok hdescend _ rfl
    have hreached := Reached.descend .start hadvance₁ hsuspended hround
    have htrace := failed_leaves_no_trace rfl rfl hreached hadvance hfailed
    exact ⟨m₁.journal, _, m, m', hreached, hadvance, hfailed, htrace.1,
      fun result next => htrace.2 _ _ result next rfl⟩
  · exact absurd hsuspended hne

end Lifecycle
end Ethereum
