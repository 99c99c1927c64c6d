/-
# What a frame visits

A frame runs step by step, and where it waits for a child it goes on with whatever the child
comes to, over whatever state is there then (`Run.Visits`).  A step leaves the program and the
limit of the stack as they are, and says where the code goes on (`Run.step_moves`); a frame that
waits has room for the one item that it gets in the end, and goes on where it stands
(`Machine.resume_rejoins`).  So the declared numbers of items are exact all along, and code stops
for its stack only where they are checked (`Run.arities_exact`).
-/

import Mathlib
import Ethereum.Proofs.Interpreter.Resuming
import Ethereum.Proofs.Interpreter.Stepping
import Ethereum.Proofs.Interpreter.Trading

namespace Ethereum

/-- The state that a program leaves, whether it returns or throws. -/
def stateAfter {ε σ α : Type} (p : EStateM ε σ α) (s : σ) : σ :=
  match p s with
  | .ok _ s' => s'
  | .error _ s' => s'

theorem Ends.exists_result {ε σ α : Type} {p : EStateM ε σ α} {s : σ}
    {Q : Except ε α → σ → Prop} (h : Ends p s Q) : ∃ r, Q r (stateAfter p s) := by
  rw [stateAfter]
  cases hp : p s with
  | ok a s' => exact ⟨_, h.of_ok hp⟩
  | error e s' => exact ⟨_, h.of_error hp⟩

/-- The machines that a frame is seen in during a run from a first one. -/
inductive Run.Visits (c : Context) (first : Machine) : Machine → Prop
  | first : Visits c first first
  /-- A step that the frame takes unless it waits. -/
  | step {m : Machine} (h : Visits c first m) (hstate : m.frame.state ≠ .codeSuspended) :
    Visits c first (stateAfter (step c) m)
  /-- The child that the frame waits for was run, and left any state. -/
  | resume {m : Machine} (h : Visits c first m) (hstate : m.frame.state = .codeSuspended)
    (child : Frame) (j : Journal) (t : Trace) :
    Visits c first (stateAfter (Machine.resume child) ⟨m.frame.takeChild.2, j, t⟩)

/-! ## Going on after a child -/

namespace Machine

variable {m m₁ : Machine} {child : Frame} {how : Resume} {success : Bool} {w : Word}

/-- What it is that aborts everything where a frame has no room for what its child gives it. -/
def noRoomToResume : ExitFatal := .other "stack overflow resuming frame"

/-- How a frame stands that goes on with what its child gives it, or fails to. -/
structure Rejoined (m : Machine) (r : Except ExitFatal Unit) (m' : Machine) : Prop where
  program_eq : m'.frame.program = m.frame.program
  pc_eq : m'.frame.pc = m.frame.pc
  limit_eq : m'.frame.stack.limit = m.frame.stack.limit
  ok : r = .ok () → m'.frame.state = .codeExecuting ∧
    ∃ w, m'.frame.stack.items = w :: m.frame.stack.items
  error : ∀ e, r = .error e → m'.frame.state = m.frame.state ∧ m'.frame.stack = m.frame.stack ∧
    (e = noRoomToResume → m.frame.stack.room = 0)

theorem Rejoined.of_eq {r : Except ExitFatal Unit} {m' : Machine} (h : Rejoined m₁ r m')
    (hplace : m₁.frame.place = m.frame.place) (hstack : m₁.frame.stack = m.frame.stack) :
    Rejoined m r m' where
  program_eq := h.program_eq.trans (congrArg Place.program hplace)
  pc_eq := h.pc_eq.trans (congrArg Place.pc hplace)
  limit_eq := h.limit_eq.trans (congrArg Place.stackLimit hplace)
  ok hr := hstack ▸ h.ok hr
  error e hr := by
    obtain ⟨hstate, hstack', hroom⟩ := h.error e hr
    rw [hstack] at hstack' hroom
    exact ⟨hstate.trans (congrArg Place.state hplace), hstack', hroom⟩

theorem continueWith_rejoins : Ends (continueWith w) m (Rejoined m) := by
  refine Ends.bind_of_ok rfl ?_
  cases hpush : m.frame.stack.push w with
  | ok t =>
    have hitems : t.items = w :: m.frame.stack.items := by
      rw [Stack.push] at hpush
      split at hpush
      · cases hpush
      · cases hpush
        rfl
    exact ⟨rfl, rfl, Stack.limit_push hpush, fun _ => ⟨rfl, w, hitems⟩, nofun⟩
  | error e =>
    refine ⟨rfl, rfl, rfl, nofun, fun e' he => ⟨rfl, rfl, fun _ => ?_⟩⟩
    rw [Stack.push] at hpush
    split at hpush
    · assumption
    · cases hpush

theorem receive_rejoins : Ends (receive child success how) m (Rejoined m) := by
  cases how with
  | create =>
    rw [receive]
    dsimp only
    split
    · exact continueWith_rejoins
    · exact Ends.bind_of_ok rfl (continueWith_rejoins.mono fun _ _ h => h.of_eq rfl rfl)
  | call offset length =>
    refine Ends.bind (Ends.bind_of_ok rfl ?_)
    split
    · exact .ok rfl (Ends.bind_of_ok rfl (continueWith_rejoins.mono fun _ _ h => h.of_eq rfl rfl))
    · refine ⟨rfl, rfl, rfl, ?_, fun e he => ⟨rfl, rfl, fun hroom => ?_⟩⟩
      · rintro ⟨⟩
      · rw [hroom] at he
        cases he

/-- **A frame goes on after its child** with one more item, and it fails for want of room only where
there is none. -/
theorem resume_rejoins (child : Frame) (m : Machine) : Ends (resume child) m (Rejoined m) := by
  refine Ends.bind_of_ok rfl ?_
  cases m.frame.resume with
  | none =>
    refine ⟨rfl, rfl, rfl, nofun, fun e he => ⟨rfl, rfl, fun hroom => ?_⟩⟩
    rw [hroom] at he
    cases he
  | some how =>
    refine Ends.bind_of_ok rfl (Ends.bind_of_ok rfl ?_)
    by_cases hsuccess : child.state = .completedSuccess
    · rw [if_pos (decide_eq_true hsuccess)]
      exact Ends.bind_of_ok rfl (receive_rejoins.mono fun _ _ h => h.of_eq rfl rfl)
    · rw [if_neg fun h => hsuccess (of_decide_eq_true h)]
      exact receive_rejoins.mono fun _ _ h => h.of_eq rfl rfl

end Machine

/-! ## Steps -/

/-- An instruction at the program counter has its operands on the stack and room for its results. -/
theorem Frame.bounds_of_instruction {f : Frame} {instructions : InstructionSet} {i : Instruction}
    (h : f.instruction instructions = .ok i) : instructions.get? f.opcode = some i ∧
      i.consumed ≤ f.stack.length ∧ i.produced ≤ f.stack.room + i.consumed := by
  rw [instruction] at h
  split at h
  · cases h
  rename_i i' hget
  split at h
  · cases h
  rename_i hholds
  split at h
  · cases h
  rename_i hroom
  cases h
  rw [Stack.holds_eq, Bool.not_eq_true', Bool.not_eq_false, decide_eq_true_iff] at hholds
  exact ⟨hget, hholds, not_lt.mp hroom⟩

namespace Instruction

variable {c : Context} {m m' : Machine} {i : Instruction}

theorem leaves_le (i : Instruction) {n : Nat} (h : i.produced ≤ n) (control : Control) :
    Exec.leaves i.produced control ≤ n := by
  rw [Exec.leaves]
  split
  · exact Nat.zero_le n
  · exact h

/-- An instruction after which the frame waits leaves one item in the end. -/
theorem Performed.produced_eq (h : Performed c m i (.ok .suspend) m') : i.produced = 1 := by
  cases h with
  | paid hcost hpaid houtcome =>
    cases houtcome with
    | quiet h hr => exact absurd rfl (hr _ rfl).1
    | created value initCode salt nonce hi => rcases hi with rfl | rfl <;> rfl
    | called => exact produced_call _
    | refused value split hr => exact absurd rfl hr

/-- What an instruction that is performed trades. -/
theorem traded_of_instruction (hi : m.frame.instruction c.instructions = .ok i) :
    Ends (i.perform c) m (Exec.Traded i.consumed (Exec.leaves i.produced) m) := by
  obtain ⟨-, hlength, hroom⟩ := Frame.bounds_of_instruction hi
  exact trades_perform i c m hlength (i.leaves_le hroom)

/-- A frame that waits has room for the item that it gets. -/
theorem room_of_suspended (hi : m.frame.instruction c.instructions = .ok i)
    (h : i.perform c m = .ok .suspend m') : 0 < m'.frame.stack.room := by
  obtain ⟨-, hlength, hroom⟩ := Frame.bounds_of_instruction hi
  have htraded := (traded_of_instruction hi).of_ok h
  have hproduced := ((perform_ends i).of_ok h).produced_eq
  obtain ⟨words, hwords, hitems⟩ := htraded.items_eq _ rfl
  have hlimit : m'.frame.stack.limit = m.frame.stack.limit :=
    congrArg Place.stackLimit htraded.place_eq
  have hleft : m'.frame.stack.length = m.frame.stack.length - i.consumed := by
    rw [Stack.length, hitems, List.length_append, hwords, List.length_drop]
    exact Nat.zero_add _
  rw [Stack.limit, Stack.limit] at hlimit
  omega

end Instruction

namespace Run

variable {c : Context} {first m m' : Machine}

/-- What a step leaves of how its frame stands. -/
structure Moved (c : Context) (m m' : Machine) : Prop where
  program_eq : m'.frame.program = m.frame.program
  limit_eq : m'.frame.stack.limit = m.frame.stack.limit
  /-- The code stays where it is, or jumps where it may, or goes on behind an instruction. -/
  pc : m'.frame.pc = m.frame.pc ∨ m.frame.mayJumpTo m'.frame.pc = true ∨
    ∃ i, m.frame.pc < m.frame.program.size ∧ c.instructions.get? m.frame.opcode = some i ∧
      m'.frame.pc = m.frame.pc + i.size
  room : m.frame.state ≠ .codeSuspended → m'.frame.state = .codeSuspended →
    0 < m'.frame.stack.room
  rejected : ∀ e, m'.frame.exit = some (.error e) → e.isOfStack = true →
    m'.frame.exit ≠ m.frame.exit → m.frame.instruction c.instructions = .error e

/-- A frame that stands as it stood, but that it may have ended for a reason other than its
stack. -/
theorem Moved.of_ended {reason : Option ExitReason} (hprogram : m'.frame.program = m.frame.program)
    (hlimit : m'.frame.stack.limit = m.frame.stack.limit) (hpc : m'.frame.pc = m.frame.pc)
    (hstate : m'.frame.state = m.frame.state ∨ m'.frame.state ≠ .codeSuspended)
    (hexit : m'.frame.exit = reason)
    (hreason : reason = m.frame.exit ∨ ∀ e, reason = some (.error e) → e.isOfStack = false) :
    Moved c m m' where
  program_eq := hprogram
  limit_eq := hlimit
  pc := .inl hpc
  room hm hm' := by
    rcases hstate with hstate | hstate
    · exact absurd (hstate ▸ hm') hm
    · exact absurd hm' hstate
  rejected e he hkind hne := by
    rcases hreason with hreason | hreason
    · exact absurd (hexit.trans hreason) hne
    · exact absurd hkind (by rw [hreason e (hexit ▸ he)]; decide)

/-- A frame that an instruction moves on. -/
theorem Moved.of_performed {i : Instruction} {control : Control} {m₁ : Machine}
    (hpc : m.frame.pc < m.frame.program.size) (hi : m.frame.instruction c.instructions = .ok i)
    (h : i.perform c m = .ok control m₁) :
    Moved c m { m₁ with frame := m₁.frame.advance i.size control } := by
  obtain ⟨hget, -, -⟩ := Frame.bounds_of_instruction hi
  have hplace := ((Instruction.traded_of_instruction hi).of_ok h).place_eq
  have hpc₁ : m₁.frame.pc = m.frame.pc := congrArg Place.pc hplace
  have hstate₁ : m₁.frame.state = m.frame.state := congrArg Place.state hplace
  have hexit₁ : m₁.frame.exit = m.frame.exit := congrArg Place.exit hplace
  have hprogram₁ : m₁.frame.program = m.frame.program := congrArg Place.program hplace
  have hlimit₁ : m₁.frame.stack.limit = m.frame.stack.limit := congrArg Place.stackLimit hplace
  have hbehind : m₁.frame.pc + i.size = m.frame.pc + i.size := by rw [hpc₁]
  -- performing keeps the place of the frame, so that only the control moves it
  cases control with
  | next =>
    exact ⟨hprogram₁, hlimit₁, .inr (.inr ⟨i, hpc, hget, hbehind⟩),
      fun hm hm' => absurd (hstate₁.symm.trans hm') hm, fun _ _ _ hne => absurd hexit₁ hne⟩
  | suspend =>
    have hroom := Instruction.room_of_suspended hi h
    exact ⟨hprogram₁, hlimit₁, .inr (.inr ⟨i, hpc, hget, hbehind⟩), fun _ _ => hroom,
      fun _ _ _ hne => absurd hexit₁ hne⟩
  | jump position =>
    by_cases hmay : m₁.frame.mayJumpTo position
    · rw [Frame.advance, if_pos hmay]
      rw [Frame.mayJumpTo, hprogram₁] at hmay
      exact ⟨hprogram₁, hlimit₁, .inr (.inl hmay), fun hm hm' => absurd (hstate₁.symm.trans hm') hm,
        fun _ _ _ hne => absurd hexit₁ hne⟩
    · rw [Frame.advance, if_neg hmay]
      refine .of_ended hprogram₁ hlimit₁ hpc₁ (.inr nofun) rfl (.inr ?_)
      rintro e ⟨⟩
      rfl

/-- A frame whose code an instruction ended. -/
theorem Moved.of_left {i : Instruction} {reason : ExitReason} {m₁ : Machine} {f : Frame}
    (hi : m.frame.instruction c.instructions = .ok i) (h : i.perform c m = .error reason m₁)
    (hleave : m₁.frame.leave reason = .ok f) : Moved c m { m₁ with frame := f } := by
  have htraded := (Instruction.traded_of_instruction hi).of_error h
  have hspared := htraded.spared reason rfl
  have hplace := htraded.place_eq
  have hstopped (state : FrameState) (hstate : state ≠ .codeSuspended) :
      Moved c m { m₁ with frame := m₁.frame.stopIn state reason } := by
    refine .of_ended (congrArg Place.program hplace) (congrArg Place.stackLimit hplace)
      (congrArg Place.pc hplace) (.inr hstate) rfl (.inr ?_)
    rintro e ⟨⟩
    exact hspared
  cases reason with
  | succeed how => exact Except.ok.inj hleave ▸ hstopped .codeSuccess nofun
  | revert => exact Except.ok.inj hleave ▸ hstopped .revert nofun
  | error e => exact Except.ok.inj hleave ▸ hstopped .exceptionalHalt nofun
  | fatal e => cases hleave

/-- **A step moves its frame on** in its code and within the limit of its stack, also where it fails
fatally. -/
theorem step_moves : Ends (step c) m fun _ m' => Moved c m m' := by
  refine step_ends_of (fun _ => ?_) (fun e he => ?_) fun i hpc hi => ?_
  · refine .of_ended rfl rfl rfl (.inr ?_) rfl (.inr ?_)
    · rintro ⟨⟩
    · rintro e ⟨⟩
  · refine ⟨rfl, rfl, .inl rfl, ?_, fun e' he' _ _ => ?_⟩
    · rintro _ ⟨⟩
    · cases he'
      exact he
  · rw [Ends, perform]
    cases hp : i.perform c m with
    | ok control m₁ => exact .of_performed hpc hi hp
    | error reason m₁ =>
      dsimp only
      cases hleave : m₁.frame.leave reason with
      | ok f => exact .of_left hi hp hleave
      | error e =>
        have hplace := ((Instruction.traded_of_instruction hi).of_error hp).place_eq
        exact .of_ended (congrArg Place.program hplace) (congrArg Place.stackLimit hplace)
          (congrArg Place.pc hplace) (.inl (congrArg Place.state hplace))
          (congrArg Place.exit hplace) (.inl rfl)

/-! ## Runs -/

/-- **A run** never changes the limit of the stack, and a frame that waits has room for the item
that it gets. -/
theorem Visits.bounded (hfirst : first.frame.state ≠ .codeSuspended) (h : Visits c first m) :
    m.frame.stack.limit = first.frame.stack.limit ∧
      (m.frame.state = .codeSuspended → 0 < m.frame.stack.room) := by
  induction h with
  | first => exact ⟨rfl, fun hstate => absurd hstate hfirst⟩
  | @step m h hstate ih =>
    obtain ⟨_, hmoved⟩ := (step_moves (c := c) (m := m)).exists_result
    exact ⟨hmoved.limit_eq.trans ih.1, hmoved.room hstate⟩
  | @resume m h hstate child j t ih =>
    obtain ⟨r, hrejoined⟩ :=
      (Machine.resume_rejoins child ⟨m.frame.takeChild.2, j, t⟩).exists_result
    refine ⟨hrejoined.limit_eq.trans ih.1, fun hwaits => ?_⟩
    cases r with
    | ok => exact absurd ((hrejoined.ok rfl).1.symm.trans hwaits) nofun
    | error e =>
      rw [(hrejoined.error e rfl).2.1]
      exact ih.2 hstate

end Run

/-- The numbers of items that an instruction declares are exact where a machine performs it. -/
structure Instruction.Exact (c : Context) (m : Machine) (i : Instruction) : Prop where
  cost : ∀ reason, i.cost c m.frame m.journal = .error reason → reason.isOfStack = false
  performed : ∀ reason m', i.perform c m = .error reason m' → reason.isOfStack = false
  goesOn : ∀ control m', i.perform c m = .ok control m' → control ≠ .suspend →
    m'.frame.stack.length = m.frame.stack.length - i.consumed + i.produced ∧
      m'.frame.stack.items.drop i.produced = m.frame.stack.items.drop i.consumed
  waits : ∀ m', i.perform c m = .ok .suspend m' →
    m'.frame.stack.length = m.frame.stack.length - i.consumed ∧
      m'.frame.stack.items = m.frame.stack.items.drop i.consumed
  /-- Whatever the child comes to that the frame waits for, and whatever state it leaves. -/
  resumed : ∀ m', i.perform c m = .ok .suspend m' → ∀ child j t,
    Ends (Machine.resume child) ⟨(m'.frame.advance i.size .suspend).takeChild.2, j, t⟩
      fun r m₁ => r ≠ .error Machine.noRoomToResume ∧ (r = .ok () →
        m₁.frame.stack.length = m.frame.stack.length - i.consumed + i.produced ∧
          m₁.frame.stack.items.drop i.produced = m.frame.stack.items.drop i.consumed)

/-- **The declared numbers of items are exact** for an instruction that passes the check. -/
theorem Instruction.exact_of_instruction {c : Context} {m : Machine} {i : Instruction}
    (hi : m.frame.instruction c.instructions = .ok i) : i.Exact c m := by
  obtain ⟨-, hlength, hroom⟩ := Frame.bounds_of_instruction hi
  have htraded := traded_of_instruction hi
  -- the items below those that are taken, and as many on top as are left
  have hitems {control : Control} {m' : Machine} (h : i.perform c m = .ok control m') :
      m'.frame.stack.length =
          m.frame.stack.length - i.consumed + Exec.leaves i.produced control ∧
        m'.frame.stack.items.drop (Exec.leaves i.produced control) =
          m.frame.stack.items.drop i.consumed := by
    obtain ⟨words, hwords, hitems⟩ := (htraded.of_ok h).items_eq _ rfl
    rw [Stack.length, hitems, List.length_append, List.length_drop, hwords, Nat.add_comm, ← hwords,
      List.drop_left]
    exact ⟨rfl, rfl⟩
  have hwaits {m' : Machine} (h : i.perform c m = .ok .suspend m') :
      m'.frame.stack.length = m.frame.stack.length - i.consumed ∧
        m'.frame.stack.items = m.frame.stack.items.drop i.consumed := hitems h
  refine ⟨spared_cost i hlength, fun reason m' h => (htraded.of_error h).spared _ rfl,
    fun control m' h hcontrol => ?_, fun m' h => hwaits h, fun m' h child j t => ?_⟩
  · have hleft := hitems h
    rwa [Exec.leaves, if_neg hcontrol] at hleft
  · obtain ⟨hlength', hitems'⟩ := hwaits h
    have hroom' := room_of_suspended hi h
    refine (Machine.resume_rejoins _ _).mono fun r m₁ h₁ => ⟨fun hr => ?_, fun hr => ?_⟩
    · exact absurd ((h₁.error _ hr).2.2 rfl) hroom'.ne'
    · obtain ⟨-, w, hw⟩ := h₁.ok hr
      have hw : m₁.frame.stack.items = w :: m'.frame.stack.items := hw
      rw [((perform_ends i).of_ok h).produced_eq, Stack.length, hw, hitems', List.length_cons,
        List.length_drop]
      exact ⟨rfl, rfl⟩

/-- **The declared numbers of items are exact.**  An instruction that passes the check of its bounds
does not fail for the stack, neither in its price nor in its effect nor when its frame goes on
after a child, and it takes and leaves as many items as is declared, over items that stay as they
are.  So in every run of a frame the stack stays within its limit, a step ends the code for its
stack only where the check says so, and a frame that waits has room for what it gets. -/
theorem Run.arities_exact (c : Context) :
    (∀ (m : Machine) (i : Instruction),
      m.frame.instruction c.instructions = .ok i → i.Exact c m) ∧
    ∀ first m : Machine, first.frame.state ≠ .codeSuspended → Visits c first m →
      m.frame.stack.length ≤ first.frame.stack.limit ∧
      (∀ e, (stateAfter (step c) m).frame.exit = some (.error e) → e.isOfStack = true →
        (stateAfter (step c) m).frame.exit ≠ m.frame.exit →
          m.frame.instruction c.instructions = .error e) ∧
      (m.frame.state = .codeSuspended → ∀ child j t,
        Ends (Machine.resume child) ⟨m.frame.takeChild.2, j, t⟩
          fun r _ => r ≠ .error Machine.noRoomToResume) := by
  refine ⟨fun m i hi => Instruction.exact_of_instruction hi, fun first m hfirst h => ?_⟩
  obtain ⟨hlimit, hroom⟩ := h.bounded hfirst
  obtain ⟨_, hmoved⟩ := (step_moves (c := c) (m := m)).exists_result
  refine ⟨?_, hmoved.rejected, fun hstate child j t => ?_⟩
  · rw [← hlimit]
    exact Nat.le_add_right _ _
  · refine (Machine.resume_rejoins _ _).mono fun r m₁ h₁ hr => ?_
    exact absurd ((h₁.error _ hr).2.2 rfl) (hroom hstate).ne'

/-! ### A call on a full stack -/

/-- The rules of Petersburg over an empty store. -/
def bareContext : Context := ⟨.petersburg, .ofConfig .petersburg, .empty⟩

/-- A frame that is about to call account 3, with nothing but the operands on a stack that has no
room for more. -/
def fullCaller : Machine where
  frame := { Frame.ofMessage {
      kind := .call, sender := 1, recipient := 2, contract := 2, originator := 1, gasPrice := 0,
      value := 0, apparentValue := 0, input := [], code := [0xf1], gas := 100000, depth := 0,
      isStatic := false } ⟨0, 0, 0, 0, 0, #[]⟩ 7 Quantity.max with
    state := .codeExecuting, stack := ⟨[100, 3, 0, 0, 0, 0, 0], 0⟩ }
  journal := ((Journal.ofWorld .empty).put (.fresh 2 1 0)).put (.fresh 3 1 0)
  trace := .off

/-- The frame takes its operands, waits, and has room for what it gets. -/
theorem Run.arities_exact_of_fullCaller :
    fullCaller.frame.instruction bareContext.instructions = .ok (.call .call) ∧
      Instruction.Exact bareContext fullCaller (.call .call) ∧
      ∃ m, Visits bareContext fullCaller m ∧ m.frame.state = .codeSuspended ∧
        m.frame.stack.length ≤ 7 ∧ ∀ child j t,
          Ends (Machine.resume child) ⟨m.frame.takeChild.2, j, t⟩
            fun r _ => r ≠ .error Machine.noRoomToResume := by
  have hi : fullCaller.frame.instruction bareContext.instructions = .ok (.call .call) := by
    decide +kernel
  have hfirst : fullCaller.frame.state ≠ .codeSuspended := by decide +kernel
  have hlimit : fullCaller.frame.stack.limit = 7 := by decide +kernel
  have hstate : (stateAfter (step bareContext) fullCaller).frame.state = .codeSuspended := by
    decide +kernel
  have hvisited := (Visits.first (c := bareContext)).step hfirst
  generalize stateAfter (step bareContext) fullCaller = m at hstate hvisited
  obtain ⟨hexact, hruns⟩ := arities_exact bareContext
  obtain ⟨hlength, -, hresumed⟩ := hruns fullCaller m hfirst hvisited
  exact ⟨hi, hexact _ _ hi, m, hvisited, hstate, hlimit ▸ hlength, hresumed hstate⟩

end Ethereum
