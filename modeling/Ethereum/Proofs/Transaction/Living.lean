/-
# What frames do

A frame is started, runs code and is settled.  Starting it moves the value of its message
(`Lifecycle.Started`), and code that stopped well is deployed if it created a contract
(`Lifecycle.Succeeded`).  What these parts and all steps preserve, the work of a frame
preserves (`Lifecycle.work_ends`); it ends when the frame waits for a child, or has
completed (`Lifecycle.work_settles`).  Then its scope is settled.
-/

import Mathlib
import Ethereum.Proofs.Interpreter.Charging
import Ethereum.Transaction.Lifecycle

namespace Ethereum

/-- The address that gets the value of a message. -/
def Message.payee (m : Message) : Address :=
  match m.kind with
  | .call => m.recipient
  | .creation => m.contract

/-- There is no account at the address, or one that has neither code nor a nonce. -/
def Journal.Free (store : Store) (j : Journal) (address : Address) : Prop :=
  ∃ found, j.find? store address = .ok found ∧
    ∀ o ∈ found, (o.codeHash = 0 ∨ o.codeHash = Store.emptyCodeHash) ∧ o.nonce = 0

namespace Lifecycle

variable {α β : Type} {s : Setting} {m m' : Machine} {r : Except ExitFatal Unit}

/-! ## Parts of a lifecycle -/

theorem reading_bind_ends {read : Journal → Store → Except StateError α} {f : α → Lifecycle β}
    {Q : Except ExitFatal β → Machine → Prop} (herror : ∀ e, Q (.error e) m)
    (hok : ∀ a, read m.journal s.store = .ok a → Ends (f a s) m Q) :
    Ends ((reading read >>= f) s) m Q := by
  refine Ends.bind ?_
  rw [Ends, reading]
  cases hread : read m.journal s.store with
  | ok a => exact hok a hread
  | error e => exact herror e.toFatal

/-- A charge tells whether there was enough gas, and takes it off only then. -/
theorem tryCharge_bind_ends {cost : Nat} {f : Bool → Lifecycle β}
    {Q : Except ExitFatal β → Machine → Prop}
    (hpaid : ∀ m₁ : Machine, cost ≤ m.frame.gas → m₁.journal = m.journal →
      m₁.frame = { m.frame with gas := m.frame.gas - cost } → Ends (f true s) m₁ Q)
    (hunpaid : ∀ m₁ : Machine, m.frame.gas < cost → m₁.journal = m.journal →
      m₁.frame = m.frame → Ends (f false s) m₁ Q) : Ends ((tryCharge cost >>= f) s) m Q := by
  refine Ends.bind ?_
  rw [Ends, tryCharge, Machine.tryCharge, Machine.charge_eq]
  by_cases h : cost ≤ m.frame.gas
  · rw [if_pos h]
    exact hpaid _ h rfl rfl
  · rw [if_neg h]
    exact hunpaid _ (not_le.mp h) rfl rfl

/-! ## The start -/

/-- How the start of a frame changes the state. -/
inductive Opened (store : Store) (config : Config) (message : Message) :
    Journal → Journal → Prop
  /-- The address is taken. -/
  | refused {j : Journal} (hkind : message.kind = .creation) : Opened store config message j j
  | paid {j j' : Journal}
    (htransfer : Journal.transfer store message.sender message.payee message.value j = .ok () j')
    (hnonce : message.kind = .creation → config.createIncreaseNonce = false) :
    Opened store config message j j'
  | named {j j₁ j' : Journal} {nonce : Nat} (hkind : message.kind = .creation)
    (hincrease : config.createIncreaseNonce = true)
    (htransfer : Journal.transfer store message.sender message.payee message.value j = .ok () j₁)
    (hnonce : Journal.incrementNonce store message.contract j₁ = .ok nonce j') :
    Opened store config message j j'

/-- How the start of a frame ends, and what it leaves of a machine. -/
inductive Started (s : Setting) (m : Machine) : Except ExitFatal Unit → Machine → Prop
  | executing {m' : Machine}
    (hjournal : Opened s.store s.config m.frame.message m.journal m'.journal)
    (hframe : m'.frame = { m.frame with state := .codeExecuting })
    (hfree : m.frame.message.kind = .creation →
      m.journal.Free s.store m.frame.message.contract) : Started s m (.ok ()) m'
  /-- A precompiled contract gave its output. -/
  | completed {m' : Machine} (gas : Nat) (output : Bytes) (hgas : gas ≤ m.frame.gas)
    (hjournal : Opened s.store s.config m.frame.message m.journal m'.journal)
    (hframe : m'.frame = { m.frame with
      gas, output, exit := some (.succeed .returned), state := .completedSuccess }) :
    Started s m (.ok ()) m'
  | halted {m' : Machine} (gas : Nat) (e : ExitError) (hgas : gas ≤ m.frame.gas)
    (hjournal : Opened s.store s.config m.frame.message m.journal m'.journal)
    (hframe : m'.frame = { m.frame with gas }.halt e) : Started s m (.ok ()) m'
  | fatal {e : ExitFatal} {m' : Machine} (h : m.journal.Inner m'.journal) :
    Started s m (.error e) m'

/-- The start of a frame leads through mild changes of single accounts. -/
theorem Opened.leads {store : Store} {config : Config} {message : Message} {j j' : Journal}
    {R : Journal → Journal → Prop} [Std.Refl R] [IsTrans Journal R]
    (hR : Journal.ThroughMildUpdates store R) (h : Opened store config message j j') : R j j' := by
  cases h with
  | refused => exact refl _
  | paid htransfer => exact (hR.transfer _ _ _ _).of_ok htransfer
  | named hkind hincrease htransfer hnonce =>
    exact IsTrans.trans _ _ _ ((hR.transfer _ _ _ _).of_ok htransfer)
      ((hR.incrementNonce _ _).of_ok hnonce)

theorem Opened.inner {store : Store} {config : Config} {message : Message} {j j' : Journal}
    (h : Opened store config message j j') : j.Inner j' :=
  h.leads (Journal.inner_throughUpdates store).mild

theorem Started.inner (h : Started s m r m') : m.journal.Inner m'.journal := by
  cases h with
  | executing hjournal => exact hjournal.inner
  | completed gas output hgas hjournal => exact hjournal.inner
  | halted gas e hgas hjournal => exact hjournal.inner
  | fatal h => exact h

theorem startCall_ends (hkind : m.frame.message.kind = .call) :
    Ends (startCall s) m (Started s m) := by
  have hpayee : m.frame.message.payee = m.frame.message.recipient := by rw [Message.payee, hkind]
  refine bind_ends_of_ok rfl (Ends.bind (bind_ends_of_ok rfl (Machine.changing_ends ?_ ?_)))
  · intro e j hj
    exact .fatal ((Journal.inner_transfer _ _ _ _ _).of_error hj)
  · intro _ j hj
    have hopened : Opened s.store s.config m.frame.message m.journal j :=
      .paid (hpayee ▸ hj) (by simp [hkind])
    refine bind_ends_of_ok rfl ?_
    cases s.precompiles[m.frame.message.contract]? with
    | none => exact .executing hopened rfl (by simp [hkind])
    | some p =>
      refine bind_ends_of_ok rfl (tryCharge_bind_ends ?_ ?_)
      · intro m₁ hpaid hjournal hframe
        rw [if_pos rfl]
        have hopened₁ : Opened s.store s.config m.frame.message m.journal m₁.journal := by
          rwa [hjournal]
        cases p.compute m.frame.message.input with
        | some output =>
          refine .completed _ output (Nat.sub_le m.frame.gas (p.gas m.frame.message.input)) hopened₁ ?_
          exact congrArg (fun f : Frame =>
            { f with output, exit := some (.succeed .returned), state := .completedSuccess }) hframe
        | none =>
          refine .halted _ .precompileFailure (Nat.sub_le m.frame.gas (p.gas m.frame.message.input))
            hopened₁ ?_
          exact congrArg (·.halt .precompileFailure) hframe
      · intro m₁ hunpaid hjournal hframe
        have hopened₁ : Opened s.store s.config m.frame.message m.journal m₁.journal := by
          rwa [hjournal]
        exact .halted _ _ le_rfl hopened₁ (congrArg (·.halt .outOfGas) hframe)

/-- Whether an address is taken is only read, and one that is not taken is free. -/
theorem isTaken_ends (address : Address) : Ends (isTaken address s) m fun r m' => m' = m ∧
    (r = .ok false → m.journal.Free s.store address) := by
  refine reading_bind_ends (fun e => ⟨rfl, nofun⟩) fun codeHash hcodeHash => ?_
  by_cases h : codeHash ≠ 0 ∧ codeHash ≠ Store.emptyCodeHash
  · rw [if_pos h]
    exact .ok rfl ⟨rfl, nofun⟩
  · rw [if_neg h]
    refine reading_bind_ends (fun e => ⟨rfl, nofun⟩) fun nonce hnonce => .ok rfl ⟨rfl, fun hr => ?_⟩
    obtain ⟨found, hfound, hcodeHash⟩ := exists_of_bind_eq_ok hcodeHash
    obtain ⟨found', hfound', hnonce⟩ := exists_of_bind_eq_ok hnonce
    obtain rfl := Except.ok.inj (hfound.symm.trans hfound')
    refine ⟨found, hfound, fun o ho => ?_⟩
    obtain rfl := Option.mem_def.mp ho
    obtain rfl : o.codeHash = codeHash := Except.ok.inj hcodeHash
    obtain rfl : o.nonce = nonce := Except.ok.inj hnonce
    refine ⟨?_, by simpa using Except.ok.inj hr⟩
    by_contra hcoded
    exact h (not_or.mp hcoded)

theorem startCreation_ends (hkind : m.frame.message.kind = .creation) :
    Ends (startCreation s) m (Started s m) := by
  have hpayee : m.frame.message.payee = m.frame.message.contract := by rw [Message.payee, hkind]
  refine bind_ends_of_ok rfl (Ends.bind ((isTaken_ends _).mono ?_))
  rintro (e | taken) m₁ ⟨rfl, hfree⟩
  · exact .fatal (.refl _)
  cases taken with
  | true => exact .halted _ .createCollision le_rfl (.refused hkind) rfl
  | false =>
    refine Ends.bind (bind_ends_of_ok rfl (Machine.changing_ends ?_ ?_))
    · intro e j hj
      exact .fatal ((Journal.inner_transfer _ _ _ _ _).of_error hj)
    · intro _ j hj
      rw [← hpayee] at hj
      refine bind_ends_of_ok rfl ?_
      by_cases hincrease : s.config.createIncreaseNonce
      · rw [if_pos hincrease]
        refine Ends.bind (Machine.changing_ends (fun e j₂ hj₂ => ?_) fun nonce j₂ hj₂ => ?_)
        · exact .fatal (((Journal.inner_transfer _ _ _ _ _).of_ok hj).trans
            ((Journal.inner_incrementNonce _ _ _).of_error hj₂))
        · exact .executing (.named hkind hincrease hj hj₂) rfl fun _ => hfree rfl
      · rw [if_neg hincrease]
        exact .executing (.paid hj fun _ => Bool.eq_false_of_not_eq_true hincrease) rfl
          fun _ => hfree rfl

theorem start_ends : Ends (start s) m (Started s m) := by
  refine bind_ends_of_ok rfl ?_
  cases hkind : m.frame.message.kind with
  | call => exact startCall_ends hkind
  | creation => exact startCreation_ends hkind

/-! ## The end of code that stopped well -/

/-- How a frame ends whose code stopped well, and what that leaves of a machine. -/
inductive Succeeded (s : Setting) (m : Machine) : Except ExitFatal Unit → Machine → Prop
  /-- There is nothing to deploy, or it is left. -/
  | completed {m' : Machine} (hjournal : m'.journal = m.journal)
    (hframe : m'.frame = { m.frame with state := .completedSuccess }) : Succeeded s m (.ok ()) m'
  | deployed {m' : Machine} (hkind : m.frame.message.kind = .creation)
    (hlimit : ¬ s.config.createContractLimit.any (· < m.frame.output.length))
    (hgas : Gas.codeDeposit m.frame.output.length ≤ m.frame.gas)
    (hcode : Journal.setCode s.store m.frame.message.contract m.frame.output m.journal =
      .ok () m'.journal)
    (hframe : m'.frame = { m.frame with
      gas := m.frame.gas - Gas.codeDeposit m.frame.output.length, state := .completedSuccess }) :
    Succeeded s m (.ok ()) m'
  | halted {m' : Machine} (e : ExitError) (hjournal : m'.journal = m.journal)
    (hframe : m'.frame = m.frame.halt e) : Succeeded s m (.ok ()) m'
  | fatal {e : ExitFatal} {m' : Machine} (h : m.journal.Inner m'.journal) :
    Succeeded s m (.error e) m'

theorem Succeeded.inner (h : Succeeded s m r m') : m.journal.Inner m'.journal := by
  cases h with
  | completed hjournal => exact hjournal ▸ .refl _
  | deployed hkind hlimit hgas hcode => exact (Journal.inner_setCode _ _ _ _).of_ok hcode
  | halted e hjournal => exact hjournal ▸ .refl _
  | fatal h => exact h

theorem deploy_ends (hkind : m.frame.message.kind = .creation) :
    Ends (deploy s) m (Succeeded s m) := by
  refine bind_ends_of_ok rfl (bind_ends_of_ok rfl ?_)
  by_cases hlimit : s.config.createContractLimit.any (· < m.frame.output.length)
  · rw [if_pos hlimit]
    exact .halted .createContractLimit rfl rfl
  rw [if_neg hlimit]
  refine tryCharge_bind_ends (fun m₁ hpaid hjournal hframe => ?_)
    fun m₁ hunpaid hjournal hframe => ?_
  · rw [if_pos rfl]
    refine Ends.bind (Machine.changing_ends (fun e j hj => ?_) fun _ j hj => ?_)
    · rw [hjournal] at hj
      exact .fatal ((Journal.inner_setCode _ _ _ _).of_error hj)
    · rw [hjournal] at hj
      refine .deployed hkind hlimit hpaid hj ?_
      exact congrArg (fun f : Frame => { f with state := .completedSuccess }) hframe
  · rw [if_neg Bool.false_ne_true]
    by_cases hfails : s.config.exceptionalFailureOnCodeDeposit
    · rw [if_pos hfails]
      exact .halted .outOfGas hjournal (congrArg (·.halt .outOfGas) hframe)
    · rw [if_neg hfails]
      exact .completed hjournal
        (congrArg (fun f : Frame => { f with state := .completedSuccess }) hframe)

theorem succeed_ends : Ends (succeed s) m (Succeeded s m) := by
  refine bind_ends_of_ok rfl ?_
  cases hkind : m.frame.message.kind with
  | call => exact .completed rfl rfl
  | creation => exact deploy_ends hkind

/-! ## The work of a frame -/

/-- What a frame does before its scope is settled. -/
def work : Lifecycle Unit := do
  if (← frame).state = .notStarted then start
  if (← frame).state = .codeExecuting then fun s => Run.toHalt s.toContext
  if (← frame).state = .codeSuccess then succeed
  modifyFrame failed

/-- The work of a frame after its code. -/
def afterCode : Lifecycle Unit := do
  if (← frame).state = .codeSuccess then succeed
  modifyFrame failed

/-- The work of a frame after its start. -/
def afterStart : Lifecycle Unit := do
  if (← frame).state = .codeExecuting then fun s => Run.toHalt s.toContext
  afterCode

/-- A frame advances by its work, and then its scope is settled. -/
theorem advance_eq : advance = work >>= fun _ => settleScope := by
  rw [advance, work]
  have hite {c : Prop} [Decidable c] (p q : Lifecycle Unit) :
      (if c then p else q) >>= (fun _ => settleScope) =
        if c then p >>= fun _ => settleScope else q >>= fun _ => settleScope := by
    split <;> rfl
  simp only [bind_assoc, hite]

/-- A part that is run in one state of the frame, and what comes after it. -/
theorem when_ends {state : FrameState} {part rest : Lifecycle Unit}
    {Q : Except ExitFatal Unit → Machine → Prop}
    (hpart : m.frame.state = state → Ends (part s) m fun r m' => match r with
      | .ok _ => Ends (rest s) m' Q
      | .error e => Q (.error e) m')
    (hskip : m.frame.state ≠ state → Ends (rest s) m Q) :
    Ends ((do
      if (← frame).state = state then part
      rest : Lifecycle Unit) s) m Q := by
  refine bind_ends_of_ok rfl ?_
  by_cases h : m.frame.state = state
  · rw [if_pos h]
    exact Ends.bind (hpart h)
  · rw [if_neg h]
    exact hskip h

/-- **What all parts of the work preserve, the work preserves.** -/
theorem work_ends {P : Except ExitFatal Unit → Machine → Prop}
    (hstart : ∀ m r m', m.frame.state = .notStarted → P (.ok ()) m → Started s m r m' → P r m')
    (hstep : ∀ m r m', m.frame.state = .codeExecuting → P (.ok ()) m →
      Run.Stepped s.toContext m r m' → P r m')
    (hsucceed : ∀ m r m', m.frame.state = .codeSuccess → P (.ok ()) m → Succeeded s m r m' → P r m')
    (hfailed : ∀ m, P (.ok ()) m → P (.ok ()) { m with frame := failed m.frame })
    (hm : P (.ok ()) m) : Ends (work s) m P := by
  have htail {part rest : Lifecycle Unit} {m : Machine} {state : FrameState} (hm : P (.ok ()) m)
      (hpart : m.frame.state = state → Ends (part s) m P)
      (hrest : ∀ m', P (.ok ()) m' → Ends (rest s) m' P) :
      Ends ((do
        if (← frame).state = state then part
        rest : Lifecycle Unit) s) m P := by
    refine when_ends (fun hstate => (hpart hstate).mono fun r m₁ h₁ => ?_) fun _ => hrest m hm
    cases r with
    | ok => exact hrest m₁ h₁
    | error => exact h₁
  refine htail hm (fun hstate => start_ends.mono fun r m' h => hstart m r m' hstate hm h)
    fun m₁ h₁ => ?_
  refine htail h₁ (fun hstate => bind_ends_of_ok rfl (Run.steps_ends hstep _ h₁)) fun m₂ h₂ => ?_
  refine htail h₂ (fun hstate => succeed_ends.mono fun r m' h => hsucceed m₂ r m' hstate h₂ h)
    fun m₃ h₃ => ?_
  exact hfailed m₃ h₃

theorem work_inner : Ends (work s) m fun _ m' => m.journal.Inner m'.journal := by
  refine work_ends (P := fun _ m' => m.journal.Inner m'.journal)
    (fun m₁ r m₂ _ h₁ h => h₁.trans h.inner) (fun m₁ r m₂ _ h₁ h => h₁.trans h.inner)
    (fun m₁ r m₂ _ h₁ h => h₁.trans h.inner) (fun m₁ h₁ => h₁) (.refl _)

/-- The frame waits for a child, and has less gas with it than there was, or it has completed
with no more. -/
def Settles (gas : Nat) (f : Frame) : Prop :=
  (f.state = .codeSuspended ∧ f.heldGas < gas) ∨
    ((f.state = .completedSuccess ∨ f.state = .completedFailed) ∧ f.gas ≤ gas)

theorem settles_failed {gas : Nat} {f : Frame}
    (h : (f.state = .codeSuspended ∧ f.heldGas < gas) ∨
      ((f.state = .completedSuccess ∨ f.state = .revert ∨ f.state = .exceptionalHalt) ∧
        f.gas ≤ gas)) : Settles gas (failed f) := by
  rcases h with ⟨hstate, hgas⟩ | ⟨hstate | hstate | hstate, hgas⟩
  · rw [failed, hstate]
    exact .inl ⟨hstate, hgas⟩
  · rw [failed, hstate]
    exact .inr ⟨.inl hstate, hgas⟩
  · rw [failed, hstate]
    exact .inr ⟨.inr rfl, hgas⟩
  · rw [failed, hstate]
    exact .inr ⟨.inr rfl, Nat.zero_le gas⟩

theorem afterCode_settles {gas : Nat}
    (h : (m.frame.state = .codeSuspended ∧ m.frame.heldGas < gas) ∨
      ((m.frame.state.hasStopped ∨ m.frame.state = .completedSuccess) ∧ m.frame.gas ≤ gas)) :
    Ends (afterCode s) m fun r m' => r = .ok () → Settles gas m'.frame := by
  refine when_ends (fun hstate => succeed_ends.mono fun r m₁ h₁ => ?_) fun hstate => ?_
  · have hgas : m.frame.gas ≤ gas := by
      rcases h with ⟨hsuspended, -⟩ | ⟨-, hgas⟩
      · simp [hstate] at hsuspended
      · exact hgas
    cases h₁ with
    | fatal => exact nofun
    | completed hjournal hframe =>
      exact fun _ => settles_failed (.inr (hframe ▸ ⟨.inl rfl, hgas⟩))
    | deployed hkind hlimit hpaid hcode hframe =>
      exact fun _ => settles_failed (.inr (hframe ▸ ⟨.inl rfl, (Nat.sub_le _ _).trans hgas⟩))
    | halted e hjournal hframe =>
      exact fun _ => settles_failed (.inr (hframe ▸ ⟨.inr (.inr rfl), hgas⟩))
  · refine fun _ => settles_failed (h.imp id ?_)
    rintro ⟨hstopped | hcompleted, hgas⟩
    · refine ⟨.inr ?_, hgas⟩
      revert hstopped hstate
      cases m.frame.state <;> simp [FrameState.hasStopped]
    · exact ⟨.inl hcompleted, hgas⟩

/-- **The work of a frame ends** when it waits for a child or has completed. -/
theorem work_settles (hm : m.frame.state = .notStarted ∨ m.frame.state = .codeExecuting) :
    Ends (work s) m fun r m' => r = .ok () → Settles m.frame.gas m'.frame := by
  have hrun {m₁ : Machine} (hgas : m₁.frame.gas ≤ m.frame.gas)
      (hstate : m₁.frame.state = .codeExecuting ∨ m₁.frame.state.hasStopped ∨
        m₁.frame.state = .completedSuccess) :
      Ends (afterStart s) m₁ fun r m' => r = .ok () → Settles m.frame.gas m'.frame := by
    refine when_ends (fun hexecuting => (Run.toHalt_halts hexecuting).mono fun r m₂ h₂ => ?_)
      fun hne => ?_
    · cases r with
      | error => exact nofun
      | ok =>
        refine afterCode_settles ((h₂ rfl).imp ?_ ?_)
        · exact fun ⟨hsuspended, hheld⟩ => ⟨hsuspended, hheld.trans_le hgas⟩
        · exact fun ⟨hstopped, hle⟩ => ⟨.inl hstopped, hle.trans hgas⟩
    · exact afterCode_settles (.inr ⟨hstate.resolve_left hne, hgas⟩)
  refine when_ends (fun hstate => start_ends.mono fun r m₁ h₁ => ?_) fun hne => ?_
  · cases h₁ with
    | fatal => exact nofun
    | executing hjournal hframe => exact hrun (hframe ▸ le_rfl) (.inl (hframe ▸ rfl))
    | completed gas output hgas hjournal hframe =>
      exact hrun (hframe ▸ hgas) (.inr (.inr (hframe ▸ rfl)))
    | halted gas e hgas hjournal hframe =>
      exact hrun (hframe ▸ hgas) (.inr (.inl (hframe ▸ rfl)))
  · exact hrun le_rfl (.inl (hm.resolve_left hne))

/-! ## Settling the scope -/

/-- How the scope of a frame is settled, and what that leaves of a machine. -/
inductive Settled (s : Setting) (m : Machine) : Except ExitFatal Unit → Machine → Prop
  /-- The frame waits for a child. -/
  | waiting (hsuccess : m.frame.state ≠ .completedSuccess)
    (hfailed : m.frame.state ≠ .completedFailed) : Settled s m (.ok ()) m
  | committed {m' : Machine} (hstate : m.frame.state = .completedSuccess)
    (hcommit : Journal.commit s.store m.journal = .ok () m'.journal)
    (hframe : m'.frame = m.frame) : Settled s m (.ok ()) m'
  /-- The scope is dropped, and the forced addresses in it are created again. -/
  | reverted {m' : Machine} (hstate : m.frame.state = .completedFailed)
    (hforced : (m.journal.touched.filter (s.forced.contains ·)).forM
      (Journal.getOrCreate s.store) m.journal.revert = .ok () m'.journal)
    (hframe : m'.frame = m.frame) : Settled s m (.ok ()) m'
  | fatal {e : ExitFatal} {m' : Machine} : Settled s m (.error e) m'

/-- Changes of the journal, one after the other. -/
theorem forM_changing_ends (change : Address → Store → Journal.Change Unit) (l : List Address) :
    Ends ((l.forM fun address => changing (change address)) s) m fun r m' => r = .ok () →
      m'.frame = m.frame ∧
        (l.forM fun address => change address s.store) m.journal = .ok () m'.journal := by
  induction l generalizing m with
  | nil => exact fun _ => ⟨rfl, rfl⟩
  | cons address l ih =>
    refine Ends.bind (Machine.changing_ends (fun e j hj => nofun) fun _ j hj => ?_)
    refine ih.mono fun r m' h hr => ?_
    obtain ⟨hframe, hl⟩ := h hr
    exact ⟨hframe, (bind_eq_of_ok hj).trans hl⟩

theorem settleScope_ends : Ends (settleScope s) m (Settled s m) := by
  refine bind_ends_of_ok rfl ?_
  cases hstate : m.frame.state with
  | completedSuccess =>
    exact Machine.changing_ends (fun e j hj => .fatal) fun _ j hj => .committed hstate hj rfl
  | completedFailed =>
    refine bind_ends_of_ok rfl (bind_ends_of_ok rfl (bind_ends_of_ok rfl ?_))
    refine (forM_changing_ends (fun address store => Journal.getOrCreate store address) _).mono ?_
    rintro (e | ⟨⟩) m' h
    · exact .fatal
    · obtain ⟨hframe, hforced⟩ := h rfl
      exact .reverted hstate hforced hframe
  | _ => exact .waiting (by simp [hstate]) (by simp [hstate])

/-- A frame that advances ends as its work leaves it. -/
theorem exists_work_of_advance (h : advance s m = .ok () m') :
    ∃ m₁, work s m = .ok () m₁ ∧ m'.frame = m₁.frame := by
  rw [advance_eq] at h
  obtain ⟨_, m₁, hwork, hsettle⟩ := reader_bind_eq_ok h
  refine ⟨m₁, hwork, ?_⟩
  cases settleScope_ends.of_ok hsettle with
  | waiting => rfl
  | committed hstate hcommit hframe => exact hframe
  | reverted hstate hforced hframe => exact hframe

end Lifecycle
end Ethereum
