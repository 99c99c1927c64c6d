/-
# Trees on sound machines do not fail

A frame that has not started moves its value and begins; then it runs, deploys what its init code
leaves and settles its scope.  On a sound machine none of this fails (`Lifecycle.advance_safe`).
Where the frame waits then, its child begins, and where it completed, its parent goes on
(`Lifecycle.round_safe`).  So a whole tree does not fail (`Lifecycle.runTree_safe`), if all that
its frames hash is among the data (`Lifecycle.hashedTree`).
-/

import Mathlib
import Ethereum.Proofs.Interpreter.Safety
import Ethereum.Proofs.Transaction.Waiting

namespace Ethereum

/-- The bytes that are hashed to begin with a message. -/
def Message.hashed (m : Message) : List Bytes :=
  [Address.toBytes m.sender, Address.toBytes m.recipient, Address.toBytes m.contract]

/-- The bytes that a frame hashes once its code ended: the output of init code that stopped
well. -/
def Frame.deployed (f : Frame) : List Bytes :=
  if f.message.kind = .creation ∧ f.state = .codeSuccess then [f.output] else []

namespace Lifecycle

variable {α β : Type} {data : List Bytes} {s : Setting} {m m' : Machine} {parents : List Frame}

open Run (Safe)

/-! ## Parts of a lifecycle -/

section
variable {f : α → Lifecycle β} {Q : Except ExitFatal β → Machine → Prop}

theorem reading_bind_safe (hm : m.Sound data s.store)
    {read : Journal → Store → Except StateError α} (hread : Journal.Answered data read)
    (hf : ∀ a, Ends (f a s) m Q) : Ends ((reading read >>= f) s) m Q := by
  obtain ⟨a, ha⟩ := hread _ _ hm.journal
  have hrun : reading read s m = .ok a m := by rw [reading, ha]
  exact bind_ends_of_ok hrun (hf a)

theorem changing_bind_safe (hm : m.Sound data s.store) {change : Store → Journal.Change α}
    (hchange : Journal.Succeeds data change)
    (hf : ∀ a m₁, m₁.Sound data s.store → m₁.frame = m.frame → Ends (f a s) m₁ Q) :
    Ends ((changing change >>= f) s) m Q := by
  obtain ⟨a, j, hj, hsound⟩ := hchange _ _ hm.journal
  exact bind_ends_of_ok (Machine.changing_eq hj) (hf a _ ⟨hsound, hm.frame⟩ rfl)

theorem tryCharge_bind_safe {cost : Nat} {f : Bool → Lifecycle β} (hm : m.Sound data s.store)
    (hf : ∀ paid m₁, m₁.Sound data s.store → Ends (f paid s) m₁ Q) :
    Ends ((tryCharge cost >>= f) s) m Q := by
  refine tryCharge_bind_ends (fun m₁ _ hjournal hframe => hf true m₁ ⟨hjournal ▸ hm.journal, ?_⟩)
    fun m₁ _ hjournal hframe => hf false m₁ ⟨hjournal ▸ hm.journal, hframe ▸ hm.frame⟩
  rw [hframe]
  exact hm.frame.of_eq rfl rfl rfl

end

/-- A change of the frame that suspends nothing. -/
theorem modifyFrame_safe {change : Frame → Frame} (hm : m.Sound data s.store)
    (hchange : (change m.frame).Sound data) (hstate : (change m.frame).state ≠ .codeSuspended) :
    Ends (modifyFrame change s) m (Safe data s.store) :=
  ⟨rfl, ⟨hm.journal, hchange⟩, fun h => absurd h hstate⟩

theorem halt_safe (hm : m.Sound data s.store) (e : ExitError) :
    Ends (modifyFrame (·.halt e) s) m (Safe data s.store) :=
  modifyFrame_safe hm (hm.frame.of_eq rfl rfl rfl) (by simp [Frame.halt, Frame.stopIn])

theorem state_safe (hm : m.Sound data s.store) {state : FrameState}
    (hstate : state ≠ .codeSuspended) :
    Ends (modifyFrame (fun f => { f with state }) s) m (Safe data s.store) :=
  modifyFrame_safe hm (hm.frame.of_eq rfl rfl rfl) hstate

/-! ## The start -/

theorem transferValue_bind_safe (hm : m.Sound data s.store)
    (hsender : m.frame.message.sender.Known data) {target : Address} (htarget : target.Known data)
    {f : Unit → Lifecycle β} {Q : Except ExitFatal β → Machine → Prop}
    (hf : ∀ m₁, m₁.Sound data s.store → m₁.frame = m.frame → Ends (f () s) m₁ Q) :
    Ends ((transferValue target >>= f) s) m Q := by
  have hsucceeds := Journal.succeeds_transfer hsender htarget m.frame.message.value
  rw [transferValue, bind_assoc]
  exact bind_ends_of_ok rfl (changing_bind_safe hm hsucceeds fun _ => hf)

theorem runPrecompile_safe (hm : m.Sound data s.store) (p : Precompile) :
    Ends (runPrecompile p s) m (Safe data s.store) := by
  refine bind_ends_of_ok rfl (tryCharge_bind_safe hm fun paid m₁ hm₁ => ?_)
  cases paid with
  | false => exact halt_safe hm₁ .outOfGas
  | true =>
    rw [if_pos rfl]
    cases p.compute m.frame.message.input with
    | none => exact halt_safe hm₁ .precompileFailure
    | some output => exact modifyFrame_safe hm₁ (hm₁.frame.of_eq rfl rfl rfl) (by simp)

theorem startCall_safe (hm : m.Sound data s.store) (hsender : m.frame.message.sender.Known data) :
    Ends (startCall s) m (Safe data s.store) := by
  refine bind_ends_of_ok rfl ?_
  refine transferValue_bind_safe hm hsender hm.frame.recipient_known fun m₁ hm₁ _ => ?_
  refine bind_ends_of_ok rfl ?_
  cases s.precompiles[m.frame.message.contract]? with
  | none => exact state_safe hm₁ (by decide)
  | some p => exact runPrecompile_safe hm₁ p

theorem isTaken_bind_safe (hm : m.Sound data s.store) {address : Address}
    (haddress : address.Known data) {f : Bool → Lifecycle β}
    {Q : Except ExitFatal β → Machine → Prop} (hf : ∀ taken, Ends (f taken s) m Q) :
    Ends ((isTaken address >>= f) s) m Q := by
  have htaken : Ends (isTaken address s) m fun r m' => m' = m ∧ ∃ taken, r = .ok taken := by
    refine reading_bind_safe hm (Journal.answered_codeHash haddress) fun codeHash => ?_
    by_cases h : codeHash ≠ 0 ∧ codeHash ≠ Store.emptyCodeHash
    · rw [if_pos h]
      exact ⟨rfl, true, rfl⟩
    · rw [if_neg h]
      exact reading_bind_safe hm (Journal.answered_nonce haddress) fun nonce => ⟨rfl, _, rfl⟩
  refine Ends.bind (htaken.mono ?_)
  rintro _ _ ⟨rfl, taken, rfl⟩
  exact hf taken

theorem startCreation_safe (hm : m.Sound data s.store)
    (hsender : m.frame.message.sender.Known data) :
    Ends (startCreation s) m (Safe data s.store) := by
  have haddress := hm.frame.contract_known
  refine bind_ends_of_ok rfl (isTaken_bind_safe hm haddress fun taken => ?_)
  cases taken with
  | true => exact halt_safe hm .createCollision
  | false =>
    refine transferValue_bind_safe hm hsender haddress fun m₁ hm₁ _ => bind_ends_of_ok rfl ?_
    by_cases hincrease : s.config.createIncreaseNonce
    · rw [if_pos hincrease]
      refine changing_bind_safe hm₁ (Journal.succeeds_incrementNonce haddress) fun _ m₂ hm₂ _ => ?_
      exact state_safe hm₂ (by decide)
    · rw [if_neg hincrease]
      exact state_safe hm₁ (by decide)

/-- **The start of a frame** does not fail. -/
theorem start_safe (hm : m.Sound data s.store) (hmessage : m.frame.message.hashed ⊆ data) :
    Ends (start s) m (Safe data s.store) := by
  have hsender : m.frame.message.sender.Known data := hmessage List.mem_cons_self
  refine bind_ends_of_ok rfl ?_
  cases m.frame.message.kind with
  | call => exact startCall_safe hm hsender
  | creation => exact startCreation_safe hm hsender

/-! ## The end of the code -/

theorem deploy_safe (hm : m.Sound data s.store) (houtput : m.frame.output ∈ data) :
    Ends (deploy s) m (Safe data s.store) := by
  refine bind_ends_of_ok rfl (bind_ends_of_ok rfl ?_)
  by_cases hlimit : s.config.createContractLimit.any (· < m.frame.output.length)
  · rw [if_pos hlimit]
    exact halt_safe hm .createContractLimit
  rw [if_neg hlimit]
  refine tryCharge_bind_safe hm fun paid m₁ hm₁ => ?_
  cases paid with
  | true =>
    have hsucceeds := Journal.succeeds_setCode hm.frame.contract_known houtput
    exact changing_bind_safe hm₁ hsucceeds fun _ m₂ hm₂ _ => state_safe hm₂ (by decide)
  | false =>
    rw [if_neg Bool.false_ne_true]
    by_cases hfails : s.config.exceptionalFailureOnCodeDeposit
    · rw [if_pos hfails]
      exact halt_safe hm₁ .outOfGas
    · rw [if_neg hfails]
      exact state_safe hm₁ (by decide)

theorem succeed_safe (hm : m.Sound data s.store)
    (houtput : m.frame.message.kind = .creation → m.frame.output ∈ data) :
    Ends (succeed s) m (Safe data s.store) := by
  refine bind_ends_of_ok rfl ?_
  cases hkind : m.frame.message.kind with
  | call => exact state_safe hm (by decide)
  | creation => exact deploy_safe hm (houtput hkind)

theorem sound_failed {f : Frame} (h : f.Sound data) : (failed f).Sound data := by
  rw [failed]
  split <;> exact h.of_eq rfl rfl rfl

theorem failed_safe (h : Safe data s.store (.ok ()) m) :
    Ends (modifyFrame failed s) m (Safe data s.store) := by
  refine ⟨rfl, ⟨h.sound.journal, sound_failed h.sound.frame⟩, fun hsuspended => ?_⟩
  have heq := failed_of_suspended hsuspended
  dsimp only at hsuspended ⊢
  rw [heq] at hsuspended ⊢
  exact h.waits hsuspended

theorem afterCode_safe (h : Safe data s.store (.ok ()) m) (hknown : m.frame.deployed ⊆ data) :
    Ends (afterCode s) m (Safe data s.store) := by
  refine when_ends (fun hstate => ?_) fun _ => failed_safe h
  have houtput : m.frame.message.kind = .creation → m.frame.output ∈ data := by
    intro hkind
    rw [Frame.deployed, if_pos ⟨hkind, hstate⟩] at hknown
    exact hknown List.mem_cons_self
  obtain ⟨m₁, hrun, h₁⟩ := Run.exists_of_safe (succeed_safe h.sound houtput)
  exact .ok hrun (failed_safe h₁)

/-! ## One frame -/

/-- The bytes that a frame hashes while it advances. -/
def hashed (s : Setting) (m : Machine) : List Bytes :=
  m.frame.message.hashed ++
    after (if m.frame.state = .notStarted then start s m else .ok () m) fun _ m₁ =>
      Run.hashed s.toContext (m₁.frame.gas + 1) m₁ ++
        after (Run.toHalt s.toContext m₁) fun _ m₂ => m₂.frame.deployed

theorem afterStart_safe (h : Safe data s.store (.ok ()) m)
    (hknown : Run.hashed s.toContext (m.frame.gas + 1) m ++
      after (Run.toHalt s.toContext m) (fun _ m₁ => m₁.frame.deployed) ⊆ data) :
    Ends (afterStart s) m (Safe data s.store) := by
  obtain ⟨hcode, hdeployed⟩ := List.append_subset.mp hknown
  refine when_ends (fun hstate => ?_) fun hstate => ?_
  · have hhalts : Ends (Run.toHalt s.toContext) m (Safe data s.store) :=
      bind_ends_of_ok rfl (Run.steps_safe h hcode)
    obtain ⟨m₁, hrun, h₁⟩ := Run.exists_of_safe hhalts
    rw [hrun] at hdeployed
    exact .ok hrun (afterCode_safe h₁ hdeployed)
  · have hrun : Run.toHalt s.toContext m = .ok () m := Run.steps_eq_of_ne hstate
    rw [hrun] at hdeployed
    exact afterCode_safe h hdeployed

theorem work_safe (h : Safe data s.store (.ok ()) m) (hknown : hashed s m ⊆ data) :
    Ends (work s) m (Safe data s.store) := by
  obtain ⟨hmessage, hknown⟩ := List.append_subset.mp hknown
  refine when_ends (fun hstate => ?_) fun hstate => ?_
  · obtain ⟨m₁, hrun, h₁⟩ := Run.exists_of_safe (start_safe h.sound hmessage)
    rw [if_pos hstate, hrun] at hknown
    exact .ok hrun (afterStart_safe h₁ hknown)
  · rw [if_neg hstate] at hknown
    exact afterStart_safe h hknown

/-- Accounts that are known are created without fail. -/
theorem forM_getOrCreate_safe {l : List Address} (hl : ∀ address ∈ l, address.Known data)
    (hm : m.Sound data s.store) :
    Ends ((l.forM fun address => changing (Journal.getOrCreate · address)) s) m
      fun r m' => r = .ok () ∧ m'.Sound data s.store ∧ m'.frame = m.frame := by
  induction l generalizing m with
  | nil => exact ⟨rfl, hm, rfl⟩
  | cons address l ih =>
    have hsucceeds := Journal.succeeds_getOrCreate (hl address List.mem_cons_self)
    refine changing_bind_safe hm hsucceeds fun _ m₁ hm₁ hframe => ?_
    exact hframe ▸ ih (fun a ha => hl a (List.mem_cons_of_mem _ ha)) hm₁

theorem settleScope_safe (h : Safe data s.store (.ok ()) m) :
    Ends (settleScope s) m (Safe data s.store) := by
  refine bind_ends_of_ok rfl ?_
  cases hstate : m.frame.state with
  | completedSuccess =>
    obtain ⟨_, j, hcommit, hj⟩ := Journal.succeeds_commit _ _ h.sound.journal
    exact .ok (Machine.changing_eq hcommit) ⟨rfl, ⟨hj, h.sound.frame⟩, h.waits⟩
  | completedFailed =>
    refine bind_ends_of_ok rfl (bind_ends_of_ok rfl (bind_ends_of_ok rfl ?_))
    have hreverted : Machine.Sound data s.store { m with journal := m.journal.revert } :=
      ⟨h.sound.journal.revert, h.sound.frame⟩
    refine (forM_getOrCreate_safe (fun address haddress => ?_) hreverted).mono ?_
    · exact h.sound.journal.known_of_touched (List.mem_of_mem_filter haddress)
    · rintro _ m₁ ⟨rfl, hm₁, hframe⟩
      exact ⟨rfl, hm₁, fun hsuspended => hframe ▸ h.waits (hframe ▸ hsuspended)⟩
  | _ => exact h

/-- **A frame that advances** on a sound machine does not fail, and if it waits then, it has a
child to run and can go on. -/
theorem advance_safe (h : Safe data s.store (.ok ()) m) (hknown : hashed s m ⊆ data) :
    Ends (advance s) m (Safe data s.store) := by
  rw [advance_eq]
  obtain ⟨m₁, hwork, h₁⟩ := Run.exists_of_safe (work_safe h hknown)
  exact bind_ends_of_ok hwork (settleScope_safe h₁)

/-! ## One round -/

/-- What holds before a round: the frame is about to run, and its parents can go on. -/
structure Standing (data : List Bytes) (store : Store) (parents : List Frame) (m : Machine) :
    Prop where
  journal : m.journal.Sound data store
  state : m.frame.state = .notStarted ∨ m.frame.state = .codeExecuting
  memory : m.frame.memory.Tame
  destroyed : ∀ address ∈ m.frame.selfDestructs, address.Known data
  parents : ∀ parent ∈ parents, parent.Sound data ∧ parent.Awaits

/-- A round did not fail, and the next one can run unless the root has completed. -/
def SafeRound (data : List Bytes) (store : Store) (r : Except ExitFatal Round) (m' : Machine) :
    Prop :=
  ∃ result, r = .ok result ∧ match result with
    | .more parents => Standing data store parents m'
    | .done => m'.Sound data store

/-- A frame that is about to run is sound if its message is known. -/
theorem Standing.safe (h : Standing data s.store parents m)
    (hmessage : m.frame.message.hashed ⊆ data) : Safe data s.store (.ok ()) m := by
  refine ⟨rfl, ⟨h.journal, ?_, ?_, h.memory, h.destroyed⟩, fun hsuspended => ?_⟩
  · exact hmessage (List.mem_cons_of_mem _ List.mem_cons_self)
  · exact hmessage (List.mem_cons_of_mem _ (List.mem_cons_of_mem _ List.mem_cons_self))
  · rcases h.state with hstate | hstate <;> cases hstate.symm.trans hsuspended

theorem descend_safe (h : Safe data s.store (.ok ()) m) (hstate : m.frame.state = .codeSuspended)
    (hparents : ∀ parent ∈ parents, parent.Sound data ∧ parent.Awaits) :
    Ends (descend parents s) m (SafeRound data s.store) := by
  obtain ⟨⟨hresume, hroom⟩, message, hchild⟩ := h.waits hstate
  refine bind_ends_of_ok rfl ?_
  rw [Frame.takeChild, hchild]
  refine ⟨_, rfl, h.sound.journal.enter, .inl rfl, ?_, fun address haddress => ?_, ?_⟩
  · change (Memory.empty m.frame.memory.limit).Tame
    rw [h.sound.frame.memory.limit_eq]
    exact Memory.tame_empty
  · exact absurd haddress Std.ExtTreeSet.not_mem_empty
  · refine List.forall_mem_cons.mpr ⟨⟨?_, hresume, hroom⟩, hparents⟩
    exact h.sound.frame.of_eq rfl rfl rfl

theorem ascend_safe {parent : Frame} {rest : List Frame} (hm : m.Sound data s.store)
    (hparents : ∀ f ∈ parent :: rest, f.Sound data ∧ f.Awaits) :
    Ends (ascend parent rest s) m (SafeRound data s.store) := by
  obtain ⟨⟨hparent, hawaits⟩, hrest⟩ := List.forall_mem_cons.mp hparents
  refine bind_ends_of_ok rfl (bind_ends_of_ok rfl ?_)
  have hresumed : Machine.Sound data s.store
      { m with frame := parent, trace := m.trace.emit m.frame.endEvent } := ⟨hm.journal, hparent⟩
  refine Ends.bind ((Machine.resume_safe hresumed hawaits hm.frame.destroyed).mono ?_)
  rintro _ m₁ ⟨rfl, hm₁, hexecuting⟩
  exact ⟨_, rfl, hm₁.journal, .inr hexecuting, hm₁.frame.memory, hm₁.frame.destroyed, hrest⟩

theorem unwinding_eq_of_ok {program : Lifecycle α} {a : α} (n : Nat)
    (h : program s m = .ok a m') : unwinding n program s m = .ok a m' := by
  rw [unwinding, h]

/-- What does not fail has nothing to unwind. -/
theorem unwinding_safe {program : Lifecycle Round} (n : Nat)
    (h : Ends (program s) m (SafeRound data s.store)) :
    Ends (unwinding n program s) m (SafeRound data s.store) := by
  cases hprogram : program s m with
  | ok result m' => exact .ok (unwinding_eq_of_ok n hprogram) (h.of_ok hprogram)
  | error e m' => obtain ⟨_, ⟨⟩, -⟩ := h.of_error hprogram

/-- **A round** does not fail. -/
theorem round_safe (h : Standing data s.store parents m) (hknown : hashed s m ⊆ data) :
    Ends (round parents s) m (SafeRound data s.store) := by
  have hmessage := (List.append_subset.mp hknown).1
  obtain ⟨m₁, hadvance, h₁⟩ := Run.exists_of_safe (advance_safe (h.safe hmessage) hknown)
  refine bind_ends_of_ok (unwinding_eq_of_ok _ hadvance) (bind_ends_of_ok rfl ?_)
  by_cases hstate : m₁.frame.state = .codeSuspended
  · rw [if_pos hstate]
    exact unwinding_safe _ (descend_safe h₁ hstate h.parents)
  · rw [if_neg hstate]
    cases parents with
    | nil => exact ⟨.done, rfl, h₁.sound⟩
    | cons parent rest => exact unwinding_safe _ (ascend_safe h₁.sound h.parents)

/-! ## Whole trees -/

/-- The bytes that at most `fuel` rounds hash. -/
def hashedRounds (s : Setting) : Nat → List Frame → Machine → List Bytes
  | 0, _, _ => []
  | fuel + 1, parents, m => hashed s m ++ after (round parents s m) fun result m' =>
    match result with
    | .more parents => hashedRounds s fuel parents m'
    | .done => []

/-- The bytes that the frames of a tree hash. -/
def hashedTree (s : Setting) (m : Machine) : List Bytes :=
  hashedRounds s (2 * m.frame.gas + 2) [] { m with journal := m.journal.enter }

/-- A tree did not fail, and left a sound journal and deletions of known accounts. -/
structure SafeTree (data : List Bytes) (store : Store) (r : Except ExitFatal Unit) (m' : Machine) :
    Prop where
  returned : r = .ok ()
  journal : m'.journal.Sound data store
  destroyed : ∀ address ∈ m'.frame.selfDestructs, address.Known data

/-- **Rounds one after the other** do not fail. -/
theorem rounds_safe {fuel : Nat} (h : Standing data s.store parents m)
    (hknown : hashedRounds s fuel parents m ⊆ data) :
    Ends (rounds fuel parents s) m (SafeTree data s.store) := by
  induction fuel generalizing parents m with
  | zero => exact ⟨rfl, h.journal, h.destroyed⟩
  | succ fuel ih =>
    obtain ⟨hround, hrest⟩ := List.append_subset.mp hknown
    refine Ends.bind_of_run (fun result m₁ hrun => ?_) fun e m₁ hrun => ?_
    · obtain ⟨_, ⟨⟩, hnext⟩ := (round_safe h hround).of_ok hrun
      rw [hrun] at hrest
      cases result with
      | more parents' => exact ih hnext hrest
      | done => exact ⟨rfl, hnext.journal, hnext.frame.destroyed⟩
    · obtain ⟨_, ⟨⟩, -⟩ := (round_safe h hround).of_error hrun

/-- **A tree of frames** does not fail, over a sound journal. -/
theorem runTree_safe (hm : m.journal.Sound data s.store) {config : Config} {block : Block}
    {message : Message} (hframe : m.frame = .new config block message)
    (hlimit : config.memoryLimit = Quantity.max) (hknown : hashedTree s m ⊆ data) :
    Ends (runTree s) m (SafeTree data s.store) := by
  refine bind_ends_of_ok rfl (bind_ends_of_ok rfl (rounds_safe ?_ hknown))
  refine ⟨hm.enter, .inl (hframe ▸ rfl), ?_, fun address haddress => ?_, List.forall_mem_nil _⟩
  · change m.frame.memory.Tame
    rw [hframe]
    change (Memory.empty config.memoryLimit).Tame
    exact hlimit ▸ Memory.tame_empty
  · change address ∈ m.frame.selfDestructs at haddress
    rw [hframe] at haddress
    exact absurd haddress Std.ExtTreeSet.not_mem_empty

end Lifecycle
end Ethereum
