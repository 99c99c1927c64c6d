/-
# What frames gather

A log, a slot that is written and an account that deletes itself are effects that count in the end
only if their frame and all frames around it succeed (`Effect`).  What an instruction leaves is read
off the machine before it (`Instruction.effects`): a log has the topics and the data that its
operands tell, and a slot pays back what its value before and the new one tell.

A frame gathers its effects in the order in which its instructions are executed
(`Run.steps_counts`), and behind them, where a child succeeded, those that the child gathered
(`Frame.counts_resumed`).  Refunds are summed up to the largest signed quantity, which may be done
in any parts since none is negative (`Effect.refunds_append`).
-/

import Mathlib
import Ethereum.Proofs.Interpreter.Resuming
import Ethereum.Proofs.Interpreter.Sparing
import Ethereum.Proofs.Interpreter.Stepping

namespace Ethereum

/-- What an instruction leaves that counts only if the frame and all frames around it succeed. -/
inductive Effect where
  | logged (log : Log)
  /-- A slot of the own account was written, which had a value before. -/
  | stored (current new : Word)
  /-- The own account deleted itself. -/
  | destroyed (recipient : Address)
deriving DecidableEq, Repr

namespace Effect

/-- The log that was left. -/
def log? : Effect → Option Log
  | logged log => some log
  | _ => none

/-- The account that deleted itself. -/
def recipient? : Effect → Option Address
  | destroyed recipient => some recipient
  | _ => none

/-- What is paid back for a slot that was cleared. -/
def refund : Effect → Int
  | stored current new => Gas.sstoreRefund current new
  | _ => 0

/-- The logs that were left, in their order. -/
def logs (es : List Effect) : List Log := es.filterMap log?

/-- The accounts that deleted themselves. -/
def recipients (es : List Effect) : Finset Address := (es.filterMap recipient?).toFinset

/-- What is paid back for all slots, up to the largest signed quantity. -/
def refunds (es : List Effect) : Int := min (es.map refund).sum Quantity.signedMax

variable {es es' : List Effect}

/-- What is paid back for a slot is no debt, and a signed quantity. -/
theorem refund_mem (e : Effect) : 0 ≤ e.refund ∧ e.refund ≤ Quantity.signedMax := by
  have hzero : (0 : Int) ≤ 0 ∧ 0 ≤ Quantity.signedMax := by decide
  cases e with
  | stored current new =>
    show 0 ≤ Gas.sstoreRefund current new ∧ Gas.sstoreRefund current new ≤ Quantity.signedMax
    unfold Gas.sstoreRefund
    by_cases hcleared : current ≠ 0 ∧ new = 0
    · rw [if_pos hcleared]
      decide
    · rw [if_neg hcleared]
      exact hzero
  | _ => exact hzero

theorem sum_refund_nonneg (es : List Effect) : 0 ≤ (es.map refund).sum := by
  refine List.sum_nonneg fun n hn => ?_
  obtain ⟨e, -, rfl⟩ := List.mem_map.mp hn
  exact e.refund_mem.1

theorem logs_append : logs (es ++ es') = logs es ++ logs es' := List.filterMap_append

theorem mem_recipients {address : Address} :
    address ∈ recipients es ↔ .destroyed address ∈ es := by
  rw [recipients, List.mem_toFinset, List.mem_filterMap]
  constructor
  · rintro ⟨e, he, hrecipient⟩
    cases e with
    | destroyed recipient =>
      obtain rfl := Option.some.inj hrecipient
      exact he
    | _ => cases hrecipient
  · exact fun h => ⟨_, h, rfl⟩

theorem recipients_append : recipients (es ++ es') = recipients es ∪ recipients es' := by
  simp only [recipients, List.filterMap_append, List.toFinset_append]

theorem refunds_singleton (e : Effect) : refunds [e] = e.refund := by
  rw [refunds, List.map_singleton, List.sum_singleton]
  exact min_eq_left e.refund_mem.2

/-- **Saturating sums of refunds** are counted in any parts. -/
theorem refunds_append : refunds (es ++ es') = Gas.countRefund (refunds es) (refunds es') := by
  have hes := sum_refund_nonneg es
  have hes' := sum_refund_nonneg es'
  simp only [refunds, Gas.countRefund, Quantity.satAddSigned, Quantity.signedMax,
    Quantity.signedMin, List.map_append, List.sum_append]
  omega

end Effect

/-! ## What is gathered -/

/-- What a frame has gathered: logs, a refund, and accounts to delete. -/
structure Tally where
  logs : Array Log
  refund : Int
  selfDestructs : Std.ExtTreeSet Address

/-- What the frame has gathered. -/
def Frame.tally (f : Frame) : Tally := ⟨f.logs, f.refund, f.selfDestructs⟩

theorem Frame.Quiet.tally_eq {f f' : Frame} (h : f.Quiet f') : f'.tally = f.tally := by
  rw [Frame.Quiet] at h
  rw [h]
  rfl

/-- What was gathered are these effects. -/
structure Tally.Counts (t : Tally) (es : List Effect) : Prop where
  logs_eq : t.logs.toList = Effect.logs es
  refund_eq : t.refund = Effect.refunds es
  mem_iff : ∀ address, address ∈ t.selfDestructs ↔ address ∈ Effect.recipients es

namespace Frame

variable {f child : Frame} {es es' : List Effect}

theorem counts_ofMessage (message : Message) (block : Block) (stackLimit memoryLimit : Nat) :
    (ofMessage message block stackLimit memoryLimit).tally.Counts [] := by
  constructor
  · rfl
  · rfl
  · intro address
    simp [tally, ofMessage, Effect.recipients]

/-- The frame with one more effect. -/
def credit (f : Frame) : Effect → Frame
  | .logged log => f.addLog log
  | .stored current new => f.addRefund (Gas.sstoreRefund current new)
  | .destroyed recipient => f.addSelfDestruct recipient

/-- **One more effect** is counted last. -/
theorem counts_credit (h : f.tally.Counts es) (e : Effect) :
    (f.credit e).tally.Counts (es ++ [e]) := by
  obtain ⟨hlogs, hrefund, hmem⟩ := h
  constructor
  · rw [Effect.logs_append]
    cases e with
    | logged log =>
      show (f.logs.push log).toList = _
      rw [Array.toList_push]
      exact congrArg (· ++ [log]) hlogs
    | _ => exact hlogs.trans (List.append_nil _).symm
  · rw [Effect.refunds_append, Effect.refunds_singleton, ← hrefund]
    have hle : f.refund ≤ Quantity.signedMax := hrefund.trans_le (min_le_right _ _)
    have hnonneg : 0 ≤ f.refund :=
      hrefund.ge.trans' (le_min (Effect.sum_refund_nonneg es) (by decide))
    have hzero : f.refund = Gas.countRefund f.refund 0 := by
      unfold Gas.countRefund Quantity.satAddSigned Quantity.signedMin
      omega
    cases e with
    | stored current new => rfl
    | _ => exact hzero
  · intro address
    rw [Effect.recipients_append, Finset.mem_union, ← hmem]
    cases e with
    | destroyed recipient =>
      show address ∈ f.selfDestructs.insert recipient ↔ _
      rw [Std.ExtTreeSet.mem_insert, Std.compare_eq_iff_eq, or_comm, eq_comm]
      exact or_congr_right Finset.mem_singleton.symm
    | _ => exact (or_iff_left (Finset.notMem_empty address)).symm

/-- **A child that succeeded** leaves its parent what it gathered, behind what the parent has. -/
theorem counts_absorb (h : f.tally.Counts es) (h' : child.tally.Counts es') :
    ((f.absorb child).addRefund child.refund).tally.Counts (es ++ es') := by
  constructor
  · show (f.logs ++ child.logs).toList = _
    rw [Array.toList_append, Effect.logs_append]
    exact congrArg₂ (· ++ ·) h.logs_eq h'.logs_eq
  · show Gas.countRefund f.refund child.refund = _
    rw [Effect.refunds_append]
    exact congrArg₂ Gas.countRefund h.refund_eq h'.refund_eq
  · intro address
    show address ∈ (f.absorb child).selfDestructs ↔ _
    rw [mem_absorb, Effect.recipients_append, Finset.mem_union]
    exact or_congr (h.mem_iff address) (h'.mem_iff address)

/-- **A parent goes on** with what a child gathered that succeeded, and else with its own. -/
theorem counts_resumed (h : f.tally.Counts es) (h' : child.tally.Counts es') :
    (f.resumed child).tally.Counts
      (es ++ if child.state = .completedSuccess then es' else []) := by
  show (f.inherit child).tally.Counts _
  rw [inherit]
  by_cases hsuccess : child.state = .completedSuccess
  · rw [if_pos hsuccess, if_pos hsuccess]
    exact counts_absorb (f := f.giveGas child.gas) h h'
  · rw [if_neg hsuccess, if_neg hsuccess, List.append_nil]
    exact h

end Frame

/-! ## Operands -/

/-- The machine with another stack. -/
def Machine.restack (m : Machine) (stack : Stack) : Machine :=
  { m with frame := { m.frame with stack } }

namespace Exec

variable {c : Context} {m : Machine}

/-- **Going on with the top item**, over a machine that differs in its stack alone. -/
theorem pop_bind_restacks {α : Type} {f : Word → Exec α} {Q : Except ExitReason α → Machine → Prop}
    (herror : m.frame.stack.items = [] → Q (.error (.error .stackUnderflow)) m)
    (hok : ∀ w stack, m.frame.stack.items = w :: stack.items → Ends (f w c) (m.restack stack) Q) :
    Ends ((pop >>= f) c) m Q := by
  cases hitems : m.frame.stack.items with
  | nil =>
    have hpop : m.frame.stack.pop = .error .stackUnderflow := by
      rw [Stack.pop, hitems]
    refine Ends.bind (bind_ends_of_ok rfl (lift_bind_ends (fun e he => ?_) fun x hx => ?_))
    · rw [hpop] at he
      cases he
      exact herror hitems
    · rw [hpop] at hx
      cases hx
  | cons w rest =>
    exact bind_ends_of_ok (pop_eq hitems) (hok w ⟨rest, m.frame.stack.room + 1⟩ hitems)

theorem popMany_restacks (n : Nat) : Ends (popMany n c) m fun r m' =>
    (∃ stack, m' = m.restack stack) ∧
      ∀ words, r = .ok words → words = m.frame.stack.items.take n := by
  induction n generalizing m with
  | zero =>
    refine ⟨⟨m.frame.stack, rfl⟩, ?_⟩
    rintro _ ⟨⟩
    rfl
  | succ n ih =>
    refine pop_bind_restacks (fun _ => ⟨⟨m.frame.stack, rfl⟩, nofun⟩) fun w stack hitems => ?_
    refine Ends.bind (ih.mono ?_)
    rintro r _ ⟨⟨stack', rfl⟩, hwords⟩
    cases r with
    | error e => exact ⟨⟨stack', rfl⟩, nofun⟩
    | ok words =>
      refine ⟨⟨stack', rfl⟩, ?_⟩
      rintro _ ⟨⟩
      rw [hitems, List.take_succ_cons, hwords words rfl]
      rfl

/-- Going on with the number of a word that is a quantity. -/
theorem quantity_bind_ends {α : Type} {w : Word} {f : Nat → Exec α}
    {Q : Except ExitReason α → Machine → Prop} (herror : ∀ e, Q (.error (.fatal e)) m)
    (hok : Ends (f w.toNat c) m Q) : Ends ((quantity w >>= f) c) m Q := by
  unfold quantity Word.toQuantity?
  by_cases hle : w.toNat ≤ Quantity.max
  · rw [if_pos hle]
    exact bind_ends_of_ok rfl hok
  · rw [if_neg hle]
    exact herror .notSupported

/-- What is read off the memory was there before it grew. -/
theorem readMemory_ends (offset len : Word) : Ends (readMemory offset len c) m fun r m' =>
    m.Quiet m' ∧ ∀ data, r = .ok data → data = m.frame.memory.get offset.toNat len.toNat := by
  have hgrow : Ends (growMemory offset len c) m fun _ m' =>
      m.Quiet m' ∧ m'.frame.memory.data = m.frame.memory.data :=
    bind_ends_of_ok rfl (lift_bind_ends (fun _ _ => ⟨.refl m, rfl⟩) fun _ _ => ⟨⟨rfl, rfl⟩, rfl⟩)
  refine Ends.bind (hgrow.mono ?_)
  rintro (e | ⟨⟩) m₁ ⟨hquiet, hdata⟩
  · exact ⟨hquiet, nofun⟩
  have hget (start length : Nat) :
      m₁.frame.memory.get start length = m.frame.memory.get start length := by
    unfold Memory.get Memory.byteAt
    rw [hdata]
  by_cases hlen : len = 0
  · rw [if_pos hlen, hlen]
    refine ⟨hquiet, ?_⟩
    rintro _ ⟨⟩
    rfl
  · rw [if_neg hlen]
    refine quantity_bind_ends (fun e => ⟨hquiet, nofun⟩) ?_
    refine quantity_bind_ends (fun e => ⟨hquiet, nofun⟩) ⟨hquiet, ?_⟩
    rintro _ ⟨⟩
    exact hget _ _

end Exec

/-! ## What instructions leave -/

/-- Whether code ended well. -/
def ExitReason.endsWell : ExitReason → Bool
  | succeed _ => true
  | _ => false

namespace Instruction

variable {c : Context} {m m' : Machine} {es : List Effect}

/-- The effects of an instruction that comes to `r` on a machine.  After a log and after a slot that
is written the code goes on, and it ends where the account deletes itself. -/
def effects (c : Context) (m : Machine) : Instruction → Except ExitReason Control → List Effect
  | log n, .ok _ =>
    match m.frame.stack.items with
    | offset :: len :: operands => [.logged ⟨m.frame.message.recipient, operands.take n,
        m.frame.memory.get offset.toNat len.toNat⟩]
    | _ => []
  | sstore, .ok _ =>
    match m.frame.stack.items with
    | key :: new :: _ =>
      match m.journal.slot c.store m.frame.message.recipient key with
      | .ok current => [.stored current new]
      | .error _ => []
    | _ => []
  | selfdestruct, .error (.succeed .selfDestructed) => [.destroyed m.frame.message.recipient]
  | _, _ => []

/-- An instruction after which the code does not go on leaves nothing, unless the account deletes
itself. -/
theorem effects_error {i : Instruction} {e : ExitReason}
    (he : i = selfdestruct → e ≠ .succeed .selfDestructed) : i.effects c m (.error e) = [] := by
  unfold effects
  split <;> simp_all

/-- An instruction that leaves nothing changes nothing of what its frame has gathered. -/
theorem counts_of_quiet {i : Instruction} {r : Except ExitReason Control}
    (h : m.frame.tally.Counts es) (hm : m.frame.Quiet m'.frame) (hr : i.effects c m r = []) :
    m'.frame.tally.Counts (es ++ i.effects c m r) := by
  rwa [hr, List.append_nil, hm.tally_eq]

open Exec

theorem log_counts (h : m.frame.tally.Counts es) (n : Fin 5) :
    Ends ((log n).execute c) m fun r m' =>
      (∀ e, r ≠ .error (.fatal e)) → m'.frame.tally.Counts (es ++ (log n).effects c m r) := by
  refine Ends.bind ?_
  refine pop_bind_restacks (fun _ _ => counts_of_quiet h rfl rfl) fun offset s₁ hoffset => ?_
  refine pop_bind_restacks (fun _ _ => counts_of_quiet h rfl rfl) fun len s₂ hlen => ?_
  refine Ends.bind ((popMany_restacks n).mono ?_)
  rintro (e | topics) _ ⟨⟨s₃, rfl⟩, htopics⟩
  · exact fun _ => counts_of_quiet h rfl rfl
  refine Ends.bind ((readMemory_ends offset len).mono ?_)
  rintro (e | data) m₄ ⟨h₄, hdata⟩
  · exact fun _ => counts_of_quiet h h₄.frame_quiet rfl
  intro _
  have hlen : s₁.items = len :: s₂.items := hlen
  have hleft : (log n).effects c m (.ok .next) =
      [.logged ⟨m.frame.message.recipient, topics, data⟩] := by
    rw [effects, hoffset, hlen, htopics topics rfl, hdata data rfl]
    rfl
  have hcredit := h₄.frame_quiet.map (fun f => f.addLog ⟨f.message.recipient, topics, data⟩)
    fun _ _ _ _ _ => rfl
  show Tally.Counts _ (es ++ (log n).effects c m (.ok .next))
  rw [hleft]
  exact hcredit.tally_eq ▸ Frame.counts_credit h (.logged ⟨m.frame.message.recipient, topics, data⟩)

theorem sstore_counts (h : m.frame.tally.Counts es) : Ends (sstore.execute c) m fun r m' =>
    (∀ e, r ≠ .error (.fatal e)) → m'.frame.tally.Counts (es ++ sstore.effects c m r) := by
  refine Ends.bind ?_
  refine pop_bind_restacks (fun _ _ => counts_of_quiet h rfl rfl) fun key s₁ hkey => ?_
  refine pop_bind_restacks (fun _ _ => counts_of_quiet h rfl rfl) fun new s₂ hnew => ?_
  refine bind_ends_of_ok rfl (reading_bind_ends (fun e hfatal => absurd rfl (hfatal _))
    fun current hcurrent => bind_ends_of_ok rfl (bind_ends_of_ok rfl
      (Machine.changing_ends (fun e j _ hfatal => absurd rfl (hfatal _)) fun _ j _ _ => ?_)))
  have hnew : s₁.items = new :: s₂.items := hnew
  have hcurrent : m.journal.slot c.store m.frame.message.recipient key = .ok current := hcurrent
  have hleft : sstore.effects c m (.ok .next) = [.stored current new] := by
    simp only [effects, hkey, hnew, hcurrent]
  show Tally.Counts _ (es ++ sstore.effects c m (.ok .next))
  rw [hleft]
  exact Frame.counts_credit h (.stored current new)

theorem selfdestruct_counts (h : m.frame.tally.Counts es) :
    Ends (selfdestruct.execute c) m fun r m' => (∀ e, r ≠ .error (.fatal e)) →
      m'.frame.tally.Counts (es ++ selfdestruct.effects c m r) := by
  refine Ends.bind ?_
  refine pop_bind_restacks (fun _ _ => counts_of_quiet h rfl rfl) fun w s₁ _ => ?_
  refine bind_ends_of_ok rfl (reading_bind_ends (fun e hfatal => absurd rfl (hfatal _))
    fun balance _ => ?_)
  refine Ends.bind (Machine.changing_ends (fun e j _ hfatal => absurd rfl (hfatal _))
    fun _ j₁ _ => ?_)
  refine Ends.bind (Machine.changing_ends (fun e j _ hfatal => absurd rfl (hfatal _))
    fun raised j₂ _ => ?_)
  refine Ends.bind (Machine.changing_ends (fun e j _ hfatal => absurd rfl (hfatal _))
    fun lowered j₃ _ _ => ?_)
  exact Frame.counts_credit h (.destroyed m.frame.message.recipient)

/-- Whether an instruction may have an effect. -/
def hasEffect : Instruction → Bool
  | sstore | log _ | selfdestruct => true
  | _ => false

theorem effects_eq_nil {i : Instruction} (h : i.hasEffect = false)
    (r : Except ExitReason Control) : i.effects c m r = [] := by
  cases i with
  | sstore | log | selfdestruct => cases h
  | _ => rfl

/-- **What an instruction leaves** is counted last. -/
theorem execute_counts (i : Instruction) (h : m.frame.tally.Counts es) :
    Ends (i.execute c) m fun r m' => (∀ e, r ≠ .error (.fatal e)) →
      m'.frame.tally.Counts (es ++ i.effects c m r) := by
  by_cases heffect : i.hasEffect
  · cases i with
    | sstore => exact sstore_counts h
    | log n => exact log_counts h n
    | selfdestruct => exact selfdestruct_counts h
    | _ => cases heffect
  · have hnil := effects_eq_nil (c := c) (m := m) (Bool.eq_false_of_not_eq_true heffect)
    refine (execute_outcome i).mono fun r m' houtcome hfatal => ?_
    rw [hnil, List.append_nil]
    cases houtcome with
    | quiet hquiet => exact hquiet.frame_quiet.tally_eq ▸ h
    | created value initCode salt nonce hi hspawn hnonce hframe => exact hframe.tally_eq ▸ h
    | called target value input code split resume hsplit hvalue hspawn hjournal hframe =>
      exact hframe.tally_eq ▸ h
    | refused value split hr hsplit hvalue hjournal hframe => exact hframe.tally_eq ▸ h
    | fatal => exact absurd rfl (hfatal _)
    | wrote => exact absurd rfl heffect
    | logged => exact absurd rfl heffect
    | destroyed => exact absurd rfl heffect

/-! ## What steps leave -/

section

variable (kind : ExitReason → Bool) (hcode : ∀ e, kind (.error e) = false)
  (hfatal : ∀ e, kind (.fatal e) = false)

include hcode hfatal

/-- The price of a deletion is refused for an error of the code or of the state, never because the
account deletes itself. -/
theorem spared_selfdestructCost (schedule : Gas.Schedule) (store : Store) (f : Frame)
    (j : Journal) : Spared kind (selfdestructCost schedule store f j) := by
  have code {α : Type} (x : Except ExitError α) : Spared kind (liftM x) :=
    .reason fun e _ => hcode e
  have state {α : Type} (x : Except StateError α) : Spared kind (liftM x) := .state hfatal x
  refine (code _).bind fun _ => (code _).bind fun _ => ?_
  exact (state _).bind fun _ => (state _).bind fun _ => (state _).bind fun _ => .ok _

/-- The price of writing a slot is refused for an error of the code or of the state. -/
theorem spared_sstoreCost (store : Store) (f : Frame) (j : Journal) :
    Spared kind (sstoreCost store f j) := by
  have code {α : Type} (x : Except ExitError α) : Spared kind (liftM x) :=
    .reason fun e _ => hcode e
  refine (code _).bind fun _ => (code _).bind fun _ => (code _).bind fun _ => ?_
  exact (Spared.state hfatal _).bind fun _ => .ok _

end

/-- An instruction that is refused its price leaves nothing. -/
theorem effects_of_cost {i : Instruction} {e : ExitReason}
    (h : i.cost c m.frame m.journal = .error e) : i.effects c m (.error e) = [] := by
  refine effects_error ?_
  rintro rfl rfl
  cases spared_selfdestructCost ExitReason.endsWell (fun _ => rfl) (fun _ => rfl) _ _ _ _ _ h

theorem perform_counts (i : Instruction) (h : m.frame.tally.Counts es) :
    Ends (i.perform c) m fun r m' => (∀ e, r ≠ .error (.fatal e)) →
      m'.frame.tally.Counts (es ++ i.effects c m r) := by
  refine perform_ends_of_price (fun _ _ he _ => counts_of_quiet h rfl (effects_of_cost he))
    (fun _ _ _ _ _ => counts_of_quiet h rfl (effects_error ?_)) fun _ _ _ _ => execute_counts i h
  rintro - ⟨⟩

end Instruction

theorem Frame.tally_advance (f : Frame) (size : Nat) (control : Control) :
    (f.advance size control).tally = f.tally := by
  cases control with
  | jump position =>
    show (if f.mayJumpTo position then _ else f.halt .invalidJump).tally = f.tally
    split <;> rfl
  | _ => rfl

theorem Frame.tally_leave {f f' : Frame} {reason : ExitReason} (h : f.leave reason = .ok f') :
    f'.tally = f.tally := by
  cases reason <;> cases h <;> rfl

namespace Run

variable {c : Context} {m : Machine} {es : List Effect}

/-- The effects of the instruction at the program counter. -/
def stepEffects (c : Context) (m : Machine) : List Effect :=
  if m.frame.pc < m.frame.program.size then
    match m.frame.instruction c.instructions with
    | .ok i =>
      match i.perform c m with
      | .ok control _ => i.effects c m (.ok control)
      | .error e _ => i.effects c m (.error e)
    | .error _ => []
  else []

/-- The effects of at most `fuel` steps, in their order. -/
def effects (c : Context) : Nat → Machine → List Effect
  | 0, _ => []
  | fuel + 1, m =>
    if m.frame.state = .codeExecuting then
      stepEffects c m ++ match step c m with
        | .ok _ m' => effects c fuel m'
        | .error _ _ => []
    else []

theorem stepEffects_of_instruction {i : Instruction} (hpc : m.frame.pc < m.frame.program.size)
    (hi : m.frame.instruction c.instructions = .ok i) :
    Ends (i.perform c) m fun r _ => stepEffects c m = i.effects c m r := by
  rw [Ends]
  cases hp : i.perform c m <;> simp only [stepEffects, if_pos hpc, hi, hp]

/-- **What a step leaves** is counted last. -/
theorem step_counts (h : m.frame.tally.Counts es) : Ends (step c) m fun r m' => r = .ok () →
    m'.frame.tally.Counts (es ++ stepEffects c m) := by
  refine step_ends_of (fun hpc _ => ?_) (fun e he _ => ?_) fun i hpc hi => ?_
  · rw [stepEffects, if_neg (not_lt.mpr hpc), List.append_nil]
    exact h
  · rw [stepEffects, he, ite_self, List.append_nil]
    exact h
  · have hperform := (Instruction.perform_counts i h).and (stepEffects_of_instruction hpc hi)
    refine perform_ends_of hperform
      (fun control m₁ h₁ _ => ?_) (fun reason m₁ f h₁ hleave _ => ?_) fun e m₁ _ => nofun
    · rw [Frame.tally_advance, h₁.2]
      exact h₁.1 nofun
    · rw [Frame.tally_leave hleave, h₁.2]
      refine h₁.1 ?_
      rintro e ⟨⟩
      cases hleave

/-- **What steps leave** is counted in their order. -/
theorem steps_counts (fuel : Nat) (h : m.frame.tally.Counts es) :
    Ends (steps fuel c) m fun r m' => r = .ok () →
      m'.frame.tally.Counts (es ++ effects c fuel m) := by
  induction fuel generalizing m es with
  | zero => exact fun _ => (List.append_nil es).symm ▸ h
  | succ fuel ih =>
    refine bind_ends_of_ok rfl ?_
    unfold effects
    by_cases hstate : m.frame.state = .codeExecuting
    · rw [if_pos hstate, if_pos hstate]
      refine Ends.bind_of_run (fun _ m₁ hstep => ?_) fun e m₁ _ => nofun
      rw [hstep, ← List.append_assoc]
      exact ih ((step_counts h).of_ok hstep rfl)
    · rw [if_neg hstate, if_neg hstate, List.append_nil]
      exact fun _ => h

end Run
end Ethereum
