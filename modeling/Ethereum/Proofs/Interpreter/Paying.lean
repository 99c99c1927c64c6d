/-
# Memory is charged once

A step grows the memory over the regions that its instruction names (`Run.step_covered`), and what a
child returns is written where the call has grown the memory before (`Machine.resume_keeps`).  The
price of a step includes what the growth costs (`Run.expansion_named`).  So in every run of a frame
the memory is as large as the farthest access so far, and what was paid for it is the price of that
size alone (`Run.memory_charged_once`).
-/

import Mathlib
import Ethereum.Proofs.Interpreter.Growing
import Ethereum.Proofs.Interpreter.Visiting

namespace Ethereum

/-! ## Steps -/

namespace Run

variable {c : Context} {first m : Machine} {words : Nat}

/-- The instruction that a step executes: it is there, the stack suits it, and it can be paid
for. -/
def executed? (c : Context) (m : Machine) : Option Instruction :=
  if m.frame.pc < m.frame.program.size then
    (m.frame.instruction c.instructions).toOption.filter fun i => (i.charged? c m).isSome
  else none

/-- The regions of memory that a step names. -/
def named (c : Context) (m : Machine) : List (Word × Word) :=
  ((executed? c m).map fun i => i.regions m.frame.stack.items).getD []

/-- What a step pays for growing the memory. -/
def growth (c : Context) (m : Machine) : Nat :=
  (m.frame.expansion (named c m)).toOption.getD 0

theorem named_of_instruction {i : Instruction} (hpc : m.frame.pc < m.frame.program.size)
    (hi : m.frame.instruction c.instructions = .ok i) :
    named c m = if (i.charged? c m).isSome then i.regions m.frame.stack.items else [] := by
  rw [named, executed?, if_pos hpc, hi, Except.toOption, Option.filter_some]
  split <;> rfl

/-- **A step** grows the memory over the regions that it names, unless it halts the frame
exceptionally. -/
theorem step_covered (hm : m.frame.Sized words) : Ends (step c) m fun _ m' =>
    m'.frame.state ≠ .exceptionalHalt → m'.frame.Sized (Memory.wordsOver words (named c m)) := by
  refine step_ends_of (fun hpc => ?_) (fun e _ hstate => absurd rfl hstate) fun i hpc hi => ?_
  · have hnamed : named c m = [] := by
      rw [named, executed?, if_neg (not_lt.mpr hpc)]
      rfl
    rw [hnamed]
    exact fun _ => hm.of_eq rfl rfl
  · have hperform := Instruction.perform_covered (c := c) i hm
    rw [← named_of_instruction hpc hi] at hperform
    refine perform_ends_of hperform (fun control m₁ h _ => h.sized.advance i.size control)
      (fun reason m₁ f h hleave hstate => ?_) fun e m₁ h _ => h nofun
    cases reason with
    | error e => exact absurd (Except.ok.inj hleave ▸ rfl) hstate
    | succeed how => exact Except.ok.inj hleave ▸ (h nofun).of_eq rfl rfl
    | revert => exact Except.ok.inj hleave ▸ (h nofun).of_eq rfl rfl
    | fatal e => cases hleave

end Run

/-! ## Going on after a child -/

namespace Machine

variable {m : Machine} {child : Frame} {words : Nat}

theorem continueWith_keeps (hm : m.frame.Sized words) (w : Word) :
    Ends (continueWith w) m fun _ m' => m'.frame.Sized words := by
  refine Ends.bind_of_ok rfl ?_
  cases m.frame.stack.push w with
  | ok stack => exact hm.of_eq rfl rfl
  | error e => exact hm

/-- A frame takes the output of a call to where it has memory for it. -/
theorem receive_keeps (hm : m.frame.Sized words) {success : Bool} {how : Resume}
    (hfits : ∀ offset length, how = .call offset length → offset + length ≤ 32 * words) :
    Ends (receive child success how) m fun _ m' => m'.frame.Sized words := by
  cases how with
  | create =>
    rw [receive]
    dsimp only
    split
    · exact continueWith_keeps hm _
    · refine Ends.bind_of_ok rfl (continueWith_keeps ?_ 0)
      exact hm.of_eq rfl rfl
  | call offset length =>
    have hle : offset + (child.output.take (min length child.output.length)).length ≤
        32 * words := by
      have hfits := hfits offset length rfl
      rw [List.length_take]
      omega
    refine Ends.bind (Ends.bind_of_ok rfl ?_)
    split
    · have hm₁ := hm.withMemory le_rfl (hm.memory.write hle)
      refine .ok rfl (Ends.bind_of_ok rfl (continueWith_keeps ?_ (Word.ofBool success)))
      exact hm₁.of_eq rfl rfl
    · exact hm

/-- **A frame goes on after its child** with as much memory as it had. -/
theorem resume_keeps (child : Frame) (hm : m.frame.Sized words) :
    Ends (resume child) m fun _ m' => m'.frame.Sized words := by
  refine Ends.bind_of_ok rfl ?_
  cases hresume : m.frame.resume with
  | none => exact hm
  | some how =>
    have hfits (offset length : Nat) (hcall : how = .call offset length) :
        offset + length ≤ 32 * words := hm.taken offset length (hresume.trans (congrArg some hcall))
    refine Ends.bind_of_ok rfl (Ends.bind_of_ok rfl ?_)
    by_cases hsuccess : child.state = .completedSuccess
    · rw [if_pos (decide_eq_true hsuccess)]
      refine Ends.bind_of_ok rfl (receive_keeps ?_ hfits)
      exact ⟨hm.memory, nofun⟩
    · rw [if_neg fun h => hsuccess (of_decide_eq_true h)]
      refine receive_keeps ?_ hfits
      exact ⟨hm.memory, nofun⟩

end Machine

/-! ## Runs -/

namespace Run

variable {c : Context} {first m : Machine} {regions : List (Word × Word)} {paid : Nat}

/-- The machines that a frame is seen in during a run from a first one, as long as it does not halt
exceptionally, with the regions of memory that were named so far, the last first, and the sum of
what was paid for growing the memory. -/
inductive Accesses (c : Context) (first : Machine) : List (Word × Word) → Nat → Machine → Prop
  | first : Accesses c first [] 0 first
  | step {regions : List (Word × Word)} {paid : Nat} {m : Machine}
    (h : Accesses c first regions paid m) (hstate : m.frame.state ≠ .exceptionalHalt) :
    Accesses c first (named c m ++ regions) (paid + growth c m) (stateAfter (step c) m)
  /-- A child was run, whatever it came to, and left any state. -/
  | resume {regions : List (Word × Word)} {paid : Nat} {m : Machine}
    (h : Accesses c first regions paid m) (hstate : m.frame.state ≠ .exceptionalHalt)
    (child : Frame) (j : Journal) (t : Trace) : Accesses c first regions paid
      (stateAfter (Machine.resume child) ⟨m.frame.takeChild.2, j, t⟩)

theorem exists_cost_of_executed {i : Instruction} (h : executed? c m = some i) :
    ∃ cost ≤ m.frame.gas, i.cost c m.frame m.journal = .ok cost := by
  rw [executed?] at h
  split at h
  · obtain ⟨cost, hcost⟩ := Option.isSome_iff_exists.mp (Option.filter_eq_some_iff.mp h).2
    obtain ⟨hcost, hle⟩ := Instruction.charged?_eq_some.mp hcost
    exact ⟨cost, hle, hcost⟩
  · cases h

/-- What a step names, it pays for. -/
theorem expansion_named (c : Context) (m : Machine) :
    m.frame.expansion (named c m) = .ok (growth c m) := by
  have hpriced : ∃ e, m.frame.expansion (named c m) = .ok e := by
    rw [named]
    cases hi : executed? c m with
    | none => exact ⟨0, rfl⟩
    | some i =>
      obtain ⟨cost, -, hcost⟩ := exists_cost_of_executed hi
      obtain ⟨e, -, he⟩ := Instruction.exists_expansion_of_cost hcost
      exact ⟨e, he⟩
  obtain ⟨e, he⟩ := hpriced
  rw [growth, he]
  rfl

/-- **What holds all along a run**: the memory has as many words as cover what was named, and their
price was paid. -/
theorem Accesses.sized {limit : Nat} (hmemory : first.frame.memory = .empty limit)
    (hresume : first.frame.resume = none) (h : Accesses c first regions paid m)
    (hstate : m.frame.state ≠ .exceptionalHalt) : m.frame.Sized (Memory.wordsOver 0 regions) ∧
      Gas.memory m.frame.memory.activeWords = .ok paid := by
  induction h with
  | first =>
    refine ⟨⟨hmemory ▸ Memory.sized_empty limit, ?_⟩, ?_⟩
    · rw [hresume]
      exact nofun
    · have hactive := (Memory.sized_empty limit).activeWords_eq
      rw [hmemory, Gas.memory_eq_ok (hactive ▸ Nat.zero_le _), hactive]
  | @step regions paid m h hstate' ih =>
    obtain ⟨hm, hpaid⟩ := ih hstate'
    obtain ⟨_, hstep⟩ := (step_covered (c := c) hm).exists_result
    replace hstep := hstep hstate
    rw [← Memory.wordsOver_append] at hstep
    refine ⟨hstep, ?_⟩
    obtain ⟨w, hw, hprice⟩ := Frame.memory_of_expansion hpaid (expansion_named c m)
    rw [hm.memory.activeWords_eq, ← Memory.wordsOver_append, ← hstep.memory.activeWords_eq] at hw
    rwa [← BitVec.eq_of_toNat_eq hw]
  | @resume regions paid m h hstate' child j t ih =>
    obtain ⟨hm, hpaid⟩ := ih hstate'
    have hparent : m.frame.takeChild.2.Sized (Memory.wordsOver 0 regions) := hm.of_eq rfl rfl
    have hkeeps := Machine.resume_keeps (m := ⟨m.frame.takeChild.2, j, t⟩) child hparent
    obtain ⟨_, hresumed⟩ := hkeeps.exists_result
    refine ⟨hresumed, ?_⟩
    have hactive := hresumed.memory.activeWords_eq.trans hm.memory.activeWords_eq.symm
    rwa [BitVec.eq_of_toNat_eq hactive]

/-- **Memory is charged once, whatever the order of accesses.**  Of a frame that began without
memory and does not halt exceptionally, the memory is as large as the farthest of all regions that
its instructions named, in words of 32 bytes that 32 bits count, and nothing lies beyond; and what
they were charged for growing it is in sum the price of so many words.  What an instruction is
charged for that is in its own price, on top of what it costs where all memory has been paid for. -/
theorem memory_charged_once {limit : Nat} (hmemory : first.frame.memory = .empty limit)
    (hresume : first.frame.resume = none) (h : Accesses c first regions paid m)
    (hstate : m.frame.state ≠ .exceptionalHalt) :
    (32 ∣ m.frame.memory.size.toNat ∧ m.frame.memory.size.toNat ≤ 32 * (2 ^ 32 - 1) ∧
      m.frame.memory.data.size ≤ m.frame.memory.size.toNat ∧
      m.frame.memory.activeWords.toNat = (regions.map Memory.wordsOf).foldr max 0 ∧
      Gas.memory m.frame.memory.activeWords = .ok paid) ∧
    ∀ i, executed? c m = some i → ∃ cost own base,
      i.cost c m.frame m.journal = .ok cost ∧ cost ≤ m.frame.gas ∧
      i.ownCost c m.frame m.journal = .ok own ∧ own ≤ cost ∧
      i.ownCost c m.frame.spacious m.journal = .ok base ∧ own = base + growth c m ∧
      m.frame.expansion (i.regions m.frame.stack.items) = .ok (growth c m) := by
  obtain ⟨hm, hpaid⟩ := h.sized hmemory hresume hstate
  have hactive := hm.memory.activeWords_eq
  have hle := Gas.le_of_memory hpaid
  refine ⟨⟨?_, ?_, ?_, hactive, hpaid⟩, fun i hi => ?_⟩
  · exact hm.memory.size_eq ▸ Nat.dvd_mul_right 32 _
  · rw [hm.memory.size_eq, ← hactive]
    exact Nat.mul_le_mul_left 32 hle
  · rw [hm.memory.size_eq]
    exact hm.memory.data_le
  · obtain ⟨cost, hgas, hcost⟩ := exists_cost_of_executed hi
    obtain ⟨own, hown, hle⟩ := Instruction.exists_ownCost_of_cost hcost
    obtain ⟨base, e, he, hbase, hsum⟩ := i.splits_ownCost own hown
    have hgrowth := expansion_named c m
    rw [named, hi] at hgrowth
    cases he.symm.trans hgrowth
    exact ⟨cost, own, base, hcost, hgas, hown, hle, hbase, hsum, he⟩

/-! ### A word stored, and a call -/

/-- A frame that is about to store a word in its third word of memory, and then to call account 3,
with its fourth word as input and its first one for the output. -/
def storingCaller : Machine where
  frame := { Frame.ofMessage {
      kind := .call, sender := 1, recipient := 2, contract := 2, originator := 1, gasPrice := 0,
      value := 0, apparentValue := 0, input := [], code := [0x52, 0xf1], gas := 100000, depth := 0,
      isStatic := false } ⟨0, 0, 0, 0, 0, #[]⟩ 1024 Quantity.max with
    state := .codeExecuting, stack := ⟨[64, 7, 100, 3, 0, 96, 32, 0, 32], 1015⟩ }
  journal := ((Journal.ofWorld .empty).put (.fresh 2 1 0)).put (.fresh 3 1 0)
  trace := .off

/-- It pays for three words, then for one more, and nothing for the output that it takes back. -/
theorem memory_charged_once_of_storingCaller :
    storingCaller.frame.memory = .empty Quantity.max ∧ storingCaller.frame.resume = none ∧
      ∃ m, Accesses bareContext storingCaller [(96, 32), (0, 32), (64, 32)] 12 m ∧
        m.frame.state = .codeExecuting ∧ m.frame.memory.activeWords.toNat = 4 ∧
        Gas.memory m.frame.memory.activeWords = .ok 12 := by
  let stored := stateAfter (step bareContext) storingCaller
  let called := stateAfter (step bareContext) stored
  have hfirst : storingCaller.frame.state ≠ .exceptionalHalt ∧
      named bareContext storingCaller = [(64, 32)] ∧ growth bareContext storingCaller = 9 := by
    decide +kernel
  have hstored : stored.frame.state ≠ .exceptionalHalt ∧
      named bareContext stored = [(96, 32), (0, 32)] ∧ growth bareContext stored = 3 := by
    decide +kernel
  have hcalled : called.frame.state ≠ .exceptionalHalt := by decide +kernel
  -- the callee returned a word
  let callee : Frame := { storingCaller.frame with
    state := .completedSuccess, output := List.replicate 32 1 }
  let resumed := stateAfter (Machine.resume callee)
    ⟨called.frame.takeChild.2, storingCaller.journal, .off⟩
  have hresumed : resumed.frame.state = .codeExecuting := by decide +kernel
  have hrun₁ : Accesses bareContext storingCaller [(64, 32)] 9 stored := by
    have hstep := (Accesses.first (c := bareContext)).step hfirst.1
    rwa [hfirst.2.1, hfirst.2.2] at hstep
  have hrun₂ : Accesses bareContext storingCaller [(96, 32), (0, 32), (64, 32)] 12 called := by
    have hstep := hrun₁.step hstored.1
    rwa [hstored.2.1, hstored.2.2] at hstep
  have hrun : Accesses bareContext storingCaller [(96, 32), (0, 32), (64, 32)] 12 resumed :=
    hrun₂.resume hcalled callee storingCaller.journal .off
  have hlive : resumed.frame.state ≠ .exceptionalHalt := by
    rw [hresumed]
    exact nofun
  obtain ⟨⟨-, -, -, hactive, hpaid⟩, -⟩ := memory_charged_once rfl rfl hrun hlive
  exact ⟨rfl, rfl, resumed, hrun, hresumed, hactive, hpaid⟩

end Run
end Ethereum
