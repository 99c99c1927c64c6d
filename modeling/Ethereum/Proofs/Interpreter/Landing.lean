/-
# Push data is never executed

The code starts an instruction at 0, and behind each instruction that it starts
(`InstructionStart`).  Two parts of the machine skip the data of pushes on their own: the scan for
jump destinations, which counts down the bytes that are still to skip (`JumpTable.skipAt`,
`JumpTable.isValid_ofCode`), and the sizes of the instructions (`Instruction.size_eq`).  They agree,
so whatever a frame does that begins at 0, its code stands at the start of an instruction or past
the end (`Run.push_data_never_executed`).
-/

import Mathlib
import Ethereum.Proofs.Interpreter.Visiting

namespace Ethereum

/-- The positions of some code where an instruction starts. -/
inductive InstructionStart (code : Bytes) : Nat → Prop
  | zero : InstructionStart code 0
  /-- A push of `n` bytes goes on behind them. -/
  | push {i n : Nat} (h : InstructionStart code i) (hn : 1 ≤ n ∧ n ≤ 32)
    (hbyte : code[i]? = some (UInt8.ofNat (0x5f + n))) : InstructionStart code (i + (1 + n))
  | other {i : Nat} {b : UInt8} (h : InstructionStart code i) (hbyte : code[i]? = some b)
    (hb : ∀ n, 1 ≤ n ∧ n ≤ 32 → b ≠ UInt8.ofNat (0x5f + n)) : InstructionStart code (i + 1)

namespace Opcode

/-- The number of data bytes behind a byte that starts an instruction. -/
def dataWidth (b : UInt8) : Nat := (pushWidth? b).getD 0

/-- A push of `n` bytes has them behind it. -/
theorem dataWidth_push {n : Nat} (hn : 1 ≤ n ∧ n ≤ 32) :
    dataWidth (UInt8.ofNat (0x5f + n)) = n := by
  obtain ⟨h₁, h₂⟩ := hn
  interval_cases n <;> rfl

/-- A byte is a push, or has no data. -/
theorem push_or_dataWidth_eq_zero (b : UInt8) :
    (∃ n, (1 ≤ n ∧ n ≤ 32) ∧ b = UInt8.ofNat (0x5f + n)) ∨
      dataWidth b = 0 ∧ ∀ n, 1 ≤ n ∧ n ≤ 32 → b ≠ UInt8.ofNat (0x5f + n) := by
  by_cases hpush : ∃ n, (1 ≤ n ∧ n ≤ 32) ∧ b = UInt8.ofNat (0x5f + n)
  · exact .inl hpush
  refine .inr ⟨?_, fun n hn hb => hpush ⟨n, hn, hb⟩⟩
  have hnone : indexIn? 0x60 32 b = none := by
    rw [indexIn?, if_neg]
    rintro ⟨hlow, hhigh⟩
    refine hpush ⟨b.toNat - 0x5f, by omega, ?_⟩
    rw [Nat.add_sub_cancel' (by omega), UInt8.ofNat_toNat]
  rw [dataWidth, pushWidth?, hnone]
  rfl

end Opcode

/-- **Behind an instruction** another one starts. -/
theorem InstructionStart.next {code : Bytes} {i : Nat} {b : UInt8} (h : InstructionStart code i)
    (hbyte : code[i]? = some b) : InstructionStart code (i + (1 + Opcode.dataWidth b)) := by
  rcases Opcode.push_or_dataWidth_eq_zero b with ⟨n, hn, rfl⟩ | ⟨hwidth, hb⟩
  · rw [Opcode.dataWidth_push hn]
    exact .push h hn hbyte
  · rw [hwidth]
    exact .other h hbyte hb

/-! ## The scan -/

namespace JumpTable

variable {code : Bytes} {p : Nat}

/-- The bytes of push data that are left behind a byte, if `skip` were left at it. -/
def skipped (skip : Nat) (b : UInt8) : Nat :=
  if skip = 0 then Opcode.dataWidth b else skip - 1

/-- The bytes of push data that are left at a position. -/
def skipAt (code : Bytes) (p : Nat) : Nat := (code.take p).foldl skipped 0

theorem skipAt_succ {b : UInt8} (hbyte : code[p]? = some b) :
    skipAt code (p + 1) = skipped (skipAt code p) b := by
  rw [skipAt, List.take_add_one, hbyte, List.foldl_append]
  rfl

/-- The scan marks the jump destinations where no push data is left. -/
theorem getElem?_scan (skip : Nat) (code : Bytes) (p : Nat) : (scan skip code)[p]? =
    code[p]?.map fun b => (code.take p).foldl skipped skip = 0 && b == Opcode.jumpdest := by
  induction code generalizing skip p with
  | nil => rfl
  | cons b rest ih =>
    cases p with
    | zero => cases skip <;> rfl
    | succ p =>
      rw [List.take_succ_cons, List.foldl_cons, List.getElem?_cons_succ, ← ih]
      cases skip <;> rfl

/-- Behind the push data that is left an instruction starts. -/
theorem start_add_skipAt (hp : p ≤ code.length) : InstructionStart code (p + skipAt code p) := by
  induction p with
  | zero => exact .zero
  | succ p ih =>
    have hbyte := List.getElem?_eq_getElem hp
    have hstart := ih (Nat.le_of_succ_le hp)
    rw [skipAt_succ hbyte, skipped]
    by_cases hskip : skipAt code p = 0
    · rw [hskip] at hstart
      rw [if_pos hskip, Nat.add_assoc]
      exact hstart.next hbyte
    · rw [if_neg hskip, show p + 1 + (skipAt code p - 1) = p + skipAt code p by omega]
      exact hstart

/-- No push data is left where an instruction starts: from one start on it counts down to the
next. -/
theorem skipAt_eq_zero (h : InstructionStart code p) (hp : p ≤ code.length) :
    skipAt code p = 0 := by
  have hnext {i width : Nat} {b : UInt8} (hbyte : code[i]? = some b) (hskip : skipAt code i = 0)
      (hwidth : Opcode.dataWidth b = width) (k : Nat) (hk : k ≤ width)
      (hlength : i + (1 + k) ≤ code.length) : skipAt code (i + (1 + k)) = width - k := by
    induction k with
    | zero => rw [skipAt_succ hbyte, hskip, skipped, if_pos rfl, hwidth, Nat.sub_zero]
    | succ k ih =>
      have hleft := ih (Nat.le_of_succ_le hk) (by omega)
      have hbyte' := List.getElem?_eq_getElem (l := code) (i := i + (1 + k)) (by omega)
      have hsucc := skipAt_succ hbyte'
      rw [hleft, skipped, if_neg (by omega)] at hsucc
      rw [← Nat.add_assoc 1 k 1, ← Nat.add_assoc i (1 + k) 1, hsucc]
      omega
  induction h with
  | zero => rfl
  | @push i n h hn hbyte ih =>
    rw [hnext hbyte (ih (by omega)) (Opcode.dataWidth_push hn) n le_rfl hp, Nat.sub_self]
  | @other i b h hbyte hb ih =>
    have hwidth : Opcode.dataWidth b = 0 := by
      rcases Opcode.push_or_dataWidth_eq_zero b with ⟨n, hn, heq⟩ | ⟨hwidth, -⟩
      · exact absurd heq (hb n hn)
      · exact hwidth
    exact hnext hbyte (ih (by omega)) hwidth 0 le_rfl hp

/-- **The scan finds** the instructions that mark a jump destination. -/
theorem isValid_ofCode (code : Bytes) (p : Nat) : (ofCode code).isValid p = true ↔
    p < code.length ∧ InstructionStart code p ∧ code[p]? = some Opcode.jumpdest := by
  have hflag : (ofCode code).isValid p = ((scan 0 code)[p]?).getD false := by
    rw [isValid, ofCode, Array.getD_eq_getD_getElem?, List.getElem?_toArray]
  rw [hflag, getElem?_scan]
  by_cases hp : p < code.length
  · have hstart : InstructionStart code p ↔ skipAt code p = 0 :=
      ⟨fun h => skipAt_eq_zero h hp.le, fun h => by
        have hstart := start_add_skipAt hp.le
        rwa [h] at hstart⟩
    rw [List.getElem?_eq_getElem hp, hstart, skipAt]
    simp [hp]
  · rw [List.getElem?_eq_none (not_lt.mp hp)]
    simp [hp]

end JumpTable

/-! ## The sizes of instructions -/

namespace Instruction

/-- **An instruction takes up** its opcode and the data that the scan skips. -/
theorem size_eq (i : Instruction) : i.size = 1 + Opcode.dataWidth i.opcode := by
  cases i with
  | push n => revert n; decide
  | dup n => revert n; decide
  | swap n => revert n; decide
  | log n => revert n; decide
  | unary op => cases op <;> rfl
  | binary op => cases op <;> rfl
  | ternary op => cases op <;> rfl
  | field which => cases which <;> rfl
  | account which => cases which <;> rfl
  | copy source => cases source <;> rfl
  | call scheme => cases scheme <;> rfl
  | _ => rfl

/-- The instruction that a configuration has under an opcode has this opcode. -/
theorem opcode_of_get? {config : Config} {b : UInt8} {i : Instruction}
    (h : (InstructionSet.ofConfig config).get? b = some i) : i.opcode = b := by
  have hb : b.toNat < 256 := b.toNat_lt
  simp only [InstructionSet.get?, InstructionSet.ofConfig, Array.getElem?_ofFn, hb, ↓reduceDIte,
    UInt8.ofNat_toNat, Option.join_some, Option.filter_eq_some_iff, ofOpcode?] at h
  have hfound := List.find?_some h.1
  exact beq_iff_eq.mp hfound

end Instruction

/-! ## Runs -/

theorem Program.byteAt_ofCode {code : Bytes} {p : Nat} (hp : p < (ofCode code).size) :
    code[p]? = some ((ofCode code).byteAt p) := by
  rw [ofCode, size, List.size_toArray] at hp
  rw [ofCode, byteAt, Array.getD_eq_getD_getElem?, List.getElem?_toArray,
    List.getElem?_eq_getElem hp]
  rfl

namespace Run

variable {c : Context} {first m m' : Machine} {code : Bytes}

/-- The machine has some code, and stands where an instruction of it starts or past its end. -/
structure Landed (code : Bytes) (m : Machine) : Prop where
  program_eq : m.frame.program = .ofCode code
  pc : code.length ≤ m.frame.pc ∨ InstructionStart code m.frame.pc

/-- A step lands where an instruction starts. -/
theorem Moved.landed (hset : c.instructions = .ofConfig c.config) (hm : Landed code m)
    (h : Moved c m m') : Landed code m' := by
  refine ⟨h.program_eq.trans hm.program_eq, ?_⟩
  rcases h.pc with hpc | hjump | ⟨i, hpc, hget, hnext⟩
  · rw [hpc]
    exact hm.pc
  · rw [Frame.mayJumpTo, hm.program_eq] at hjump
    exact .inr ((JumpTable.isValid_ofCode code _).mp hjump).2.1
  · have hopcode : i.opcode = m.frame.opcode := Instruction.opcode_of_get? (hset ▸ hget)
    rw [hm.program_eq] at hpc
    have hbyte := Program.byteAt_ofCode hpc
    have hlength : m.frame.pc < code.length := (List.getElem?_eq_some_iff.mp hbyte).1
    have hstart := hm.pc.resolve_left (not_le.mpr hlength)
    rw [hnext, i.size_eq, hopcode, Frame.opcode, hm.program_eq]
    exact .inr (hstart.next hbyte)

/-- **A run lands** where instructions start. -/
theorem Visits.landed (hset : c.instructions = .ofConfig c.config) (hfirst : Landed code first)
    (h : Visits c first m) : Landed code m := by
  induction h with
  | first => exact hfirst
  | @step m h hstate ih =>
    obtain ⟨_, hmoved⟩ := (step_moves (c := c) (m := m)).exists_result
    exact hmoved.landed hset ih
  | @resume m h hstate child j t ih =>
    obtain ⟨_, hrejoined⟩ :=
      (Machine.resume_rejoins child ⟨m.frame.takeChild.2, j, t⟩).exists_result
    refine ⟨hrejoined.program_eq.trans ih.program_eq, ?_⟩
    rw [hrejoined.pc_eq]
    exact ih.pc

/-- **Push data is never executed.**  In every run of a frame that begins at 0, over every code and
under every configuration, the code stands past its end or where an instruction starts, and it may
jump just to the instructions that mark a jump destination. -/
theorem push_data_never_executed (code : Bytes) :
    (∀ (c : Context) (first m : Machine), c.instructions = .ofConfig c.config →
      first.frame.program = .ofCode code → first.frame.pc = 0 → Visits c first m →
        code.length ≤ m.frame.pc ∨ InstructionStart code m.frame.pc) ∧
    ∀ p, (JumpTable.ofCode code).isValid p = true ↔
      p < code.length ∧ InstructionStart code p ∧ code[p]? = some Opcode.jumpdest := by
  refine ⟨fun c first m hset hprogram hpc h => ?_, JumpTable.isValid_ofCode code⟩
  exact (h.landed hset ⟨hprogram, .inr (hpc ▸ .zero)⟩).pc

/-! ### A push that hides jump destinations -/

/-- Code that pushes the bytes of two jump destinations and goes on at a third one. -/
def maskedCode : Bytes := [0x61, 0x5b, 0x5b, 0x5b]

/-- A frame that begins to run this code. -/
def masked : Machine where
  frame := { fullCaller.frame with program := .ofCode maskedCode, stack := .empty 1 }
  journal := fullCaller.journal
  trace := .off

/-- The push goes on at the third one, where an instruction starts. -/
theorem push_data_never_executed_of_masked : InstructionStart maskedCode 3 ∧
    ∃ m, Visits bareContext masked m ∧ m.frame.pc = 3 ∧
      (maskedCode.length ≤ m.frame.pc ∨ InstructionStart maskedCode m.frame.pc) := by
  have hset : bareContext.instructions = .ofConfig bareContext.config := rfl
  have hprogram : masked.frame.program = .ofCode maskedCode := rfl
  have hpc : masked.frame.pc = 0 := rfl
  have hstate : masked.frame.state ≠ .codeSuspended := by decide +kernel
  have hstep : (stateAfter (step bareContext) masked).frame.pc = 3 := by decide +kernel
  have hvisited := (Visits.first (c := bareContext)).step hstate
  generalize stateAfter (step bareContext) masked = m at hstep hvisited
  obtain ⟨hruns, hvalid⟩ := push_data_never_executed maskedCode
  exact ⟨((hvalid 3).mp (by decide)).2.1, m, hvisited, hstep,
    hruns bareContext masked m hset hprogram hpc hvisited⟩

end Run
end Ethereum
