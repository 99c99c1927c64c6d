/-
# What frames ask for

A frame suspends with the message of a child that stands one deeper (`Frame.Spawns`), and
only where the limit of the call stack allows it.  Being static is handed down: the
instructions that change the state have no price in a static frame
(`Instruction.cost_of_static`), so it creates no contract and gives no value to another
account, and all that it calls is static.
-/

import Mathlib
import Ethereum.Proofs.Interpreter.Charging

namespace Ethereum

/-- The messages by which a frame spawns a child. -/
inductive Frame.Spawns (f : Frame) : Message → Prop
  | creation (value : Word) (initCode : Bytes) (address : Address) (gas : Nat)
    (hstatic : f.message.isStatic = false) : f.Spawns (f.creationMessage value initCode address gas)
  | call (scheme : CallScheme) (target : Address) (value : Word) (input code : Bytes) (gas : Nat)
    (htakes : scheme.takesValue = false → value = 0)
    (hstatic : scheme = .call → f.message.isStatic → value = 0) :
    f.Spawns (Exec.callMessage scheme f target value input code gas)

namespace Frame.Spawns

variable {f f' : Frame} {child : Message}

/-- What a frame may ask for depends on its own message only. -/
theorem congr (h : f.Spawns child) (hf : f'.message = f.message) : f'.Spawns child := by
  have hcreation (value : Word) (initCode : Bytes) (address : Address) (gas : Nat) :
      f.creationMessage value initCode address gas =
        f'.creationMessage value initCode address gas := by
    rw [creationMessage, creationMessage, hf]
  have hcall (scheme : CallScheme) (target : Address) (value : Word) (input code : Bytes)
      (gas : Nat) : Exec.callMessage scheme f target value input code gas =
        Exec.callMessage scheme f' target value input code gas := by
    simp only [Exec.callMessage, hf]
  cases h with
  | creation value initCode address gas hstatic =>
    rw [hcreation]
    exact .creation value initCode address gas (hf ▸ hstatic)
  | call scheme target value input code gas htakes hstatic =>
    rw [hcall]
    exact .call scheme target value input code gas htakes (hf ▸ hstatic)

theorem depth_eq (h : f.Spawns child) : child.depth = f.message.depth + 1 := by
  cases h with
  | creation => rfl
  | call scheme => cases scheme <;> rfl

/-- **A child of a static frame is static.** -/
theorem isStatic (h : f.Spawns child) (hf : f.message.isStatic) : child.isStatic := by
  cases h with
  | creation value initCode address gas hstatic => exact absurd hf (by simp [hstatic])
  | call scheme =>
    cases scheme with
    | staticCall => rfl
    | _ => exact hf

/-- **A static child moves nothing**: it is a call without value, or of the caller itself. -/
theorem movesNothing (h : f.Spawns child) (hstatic : child.isStatic) :
    child.kind = .call ∧ (child.value = 0 ∨ child.sender = child.recipient) := by
  cases h with
  | creation => cases hstatic
  | call scheme target value input code gas htakes hzero =>
    cases scheme with
    | call => exact ⟨rfl, .inl (hzero rfl hstatic)⟩
    | callCode => exact ⟨rfl, .inr rfl⟩
    | delegateCall => exact ⟨rfl, .inl (htakes rfl)⟩
    | staticCall => exact ⟨rfl, .inl (htakes rfl)⟩

end Frame.Spawns

/-! ## Static frames -/

/-- Nothing is on record that a frame would leave to others: no logs, no deletions and no
refunds. -/
structure Frame.Blank (f : Frame) : Prop where
  logs_eq : f.logs = #[]
  selfDestructs_eq : f.selfDestructs = ∅
  refund_eq : f.refund = 0

theorem Frame.Blank.of_quiet {f f' : Frame} (h : f.Blank) (hf : f.Quiet f') : f'.Blank := by
  rw [hf]
  exact ⟨h.logs_eq, h.selfDestructs_eq, h.refund_eq⟩

theorem Frame.Blank.advance {f : Frame} (h : f.Blank) (size : Nat) (control : Control) :
    (f.advance size control).Blank := by
  cases control with
  | jump position =>
    rw [Frame.advance]
    split <;> exact ⟨h.logs_eq, h.selfDestructs_eq, h.refund_eq⟩
  | _ => exact ⟨h.logs_eq, h.selfDestructs_eq, h.refund_eq⟩

theorem Frame.message_advance (f : Frame) (size : Nat) (control : Control) :
    (f.advance size control).message = f.message := by
  cases control with
  | jump position =>
    rw [advance]
    split <;> rfl
  | _ => rfl

namespace Instruction

variable {c : Context} {f : Frame} {j : Journal} {n : Nat} {i : Instruction}

theorem checkNotStatic_bind_ne {α : Type} {a : α} {rest : Except ExitError α}
    (hf : f.message.isStatic) : (f.checkNotStatic >>= fun _ => rest) ≠ .ok a := by
  rw [Frame.checkNotStatic, if_pos hf]
  exact nofun

/-- **What has a price in a static frame** is quiet, or a call that gives no value to another
account. -/
theorem cost_of_static (h : i.cost c f j = .ok n) (hf : f.message.isStatic) :
    i.isQuiet ∨ ∃ scheme, i = call scheme ∧
      (scheme = .call → scheme.valueOperand f = .ok 0) := by
  -- each instruction that is not quiet checks the mode of its frame when it is priced
  cases i with
  | sstore =>
    obtain ⟨_, hcheck, -⟩ := exists_of_bind_eq_ok h
    rw [Frame.checkNotStatic, if_pos hf] at hcheck
    cases hcheck
  | log => exact absurd (liftM_eq_ok h) (checkNotStatic_bind_ne hf)
  | create => exact absurd (liftM_eq_ok h) (checkNotStatic_bind_ne hf)
  | create2 =>
    obtain ⟨_, -, h⟩ := exists_of_bind_eq_ok h
    obtain ⟨_, -, h⟩ := exists_of_bind_eq_ok h
    exact absurd (liftM_eq_ok h) (checkNotStatic_bind_ne hf)
  | selfdestruct =>
    obtain ⟨_, hcheck, -⟩ := exists_of_bind_eq_ok h
    rw [Frame.checkNotStatic, if_pos hf] at hcheck
    cases hcheck
  | call scheme =>
    refine .inr ⟨scheme, rfl, ?_⟩
    rintro rfl
    change CallScheme.cost .call c.config.schedule c.store f j = .ok n at h
    rw [CallScheme.cost] at h
    dsimp only at h
    rw [if_pos ⟨rfl, hf⟩] at h
    obtain ⟨value, hvalue, h⟩ := exists_of_bind_eq_ok h
    split at h
    · obtain ⟨_, hthrow, -⟩ := exists_of_bind_eq_ok h
      cases hthrow
    · rename_i hzero
      exact (liftM_eq_ok hvalue).trans (congrArg _ (not_ne_iff.mp hzero))
  | _ => exact .inl rfl

/-- No contract is created in a static frame. -/
theorem not_create_of_static (h : i.cost c f j = .ok n) (hf : f.message.isStatic) :
    ¬ (i = create ∨ i = create2) := by
  rintro (rfl | rfl) <;> rcases cost_of_static h hf with hquiet | ⟨scheme, hcall, -⟩
  · cases hquiet
  · cases hcall
  · cases hquiet
  · cases hcall

variable {m m' : Machine} {r : Except ExitReason Control}

/-- **What an instruction does in a static frame** leaves the state as it is, and nothing on
record. -/
theorem Performed.static (h : Performed c m i r m') (hr : ∀ e, r ≠ .error (.fatal e))
    (hstatic : m.frame.message.isStatic) (hblank : m.frame.Blank) :
    m'.journal = m.journal ∧ m'.frame.Blank := by
  cases h with
  | unpaid hjournal hframe => exact ⟨hjournal, hframe ▸ hblank⟩
  | @paid cost m₁ _ _ hcost hpaid houtcome =>
    have hblank₁ : m₁.frame.Blank := by
      rw [hpaid.frame_eq]
      exact ⟨hblank.logs_eq, hblank.selfDestructs_eq, hblank.refund_eq⟩
    rw [← hpaid.journal_eq]
    cases houtcome with
    | quiet h => exact ⟨h.journal_eq, hblank₁.of_quiet h.frame_quiet⟩
    | called target value input code split resume hsplit hvalue hspawn hjournal hframe =>
      refine ⟨hjournal, Frame.Blank.of_quiet ?_ hframe⟩
      exact ⟨hblank₁.logs_eq, hblank₁.selfDestructs_eq, hblank₁.refund_eq⟩
    | refused value split hr hsplit hvalue hjournal hframe =>
      refine ⟨hjournal, Frame.Blank.of_quiet ?_ hframe⟩
      exact ⟨hblank₁.logs_eq, hblank₁.selfDestructs_eq, hblank₁.refund_eq⟩
    | created value initCode salt nonce hi => exact absurd hi (not_create_of_static hcost hstatic)
    | fatal => exact absurd rfl (hr _)
    | _ =>
      rcases cost_of_static hcost hstatic with hquiet | ⟨scheme, hcall, -⟩
      · cases hquiet
      · cases hcall

end Instruction

/-! ## Waiting for a child -/

/-- The child that a frame waits for: the frame asked for it, and does not stand too deep. -/
structure Frame.WaitsFor (config : Config) (f : Frame) (child : Message) : Prop where
  child_eq : f.child = some child
  spawns : f.Spawns child
  depth_lt : f.message.depth < config.callStackLimit

namespace Instruction

variable {c : Context} {m m' : Machine} {i : Instruction}

/-- **An instruction that suspends its frame** has asked for a child. -/
theorem Performed.waitsFor (h : Performed c m i (.ok .suspend) m') :
    ∃ child, m'.frame.WaitsFor c.config child := by
  have hmessage := (h.kept nofun).message_eq
  cases h with
  | @paid cost m₁ _ _ hcost hpaid houtcome =>
    have hmessage₁ : m₁.frame.message = m.frame.message := by rw [hpaid.frame_eq]
    cases houtcome with
    | quiet h hr => exact absurd rfl (hr _ rfl).1
    | created value initCode salt nonce hi hspawn hnonce hframe =>
      refine ⟨_, hframe.child_eq, .congr (.creation _ _ _ _ ?_) (hmessage.trans hmessage₁.symm), ?_⟩
      -- a static frame could not have paid for it
      · by_contra hstatic
        rw [Bool.not_eq_false, hmessage₁] at hstatic
        exact not_create_of_static hcost hstatic hi
      · rw [hmessage, ← hmessage₁]
        exact hspawn.depth_lt
    | @called scheme _ target value input code split resume hsplit hvalue hspawn hjournal hframe =>
      refine ⟨_, hframe.child_eq,
        .congr (.call scheme _ _ _ _ _ (fun htakes => ?_) fun hcall hstatic => ?_)
          (hmessage.trans hmessage₁.symm), ?_⟩
      · rw [CallScheme.valueOperand, if_neg (by simp [htakes])] at hvalue
        exact (Except.ok.inj hvalue).symm
      · rw [hmessage₁] at hstatic
        rcases cost_of_static hcost hstatic with hquiet | ⟨scheme', hscheme, hzero⟩
        · cases hquiet
        · cases hscheme
          have hvalue₁ : scheme.valueOperand m₁.frame = scheme.valueOperand m.frame := by
            rw [hpaid.frame_eq]
            rfl
          exact Except.ok.inj (hvalue.symm.trans (hvalue₁.trans (hzero hcall)))
      · rw [hmessage, ← hmessage₁]
        exact hspawn.depth_lt
    | refused value split hr => exact absurd rfl hr

end Instruction

namespace Run

variable {c : Context} {m m' : Machine}

theorem Stepped.message_eq (h : Stepped c m (.ok ()) m') : m'.frame.message = m.frame.message := by
  cases h with
  | past hpc hjournal hframe => exact hframe ▸ rfl
  | rejected he hjournal hframe => exact hframe ▸ rfl
  | continued hi h hjournal hframe =>
    rw [hframe, Frame.message_advance]
    exact (h.kept nofun).message_eq
  | @left i reason m₁ _ hi h hjournal hframe =>
    cases reason with
    | fatal e => cases hframe
    | _ =>
      rw [← Except.ok.inj hframe]
      exact (h.kept nofun).message_eq

/-- **A step that suspends its frame** has asked for a child. -/
theorem Stepped.waitsFor (h : Stepped c m (.ok ()) m') (hstate : m.frame.state = .codeExecuting)
    (hsuspended : m'.frame.state = .codeSuspended) :
    ∃ child, m'.frame.WaitsFor c.config child := by
  cases h with
  | past hpc hjournal hframe =>
    rw [hframe] at hsuspended
    cases hsuspended
  | rejected he hjournal hframe =>
    rw [hframe] at hsuspended
    cases hsuspended
  -- a frame waits only where its instruction says so
  | @continued i control m₁ _ hi h hjournal hframe =>
    have hkept := (h.kept nofun).state_eq.trans hstate
    cases control with
    | suspend =>
      obtain ⟨child, hchild, hspawns, hdepth⟩ := h.waitsFor
      exact ⟨child, hframe ▸ ⟨hchild, hspawns.congr rfl, hdepth⟩⟩
    | next =>
      rw [hframe] at hsuspended
      cases hkept.symm.trans hsuspended
    | jump position =>
      rw [hframe, Frame.advance] at hsuspended
      split at hsuspended
      · cases hkept.symm.trans hsuspended
      · cases hsuspended
  | @left i reason m₁ _ hi h hjournal hframe =>
    cases reason with
    | fatal e => cases hframe
    | _ =>
      rw [← Except.ok.inj hframe] at hsuspended
      cases hsuspended

/-- **A step of a static frame** leaves the state as it is, and nothing on record. -/
theorem Stepped.static (h : Stepped c m (.ok ()) m') (hstatic : m.frame.message.isStatic)
    (hblank : m.frame.Blank) : m'.journal = m.journal ∧ m'.frame.Blank := by
  obtain ⟨hlogs, hdestructs, hrefund⟩ := hblank
  cases h with
  | past hpc hjournal hframe => exact ⟨hjournal, hframe ▸ ⟨hlogs, hdestructs, hrefund⟩⟩
  | rejected he hjournal hframe => exact ⟨hjournal, hframe ▸ ⟨hlogs, hdestructs, hrefund⟩⟩
  | @continued i control m₁ _ hi h hjournal hframe =>
    obtain ⟨hjournal₁, hblank₁⟩ := h.static nofun hstatic ⟨hlogs, hdestructs, hrefund⟩
    rw [hframe]
    exact ⟨hjournal.trans hjournal₁, hblank₁.advance i.size control⟩
  | @left i reason m₁ _ hi h hjournal hframe =>
    cases reason with
    | fatal e => cases hframe
    | _ =>
      obtain ⟨hjournal₁, hblank₁⟩ := h.static nofun hstatic ⟨hlogs, hdestructs, hrefund⟩
      rw [← Except.ok.inj hframe]
      exact ⟨hjournal.trans hjournal₁,
        hblank₁.logs_eq, hblank₁.selfDestructs_eq, hblank₁.refund_eq⟩

end Run
end Ethereum
