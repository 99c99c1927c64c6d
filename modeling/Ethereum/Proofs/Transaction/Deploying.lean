/-
# Code that frames deploy

Only the end of a creation sets code.  A creation goes on past its start where its address is free,
so there the world has no code (`Frame.Vacant`), whatever other frames do until it ends.  Deploying
costs 200 for each byte of the code, so the gas of a tree and the price of the new code that its
journals find never exceed what the tree began with (`Journal.Afforded`).  Frames that are merged
take their new code along, and frames that are reverted go back to a journal that was built with no
less gas left.  So both hold of all journals of a tree (`Lifecycle.Reached.builds`), and of the
one that the tree of a transaction leaves (`Transact.tree_builds`).
-/

import Mathlib
import Ethereum.Proofs.State.Building
import Ethereum.Proofs.Transaction.Metering
import Ethereum.Proofs.Transaction.Regularity
import Ethereum.Proofs.Transaction.Waiting

namespace Ethereum

/-! ## New code that is paid for -/

/-- What is deposited for code that a frame can pay for is its price, as no frame has all gas that
there could be. -/
theorem Gas.codeDeposit_eq {length : Nat} (h : codeDeposit length < Quantity.max) :
    codeDeposit length = 200 * length := by
  rw [codeDeposit, Quantity.satMul] at h ⊢
  omega

namespace Journal

variable {store : Store} {limit : Option Nat} {w : World} {budget gas : Nat} {j j' : Journal}

/-- The journal is built over the world, and the gas that is left and the price of its new code are
within the budget. -/
def Afforded (store : Store) (limit : Option Nat) (w : World) (budget gas : Nat) (j : Journal) :
    Prop :=
  ∃ n, j.Built store limit w n ∧ (budget < Quantity.max → gas + 200 * n ≤ budget)

namespace Afforded

theorem mono (h : j.Afforded store limit w budget gas) {gas' : Nat} (hgas : gas' ≤ gas) :
    j.Afforded store limit w budget gas' := by
  obtain ⟨n, hbuilt, hpaid⟩ := h
  exact ⟨n, hbuilt, fun hbudget => (Nat.add_le_add_right hgas _).trans (hpaid hbudget)⟩

theorem of_builtTo (h : j.Afforded store limit w budget gas) (hj : BuiltTo store limit w j j') :
    j'.Afforded store limit w budget gas := by
  obtain ⟨n, hbuilt, hpaid⟩ := h
  exact ⟨n, hj n hbuilt, hpaid⟩

/-- **Code that is deployed** is paid for with the gas that is taken for it. -/
theorem setCode {address : Address} {code : Bytes}
    (h : j.Afforded store limit w budget (gas + Gas.codeDeposit code.length))
    (hfree : ∀ a, w.account? store address = .ok (some a) → ¬ a.Coded)
    (hlimit : ∀ most ∈ limit, code.length ≤ most)
    (hrun : Journal.setCode store address code j = .ok () j') :
    j'.Afforded store limit w budget gas := by
  obtain ⟨n, hbuilt, hpaid⟩ := h
  refine ⟨n + code.length, hbuilt.setCode hfree hlimit hrun, fun hbudget => ?_⟩
  have hle := hpaid hbudget
  have hprice : Gas.codeDeposit code.length = 200 * code.length :=
    Gas.codeDeposit_eq (by omega)
  omega

end Afforded
end Journal

/-! ## Frames -/

/-- Whether a frame has started and its code has not failed or been deployed. -/
def FrameState.underway : FrameState → Bool
  | codeExecuting | codeSuspended | codeSuccess => true
  | _ => false

/-- If the frame creates a contract, the world has no code at its address. -/
def Frame.Vacant (store : Store) (w : World) (f : Frame) : Prop :=
  f.message.kind = .creation →
    ∀ a, w.account? store f.message.contract = .ok (some a) → ¬ a.Coded

theorem Frame.Vacant.of_message_eq {store : Store} {w : World} {f f' : Frame}
    (h : f.Vacant store w) (hmessage : f'.message = f.message) : f'.Vacant store w := by
  rw [Vacant, hmessage]
  exact h

/-- An address that a journal finds free has no code in the world. -/
theorem Journal.Built.not_coded {store : Store} {limit : Option Nat} {w : World} {n : Nat}
    {j : Journal} {address : Address} (h : j.Built store limit w n) (hfree : j.Free store address) :
    ∀ a, w.account? store address = .ok (some a) → ¬ a.Coded := by
  obtain ⟨found, hfound, hempty⟩ := hfree
  obtain ⟨before, hbefore, hnone, hfollows⟩ := h.follows address found hfound
  intro a ha
  obtain rfl := Except.ok.inj (hbefore.symm.trans ha)
  cases found with
  | none => cases hnone rfl
  | some o => exact (hfollows o rfl).not_coded (hempty o rfl).1 a rfl

/-- What holds of a machine while `rest` is the gas of the frames around its own: its journal is
built with what the budget affords, and while its frame is underway it creates nothing where the
world has code. -/
structure Machine.Builds (s : Setting) (w : World) (budget rest : Nat) (m : Machine) : Prop where
  afforded : m.journal.Afforded s.store s.config.createContractLimit w budget
    (m.frame.heldGas + rest)
  vacant : m.frame.state.underway = true → m.frame.Vacant s.store w

namespace Lifecycle

variable {s : Setting} {w : World} {budget rest : Nat} {root m m' next : Machine} {j : Journal}
  {js : List Journal} {parents : List Frame}

/-- Mild changes and gas that is spent keep what the budget affords. -/
theorem afforded_of_le (hm : m.Builds s w budget rest)
    (hjournal : Journal.BuiltTo s.store s.config.createContractLimit w m.journal m'.journal)
    (hgas : m'.frame.heldGas ≤ m.frame.heldGas) :
    m'.journal.Afforded s.store s.config.createContractLimit w budget (m'.frame.heldGas + rest) :=
  (hm.afforded.of_builtTo hjournal).mono (Nat.add_le_add_right hgas rest)

theorem Started.builds (h : Started s m (.ok ()) m') (hm : m.Builds s w budget rest) :
    m'.Builds s w budget rest := by
  have hopens {j' : Journal} (h : Opened s.store s.config m.frame.message m.journal j') :
      Journal.BuiltTo s.store s.config.createContractLimit w m.journal j' :=
    h.leads (Journal.built_update _ _ _)
  cases h with
  | executing hopened hframe hfree =>
    refine ⟨afforded_of_le hm (hopens hopened) (hframe ▸ le_rfl), fun _ => ?_⟩
    obtain ⟨n, hbuilt, -⟩ := hm.afforded
    have hvacant : m.frame.Vacant s.store w := fun hkind => hbuilt.not_coded (hfree hkind)
    exact hvacant.of_message_eq (hframe ▸ rfl)
  | completed gas output hgas hopened hframe =>
    refine ⟨afforded_of_le hm (hopens hopened)
      (Frame.heldGas_of_child_eq (hframe ▸ rfl) (hframe ▸ hgas)), ?_⟩
    exact hframe ▸ nofun
  | halted gas e hgas hopened hframe =>
    refine ⟨afforded_of_le hm (hopens hopened)
      (Frame.heldGas_of_child_eq (hframe ▸ rfl) (hframe ▸ hgas)), ?_⟩
    exact hframe ▸ nofun

/-- **A step** sets no code. -/
theorem builds_of_stepped (h : Run.Stepped s.toContext m (.ok ()) m')
    (hstate : m.frame.state = .codeExecuting) (hm : m.Builds s w budget rest) :
    m'.Builds s w budget rest := by
  have hvacant := hm.vacant (congrArg FrameState.underway hstate)
  exact ⟨afforded_of_le hm (h.leads (Journal.built_update _ _ _)) h.heldGas_le,
    fun _ => hvacant.of_message_eq h.message_eq⟩

/-- **Code is deployed** where the world has none, within the limit, and paid for. -/
theorem Succeeded.builds (h : Succeeded s m (.ok ()) m') (hstate : m.frame.state = .codeSuccess)
    (hm : m.Builds s w budget rest) : m'.Builds s w budget rest := by
  cases h with
  | completed hjournal hframe =>
    refine ⟨afforded_of_le hm (hjournal ▸ refl _) (hframe ▸ le_rfl), ?_⟩
    exact hframe ▸ nofun
  | deployed hkind hlimit hgas hcode hframe =>
    have hvacant := hm.vacant (congrArg FrameState.underway hstate)
    refine ⟨Journal.Afforded.setCode (hm.afforded.mono ?_) (hvacant hkind)
      (fun most hmost => ?_) hcode, hframe ▸ nofun⟩
    · rw [hframe]
      show m.frame.gas - Gas.codeDeposit m.frame.output.length + _ + rest + _ ≤
        m.frame.gas + _ + rest
      dsimp only
      omega
    · rw [Option.mem_def.mp hmost] at hlimit
      simpa using hlimit
  | halted e hjournal hframe =>
    refine ⟨afforded_of_le hm (hjournal ▸ refl _) (hframe ▸ le_rfl), ?_⟩
    exact hframe ▸ nofun

theorem builds_failed (hm : m.Builds s w budget rest) :
    Machine.Builds s w budget rest { m with frame := failed m.frame } := by
  refine ⟨afforded_of_le hm (refl _) (heldGas_failed_le _), ?_⟩
  show (failed m.frame).state.underway = true → (failed m.frame).Vacant s.store w
  rw [failed]
  split
  · rintro ⟨⟩
  · rintro ⟨⟩
  · exact hm.vacant

/-- **The work of a frame** deploys what it pays for. -/
theorem work_builds (hm : m.Builds s w budget rest) :
    Ends (work s) m fun r m' => r = .ok () → m'.Builds s w budget rest := by
  refine work_ends (P := fun r m' => r = .ok () → m'.Builds s w budget rest) ?_ ?_ ?_ ?_ fun _ => hm
  · rintro m r m' - hm h rfl
    exact h.builds (hm rfl)
  · rintro m r m' hstate hm h rfl
    exact builds_of_stepped h hstate (hm rfl)
  · rintro m r m' hstate hm h rfl
    exact h.builds hstate (hm rfl)
  · exact fun m hm _ => builds_failed (hm rfl)

/-- **A frame that advances** keeps what is built, whether its scope stays open, is merged or is
dropped. -/
theorem advance_builds (hj : j.enter.Inner m.journal)
    (houter : j.Afforded s.store s.config.createContractLimit w budget (m.frame.heldGas + rest))
    (hm : m.Builds s w budget rest) (h : advance s m = .ok () m') : m'.Builds s w budget rest := by
  have hgas := advance_heldGas_le h
  obtain ⟨m₁, hwork, hframe, hinner, ⟨rfl, -⟩ | hcloses⟩ := exists_closes_of_advance hj h
  · exact (work_builds hm).of_ok hwork rfl
  have hm₁ := (work_builds hm).of_ok hwork rfl
  refine ⟨?_, hframe ▸ hm₁.vacant⟩
  cases hcloses with
  | merged hstate hjournal =>
    obtain ⟨n, hbuilt, hpaid⟩ := hm₁.afforded
    exact ⟨n, hjournal ▸ hbuilt.merge hinner, hframe ▸ hpaid⟩
  | dropped hstate hforced =>
    have hcreated : Journal.BuiltTo s.store s.config.createContractLimit w j m'.journal :=
      ((Journal.built_update _ _ _).forM_getOrCreate _ j).of_ok hforced
    exact (houter.of_builtTo hcreated).mono (Nat.add_le_add_right hgas rest)

/-! ## Trees -/

/-- What holds of a tree: all its journals are built with what the budget affords, none of its frames
creates anything where the world has code, and no parent has a child that did not begin. -/
structure Builds (s : Setting) (w : World) (budget : Nat) (js : List Journal)
    (parents : List Frame) (m : Machine) : Prop where
  machine : m.Builds s w budget (gasOf parents)
  outer : ∀ j ∈ js,
    j.Afforded s.store s.config.createContractLimit w budget (treeGas parents m)
  vacant : ∀ f ∈ parents, f.Vacant s.store w
  childless : Childless parents

/-- **All machines that are reached** build what the tree affords. -/
theorem Reached.builds (hroot : root.frame.state = .notStarted)
    (hbuilds : root.Builds s w budget 0) (h : Reached s root js parents m) :
    Builds s w budget js parents m := by
  induction h with
  | start =>
    obtain ⟨n, hbuilt, hpaid⟩ := hbuilds.afforded
    exact ⟨⟨⟨n, hbuilt.enter, hpaid⟩, hbuilds.vacant⟩,
      List.forall_mem_singleton.mpr ⟨n, hbuilt, hpaid⟩, List.forall_mem_nil _,
      List.forall_mem_nil _⟩
  | @descend _ parents _ _ _ _ hreached hadvance hstate hround ih =>
    obtain ⟨hm, houter, hvacant, hchildless⟩ := ih
    have hready := hreached.ready hroot
    obtain ⟨j, js, rfl⟩ := hready.exists_cons
    have hm' := advance_builds hready.nested.1 (houter j List.mem_cons_self) hm hadvance
    obtain ⟨hgas, hchildless'⟩ := treeGas_round_le hchildless hadvance hround
    have hgas' := Nat.add_le_add_right (advance_heldGas_le hadvance) (gasOf parents)
    obtain ⟨message, -, hframe, hjournal, hparents⟩ := descends_of_round hadvance hstate hround
    cases hparents
    -- gas only goes down, so what the tree afforded before it affords now
    have hafforded := hm'.afforded.mono hgas
    refine ⟨⟨?_, hframe ▸ nofun⟩,
      List.forall_mem_cons.mpr ⟨hafforded, fun j' hj' => ?_⟩,
      List.forall_mem_cons.mpr ⟨?_, hvacant⟩, hchildless'⟩
    · obtain ⟨n, hbuilt, hpaid⟩ := hafforded
      exact ⟨n, hjournal ▸ hbuilt.enter, hpaid⟩
    · exact (houter j' hj').mono (hgas.trans hgas')
    · exact (hm'.vacant (congrArg FrameState.underway hstate)).of_message_eq rfl
  | @ascend j js parents parents' m m' next hreached hadvance hstate hround ih =>
    obtain ⟨hm, houter, hvacant, hchildless⟩ := ih
    have hready := hreached.ready hroot
    have hm' := advance_builds hready.nested.1 (houter j List.mem_cons_self) hm hadvance
    obtain ⟨hgas, hchildless'⟩ := treeGas_round_le hchildless hadvance hround
    have hgas' := Nat.add_le_add_right (advance_heldGas_le hadvance) (gasOf parents)
    obtain ⟨parent, rfl, hjournal, hframe⟩ := ascends_of_round hadvance hstate hround
    obtain ⟨hparent, hrest⟩ := List.forall_mem_cons.mp hvacant
    refine ⟨⟨hjournal ▸ hm'.afforded.mono hgas, fun _ => ?_⟩, fun j' hj' => ?_, hrest,
      hchildless'⟩
    · exact hparent.of_message_eq (hframe.message_eq.trans (parent.message_resumed m'.frame))
    · exact (houter j' (List.mem_cons_of_mem j hj')).mono (hgas.trans hgas')

/-- **A tree** leaves a journal that is built with what its gas affords. -/
theorem runTree_builds (hroot : root.frame.state = .notStarted)
    (hbuilds : root.Builds s w budget 0) (h : runTree s root = .ok () m') :
    m'.Builds s w budget 0 := by
  obtain ⟨m₁, hreached, hadvance, -⟩ := runTree_reaches hroot h
  have hready := hreached.ready hroot
  obtain ⟨hm, houter, -, -⟩ := hreached.builds hroot hbuilds
  exact advance_builds hready.nested.1 (houter _ List.mem_cons_self) hm hadvance

end Lifecycle

/-- **The tree of a transaction** over a world leaves a journal that is built with what the gas
after its intrinsic cost affords. -/
theorem Transact.tree_builds {setting : SessionSetting} {t : Transaction} {s s' : Session}
    {w : World} {f : Frame} (hworld : s.journal = .ofWorld w) (h : tree t setting s = .ok f s') :
    s'.journal.Afforded setting.store setting.config.createContractLimit w
      (t.gasLimit - setting.intrinsic t) f.gas := by
  obtain ⟨m, s₁, machine, horder, hrun, rfl, rfl⟩ := tree_eq_ok h
  have hordered := order_ends.of_ok horder
  obtain ⟨nonce, hnonce⟩ := hordered.nonce
  have hbuilt : Journal.BuiltTo setting.store setting.config.createContractLimit w s.journal
      s₁.journal :=
    ((Journal.built_update _ _ _).incrementNonce _ _).of_ok hnonce
  have hroot : (setting.root m s₁).Builds setting.toSetting w
      (t.gasLimit - setting.intrinsic t) 0 := by
    refine ⟨⟨0, hbuilt 0 (hworld ▸ Journal.built_ofWorld), fun _ => ?_⟩, nofun⟩
    show m.gas + 0 + 0 + 200 * 0 ≤ _
    exact hordered.gas_eq.le
  exact (Lifecycle.runTree_builds rfl hroot hrun).afforded.mono (by
    rw [Frame.heldGas]
    omega)

end Ethereum
