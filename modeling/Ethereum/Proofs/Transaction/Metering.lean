/-
# Gas is never created

A frame has no more gas after a step than before, together with the child that it may have
asked for (`Run.Stepped.heldGas_le`): what a call gives its callee is less than its price, the
stipend included.  Deposits, precompiled contracts and halts only take gas
(`Lifecycle.advance_heldGas_le`), a child begins with what it was given, and a parent gets back
no more than its child has left.  So the gas of a tree never grows
(`Lifecycle.treeGas_round_le`), and the gas that a transaction has used lies between its
intrinsic cost and its limit (`Session.gas_never_created`).
-/

import Mathlib
import Ethereum.Proofs.Transaction.Ending
import Ethereum.Proofs.Transaction.Ordering

namespace Ethereum

/-! ## Frames -/

theorem Frame.gas_le_heldGas (f : Frame) : f.gas ≤ f.heldGas := Nat.le_add_right _ _

theorem Frame.heldGas_of_child_eq {f f' : Frame} (hchild : f'.child = f.child)
    (hgas : f'.gas ≤ f.gas) : f'.heldGas ≤ f.heldGas := by
  rw [heldGas, heldGas, hchild]
  exact Nat.add_le_add_right hgas _

namespace Instruction

variable {c : Context} {m m' : Machine} {i : Instruction} {r : Except ExitReason Control}

/-- An instruction that does not suspend its frame asks for no child. -/
theorem Performed.child_eq (h : Performed c m i r m') (hr : ∀ e, r ≠ .error (.fatal e))
    (hsuspend : r ≠ .ok .suspend) : m'.frame.child = m.frame.child := by
  cases h with
  | unpaid hjournal hframe => rw [hframe]
  | @paid cost m₁ _ _ hcost hpaid houtcome =>
    have hpaid : m₁.frame.child = m.frame.child := by rw [hpaid.frame_eq]
    rw [← hpaid]
    cases houtcome with
    | quiet h => exact h.frame_quiet.child_eq
    | wrote key value amount hwrite hframe => exact hframe.child_eq
    | logged topics data hjournal hframe => exact hframe.child_eq
    | created => exact absurd rfl hsuspend
    | called => exact absurd rfl hsuspend
    | refused value split hr hsplit hvalue hjournal hframe => exact hframe.child_eq
    | destroyed beneficiary balance raised lowered hbalance hcreate hraise hlower hframe =>
      exact hframe.child_eq
    | fatal => exact absurd rfl (hr _)

theorem Performed.heldGas_le (h : Performed c m i r m') (hr : ∀ e, r ≠ .error (.fatal e)) :
    m'.frame.heldGas ≤ m.frame.heldGas := by
  by_cases hsuspend : r = .ok .suspend
  · subst hsuspend
    exact (h.gas_lt.2 rfl).le.trans m.frame.gas_le_heldGas
  · exact Frame.heldGas_of_child_eq (h.child_eq hr hsuspend) (h.gas_le hr)

end Instruction

theorem Frame.heldGas_advance (f : Frame) (size : Nat) (control : Control) :
    (f.advance size control).heldGas = f.heldGas := by
  cases control with
  | jump position =>
    rw [advance]
    split <;> rfl
  | _ => rfl

/-- **A step creates no gas.** -/
theorem Run.Stepped.heldGas_le {c : Context} {m m' : Machine} (h : Stepped c m (.ok ()) m') :
    m'.frame.heldGas ≤ m.frame.heldGas := by
  cases h with
  | past hpc hjournal hframe => exact hframe ▸ le_rfl
  | rejected he hjournal hframe => exact hframe ▸ le_rfl
  | continued hi h hjournal hframe =>
    rw [hframe, Frame.heldGas_advance]
    exact h.heldGas_le nofun
  | @left i reason m₁ _ hi h hjournal hframe =>
    cases reason with
    | fatal e => cases hframe
    | _ =>
      rw [← Except.ok.inj hframe]
      exact h.heldGas_le nofun

namespace Lifecycle

variable {s : Setting} {root m m' next : Machine} {parents rest : List Frame} {parent : Frame}

theorem heldGas_failed_le (f : Frame) : (failed f).heldGas ≤ f.heldGas := by
  rw [failed]
  split
  · exact Frame.heldGas_of_child_eq rfl (Nat.zero_le _)
  · exact le_rfl
  · exact le_rfl

theorem work_heldGas_le :
    Ends (work s) m fun r m' => r = .ok () → m'.frame.heldGas ≤ m.frame.heldGas := by
  refine work_ends (P := fun r m' => r = .ok () → m'.frame.heldGas ≤ m.frame.heldGas)
    (fun m₁ r m₂ _ h₁ h => ?_) (fun m₁ r m₂ _ h₁ h => ?_) (fun m₁ r m₂ _ h₁ h => ?_)
    (fun m₁ h₁ _ => (heldGas_failed_le _).trans (h₁ rfl)) fun _ => le_rfl
  · cases h with
    | executing hjournal hframe => exact fun _ => hframe ▸ h₁ rfl
    | completed gas output hgas hjournal hframe =>
      exact fun _ => (Frame.heldGas_of_child_eq (hframe ▸ rfl) (hframe ▸ hgas)).trans (h₁ rfl)
    | halted gas e hgas hjournal hframe =>
      exact fun _ => (Frame.heldGas_of_child_eq (hframe ▸ rfl) (hframe ▸ hgas)).trans (h₁ rfl)
    | fatal => exact nofun
  · cases r with
    | error e => exact nofun
    | ok => exact fun _ => h.heldGas_le.trans (h₁ rfl)
  · cases h with
    | completed hjournal hframe => exact fun _ => hframe ▸ h₁ rfl
    | deployed hkind hlimit hgas hcode hframe =>
      refine fun _ => (Frame.heldGas_of_child_eq (hframe ▸ rfl) (hframe ▸ ?_)).trans (h₁ rfl)
      exact Nat.sub_le m₁.frame.gas _
    | halted e hjournal hframe => exact fun _ => hframe ▸ h₁ rfl
    | fatal => exact nofun

/-- **A frame that advances creates no gas.** -/
theorem advance_heldGas_le (h : advance s m = .ok () m') : m'.frame.heldGas ≤ m.frame.heldGas := by
  obtain ⟨m₁, hwork, hframe⟩ := exists_work_of_advance h
  rw [hframe]
  exact work_heldGas_le.of_ok hwork rfl

/-! ## Trees -/

/-- The gas of a tree: of its frame, of the child that the frame asked for, and of all parents
that wait. -/
def treeGas (parents : List Frame) (m : Machine) : Nat := m.frame.heldGas + gasOf parents

/-- No parent has a child that did not begin. -/
abbrev Childless (parents : List Frame) : Prop := ∀ f ∈ parents, f.child = none

theorem descend_treeGas {result : Round} (h : descend parents s m = .ok result next) :
    ∃ parents', result = .more parents' ∧ treeGas parents' next = treeGas parents m ∧
      (Childless parents → Childless parents') := by
  obtain ⟨message, hchild, hframe, -, hparents⟩ := descend_ends.of_ok h _ rfl
  refine ⟨_, hparents, ?_, fun hparents => List.forall_mem_cons.mpr ⟨rfl, hparents⟩⟩
  have hnext : next.frame.heldGas = message.gas := by rw [hframe]; rfl
  have hheld : m.frame.heldGas = m.frame.gas + message.gas := by
    rw [Frame.heldGas, hchild]
    rfl
  rw [treeGas, treeGas, hnext, hheld, gasOf, List.map_cons, List.sum_cons, ← gasOf]
  dsimp only
  omega

theorem ascend_treeGas {result : Round} (hparent : parent.child = none)
    (h : ascend parent rest s m = .ok result next) :
    result = .more rest ∧ treeGas rest next ≤ treeGas (parent :: rest) m := by
  obtain ⟨-, hframe, hparents⟩ := ascend_ends.of_ok h _ rfl
  refine ⟨hparents, ?_⟩
  have hgas : (parent.resumed m.frame).gas ≤ parent.gas + m.frame.gas :=
    Frame.gas_inherit_le parent m.frame
  have hchild : (parent.resumed m.frame).child = none := by
    rw [Frame.resumed, Frame.inherit]
    split <;> exact hparent
  have hheld : (parent.resumed m.frame).heldGas = (parent.resumed m.frame).gas := by
    rw [Frame.heldGas, hchild]
    rfl
  have hle := m.frame.gas_le_heldGas
  rw [treeGas, treeGas, hframe.heldGas_eq, hheld, gasOf, gasOf, List.map_cons, List.sum_cons,
    ← gasOf]
  omega

/-- **A round creates no gas**, neither while its frame advances nor after. -/
theorem treeGas_round_le {parents' : List Frame} (hparents : Childless parents)
    (hadvance : advance s m = .ok () m') (hround : round parents s m = .ok (.more parents') next) :
    treeGas parents' next ≤ treeGas parents m' ∧ Childless parents' := by
  rcases round_cases hadvance hround with ⟨-, hdescend⟩ | ⟨-, hascend⟩
  · obtain ⟨parents'', hresult, hgas, hchildless⟩ := descend_treeGas hdescend
    cases hresult
    exact ⟨hgas.le, hchildless hparents⟩
  · cases parents with
    | nil => cases hascend.1
    | cons parent rest =>
      obtain ⟨hparent, hrest⟩ := List.forall_mem_cons.mp hparents
      obtain ⟨hresult, hgas⟩ := ascend_treeGas hparent hascend
      cases hresult
      exact ⟨hgas, hrest⟩

/-- A round that is not the last leads from one place of a tree, its parents and its machine, to
the next. -/
def Next (s : Setting) (x y : List Frame × Machine) : Prop :=
  round x.1 s x.2 = .ok (.more y.1) y.2

variable {x y : List Frame × Machine}

/-- **The gas of a tree never grows.** -/
theorem treeGas_le_of_later (hx : Childless x.1) (h : Relation.ReflTransGen (Next s) x y) :
    treeGas y.1 y.2 ≤ treeGas x.1 x.2 ∧ Childless y.1 := by
  induction h with
  | refl => exact ⟨le_rfl, hx⟩
  | @tail y z _ hnext ih =>
    obtain ⟨hgas, hy⟩ := ih
    obtain ⟨m', hadvance⟩ := exists_advance_of_round hnext
    obtain ⟨hround, hz⟩ := treeGas_round_le hy hadvance hnext
    have hadvanced := advance_heldGas_le hadvance
    exact ⟨(hround.trans (Nat.add_le_add_right hadvanced _)).trans hgas, hz⟩

/-- What a tree leaves its root is no more than it had. -/
theorem rounds_gas_le {n : Nat} (hparents : Childless parents)
    (h : rounds n parents s m = .ok () m') : m'.frame.gas ≤ treeGas parents m := by
  induction n generalizing parents m with
  | zero =>
    cases h
    exact (Frame.gas_le_heldGas _).trans (Nat.le_add_right _ _)
  | succ n ih =>
    obtain ⟨result, m₁, hround, hrest⟩ := reader_bind_eq_ok h
    cases result with
    | more parents' =>
      obtain ⟨hgas, hparents'⟩ := treeGas_le_of_later (x := (parents, m)) (y := (parents', m₁))
        hparents (.single hround)
      exact (ih hparents' hrest).trans hgas
    | done =>
      cases hrest
      obtain ⟨m₂, hadvance⟩ := exists_advance_of_round hround
      obtain ⟨-, rfl, rfl⟩ := done_cases hadvance hround
      exact (Frame.gas_le_heldGas _).trans
        ((advance_heldGas_le hadvance).trans (Nat.le_add_right _ _))

theorem runTree_gas_le (h : runTree s root = .ok () m') : m'.frame.gas ≤ root.frame.heldGas := by
  rw [runTree_eq] at h
  have hgas := rounds_gas_le (List.forall_mem_nil _) h
  exact hgas

end Lifecycle

/-! ## Transactions -/

namespace Session

open Transact Lifecycle

variable {setting : SessionSetting} {t : Transaction} {s s₁ : Session} {f : Frame}

/-- The root of a transaction has no more gas left than the intrinsic cost left it. -/
theorem gas_le_of_tree (h : tree t setting s = .ok f s₁) :
    f.gas + setting.intrinsic t ≤ t.gasLimit := by
  obtain ⟨m, s₂, machine, horder, hrun, rfl, -⟩ := tree_eq_ok h
  have hordered := order_ends.of_ok horder
  have hgas : machine.frame.gas ≤ m.gas := runTree_gas_le hrun
  rw [hordered.gas_eq] at hgas
  have hle := hordered.intrinsic_le
  omega

/-- **A transaction that begins** and does not end fatally has run its tree and counted its
gas. -/
theorem counted_of_begin {begun : Nat × Nat}
    (hbegin : begin t setting (s.opened t) = .ok begun s₁)
    (hfatal : ∀ e, (s.transact setting t).1.reason ≠ .fatal e) : ∃ f s₂,
      tree t setting (s.opened t) = .ok f s₂ ∧ (s.transact setting t).2.usedGas =
        t.gasLimit - f.gas - refunded f (t.gasLimit - f.gas) := by
  have hends := transact_ends setting t s
  cases hresult : (tree t >>= close t.gasLimit) setting (s.opened t) with
  | ok receipt s₃ =>
    obtain ⟨⟨trace, hs₃⟩, -⟩ := hends.of_ok hresult
    obtain ⟨f, s₂, htree, hclose⟩ := reader_bind_eq_ok hresult
    obtain ⟨s₄, s₅, -, -, -, rfl⟩ := close_spec hclose
    exact ⟨f, s₂, htree, by rw [hs₃]⟩
  | error reason s₃ =>
    obtain ⟨-, hreceipt⟩ := hends.of_error hresult
    have herror : ∃ e, reason = .fatal e := by
      rcases bind_eq_error hresult with htree | ⟨f, s₂, -, hclose⟩
      · rcases tree_eq_error htree with he | horder
        · exact he
        · exact (order_of_begin hbegin).of_error horder
      · exact (failsFatally_close _ _ _ _).of_error hclose reason rfl
    obtain ⟨e, rfl⟩ := herror
    exact absurd (congrArg Receipt.reason hreceipt) (hfatal e)

/-- **Gas is never created.**  Wherever a tree stands, it has no more gas than before: while the
frame of a round advances, when its child begins or its parent goes on, and so from any round to
any later one.  A transaction that begins and does not end fatally has used no less than its
intrinsic cost and no more than its limit, and gets back at most the half of it. -/
theorem gas_never_created :
    (∀ (s : Setting) (root : Machine) (x y : List Frame × Machine),
      Relation.ReflTransGen (Next s) ([], { root with journal := root.journal.enter }) x →
      Relation.ReflTransGen (Next s) x y →
      treeGas y.1 y.2 ≤ treeGas x.1 x.2 ∧
      (root.frame.child = none → treeGas y.1 y.2 ≤ root.frame.gas) ∧
      ∀ m', advance s y.2 = .ok () m' → treeGas y.1 m' ≤ treeGas y.1 y.2 ∧
        ∀ z, Next s y z → treeGas z.1 z.2 ≤ treeGas y.1 m') ∧
    ∀ (setting : SessionSetting) (t : Transaction) (s s₁ : Session) (begun : Nat × Nat),
      begin t setting (s.opened t) = .ok begun s₁ →
      (∀ e, (s.transact setting t).1.reason ≠ .fatal e) →
      ∃ f s₂ used, tree t setting (s.opened t) = .ok f s₂ ∧
        used = t.gasLimit - f.gas ∧ setting.intrinsic t ≤ used ∧ used ≤ t.gasLimit ∧
        refunded f used ≤ used / 2 ∧
        (s.transact setting t).2.usedGas = used - refunded f used ∧
        used - used / 2 ≤ (s.transact setting t).2.usedGas ∧
        (s.transact setting t).2.usedGas ≤ used := by
  refine ⟨fun s root x y hx hy => ?_, fun setting t s s₁ begun hbegin hfatal => ?_⟩
  · obtain ⟨hroot, hchildless⟩ := treeGas_le_of_later (List.forall_mem_nil _) hx
    obtain ⟨hgas, hchildless'⟩ := treeGas_le_of_later hchildless hy
    refine ⟨hgas, fun hchild => (hgas.trans hroot).trans_eq ?_, fun m' hadvance => ⟨?_, ?_⟩⟩
    · change root.frame.heldGas + 0 = root.frame.gas
      rw [Frame.heldGas, hchild]
      rfl
    · exact Nat.add_le_add_right (advance_heldGas_le hadvance) _
    · exact fun z hnext => (treeGas_round_le hchildless' hadvance hnext).1
  · obtain ⟨f, s₂, htree, husedGas⟩ := counted_of_begin hbegin hfatal
    have hgas := gas_le_of_tree htree
    have hrefunded := refunded_le f (t.gasLimit - f.gas)
    exact ⟨f, s₂, _, htree, rfl, by omega, by omega, hrefunded, husedGas, by omega, by omega⟩

/-- The caller and its callee together have no more gas than the caller had, and the account that
leaves what it has to itself pays for that between the intrinsic cost and its limit. -/
theorem gas_never_created_of_leaver :
    (∃ parent m, Next bare ([], { callerRoot with journal := callerRoot.journal.enter })
      ([parent], m) ∧ treeGas [parent] m ≤ callerRoot.frame.gas) ∧
    ∃ used, bareSession.intrinsic leaving ≤ used ∧ used ≤ leaving.gasLimit ∧
      used - used / 2 ≤ (leaverSession.transact bareSession leaving).2.usedGas ∧
      (leaverSession.transact bareSession leaving).2.usedGas ≤ used := by
  constructor
  · obtain ⟨m', parent, m, -, -, hround⟩ := callee_begins
    have hgas := gas_never_created.1 bare callerRoot ([], _) ([parent], m) .refl (.single hround)
    exact ⟨parent, m, hround, hgas.2.1 rfl⟩
  · obtain ⟨f, s₂, used, -, -, hintrinsic, hlimit, -, -, hhalf, hused⟩ :=
      gas_never_created.2 bareSession leaving leaverSession _ _ begin_leaving reason_leaving
    exact ⟨used, hintrinsic, hlimit, hhalf, hused⟩

end Session
end Ethereum
