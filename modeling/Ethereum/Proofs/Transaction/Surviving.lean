/-
# Effects of surviving frames

What happens while a tree of frames runs is a history of marks: a frame begins, the frame that runs
has an effect, or it ends in some state (`Lifecycle.history`).  A frame is open from its mark to
begin to its mark to end, so the frames that are open where an effect stands are its own and those
around it, and what these come to is told by the rest of the history (`Mark.enclosing`).  The effect
survives if they all succeed (`Mark.surviving`).

Nothing is kept by the frames but what they have gathered themselves, and each hands that to its
parent, or drops it, when it ends.  What the open frames have gathered and what survives of the rest
is together the same before and after each round (`Mark.fate`), and in the end it is what the root
has gathered (`Lifecycle.rounds_gather`).  So the logs, deletions and refunds of a transaction are
those of its surviving effects, in the order in which these were executed
(`Session.effects_survive`).
-/

import Mathlib
import Ethereum.Proofs.Interpreter.Effects
import Ethereum.Proofs.Transaction.Aborting

namespace Ethereum

/-- What happens while a tree of frames runs. -/
inductive Mark where
  /-- A frame begins, inside those that are open. -/
  | begins
  /-- The innermost of the open frames has an effect. -/
  | did (effect : Effect)
  /-- The innermost of the open frames ends. -/
  | ends (outcome : FrameState)
deriving DecidableEq, Repr

namespace Mark

/-! ## Histories -/

/-- What the frames come to that are open before the rest of a history, the innermost first: those
that end in it but do not begin in it. -/
def enclosing : List Mark → List FrameState
  | [] => []
  | begins :: rest => (enclosing rest).tail
  | did _ :: rest => enclosing rest
  | ends outcome :: rest => outcome :: enclosing rest

/-- A frame survives if it and all frames around it succeed. -/
def Survives (outcomes : List FrameState) : Prop :=
  ∀ outcome ∈ outcomes, outcome = .completedSuccess

instance (outcomes : List FrameState) : Decidable (Survives outcomes) :=
  inferInstanceAs (Decidable (∀ outcome ∈ outcomes, outcome = .completedSuccess))

/-- The effects of surviving frames, in their order. -/
def surviving : List Mark → List Effect
  | [] => []
  | begins :: rest => surviving rest
  | did effect :: rest =>
    if Survives (enclosing rest) then effect :: surviving rest else surviving rest
  | ends _ :: rest => surviving rest

/-- What survives of what open frames have gathered, the outermost first.  The frames are given the
innermost first. -/
def standing : List FrameState → List (List Effect) → List Effect
  | outcome :: outcomes, es :: ess =>
    standing outcomes ess ++ if Survives (outcome :: outcomes) then es else []
  | _, _ => []

/-- What survives in the end of what open frames have gathered and of what happens yet. -/
def fate (ess : List (List Effect)) (rest : List Mark) : List Effect :=
  standing (enclosing rest) ess ++ surviving rest

variable {es own : List Effect} {ess : List (List Effect)} {rest : List Mark}
  {outcome : FrameState} {outcomes : List FrameState}

theorem survives_cons (outcome : FrameState) (outcomes : List FrameState) :
    Survives (outcome :: outcomes) ↔ outcome = .completedSuccess ∧ Survives outcomes :=
  List.forall_mem_cons

theorem enclosing_did (es : List Effect) (rest : List Mark) :
    enclosing (es.map did ++ rest) = enclosing rest := by
  induction es with
  | nil => rfl
  | cons e es ih => exact ih

theorem surviving_did (es : List Effect) (rest : List Mark) :
    surviving (es.map did ++ rest) =
      (if Survives (enclosing rest) then es else []) ++ surviving rest := by
  induction es with
  | nil => simp
  | cons e es ih =>
    rw [List.map_cons, List.cons_append, surviving, enclosing_did, ih]
    split <;> rfl

/-- Effects are gathered by the innermost frame. -/
theorem fate_did (h : enclosing rest = outcome :: outcomes) :
    fate (own :: ess) (es.map did ++ rest) = fate ((own ++ es) :: ess) rest := by
  unfold fate
  rw [surviving_did, enclosing_did, h, standing, standing, List.append_assoc, List.append_assoc]
  split <;> simp

/-- A frame that begins has gathered nothing. -/
theorem fate_begins (h : enclosing rest = outcome :: outcomes) :
    fate ess (begins :: rest) = fate ([] :: ess) rest := by
  unfold fate
  rw [surviving, enclosing, h, standing, ite_self, List.append_nil]
  rfl

/-- A frame that ends leaves what it gathered to the one around it, if it succeeds. -/
theorem fate_ends {final : FrameState} (h : enclosing rest = outcome :: outcomes) :
    fate (es :: own :: ess) (ends final :: rest) =
      fate ((own ++ if final = .completedSuccess then es else []) :: ess) rest := by
  unfold fate
  rw [surviving, enclosing, h, standing, standing, standing,
    if_congr (survives_cons final (outcome :: outcomes)) rfl rfl]
  by_cases hfinal : final = .completedSuccess
  · by_cases hsurvives : Survives (outcome :: outcomes)
    · simp [hfinal, hsurvives]
    · simp [hfinal, hsurvives]
  · simp [hfinal]

/-- The last frame that ends leaves what it gathered, if it succeeds. -/
theorem fate_last (final : FrameState) :
    fate [es] [ends final] = if final = .completedSuccess then es else [] := by
  have hone : Survives [final] ↔ final = .completedSuccess := List.forall_mem_singleton
  simp [fate, surviving, enclosing, standing, hone]

end Mark

namespace Lifecycle

variable {s : Setting} {root m m' : Machine} {js : List Journal} {parents : List Frame}
  {es own : List Effect}

/-! ## One frame -/

/-- The effects of a frame that advances, in their order. -/
def effects (s : Setting) (m : Machine) : List Effect :=
  match if m.frame.state = .notStarted then start s m else .ok () m with
  | .ok _ m₁ => Run.effects s.toContext (m₁.frame.gas + 1) m₁
  | .error _ _ => []

theorem tally_failed (f : Frame) : (failed f).tally = f.tally := by
  unfold failed
  split <;> rfl

theorem Started.tally_eq (h : Started s m (.ok ()) m') : m'.frame.tally = m.frame.tally := by
  cases h with
  | executing hjournal hframe => exact hframe ▸ rfl
  | completed gas output hgas hjournal hframe => exact hframe ▸ rfl
  | halted gas e hgas hjournal hframe => exact hframe ▸ rfl

theorem Succeeded.tally_eq (h : Succeeded s m (.ok ()) m') : m'.frame.tally = m.frame.tally := by
  cases h with
  | completed hjournal hframe => exact hframe ▸ rfl
  | deployed hkind hlimit hgas hcode hframe => exact hframe ▸ rfl
  | halted e hjournal hframe => exact hframe ▸ rfl

theorem afterCode_tally : Ends (afterCode s) m fun r m' => r = .ok () →
    m'.frame.tally = m.frame.tally := by
  refine when_ends (fun _ => succeed_ends.mono fun r m₁ h₁ => ?_) fun _ _ => tally_failed _
  cases r with
  | error e => exact nofun
  | ok => exact fun _ => (tally_failed _).trans h₁.tally_eq

theorem afterStart_counts (h : m.frame.tally.Counts es) :
    Ends (afterStart s) m fun r m' => r = .ok () →
      m'.frame.tally.Counts (es ++ Run.effects s.toContext (m.frame.gas + 1) m) := by
  have hcode {m₁ : Machine} {es : List Effect} (h₁ : m₁.frame.tally.Counts es) :
      Ends (afterCode s) m₁ fun r m' => r = .ok () → m'.frame.tally.Counts es :=
    afterCode_tally.mono fun r m' heq hr => heq hr ▸ h₁
  refine when_ends (fun _ => ?_) fun hstate => ?_
  · have hsteps : Ends (Run.toHalt s.toContext) m fun r m' => r = .ok () →
        m'.frame.tally.Counts (es ++ Run.effects s.toContext (m.frame.gas + 1) m) :=
      bind_ends_of_ok rfl (Run.steps_counts _ h)
    refine hsteps.mono fun r m₁ h₁ => ?_
    cases r with
    | error e => exact nofun
    | ok => exact hcode (h₁ rfl)
  · rw [Run.effects, if_neg hstate, List.append_nil]
    exact hcode h

/-- **A frame that advances** gathers its effects. -/
theorem advance_counts (h : m.frame.tally.Counts es) (hadvance : advance s m = .ok () m') :
    m'.frame.tally.Counts (es ++ effects s m) := by
  have hwork : Ends (work s) m fun r m' => r = .ok () →
      m'.frame.tally.Counts (es ++ effects s m) := by
    unfold effects
    refine when_ends (fun hstate => ?_) fun hstate => ?_
    · rw [Ends, if_pos hstate]
      cases hstart : start s m with
      | error e m₁ => rintro ⟨⟩
      | ok _ m₁ => exact afterStart_counts ((start_ends.of_ok hstart).tally_eq ▸ h)
    · rw [if_neg hstate]
      exact afterStart_counts h
  obtain ⟨m₁, hrun, hframe⟩ := exists_work_of_advance hadvance
  exact hframe ▸ hwork.of_ok hrun rfl

/-! ## Trees -/

/-- What follows where a frame has advanced: it waits for a child that begins, or it ends. -/
def turn (f : Frame) : Mark :=
  if f.state = .codeSuspended then .begins else .ends f.state

/-- What happens in at most `fuel` rounds. -/
def history (s : Setting) : Nat → List Frame → Machine → List Mark
  | 0, _, _ => []
  | fuel + 1, parents, m =>
    (effects s m).map .did ++ match advance s m with
      | .error _ _ => []
      | .ok _ m' => turn m'.frame :: match round parents s m with
        | .ok (.more parents') next => history s fuel parents' next
        | _ => []

/-- What happens while the tree of a root runs. -/
def treeHistory (s : Setting) (root : Machine) : List Mark :=
  .begins :: history s (2 * root.frame.gas + 2) [] { root with journal := root.journal.enter }

open Mark

/-- What open frames have gathered, the innermost first, and what happens from then on until the
root has ended with what survives of both. -/
structure Gathers (ess : List (List Effect)) (rest : List Mark) (m' : Machine) : Prop where
  length_eq : (enclosing rest).length = ess.length
  counts : ∃ es, m'.frame.tally.Counts es ∧
    fate ess rest = if m'.frame.state = .completedSuccess then es else []

namespace Gathers

variable {ess : List (List Effect)} {rest : List Mark}

theorem did (h : Gathers ((own ++ es) :: ess) rest m') :
    Gathers (own :: ess) (es.map .did ++ rest) m' := by
  obtain ⟨hlength, es', hcounts, hfate⟩ := h
  obtain ⟨outcome, outcomes, henclosing⟩ := List.exists_cons_of_length_eq_add_one hlength
  exact ⟨(congrArg List.length (enclosing_did es rest)).trans hlength, es', hcounts,
    (fate_did henclosing).trans hfate⟩

theorem begins (h : Gathers ([] :: ess) rest m') : Gathers ess (.begins :: rest) m' := by
  obtain ⟨hlength, es', hcounts, hfate⟩ := h
  obtain ⟨outcome, outcomes, henclosing⟩ := List.exists_cons_of_length_eq_add_one hlength
  refine ⟨?_, es', hcounts, (fate_begins henclosing).trans hfate⟩
  rw [enclosing, List.length_tail, hlength]
  rfl

theorem ends {final : FrameState}
    (h : Gathers ((own ++ if final = .completedSuccess then es else []) :: ess) rest m') :
    Gathers (es :: own :: ess) (.ends final :: rest) m' := by
  obtain ⟨hlength, es', hcounts, hfate⟩ := h
  obtain ⟨outcome, outcomes, henclosing⟩ := List.exists_cons_of_length_eq_add_one hlength
  exact ⟨congrArg Nat.succ hlength, es', hcounts, (fate_ends henclosing).trans hfate⟩

end Gathers

/-- **Rounds until the root has completed** leave with it what survives of what the open frames have
gathered and of what happens. -/
theorem rounds_gather (hroot : root.frame.state = .notStarted) {fuel : Nat}
    (h : Reached s root js parents m) (hfuel : roundsLeft parents m ≤ fuel)
    (hrounds : rounds fuel parents s m = .ok () m') {ess : List (List Effect)}
    (hown : m.frame.tally.Counts own)
    (hparents : List.Forall₂ (fun f es => f.tally.Counts es) parents ess) :
    Gathers (own :: ess) (history s fuel parents m) m' := by
  -- the tallies of the open frames count the effects that each has gathered
  induction fuel generalizing js parents m own ess with
  | zero => exact absurd hfuel (by simp [roundsLeft])
  | succ fuel ih =>
    obtain ⟨result, next, hround, hrest⟩ := reader_bind_eq_ok hrounds
    obtain ⟨m₁, hadvance⟩ := exists_advance_of_round hround
    have hown₁ := advance_counts hown hadvance
    unfold history
    simp only [hadvance, hround]
    refine Gathers.did ?_
    cases result with
    | done =>
      cases hrest
      obtain ⟨hstate, rfl, rfl⟩ := done_cases hadvance hround
      cases hparents
      rw [turn, if_neg hstate]
      exact ⟨rfl, _, hown₁, fate_last _⟩
    | more parents' =>
      have hlt := roundsLeft_lt (h.ready hroot) hround
      obtain ⟨js', hnext⟩ := h.of_round hroot hround
      have hfuel' : roundsLeft parents' next ≤ fuel := by omega
      by_cases hstate : m₁.frame.state = .codeSuspended
      · obtain ⟨message, -, hframe, -, hmore⟩ := descends_of_round hadvance hstate hround
        cases hmore
        rw [turn, if_pos hstate]
        refine Gathers.begins (ih hnext hfuel' hrest ?_ (.cons hown₁ hparents))
        exact hframe ▸ Frame.counts_ofMessage _ _ _ _
      · obtain ⟨parent, rfl, -, hframe⟩ := ascends_of_round hadvance hstate hround
        cases hparents with
        | cons hparent hothers =>
          rw [turn, if_neg hstate]
          refine Gathers.ends (ih hnext hfuel' hrest ?_ hothers)
          exact hframe.tally_eq ▸ Frame.counts_resumed hparent hown₁

/-- **The root of a tree** has gathered in the end what survives, if it succeeds, and every frame
that begins has ended. -/
theorem runTree_gathers (hroot : root.frame.state = .notStarted)
    (hfresh : root.frame.tally.Counts []) (h : runTree s root = .ok () m') :
    Gathers [] (treeHistory s root) m' := by
  rw [runTree_eq] at h
  refine Gathers.begins (rounds_gather hroot .start ?_ h hfresh .nil)
  simp [roundsLeft, gasOf]

end Lifecycle

/-! ## Transactions -/

namespace Transact

variable {setting : SessionSetting} {t : Transaction} {s s' : Session} {f : Frame}

/-- What happens while the tree of a transaction runs: nothing, if it is rejected. -/
def history (setting : SessionSetting) (t : Transaction) (s : Session) : List Mark :=
  match order t setting s with
  | .ok m s₁ => Lifecycle.treeHistory setting.toSetting (setting.root m s₁)
  | .error _ _ => []

/-- What a root frame leaves, told by effects: its logs, its deletions, and what comes back of the
gas. -/
structure Leaves (f : Frame) (es : List Effect) : Prop where
  logs_eq : leftLogs f = (Effect.logs es).toArray
  deletions_eq : f.deletions = Effect.recipients es
  refunded_eq : ∀ used, refunded f used = min (used / 2)
    (Quantity.satAdd (Effect.refunds es).toNat (Quantity.satMul 24000 (Effect.recipients es).card))

/-- The accounts to delete are as many as there are recipients. -/
theorem size_of_counts {es : List Effect} (h : f.tally.Counts es) :
    f.selfDestructs.toList.toFinset = Effect.recipients es ∧
      f.selfDestructs.size = (Effect.recipients es).card := by
  have heq : f.selfDestructs.toList.toFinset = Effect.recipients es := by
    ext address
    rw [List.mem_toFinset, Std.ExtTreeSet.mem_toList]
    exact h.mem_iff address
  have hnodup : f.selfDestructs.toList.Nodup := by
    refine Std.ExtTreeSet.distinct_toList.imp fun hne heq => ?_
    exact hne (Std.compare_eq_iff_eq.mpr heq)
  refine ⟨heq, ?_⟩
  rw [← heq, List.toFinset_card_of_nodup hnodup, Std.ExtTreeSet.length_toList]

/-- **A root frame leaves** what it has gathered, if it succeeds. -/
theorem leaves_of_counts {es : List Effect} (h : f.tally.Counts es) :
    Leaves f (if f.state = .completedSuccess then es else []) := by
  by_cases hsuccess : f.state = .completedSuccess
  · obtain ⟨hdeletions, hsize⟩ := size_of_counts h
    rw [if_pos hsuccess]
    constructor
    · rw [leftLogs, if_pos hsuccess, ← h.logs_eq]
      rfl
    · rw [Frame.deletions, if_pos hsuccess, hdeletions]
    · intro used
      rw [refunded, if_pos hsuccess, refund, hsize, ← h.refund_eq]
      rfl
  · rw [if_neg hsuccess]
    constructor
    · rw [leftLogs, if_neg hsuccess]
      rfl
    · rw [Frame.deletions, if_neg hsuccess]
      rfl
    · intro used
      rw [refunded, if_neg hsuccess]
      exact (Nat.min_zero _).symm

/-- **The tree of a transaction** leaves what survives of what happens in it. -/
theorem leaves_of_tree (h : tree t setting s = .ok f s') :
    Leaves f (Mark.surviving (history setting t s)) := by
  obtain ⟨m, s₁, machine, horder, hrun, rfl, -⟩ := tree_eq_ok h
  have hgathers := Lifecycle.runTree_gathers rfl (Frame.counts_ofMessage _ _ _ _) hrun
  obtain ⟨hlength, es, hcounts, hfate⟩ := hgathers
  rw [Mark.fate, List.eq_nil_of_length_eq_zero hlength] at hfate
  change Mark.surviving _ = _ at hfate
  rw [history, horder]
  dsimp only
  rw [hfate]
  exact leaves_of_counts hcounts

/-- Settling a transaction leaves its logs. -/
theorem settle_logs (h : settle setting s = .ok () s') : s'.logs = s.logs := by
  obtain ⟨_, s₁, hclear, hcommit⟩ := reader_bind_eq_ok (reverting_eq_ok h)
  obtain ⟨j, -, rfl⟩ := changing_eq_ok hcommit
  exact (clearEmptyAccounts_inner.of_ok hclear).2

end Transact

namespace Session

open Transact

variable {setting : SessionSetting} {t : Transaction} {s s' : Session} {receipt : Receipt}

/-- The gas that a transaction has used when its tree has ended, before anything is refunded.  One
that is rejected uses none. -/
def spent (setting : SessionSetting) (t : Transaction) (s : Session) : Nat :=
  match tree t setting (s.opened t) with
  | .ok f _ => t.gasLimit - f.gas
  | .error _ _ => 0

/-- What a session keeps of the effects of a transaction.  Where the transaction is not rejected,
the accounts that deleted themselves are deleted in the journal that its tree leaves, and then the
transaction is settled. -/
structure Collects (setting : SessionSetting) (t : Transaction) (s s' : Session)
    (es : List Effect) : Prop where
  logs_eq : s'.logs = s.logs ++ (Effect.logs es).toArray
  deleted : (∃ reason s₁, tree t setting (s.opened t) = .error reason s₁ ∧ es = [] ∧
      s'.journal = s.journal) ∨
    ∃ f s₁ s₂ s₃, tree t setting (s.opened t) = .ok f s₁ ∧
      s₁.journal.Deletes (Effect.recipients es) s₂.journal ∧ settle setting s₂ = .ok () s₃ ∧
      s'.journal = s₃.journal
  usedGas_eq : s'.usedGas = s.spent setting t - min (s.spent setting t / 2)
    (Quantity.satAdd (Effect.refunds es).toNat (Quantity.satMul 24000 (Effect.recipients es).card))

/-- **Effects are collected from exactly the surviving frames.**  A transaction that does not end
fatally adds the logs of its surviving frames to its session, in the order in which these were left,
deletes the accounts that deleted themselves in them, and gets back what these frames cleared and
deleted, up to half of its gas. -/
theorem effects_survive (hrun : s.transact setting t = (receipt, s'))
    (hfatal : ∀ e, receipt.reason ≠ .fatal e) :
    s.Collects setting t s' (Mark.surviving (Transact.history setting t (s.opened t))) := by
  have hends := transact_ends setting t s
  rw [hrun] at hends
  -- a transaction that was rejected has no effects
  cases htree : tree t setting (s.opened t) with
  | error reason s₁ =>
    obtain ⟨⟨trace, rfl⟩, rfl⟩ := hends.of_error (bind_eq_of_error htree)
    have horder := (tree_eq_error htree).resolve_left fun ⟨e, he⟩ => hfatal e he
    obtain ⟨-, rfl⟩ := (order_ends.of_error horder).resolve_left fun ⟨e, he⟩ => hfatal e he
    have hnone : Transact.history setting t (s.opened t) = [] := by
      rw [Transact.history, horder]
    rw [hnone]
    constructor
    · exact (logs_opened t s).trans Array.append_empty.symm
    · exact .inl ⟨reason, _, htree, rfl, journal_opened t s⟩
    · have hspent : s.spent setting t = 0 := by
        rw [spent, htree]
      rw [hspent]
      exact (Nat.zero_sub _).symm
  | ok f s₁ =>
    obtain ⟨hleftLogs, hdeletions, hrefunded⟩ := leaves_of_tree htree
    cases hclose : close t.gasLimit f setting s₁ with
    | error reason s₂ =>
      obtain ⟨-, rfl⟩ := hends.of_error ((bind_eq_of_ok htree).trans hclose)
      obtain ⟨e, he⟩ := (failsFatally_close _ _ setting s₁).of_error hclose reason rfl
      exact absurd he (hfatal e)
    | ok receipt' s₂ =>
      obtain ⟨⟨trace, rfl⟩, -⟩ := hends.of_ok ((bind_eq_of_ok htree).trans hclose)
      obtain ⟨s₃, s₄, htake, hsettle, -, rfl⟩ := close_spec hclose
      obtain ⟨-, hdeletes, hlogs⟩ := takeOver_ends.of_ok htake
      have hspent : s.spent setting t = t.gasLimit - f.gas := by
        rw [spent, htree]
      constructor
      · show s₄.logs = _
        rw [settle_logs hsettle, hlogs, (tree_inner htree).2, logs_opened, hleftLogs]
      · exact .inr ⟨f, s₁, s₃, s₄, htree, hdeletions ▸ hdeletes, hsettle, rfl⟩
      · rw [hspent, ← hrefunded]

/-! ### A caller of one that succeeds and of one that fails -/

/-- Code that leaves a log, calls accounts 3 and 4 with some gas, and leaves a log of topic 8. -/
def tellerCode : Bytes :=
  [0x60, 0, 0x60, 0, 0xa0,
    0x60, 0, 0x60, 0, 0x60, 0, 0x60, 0, 0x60, 0, 0x60, 3, 0x61, 0xc3, 0x50, 0xf1,
    0x60, 0, 0x60, 0, 0x60, 0, 0x60, 0, 0x60, 0, 0x60, 4, 0x61, 0xc3, 0x50, 0xf1,
    0x60, 8, 0x60, 0, 0x60, 0, 0xa1]

/-- Code that leaves a log of topic 7, clears slot 0 and deletes its account. -/
def leavingCode : Bytes :=
  [0x60, 7, 0x60, 0, 0x60, 0, 0xa1, 0x60, 0, 0x60, 0, 0x55, 0x60, 2, 0xff]

/-- Code that leaves a log of topic 9 and reverts. -/
def takingBackCode : Bytes := [0x60, 9, 0x60, 0, 0x60, 0, 0xa1, 0x60, 0, 0x60, 0, 0xfd]

/-- The scope in which accounts 2, 3 and 4 have code, and account 3 has 5 in slot 0. -/
def tellerScope : Scope :=
  (((Scope.empty.put (.fresh 1 0 0)).put ((Overlay.fresh 2 1 0).setCode tellerCode)).put
    (((Overlay.fresh 3 1 0).setCode leavingCode).setSlot 0 5)).put
      ((Overlay.fresh 4 1 0).setCode takingBackCode)

/-- The session over a scope around which lies that scope. -/
def tellerSession : Session := .ofJournal (Journal.enter ⟨.empty, [], tellerScope⟩) .off

/-- Account 1 calls account 2. -/
def telling : Transaction := ⟨1, some 2, 0, [], 200000⟩

/-- What account 4 left does not survive. -/
theorem effects_survive_of_telling : ∃ receipt s',
    tellerSession.transact bareSession telling = (receipt, s') ∧
      (∀ e, receipt.reason ≠ .fatal e) ∧
      .did (.logged ⟨4, [9], []⟩) ∈
        Transact.history bareSession telling (tellerSession.opened telling) ∧
      tellerSession.Collects bareSession telling s' [.logged ⟨2, [], []⟩, .logged ⟨3, [7], []⟩,
        .stored 5 0, .destroyed 3, .logged ⟨2, [8], []⟩] := by
  have hreason : (tellerSession.transact bareSession telling).1.reason.isFatal = false := by
    decide +kernel
  have hleft : .did (.logged ⟨4, [9], []⟩) ∈
      Transact.history bareSession telling (tellerSession.opened telling) := by
    decide +kernel
  have hsurviving :
      Mark.surviving (Transact.history bareSession telling (tellerSession.opened telling)) =
        [.logged ⟨2, [], []⟩, .logged ⟨3, [7], []⟩, .stored 5 0, .destroyed 3,
          .logged ⟨2, [8], []⟩] := by
    decide +kernel
  cases hrun : tellerSession.transact bareSession telling with
  | mk receipt s' =>
    rw [hrun] at hreason
    have hfatal : ∀ e, receipt.reason ≠ .fatal e := by
      intro e he
      rw [he] at hreason
      cases hreason
    exact ⟨receipt, s', rfl, hfatal, hleft, hsurviving ▸ effects_survive hrun hfatal⟩

end Session
end Ethereum
