/-
# Forced addresses

A frame that fails drops its scope, and then touches the forced addresses that it had touched in
the scope around it (`Lifecycle.Closes`).  So an address that was touched in the scope of one of the
open frames is touched in one of these scopes after each round, whether the frame of the round
begins a child, succeeds or fails, and in the end in the scope that the tree was started over
(`Lifecycle.Rest.touched`).

What is touched again was copied from the scope around the failed frame and not from inside it.  So
as long as surviving frames leave an account as they find it (`Lifecycle.Spares`), each open frame
that will survive finds what was found when the tree started, and so does the tree when it has ended
(`Lifecycle.Rest.findOrFresh_eq`).
-/

import Mathlib
import Ethereum.Proofs.Transaction.Clearing
import Ethereum.Proofs.Transaction.Scopes
import Ethereum.Proofs.Transaction.Surviving

namespace Ethereum

/-! ## Scopes that delete nothing -/

namespace Scope

variable {s c : Scope} {a : Address}

/-- The scope has deleted nothing. -/
def Undeleted (s : Scope) : Prop := ∀ a, a ∉ s.deleted

theorem undeleted_empty : empty.Undeleted := fun _ => Std.ExtTreeSet.not_mem_empty

theorem Undeleted.put (h : s.Undeleted) (o : Overlay) : (s.put o).Undeleted := fun a ha =>
  h a (Std.ExtTreeSet.mem_erase.mp ha).2

theorem Undeleted.merge (h : s.Undeleted) (hundeleted : c.Undeleted) (hc : c.Regular) :
    (s.merge c).Undeleted := by
  intro a ha
  have hmerged := (lookup_merge s hc.separate hc.keyed a).symm.trans (lookup_of_mem_deleted ha)
  rcases Option.or_eq_some_iff.mp hmerged with hgone | ⟨-, hgone⟩
  · exact hundeleted a (mem_deleted_of_lookup hgone)
  · exact h a (mem_deleted_of_lookup hgone)

/-- What was touched is what the scope has an overlay of. -/
theorem Separate.mem_touched_iff (h : s.Separate) :
    a ∈ s.touched ↔ ∃ o, s.lookup a = some (some o) := by
  constructor
  · intro ha
    obtain ⟨o, ho⟩ := Option.isSome_iff_exists.mp
      (Std.ExtTreeMap.mem_iff_isSome_getElem?.mp (Std.ExtTreeMap.mem_keys.mp ha))
    exact ⟨o, h.lookup_of_updated ho⟩
  · rintro ⟨o, ho⟩
    by_contra hnot
    exact lookup_of_not_touched hnot ho

/-- A merged scope has touched what both have touched. -/
theorem touched_merge (hs : s.Separate) (hundeleted : c.Undeleted) (hc : c.Regular)
    (ha : a ∈ s.touched ∨ a ∈ c.touched) : a ∈ (s.merge c).touched := by
  rw [(hs.merge c).mem_touched_iff, lookup_merge s hc.separate hc.keyed]
  rw [hs.mem_touched_iff, hc.separate.mem_touched_iff] at ha
  cases hinner : c.lookup a with
  | none =>
    rw [Option.none_or]
    exact ha.resolve_right fun ⟨o, ho⟩ => by cases hinner.symm.trans ho
  | some held =>
    cases held with
    | none => exact absurd (mem_deleted_of_lookup hinner) (hundeleted a)
    | some o => exact ⟨o, rfl⟩

end Scope

namespace Journal

variable {store : Store} {j j' inner : Journal} {a : Address}

/-- The journal is regular, and its scope has deleted nothing. -/
structure Whole (j : Journal) : Prop where
  regular : j.Regular
  undeleted : j.scope.Undeleted

theorem Whole.enter (h : j.Whole) : j.enter.Whole := ⟨h.regular.enter, Scope.undeleted_empty⟩

theorem Whole.scope (h : j.Whole) : j.scope.Regular := h.regular _ List.mem_cons_self

/-- If the first journal is whole, so is the second, and it has touched all that the first has
touched. -/
def Touches (j j' : Journal) : Prop := j.Whole → j'.Whole ∧ ∀ a ∈ j.touched, a ∈ j'.touched

instance : Std.Refl Touches := ⟨fun _ h => ⟨h, fun _ => id⟩⟩

instance : IsTrans Journal Touches where
  trans _ _ _ h h' hj := by
    obtain ⟨hj', htouched⟩ := h hj
    obtain ⟨hj'', htouched'⟩ := h' hj'
    exact ⟨hj'', fun a => htouched' a ∘ htouched a⟩

/-- A change of an account touches it, and forgets nothing. -/
theorem Whole.put (h : j.Whole) {o : Overlay} (ho : o.LiesAt a) :
    (j.put o).Whole ∧ a ∈ (j.put o).touched ∧ ∀ x ∈ j.touched, x ∈ (j.put o).touched := by
  refine ⟨⟨h.regular.put ho, h.undeleted.put o⟩, ?_, fun x hx => ?_⟩
  · refine Std.ExtTreeMap.mem_keys.mpr (Std.ExtTreeMap.mem_insert.mpr (.inl ?_))
    exact Std.compare_eq_iff_eq.mpr ho.address_eq
  · exact Std.ExtTreeMap.mem_keys.mpr
      (Std.ExtTreeMap.mem_insert.mpr (.inr (Std.ExtTreeMap.mem_keys.mp hx)))

theorem touches_update (store : Store) : ThroughUpdates store Touches :=
  fun _ _ _ hchange => leads_update fun _ _ hfound h =>
    have hput := h.put (hchange.liesAt (h.regular.liesAt_of_findOrFresh hfound))
    ⟨hput.1, hput.2.2⟩

/-- **Addresses that are created again** are touched. -/
theorem Whole.forM_getOrCreate (h : j.Whole) {l : List Address}
    (hrun : l.forM (getOrCreate store) j = .ok () j') (ha : a ∈ l) : a ∈ j'.touched := by
  induction l generalizing j with
  | nil => exact absurd ha List.not_mem_nil
  | cons address l ih =>
    obtain ⟨_, j₁, hcreate, hrest⟩ := bind_eq_ok hrun
    have hj₁ := ((touches_update store).mild.getOrCreate address j).of_ok hcreate h
    rcases List.mem_cons.mp ha with rfl | ha
    · obtain ⟨o, j₂, hupdate, hpure⟩ := bind_eq_ok hcreate
      cases hpure
      obtain ⟨hfound, rfl⟩ := update_eq_ok hupdate
      have hput := h.put (h.regular.liesAt_of_findOrFresh hfound)
      exact (((touches_update store).mild.forM_getOrCreate l _).of_ok hrest hj₁.1).2 _ hput.2.1
    · exact ih hj₁.1 hrest ha

/-- In a steady journal the same accounts are found or created. -/
theorem Steady.findOrFresh_eq (h : j.Steady store j') (a : Address) :
    j'.findOrFresh store a = j.findOrFresh store a := by
  rw [findOrFresh, findOrFresh]
  rcases h.find?_cases a with heq | ⟨hnone, hfresh⟩
  · rw [heq]
  · rw [hnone, hfresh]
    rfl

end Journal

namespace Lifecycle

variable {s : Setting} {root last m m₁ m' next : Machine} {j j' : Journal} {js : List Journal}
  {parents parents' : List Frame} {a : Address}

/-! ## Closing a scope -/

namespace Closes

theorem not_suspended (h : Closes s j m j') : m.frame.state ≠ .codeSuspended := by
  cases h with
  | merged hstate | dropped hstate => simp [hstate]

/-- **A scope that is closed** forgets nothing that was touched around it. -/
theorem touches (h : Closes s j m j') (hm : m.journal.Whole) : j.Touches j' := by
  cases h with
  | merged hstate hjournal =>
    intro hj
    obtain ⟨hscope, hparents⟩ := List.forall_mem_cons.mp hj.regular
    rw [hjournal]
    refine ⟨⟨List.forall_mem_cons.mpr ⟨hscope.merge hm.scope, hparents⟩,
      hj.undeleted.merge hm.undeleted hm.scope⟩, fun a ha => ?_⟩
    exact Scope.touched_merge hscope.separate hm.undeleted hm.scope (.inl ha)
  | dropped hstate hforced =>
    exact ((Journal.touches_update s.store).mild.forM_getOrCreate _ _).of_ok hforced

/-- **A forced address** that was touched in a scope is touched around it when it is closed. -/
theorem mem_touched (h : Closes s j m j') (hj : j.Whole) (hm : m.journal.Whole)
    (hforced : a ∈ s.forced) (ha : a ∈ m.journal.touched) : a ∈ j'.touched := by
  cases h with
  | merged hstate hjournal =>
    rw [hjournal]
    exact Scope.touched_merge hj.scope.separate hm.undeleted hm.scope (.inr ha)
  | dropped hstate hrun =>
    refine hj.forM_getOrCreate hrun (List.mem_filter.mpr ⟨ha, ?_⟩)
    exact Std.ExtTreeSet.contains_iff_mem.mpr hforced

/-- A scope that is closed by success is found as before, and one that is dropped is not found. -/
theorem findOrFresh_eq (h : Closes s j m j') (hinner : j.enter.Inner m.journal)
    (hj : j.Regular) (hm : m.journal.Regular) (a : Address) :
    j'.findOrFresh s.store a = if m.frame.state = .completedSuccess then
      m.journal.findOrFresh s.store a else j.findOrFresh s.store a := by
  cases h with
  | merged hstate hjournal =>
    rw [if_pos hstate, hjournal]
    exact (Journal.Steady.merge hinner hm).findOrFresh_eq a
  | dropped hstate hforced =>
    rw [if_neg (by simp [hstate])]
    exact (Journal.Steady.of_forM_getOrCreate hj hforced).findOrFresh_eq a

end Closes

/-! ## The rest of a tree -/

/-- A frame that completed has closed its scope. -/
theorem Ready.closes_of_advance (hready : Ready root (j :: js) parents m)
    (hadvance : advance s m = .ok () m') (hstate : m'.frame.state ≠ .codeSuspended) :
    ∃ m₁, work s m = .ok () m₁ ∧ m'.frame = m₁.frame ∧ j.enter.Inner m₁.journal ∧
      Closes s j m₁ m'.journal := by
  obtain ⟨m₁, hwork, hframe, hinner, ⟨rfl, hsuccess, hfailed⟩ | hcloses⟩ :=
    exists_closes_of_advance hready.nested.1 hadvance
  · rcases (work_settles hready.state).of_ok hwork rfl with ⟨h, -⟩ | ⟨h | h, -⟩
    · exact absurd h hstate
    · exact absurd h hsuccess
    · exact absurd h hfailed
  · exact ⟨m₁, hwork, hframe, hinner, hcloses⟩

/-- **A frame that waits** keeps its scope open, and its child begins in one of its own. -/
theorem Ready.waits (hready : Ready root js parents m) (hadvance : advance s m = .ok () m')
    (hstate : m'.frame.state = .codeSuspended)
    (hround : round parents s m = .ok (.more parents') next) :
    work s m = .ok () m' ∧ next.journal = m'.journal.enter := by
  obtain ⟨j, js, rfl⟩ := hready.exists_cons
  obtain ⟨message, -, -, hjournal, -⟩ := descends_of_round hadvance hstate hround
  obtain ⟨m₁, hwork, hframe, -, ⟨rfl, -⟩ | hcloses⟩ :=
    exists_closes_of_advance hready.nested.1 hadvance
  · exact ⟨hwork, hjournal⟩
  · exact absurd (hframe ▸ hstate) hcloses.not_suspended

/-- **A frame that completes** closes its scope, and its parent goes on in the one around it. -/
theorem Ready.closes (hready : Ready root (j :: js) parents m)
    (hadvance : advance s m = .ok () m') (hstate : m'.frame.state ≠ .codeSuspended)
    (hround : round parents s m = .ok (.more parents') next) :
    ∃ m₁, work s m = .ok () m₁ ∧ m'.frame = m₁.frame ∧ j.enter.Inner m₁.journal ∧
      Closes s j m₁ next.journal := by
  obtain ⟨parent, -, hjournal, -⟩ := ascends_of_round hadvance hstate hround
  obtain ⟨m₁, hwork, hframe, hinner, hcloses⟩ := hready.closes_of_advance hadvance hstate
  exact ⟨m₁, hwork, hframe, hinner, hjournal ▸ hcloses⟩

/-- What happens from a machine on that a tree leads to is told by any fuel that is enough. -/
theorem Reached.history_congr (hroot : root.frame.state = .notStarted)
    (h : Reached s root js parents m) {n k : Nat} (hn : roundsLeft parents m ≤ n)
    (hk : roundsLeft parents m ≤ k) : history s n parents m = history s k parents m := by
  induction n generalizing js parents m k with
  | zero => exact absurd hn (by simp [roundsLeft])
  | succ n ih =>
    cases k with
    | zero => exact absurd hk (by simp [roundsLeft])
    | succ k =>
      unfold history
      cases hround : round parents s m with
      | error e next => rfl
      | ok result next =>
        cases result with
        | done => rfl
        | more parents' =>
          have hlt := roundsLeft_lt (h.ready hroot) hround
          obtain ⟨js', hnext⟩ := h.of_round hroot hround
          dsimp only
          rw [ih hnext (k := k) (by omega) (by omega)]

/-- What the frames come to that are open at a machine that a tree leads to, the innermost first. -/
def outcomes (s : Setting) (parents : List Frame) (m : Machine) : List FrameState :=
  Mark.enclosing (history s (roundsLeft parents m) parents m)

/-- What the open frames come to is told by how the frame that runs has advanced, and by what
happens after its round. -/
theorem Reached.outcomes_eq (hroot : root.frame.state = .notStarted)
    (h : Reached s root js parents m) (hadvance : advance s m = .ok () m')
    (hround : round parents s m = .ok (.more parents') next) :
    outcomes s parents m = if m'.frame.state = .codeSuspended then (outcomes s parents' next).tail
      else m'.frame.state :: outcomes s parents' next := by
  have hlt := roundsLeft_lt (h.ready hroot) hround
  obtain ⟨js', hnext⟩ := h.of_round hroot hround
  rw [outcomes, h.history_congr hroot le_rfl (Nat.le_succ _), history, Mark.enclosing_did]
  simp only [hadvance, hround]
  rw [hnext.history_congr hroot (Nat.le_of_lt hlt) le_rfl, turn]
  split <;> rfl

/-- In the last round the only open frame is the root. -/
theorem Reached.outcomes_of_done (hroot : root.frame.state = .notStarted)
    (h : Reached s root js [] m) (hround : round [] s m = .ok .done m') :
    outcomes s [] m = [m'.frame.state] := by
  obtain ⟨m₁, hadvance⟩ := exists_advance_of_round hround
  obtain ⟨hstate, -, rfl⟩ := done_cases hadvance hround
  rw [outcomes, h.history_congr hroot le_rfl (Nat.le_succ _), history, Mark.enclosing_did]
  simp only [hadvance, hround]
  rw [turn, if_neg hstate]
  rfl

/-- How a tree goes on from a machine that it leads to, until its root has completed. -/
inductive Rest (s : Setting) (root last : Machine) : List Journal → List Frame → Machine → Prop
  /-- The root has worked and closes its scope. -/
  | done {m m₁ : Machine} (h : Reached s root [root.journal] [] m) (hwork : work s m = .ok () m₁)
    (houtcomes : outcomes s [] m = [m₁.frame.state]) (hframe : last.frame = m₁.frame)
    (hinner : root.journal.enter.Inner m₁.journal)
    (hcloses : Closes s root.journal m₁ last.journal) : Rest s root last [root.journal] [] m
  /-- The frame waits, and its child begins. -/
  | waits {js : List Journal} {parents parents' : List Frame} {m m₁ next : Machine}
    (h : Reached s root js parents m) (hwork : work s m = .ok () m₁)
    (houtcomes : outcomes s parents m = (outcomes s parents' next).tail)
    (hnext : next.journal = m₁.journal.enter)
    (hrest : Rest s root last (m₁.journal :: js) parents' next) : Rest s root last js parents m
  /-- The frame has worked and closes its scope, and its parent goes on. -/
  | closes {j : Journal} {js : List Journal} {parents parents' : List Frame}
    {m m₁ next : Machine} (h : Reached s root (j :: js) parents m) (hwork : work s m = .ok () m₁)
    (houtcomes : outcomes s parents m = m₁.frame.state :: outcomes s parents' next)
    (hinner : j.enter.Inner m₁.journal) (hcloses : Closes s j m₁ next.journal)
    (hrest : Rest s root last js parents' next) : Rest s root last (j :: js) parents m

/-- **Rounds until the root has completed** are the rest of its tree. -/
theorem rounds_rest (hroot : root.frame.state = .notStarted) {fuel : Nat}
    (h : Reached s root js parents m) (hfuel : roundsLeft parents m ≤ fuel)
    (hrounds : rounds fuel parents s m = .ok () m') : Rest s root m' js parents m := by
  -- the fuel is enough as long as it bounds the rounds that are left
  induction fuel generalizing js parents m with
  | zero => exact absurd hfuel (by simp [roundsLeft])
  | succ fuel ih =>
    obtain ⟨result, next, hround, hrest⟩ := reader_bind_eq_ok hrounds
    obtain ⟨m₂, hadvance⟩ := exists_advance_of_round hround
    have hready := h.ready hroot
    cases result with
    | done =>
      cases hrest
      obtain ⟨hstate, rfl, rfl⟩ := done_cases hadvance hround
      obtain ⟨j, rfl⟩ := List.length_eq_one_iff.mp hready.length_eq
      obtain rfl : j = root.journal := Option.some.inj hready.last_eq
      obtain ⟨m₁, hwork, hframe, hinner, hcloses⟩ := hready.closes_of_advance hadvance hstate
      exact .done h hwork (hframe ▸ h.outcomes_of_done hroot hround) hframe hinner hcloses
    | more parents' =>
      have hlt := roundsLeft_lt hready hround
      have houtcomes := h.outcomes_eq hroot hadvance hround
      by_cases hstate : m₂.frame.state = .codeSuspended
      · obtain ⟨hwork, hnext⟩ := hready.waits hadvance hstate hround
        rw [if_pos hstate] at houtcomes
        exact .waits h hwork houtcomes hnext
          (ih (.descend h hadvance hstate hround) (by omega) hrest)
      · obtain ⟨j, js, rfl⟩ := hready.exists_cons
        obtain ⟨m₁, hwork, hframe, hinner, hcloses⟩ := hready.closes hadvance hstate hround
        rw [if_neg hstate, hframe] at houtcomes
        exact .closes h hwork houtcomes hinner hcloses
          (ih (.ascend h hadvance hstate hround) (by omega) hrest)

/-- The rounds that are left of a tree that ends lead to its end. -/
theorem Reached.exists_rounds (hroot : root.frame.state = .notStarted)
    (hrun : runTree s root = .ok () m') (h : Reached s root js parents m) :
    ∃ fuel, roundsLeft parents m ≤ fuel ∧ rounds fuel parents s m = .ok () m' := by
  have hstep {js : List Journal} {parents parents' : List Frame} {m next : Machine}
      (h : Reached s root js parents m)
      (hround : round parents s m = .ok (.more parents') next)
      (ih : ∃ fuel, roundsLeft parents m ≤ fuel ∧ rounds fuel parents s m = .ok () m') :
      ∃ fuel, roundsLeft parents' next ≤ fuel ∧ rounds fuel parents' s next = .ok () m' := by
    obtain ⟨fuel, hfuel, hrounds⟩ := ih
    have hlt := roundsLeft_lt (h.ready hroot) hround
    cases fuel with
    | zero => exact absurd hfuel (by simp [roundsLeft])
    | succ fuel =>
      rw [rounds, reader_bind_eq_of_ok hround] at hrounds
      exact ⟨fuel, by omega, hrounds⟩
  induction h with
  | start =>
    rw [runTree_eq] at hrun
    exact ⟨_, by simp [roundsLeft, gasOf], hrun⟩
  | descend h hadvance hstate hround ih => exact hstep h hround ih
  | ascend h hadvance hstate hround ih => exact hstep h hround ih

/-- **A tree that ends** goes on to its end from each machine that it leads to. -/
theorem Reached.rest (hroot : root.frame.state = .notStarted)
    (hrun : runTree s root = .ok () m') (h : Reached s root js parents m) :
    Rest s root m' js parents m := by
  obtain ⟨fuel, hfuel, hrounds⟩ := h.exists_rounds hroot hrun
  exact rounds_rest hroot h hfuel hrounds

theorem Rest.exists_work (h : Rest s root last js parents m) : ∃ m₁, work s m = .ok () m₁ := by
  cases h with
  | done _ hwork | waits _ hwork | closes _ hwork => exact ⟨_, hwork⟩

/-! ## What stays touched -/

theorem work_touches (hwork : work s m = .ok () m₁) : m.journal.Touches m₁.journal :=
  (work_leads (Journal.touches_update s.store)).of_ok hwork rfl

/-- **All journals of a tree** are whole. -/
theorem Reached.whole (hroot : root.frame.state = .notStarted) (hwhole : root.journal.Whole)
    (h : Reached s root js parents m) : ∀ j ∈ m.journal :: js, j.Whole := by
  induction h with
  | start => exact List.forall_mem_cons.mpr ⟨hwhole.enter, List.forall_mem_singleton.mpr hwhole⟩
  | descend h hadvance hstate hround ih =>
    obtain ⟨hwork, hnext⟩ := (h.ready hroot).waits hadvance hstate hround
    obtain ⟨hm, hjs⟩ := List.forall_mem_cons.mp ih
    have hm' := (work_touches hwork hm).1
    rw [hnext]
    exact List.forall_mem_cons.mpr ⟨hm'.enter, List.forall_mem_cons.mpr ⟨hm', hjs⟩⟩
  | ascend h hadvance hstate hround ih =>
    obtain ⟨m₁, hwork, -, -, hcloses⟩ := (h.ready hroot).closes hadvance hstate hround
    obtain ⟨hm, hj, hjs⟩ := List.forall_mem_cons.mp ih |>.imp_right List.forall_mem_cons.mp
    exact List.forall_mem_cons.mpr ⟨(hcloses.touches (work_touches hwork hm).1 hj).1, hjs⟩

/-- **A forced address that was touched** in an open scope is touched in the end: whatever the open
frames come to, each round leaves it touched in one of their scopes. -/
theorem Rest.touched (hroot : root.frame.state = .notStarted) (hwhole : root.journal.Whole)
    (hforced : a ∈ s.forced) (h : Rest s root last js parents m) (hwork : work s m = .ok () m₁)
    (ha : ∃ j ∈ m₁.journal :: js, a ∈ j.touched) : a ∈ last.journal.touched := by
  -- each round leaves the address touched in one of the scopes that stay open
  induction h generalizing m₁ with
  | done h hwork' _ _ _ hcloses =>
    cases hwork.symm.trans hwork'
    obtain ⟨hm, hroot'⟩ := List.forall_mem_cons.mp (h.whole hroot hwhole)
    have hm₁ := (work_touches hwork hm).1
    obtain ⟨j, hj, ha⟩ := ha
    rcases List.mem_pair.mp hj with rfl | rfl
    · exact hcloses.mem_touched hwhole hm₁ hforced ha
    · exact (hcloses.touches hm₁ hwhole).2 a ha
  | waits h hwork' _ hnext hrest ih =>
    cases hwork.symm.trans hwork'
    obtain ⟨m₂, hwork₂⟩ := hrest.exists_work
    obtain ⟨j, hj, ha⟩ := ha
    exact ih hwork₂ ⟨j, List.mem_cons_of_mem _ hj, ha⟩
  | @closes j₀ js parents parents' m m₁' next h hwork' _ _ hcloses hrest ih =>
    cases hwork.symm.trans hwork'
    obtain ⟨hm, hj₀, -⟩ := List.forall_mem_cons.mp (h.whole hroot hwhole) |>.imp_right
      List.forall_mem_cons.mp
    have hm₁ := (work_touches hwork hm).1
    obtain ⟨hnext, hkept⟩ := hcloses.touches hm₁ hj₀
    obtain ⟨m₂, hwork₂⟩ := hrest.exists_work
    have hworked {x : Address} (hx : x ∈ next.journal.touched) : x ∈ m₂.journal.touched :=
      (work_touches hwork₂ hnext).2 x hx
    obtain ⟨j, hj, ha⟩ := ha
    rcases List.mem_cons.mp hj with rfl | hj
    · exact ih hwork₂ ⟨_, List.mem_cons_self,
        hworked (hcloses.mem_touched hj₀ hm₁ hforced ha)⟩
    · rcases List.mem_cons.mp hj with rfl | hj
      · exact ih hwork₂ ⟨_, List.mem_cons_self, hworked (hkept a ha)⟩
      · exact ih hwork₂ ⟨j, List.mem_cons_of_mem _ hj, ha⟩

/-! ## What stays of an account -/

/-- The surviving frames of a tree leave an account as they find it: whatever wrote to it did so in
a frame that failed, or inside one. -/
def Spares (s : Setting) (root : Machine) (a : Address) : Prop :=
  ∀ js parents m m₁, Reached s root js parents m → work s m = .ok () m₁ →
    Mark.Survives (outcomes s parents m) →
      m₁.journal.findOrFresh s.store a = m.journal.findOrFresh s.store a

/-- Of the frames that are open, the root comes to what it is in the end. -/
theorem Rest.outcomes_eq (hroot : root.frame.state = .notStarted)
    (h : Rest s root last js parents m) : ∃ inner : List FrameState,
      outcomes s parents m = inner ++ [last.frame.state] ∧ inner.length + 1 = js.length := by
  induction h with
  | done h hwork houtcomes hframe => exact ⟨[], hframe ▸ houtcomes, rfl⟩
  | waits h hwork houtcomes hnext hrest ih =>
    obtain ⟨inner, hinner, hlength⟩ := ih
    have hopen := (h.ready hroot).length_eq
    cases inner with
    | nil =>
      rw [List.length_cons, hopen] at hlength
      cases Nat.succ.inj hlength
    | cons outcome inner =>
      rw [hinner] at houtcomes
      exact ⟨inner, houtcomes, Nat.succ.inj hlength⟩
  | closes h hwork houtcomes hinner hcloses hrest ih =>
    obtain ⟨inner, hinner, hlength⟩ := ih
    rw [hinner] at houtcomes
    exact ⟨_ :: inner, houtcomes, congrArg Nat.succ hlength⟩

/-- **A tree whose root fails** has no surviving frames, so these spare every account. -/
theorem spares_of_failed (hroot : root.frame.state = .notStarted)
    (hrun : runTree s root = .ok () m') (hfailed : m'.frame.state ≠ .completedSuccess)
    (a : Address) : Spares s root a := by
  intro js parents m m₁ h hwork hsurvives
  obtain ⟨inner, houtcomes, -⟩ := (h.rest hroot hrun).outcomes_eq hroot
  exact absurd (hsurvives _ (houtcomes ▸ List.mem_concat_self)) hfailed

/-- Where a frame survives, the account is found in its journal.  The journals and the frames are
given the innermost first. -/
def FoundIn (store : Store) (a : Address) (found : Except StateError Overlay) :
    List Journal → List FrameState → Prop
  | [], _ => True
  | j :: js, outcomes =>
    (Mark.Survives outcomes → j.findOrFresh store a = found) ∧ FoundIn store a found js outcomes.tail

/-- **What surviving frames find** of an account that is spared is what is found in the end. -/
theorem Rest.findOrFresh_eq (hroot : root.frame.state = .notStarted) (hwhole : root.journal.Whole)
    (hspares : Spares s root a) (h : Rest s root last js parents m)
    {found : Except StateError Overlay}
    (hfound : FoundIn s.store a found (m.journal :: js) (outcomes s parents m)) :
    last.journal.findOrFresh s.store a = found := by
  have hworked {js : List Journal} {parents : List Frame} {m m₁ : Machine}
      (h : Reached s root js parents m) (hwork : work s m = .ok () m₁)
      (hm : Mark.Survives (outcomes s parents m) → m.journal.findOrFresh s.store a = found)
      (hsurvives : Mark.Survives (outcomes s parents m)) :
      m₁.journal.findOrFresh s.store a = found :=
    (hspares _ _ _ _ h hwork hsurvives).trans (hm hsurvives)
  -- backwards from the end: what is found there is found where each frame closed its scope
  induction h with
  | done h hwork houtcomes _ hinner hcloses =>
    obtain ⟨hm, hlast, -⟩ := hfound
    have hregular := (work_touches hwork (h.whole hroot hwhole _ List.mem_cons_self)).1.regular
    rw [hcloses.findOrFresh_eq hinner hwhole.regular hregular]
    split
    · rename_i hstate
      refine hworked h hwork hm ?_
      rw [houtcomes, hstate]
      exact List.forall_mem_singleton.mpr rfl
    · rw [houtcomes] at hlast
      exact hlast (List.forall_mem_nil _)
  | waits h hwork houtcomes hnext hrest ih =>
    obtain ⟨hm, hjs⟩ := hfound
    refine ih ⟨fun hsurvives => ?_, houtcomes ▸ hworked h hwork hm, houtcomes ▸ hjs⟩
    rw [hnext, Journal.findOrFresh, Journal.find?_enter]
    refine hworked h hwork hm ?_
    rw [houtcomes]
    exact fun outcome houtcome => hsurvives outcome (List.mem_of_mem_tail houtcome)
  | closes h hwork houtcomes hinner hcloses hrest ih =>
    obtain ⟨hm, hj, hjs⟩ := hfound
    rw [houtcomes] at hj hjs
    refine ih ⟨fun hsurvives => ?_, hjs⟩
    have hall := h.whole hroot hwhole
    have hregular := (work_touches hwork (hall _ List.mem_cons_self)).1.regular
    rw [hcloses.findOrFresh_eq hinner (hall _ (.tail _ List.mem_cons_self)).regular hregular]
    split
    · rename_i hstate
      refine hworked h hwork hm ?_
      rw [houtcomes, hstate]
      exact (Mark.survives_cons _ _).mpr ⟨rfl, hsurvives⟩
    · exact hj hsurvives

/-! ## Trees -/

/-- A frame of the tree has worked until it waits or has completed, with its scope still open. -/
def Worked (s : Setting) (root m₁ : Machine) : Prop :=
  ∃ js parents m, Reached s root js parents m ∧ work s m = .ok () m₁

/-- **A forced address that a frame has touched** is touched when its tree has ended. -/
theorem Worked.touched (hroot : root.frame.state = .notStarted) (hwhole : root.journal.Whole)
    (hrun : runTree s root = .ok () m') (hforced : a ∈ s.forced) (h : Worked s root m₁)
    (ha : a ∈ m₁.journal.touched) : a ∈ m'.journal.touched := by
  obtain ⟨js, parents, m, hreached, hwork⟩ := h
  exact (hreached.rest hroot hrun).touched hroot hwhole hforced hwork ⟨_, List.mem_cons_self, ha⟩

/-- **An account that surviving frames leave as they find it** is found when its tree has ended as
it was when the scope of the root was opened. -/
theorem Spares.findOrFresh_eq (hroot : root.frame.state = .notStarted)
    (hwhole : root.journal.Whole) (hrun : runTree s root = .ok () m') (h : Spares s root a) :
    m'.journal.findOrFresh s.store a = root.journal.findOrFresh s.store a := by
  have hrest : Rest s root m' _ _ _ := Reached.rest hroot hrun .start
  refine hrest.findOrFresh_eq hroot hwhole h ⟨fun _ => ?_, fun _ => rfl, trivial⟩
  rw [Journal.findOrFresh, Journal.find?_enter]
  rfl

/-- **A root that fails at once** ends its tree, and touches again what is forced. -/
theorem exists_runTree_of_failed (hregular : root.journal.Regular)
    (hwork : work s { root with journal := root.journal.enter } = .ok () m₁)
    (hfailed : m₁.frame.state = .completedFailed) : ∃ m',
      round [] s { root with journal := root.journal.enter } = .ok .done m' ∧
        runTree s root = .ok () m' ∧ m'.frame = m₁.frame ∧
          (m₁.journal.touched.filter (s.forced.contains ·)).forM (Journal.getOrCreate s.store)
            root.journal = .ok () m'.journal := by
  have hinner := work_inner.of_ok hwork
  have hback : root.journal.ReadsBack s.store m₁.journal := IsTrans.trans _ _ _
    (Journal.readsBack_enter _) ((work_leads (Journal.readsBack_update s.store)).of_ok hwork rfl)
  have hsettles := settleScope_returns hregular hinner hback
  cases hsettle : settleScope s m₁ with
  | error e m' => cases hsettles.of_error hsettle
  | ok _ m' =>
    -- the frame failed, so its scope is dropped and the forced addresses are created again
    cases settleScope_ends.of_ok hsettle with
    | waiting _ hne => exact absurd hfailed hne
    | committed hstate => cases hstate.symm.trans hfailed
    | reverted _ hforced hframe =>
      rw [hinner.revert_eq] at hforced
      have hadvance : advance s { root with journal := root.journal.enter } = .ok () m' := by
        rw [advance_eq, reader_bind_eq_of_ok hwork, hsettle]
      have hunwinding : unwinding 1 advance s { root with journal := root.journal.enter } =
          .ok () m' := by
        rw [unwinding, hadvance]
      have hround : round [] s { root with journal := root.journal.enter } = .ok .done m' := by
        have hread : frame s m' = .ok m'.frame m' := rfl
        refine (reader_bind_eq_of_ok hunwinding).trans ((reader_bind_eq_of_ok hread).trans ?_)
        rw [if_neg (by simp [hframe, hfailed])]
        rfl
      have hrun : runTree s root = .ok () m' :=
        (reader_bind_eq_of_ok hround : rounds (2 * root.frame.gas + 1 + 1) [] s _ = _)
      exact ⟨m', hround, hrun, hframe, hforced⟩

end Lifecycle
end Ethereum
