/-
# Static frames change nothing

A static frame is a call that moves no value (`Lifecycle.Harmless`), and its instructions leave
the state as it is, so while it advances its journal is steady and it puts nothing on record
(`Lifecycle.advance_static`).  All that it calls is static as well.  So between the journal from
before a static frame and any later one, as long as the frame is open, there are only steady
changes (`Lifecycle.Isolated`), and whoever reads the state finds what was there before
(`Session.static_isolation`).
-/

import Mathlib
import Ethereum.Proofs.Transaction.Ordering
import Ethereum.Proofs.Transaction.Regularity
import Ethereum.Proofs.Transaction.Waiting

namespace Ethereum

/-- A parent that takes over from a child with nothing on record has nothing more on record. -/
theorem Frame.Blank.resumed {f child : Frame} (hf : f.Blank) (hchild : child.Blank) :
    (f.resumed child).Blank := by
  obtain ⟨hlogs, hdestructs, hrefund⟩ := hf
  obtain ⟨hlogs', hdestructs', hrefund'⟩ := hchild
  rw [Frame.resumed, Frame.inherit]
  split
  · refine ⟨?_, ?_, ?_⟩
    · change f.logs ++ child.logs = #[]
      rw [hlogs, hlogs']
      rfl
    · change child.selfDestructs.foldl (·.insert ·) f.selfDestructs = ∅
      rw [hdestructs, hdestructs']
      rfl
    · change Gas.countRefund f.refund child.refund = 0
      rw [hrefund, hrefund']
      rfl
  · exact ⟨hlogs, hdestructs, hrefund⟩

namespace Lifecycle

variable {s : Setting} {root m m' next : Machine} {j : Journal} {js : List Journal}
  {parents rest : List Frame} {parent : Frame}

/-! ## One static frame -/

/-- The message is static and moves nothing. -/
structure Harmless (m : Message) : Prop where
  isStatic : m.isStatic
  kind_eq : m.kind = .call
  movesNothing : m.value = 0 ∨ m.sender = m.recipient

theorem Opened.steady {store : Store} {config : Config} {message : Message} {j j' : Journal}
    (h : Opened store config message j j') (hmessage : Harmless message) (hj : j.Regular) :
    j.Steady store j' := by
  obtain ⟨-, hkind, hnothing⟩ := hmessage
  cases h with
  | refused hcreation => cases hkind.symm.trans hcreation
  | paid htransfer =>
    rw [Message.payee, hkind] at htransfer
    exact .of_transfer hj hnothing htransfer
  | named hcreation => cases hkind.symm.trans hcreation

/-- What a static frame does to a machine: it keeps its message, puts nothing on record, and
leaves the journal steady. -/
structure Idle (s : Setting) (m m' : Machine) : Prop where
  message_eq : m'.frame.message = m.frame.message
  blank : m'.frame.Blank
  regular : m'.journal.Regular
  steady : m.journal.Steady s.store m'.journal

theorem Idle.trans {m₁ : Machine} (h : Idle s m m₁) (h' : Idle s m₁ m') : Idle s m m' :=
  ⟨h'.message_eq.trans h.message_eq, h'.blank, h'.regular, h.steady.trans h'.steady⟩

theorem blank_failed {f : Frame} (h : f.Blank) : (failed f).Blank := by
  rw [failed]
  split <;> exact ⟨h.logs_eq, h.selfDestructs_eq, h.refund_eq⟩

section
variable (hmessage : Harmless m.frame.message) (hblank : m.frame.Blank)
  (hregular : m.journal.Regular)
include hmessage hblank hregular

theorem Started.idle (h : Started s m (.ok ()) m') : Idle s m m' := by
  obtain ⟨hlogs, hdestructs, hrefund⟩ := hblank
  have hopens {j : Journal} (h : Opened s.store s.config m.frame.message m.journal j) :
      j.Regular := h.leads (Journal.regular_update s.store).mild hregular
  cases h with
  | executing hopened hframe =>
    exact ⟨hframe ▸ rfl, hframe ▸ ⟨hlogs, hdestructs, hrefund⟩, hopens hopened,
      hopened.steady hmessage hregular⟩
  | completed gas output hgas hopened hframe =>
    exact ⟨hframe ▸ rfl, hframe ▸ ⟨hlogs, hdestructs, hrefund⟩, hopens hopened,
      hopened.steady hmessage hregular⟩
  | halted gas e hgas hopened hframe =>
    exact ⟨hframe ▸ rfl, hframe ▸ ⟨hlogs, hdestructs, hrefund⟩, hopens hopened,
      hopened.steady hmessage hregular⟩

theorem idle_of_stepped (h : Run.Stepped s.toContext m (.ok ()) m') : Idle s m m' := by
  obtain ⟨hjournal, hblank'⟩ := h.static hmessage.isStatic hblank
  exact ⟨h.message_eq, hblank', hjournal ▸ hregular, hjournal ▸ .refl _ _⟩

theorem Succeeded.idle (h : Succeeded s m (.ok ()) m') : Idle s m m' := by
  obtain ⟨hlogs, hdestructs, hrefund⟩ := hblank
  cases h with
  | completed hjournal hframe =>
    exact ⟨hframe ▸ rfl, hframe ▸ ⟨hlogs, hdestructs, hrefund⟩, hjournal ▸ hregular,
      hjournal ▸ .refl _ _⟩
  | deployed hkind => cases hmessage.kind_eq.symm.trans hkind
  | halted e hjournal hframe =>
    exact ⟨hframe ▸ rfl, hframe ▸ ⟨hlogs, hdestructs, hrefund⟩, hjournal ▸ hregular,
      hjournal ▸ .refl _ _⟩

theorem work_static : Ends (work s) m fun r m' => r = .ok () → Idle s m m' := by
  have hgo {m₁ m₂ : Machine} {r : Except ExitFatal Unit} (h₁ : Idle s m m₁)
      (h : Harmless m₁.frame.message → m₁.frame.Blank → m₁.journal.Regular → r = .ok () →
        Idle s m₁ m₂) (hr : r = .ok ()) : Idle s m m₂ :=
    h₁.trans (h (h₁.message_eq ▸ hmessage) h₁.blank h₁.regular hr)
  refine work_ends (P := fun r m' => r = .ok () → Idle s m m')
    (fun m₁ r m₂ _ h₁ h => hgo (h₁ rfl) ?_) (fun m₁ r m₂ _ h₁ h => hgo (h₁ rfl) ?_)
    (fun m₁ r m₂ _ h₁ h => hgo (h₁ rfl) ?_) (fun m₁ h₁ => hgo (h₁ rfl) ?_)
    fun _ => ⟨rfl, hblank, hregular, .refl _ _⟩
  · rintro hmessage hblank hregular rfl
    exact Started.idle hmessage hblank hregular h
  · rintro hmessage hblank hregular rfl
    exact idle_of_stepped hmessage hblank hregular h
  · rintro hmessage hblank hregular rfl
    exact Succeeded.idle hmessage hblank hregular h
  · exact fun _ hblank hregular _ => ⟨message_failed _, blank_failed hblank, hregular, .refl _ _⟩

end

/-- **A static frame that advances** in a scope of its own leaves what was there before, and
nothing on record. -/
theorem advance_static (hmessage : Harmless m.frame.message) (hblank : m.frame.Blank)
    (hregular : m.journal.Regular) (hinner : j.enter.Inner m.journal)
    (hsteady : j.Steady s.store m.journal) (h : advance s m = .ok () m') :
    m'.frame.Blank ∧ j.Steady s.store m'.journal := by
  obtain ⟨m₁, hwork, hframe, hinner₁, hends⟩ := exists_closes_of_advance hinner h
  obtain ⟨-, hblank₁, hregular₁, hsteady₁⟩ :=
    (work_static hmessage hblank hregular).of_ok hwork rfl
  rw [hframe]
  refine ⟨hblank₁, ?_⟩
  rcases hends with ⟨rfl, -⟩ | ⟨-, hjournal⟩ | ⟨-, hforced⟩
  · exact hsteady.trans hsteady₁
  · rw [hjournal]
    exact (hsteady.trans hsteady₁).trans (.merge hinner₁ hregular₁)
  · exact .of_forM_getOrCreate (hinner₁.revert_eq ▸ hregular₁.revert) hforced

/-! ## Trees -/

/-- Each static frame has put nothing on record, and the journal over which its scope was entered
is steady up to the one over which the scope above was entered, or up to the present one. -/
def Isolated (store : Store) : Journal → List Frame → List Journal → Prop
  | j, f :: frames, outer :: js =>
    (f.message.isStatic → f.Blank ∧ outer.Steady store j) ∧ Isolated store outer frames js
  | _, _, _ => True

/-- A child that is static is harmless. -/
theorem Chained.harmless {config : Config} {first : Message} {f : Frame}
    (h : Chained config first (f :: parents)) (hfirst : first.isStatic = false)
    (hf : f.message.isStatic) : Harmless f.message := by
  cases parents with
  | nil =>
    have hmessage : f.message = first := Option.some.inj h.last_eq
    rw [hmessage, hfirst] at hf
    cases hf
  | cons parent rest =>
    have hspawned := (List.isChain_cons_cons.mp h.isChain).1.spawned
    exact ⟨hf, (hspawned.movesNothing hf).1, (hspawned.movesNothing hf).2⟩

/-- **A tree stays isolated** while its frame advances. -/
theorem Isolated.advance {first : Message} (hready : Ready root js parents m)
    (hchained : Chained s.config first (m.frame :: parents)) (hfirst : first.isStatic = false)
    (hregular : m.journal.Regular) (h : Isolated s.store m.journal (m.frame :: parents) js)
    (hadvance : advance s m = .ok () m') :
    Isolated s.store m'.journal (m'.frame :: parents) js := by
  cases js with
  | nil => trivial
  | cons j js =>
    obtain ⟨hframe, hrest⟩ := h
    refine ⟨fun hstatic => ?_, hrest⟩
    rw [(advance_waits hready.state hadvance).1] at hstatic
    obtain ⟨hblank, hsteady⟩ := hframe hstatic
    exact advance_static (hchained.harmless hfirst hstatic) hblank hregular hready.nested.1 hsteady
      hadvance

/-- **Static frames are isolated** wherever a tree stands. -/
theorem Reached.isolated (hroot : root.frame.state = .notStarted)
    (hfirst : root.frame.message.isStatic = false) (hregular : root.journal.Regular)
    (h : Reached s root js parents m) : Isolated s.store m.journal (m.frame :: parents) js := by
  -- frames under a static one are static, so the claim follows each of them through the rounds
  induction h with
  | start => exact ⟨fun h => absurd h (by simp [hfirst]), trivial⟩
  | @descend js parents parents' m m' next hreached hadvance hstate hround ih =>
    have hisolated := ih.advance (hreached.ready hroot) (hreached.chained hroot) hfirst
      (hreached.regular hregular) hadvance
    obtain ⟨message, -, hframe, hjournal, hparents⟩ := descends_of_round hadvance hstate hround
    cases hparents
    rw [hframe, hjournal]
    -- a child starts with nothing of its own, and its scope shows what the one around it does
    refine ⟨fun _ => ⟨⟨rfl, rfl, rfl⟩, .enter _ _⟩, ?_⟩
    cases js with
    | nil => trivial
    | cons j js =>
      obtain ⟨hwaiting, hrest⟩ := hisolated
      refine ⟨fun hstatic => ?_, hrest⟩
      obtain ⟨⟨hlogs, hdestructs, hrefund⟩, hsteady⟩ := hwaiting hstatic
      exact ⟨⟨hlogs, hdestructs, hrefund⟩, hsteady⟩
  | @ascend j js parents parents' m m' next hreached hadvance hstate hround ih =>
    have hchained := hreached.chained hroot
    obtain ⟨hframe', hrest⟩ := ih.advance (hreached.ready hroot) hchained hfirst
      (hreached.regular hregular) hadvance
    have hmessage := (advance_waits (hreached.ready hroot).state hadvance).1
    obtain ⟨parent, rfl, hjournal, hframe⟩ := ascends_of_round hadvance hstate hround
    rw [hjournal]
    cases js with
    | nil => trivial
    | cons outer js =>
      obtain ⟨hparent, hrest⟩ := hrest
      refine ⟨fun hstatic => ?_, hrest⟩
      rw [hframe.message_eq, Frame.message_resumed] at hstatic
      -- a child of a static frame is static, so neither of the two left a trace
      have hspawned := (List.isChain_cons_cons.mp hchained.isChain).1.spawned
      obtain ⟨hblank, hsteady⟩ := hparent hstatic
      obtain ⟨hblank', hsteady'⟩ := hframe' (hmessage ▸ hspawned.isStatic hstatic)
      exact ⟨(hblank.resumed hblank').of_quiet hframe, hsteady.trans hsteady'⟩

/-- What is known of all frames above a static one, and of the journal since it began. -/
theorem Isolated.of_static {config : Config} {first : Message} {frames : List Frame}
    {f : Frame} {i : Nat} (h : Isolated s.store j frames js)
    (hchained : Chained config first frames) (hlength : js.length = frames.length)
    (hf : frames[i]? = some f) (hstatic : f.message.isStatic) :
    ∃ outer, js[i]? = some outer ∧ outer.Steady s.store j ∧
      ∀ g ∈ frames.take (i + 1), g.message.isStatic ∧ g.Blank := by
  induction i generalizing frames js j with
  | zero =>
    cases frames with
    | nil => cases hf
    | cons g below =>
      obtain rfl := Option.some.inj hf
      cases js with
      | nil => cases hlength
      | cons outer js =>
        obtain ⟨hblank, hsteady⟩ := h.1 hstatic
        exact ⟨outer, rfl, hsteady, List.forall_mem_singleton.mpr ⟨hstatic, hblank⟩⟩
  | succ i ih =>
    match frames, js with
    | [], _ => cases hf
    | [g], _ => cases hf
    | g :: parent :: rest, outer :: js =>
      obtain ⟨hg, hbelow⟩ := h
      obtain ⟨outer', houter', hsteady, habove⟩ :=
        ih hbelow hchained.parent (Nat.succ.inj hlength) hf
      -- the frame above it is static too, and changes nothing on top of what it sees
      have hspawned := (List.isChain_cons_cons.mp hchained.isChain).1.spawned
      have hstatic' := hspawned.isStatic (habove parent (by simp)).1
      obtain ⟨hblank, hsteady'⟩ := hg hstatic'
      exact ⟨outer', houter', hsteady.trans hsteady',
        List.forall_mem_cons.mpr ⟨⟨hstatic', hblank⟩, habove⟩⟩

end Lifecycle

namespace Session

open Transact Lifecycle

variable {setting : SessionSetting} {t : Transaction} {s s₁ : Session} {message : Message}
  {js : List Journal} {parents : List Frame} {m : Machine} {i : Nat} {f : Frame}

/-- **Static isolation.**  As long as a static frame is open in the tree of a transaction, all
open frames above it are static, none of them has left a log, a deletion or a refund, and whoever
reads the state reads what was there before the frame began, or finds new accounts that are empty.
So it is when the frame, or one above it, has advanced, up to its completion and whether it
succeeds or fails.  The journal of the session is regular, as it is over a world and stays
through all changes. -/
theorem static_isolation (hregular : s.journal.Regular)
    (horder : order t setting (s.opened t) = .ok message s₁)
    (hreached : Reached setting.toSetting (setting.root message s₁) js parents m)
    (hf : (m.frame :: parents)[i]? = some f) (hstatic : f.message.isStatic) :
    ∃ before, js[i]? = some before ∧
      (before.ReadsAs setting.store m.journal ∧
        ∀ g ∈ (m.frame :: parents).take (i + 1), g.message.isStatic ∧ g.Blank) ∧
      ∀ m', advance setting.toSetting m = .ok () m' →
        before.ReadsAs setting.store m'.journal ∧
          ∀ g ∈ (m'.frame :: parents).take (i + 1), g.message.isStatic ∧ g.Blank := by
  obtain ⟨-, hfirst, -, -, ⟨nonce, hnonce⟩, -⟩ := order_ends.of_ok horder
  rw [journal_opened] at hnonce
  have hroot : (setting.root message s₁).journal.Regular :=
    (Journal.regular_incrementNonce _ _ _).of_ok hnonce hregular
  have hready := hreached.ready rfl
  have hchained := hreached.chained rfl
  have hisolated := hreached.isolated rfl hfirst hroot
  obtain ⟨before, hbefore, hsteady, habove⟩ :=
    hisolated.of_static hchained hready.length_eq hf hstatic
  refine ⟨before, hbefore, ⟨hsteady.readsAs, habove⟩, fun m' hadvance => ?_⟩
  have hmessage := (advance_waits hready.state hadvance).1
  -- advancing keeps the message of the frame, so the same frames are static
  have hf' : ∃ f' : Frame, (m'.frame :: parents)[i]? = some f' ∧ f'.message.isStatic := by
    cases i with
    | zero =>
      obtain rfl := Option.some.inj hf
      exact ⟨m'.frame, rfl, hmessage ▸ hstatic⟩
    | succ i => exact ⟨f, hf, hstatic⟩
  obtain ⟨f', hf', hstatic'⟩ := hf'
  have hisolated' :=
    hisolated.advance hready hchained hfirst (hreached.regular hroot) hadvance
  obtain ⟨before', hbefore', hsteady', habove'⟩ :=
    hisolated'.of_static (hchained.of_message_eq hmessage) hready.length_eq hf' hstatic'
  obtain rfl := Option.some.inj (hbefore'.symm.trans hbefore)
  exact ⟨hsteady'.readsAs, habove'⟩

/-! ### A static call -/

/-- Code that gives all its gas to a static call of account 3. -/
def lookingCode : Bytes := [0x60, 0, 0x60, 0, 0x60, 0, 0x60, 0, 0x60, 3, 0x5a, 0xfa]

/-- Code that gives all its gas to a call of account 4 without value. -/
def touchingCode : Bytes := [0x60, 0, 0x60, 0, 0x60, 0, 0x60, 0, 0x60, 0, 0x60, 4, 0x5a, 0xf1]

/-- The scope in which accounts 2 and 3 have code, and account 4 is deleted. -/
def lookingScope : Scope :=
  (((Scope.empty.put (.fresh 1 0 0)).put ((Overlay.fresh 2 1 0).setCode lookingCode)).put
    ((Overlay.fresh 3 1 0).setCode touchingCode)).delete 4

/-- The session over that scope. -/
def lookingSession : Session :=
  .ofJournal ⟨.empty, [], lookingScope⟩ .off

/-- Account 1 calls account 2. -/
def looking : Transaction := ⟨1, some 2, 0, [], 100000⟩

/-- Whether the frames are static that are open after two rounds of the tree of a transaction. -/
def staticAfterTwo (setting : SessionSetting) (t : Transaction) (s : Session) :
    Option (List Bool) :=
  match order t setting (s.opened t) with
  | .error _ _ => none
  | .ok message s₁ =>
    let root := setting.root message s₁
    let rounds : Lifecycle Round := do
      match ← round [] with
      | .done => return .done
      | .more parents => round parents
    match rounds setting.toSetting { root with journal := root.journal.enter } with
    | .ok (.more parents) m => some ((m.frame :: parents).map (·.message.isStatic))
    | _ => none

theorem staticAfterTwo_looking : staticAfterTwo bareSession looking lookingSession =
    some [true, true, false] := by decide +kernel


theorem exists_of_staticAfterTwo {flags : List Bool}
    (h : staticAfterTwo setting t s = some flags) : ∃ message s₁ js parents m,
      order t setting (s.opened t) = .ok message s₁ ∧
      Reached setting.toSetting (setting.root message s₁) js parents m ∧
      (m.frame :: parents).map (·.message.isStatic) = flags := by
  rw [staticAfterTwo] at h
  split at h
  · cases h
  · rename_i message s₁ horder
    dsimp only at h
    split at h
    · rename_i parents m hrounds
      obtain ⟨result, m₁, hfirst, hsecond⟩ := reader_bind_eq_ok hrounds
      cases result with
      | done => cases hsecond
      | more parents₁ =>
        have hstart : Reached setting.toSetting (setting.root message s₁) _ _ _ := .start
        obtain ⟨js₁, hreached₁⟩ := hstart.of_round rfl hfirst
        obtain ⟨js, hreached⟩ := hreached₁.of_round rfl hsecond
        exact ⟨message, s₁, js, parents, m, horder, hreached, Option.some.inj h⟩
    · cases h

/-- Account 3 is called by account 2 and touches account 4, which is new and empty then. -/
theorem static_isolation_of_looking : ∃ message s₁ js parents m before,
    order looking bareSession (lookingSession.opened looking) = .ok message s₁ ∧
    Reached bareSession.toSetting (bareSession.root message s₁) js parents m ∧
    (m.frame :: parents).map (·.message.isStatic) = [true, true, false] ∧
    js[1]? = some before ∧ before.ReadsAs bareSession.store m.journal ∧
    ∀ g ∈ (m.frame :: parents).take 2, g.message.isStatic ∧ g.Blank := by
  have hregular : lookingSession.journal.Regular :=
    List.forall_mem_singleton.mpr ((((Scope.regular_empty.put ⟨rfl, by decide⟩).put
      ⟨rfl, by decide⟩).put ⟨rfl, by decide⟩).delete 4)
  obtain ⟨message, s₁, js, parents, m, horder, hreached, hflags⟩ :=
    exists_of_staticAfterTwo staticAfterTwo_looking
  obtain ⟨f, hf, hstatic⟩ : ∃ f : Frame, (m.frame :: parents)[1]? = some f ∧
      f.message.isStatic = true := by
    have hsecond : ((m.frame :: parents).map (·.message.isStatic))[1]? = some true := by
      rw [hflags]
      rfl
    rw [List.getElem?_map] at hsecond
    exact Option.map_eq_some_iff.mp hsecond
  obtain ⟨before, hbefore, ⟨hreads, habove⟩, -⟩ :=
    static_isolation hregular horder hreached hf hstatic
  exact ⟨message, s₁, js, parents, m, before, horder, hreached, hflags, hbefore, hreads, habove⟩

end Session
end Ethereum
