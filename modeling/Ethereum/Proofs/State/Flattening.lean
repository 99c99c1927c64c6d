/-
# Scopes flatten

Calls that close the scopes that they open (`Balanced`) may run in a scope of their own
or in the one around it.  If theirs is committed, the journal is the same in the end, with
every scope in it and the world under it, and so is all that the calls find and return
(`Ledger.balanced_flattens`).  If it is reverted, they leave no trace.

A journal with a scope of its own for the calls stays flattened to one without
(`Ledger.Flattens`): what is put or deleted there comes to the same as putting or deleting
it in what the scope is merged into (`Scope.merge_put`, `Scope.merge_delete`).  Here all
that a scope holds of an address counts, the overlay and the deletion (`Scope.entry`), and
not only what it says.  Scopes inside are flattened on both sides (`Flattens.along`), by
induction on how they are nested.  Nothing is assumed about the store, which may fail.
-/

import Mathlib
import Ethereum.Proofs.State.Roots

namespace Ethereum

/-! ## What scopes hold -/

namespace Scope

/-- What a scope holds of an address: an overlay, and whether it was deleted. -/
def entry (s : Scope) (address : Address) : Option Overlay × Prop :=
  (s.updated[address]?, address ∈ s.deleted)

variable {s t c : Scope} {address : Address} {o : Overlay}

/-- Scopes that hold the same are the same. -/
theorem eq_of_entry (h : s.entry = t.entry) : s = t := by
  have hupdated : s.updated = t.updated := by
    apply Std.ExtTreeMap.ext_getElem?
    intro address
    exact congrArg Prod.fst (congrFun h address)
  have hdeleted : s.deleted = t.deleted := by
    apply Std.ExtTreeSet.ext_mem
    intro address
    exact iff_of_eq (congrArg Prod.snd (congrFun h address))
  cases s
  cases t
  congr

theorem entry_put (s : Scope) (o : Overlay) :
    (s.put o).entry = Function.update s.entry o.address (some o, False) := by
  funext address
  rw [entry, put, Std.ExtTreeMap.getElem?_insert, Function.update_apply, entry]
  simp only [Std.compare_eq_iff_eq, Std.ExtTreeSet.mem_erase]
  by_cases h : o.address = address
  · simp [h]
  · simp [h, Ne.symm h]

theorem entry_delete (s : Scope) (gone : Address) :
    (s.delete gone).entry = Function.update s.entry gone (none, True) := by
  funext address
  rw [entry, delete, Std.ExtTreeMap.getElem?_erase, Function.update_apply, entry]
  simp only [Std.compare_eq_iff_eq, Std.ExtTreeSet.mem_insert]
  by_cases h : gone = address
  · simp [h]
  · simp [h, Ne.symm h]

theorem keyed_empty : empty.Keyed := by
  intro address o ho
  rw [empty, Std.ExtTreeMap.getElem?_empty] at ho
  contradiction

theorem Keyed.put (h : s.Keyed) (o : Overlay) : (s.put o).Keyed := by
  intro address p hp
  rw [Scope.put, Std.ExtTreeMap.getElem?_insert] at hp
  split at hp
  · rename_i heq
    obtain rfl := Option.some.inj hp
    exact Std.compare_eq_iff_eq.mp heq
  · exact h address p hp

theorem Keyed.delete (h : s.Keyed) (gone : Address) : (s.delete gone).Keyed := by
  intro address p hp
  rw [Scope.delete, Std.ExtTreeMap.getElem?_erase] at hp
  split at hp
  · contradiction
  · exact h address p hp

/-- **What a merged scope holds** is what the inner one holds, or else the outer one. -/
theorem entry_merge (s : Scope) (hkey : c.Keyed) (address : Address) :
    (s.merge c).entry address = match c.updated[address]? with
      | some o => (some o, False)
      | none => if address ∈ c.deleted then (none, True) else s.entry address :=
  read_merge entry entry_put entry_delete s hkey address

/-- A scope without changes adds nothing. -/
theorem merge_empty (s : Scope) : s.merge empty = s := by
  apply eq_of_entry
  funext address
  have hmem : address ∉ empty.deleted := Std.ExtTreeSet.not_mem_empty
  rw [entry_merge s keyed_empty, if_neg hmem, empty, Std.ExtTreeMap.getElem?_empty]

/-- Putting an overlay into the inner scope puts it into the merged one. -/
theorem merge_put (s : Scope) (hkey : c.Keyed) (o : Overlay) :
    s.merge (c.put o) = (s.merge c).put o := by
  apply eq_of_entry
  funext address
  have hput := congrFun (c.entry_put o) address
  rw [entry_merge s (hkey.put o), entry_put, Function.update_apply]
  rw [entry, Function.update_apply] at hput
  by_cases h : address = o.address
  · rw [if_pos h] at hput ⊢
    rw [(Prod.mk.inj hput).1]
  · rw [if_neg h] at hput ⊢
    obtain ⟨hupdated, hdeleted⟩ := Prod.mk.inj hput
    rw [entry_merge s hkey, hupdated]
    simp only [hdeleted]

/-- Deleting an account in the inner scope deletes it in the merged one. -/
theorem merge_delete (s : Scope) (hkey : c.Keyed) (gone : Address) :
    s.merge (c.delete gone) = (s.merge c).delete gone := by
  apply eq_of_entry
  funext address
  have hdelete := congrFun (c.entry_delete gone) address
  rw [entry_merge s (hkey.delete gone), entry_delete, Function.update_apply]
  rw [entry, Function.update_apply] at hdelete
  by_cases h : address = gone
  · rw [if_pos h] at hdelete ⊢
    obtain ⟨hupdated, hdeleted⟩ := Prod.mk.inj hdelete
    rw [hupdated, if_pos (hdeleted ▸ trivial)]
  · rw [if_neg h] at hdelete ⊢
    obtain ⟨hupdated, hdeleted⟩ := Prod.mk.inj hdelete
    rw [entry_merge s hkey, hupdated]
    simp only [hdeleted]

end Scope

/-! ## Balanced calls -/

/-- A call that opens and closes no scope, and drops none. -/
def Call.IsPlain : Call → Prop
  | .enter | .commit | .revert | .reopen | .persist => False
  | _ => True

/-- A call that closes a scope. -/
def Call.Closes (c : Call) : Prop := c = .commit ∨ c = .revert

/-- Calls that close just the scopes that they open. -/
inductive Balanced : List Call → Prop
  | nil : Balanced []
  | cons {c : Call} {cs : List Call} (hc : c.IsPlain) (h : Balanced cs) : Balanced (c :: cs)
  | nest {cs ds : List Call} {c : Call} (hc : c.Closes) (inner : Balanced cs)
    (rest : Balanced ds) : Balanced (.enter :: (cs ++ c :: ds))

/-- The address of the account that a call looks for. -/
def Call.target? : Call → Option Address
  | .getOrCreate address | .mutate address _ | .incrementBalance address _
  | .decrementBalance address _ | .incrementNonce address | .setSlot address _ _
  | .setCode address _ | .read address _ => some address
  | _ => none

namespace Ledger

variable {s u : Ledger} {c : Call} {cs ds : List Call}

/-- The accounts that calls one after the other find, with all that can be read of them. -/
def found : List Call → Ledger → List (Option (Except StateError (Option Overlay)))
  | [], _ => []
  | c :: cs, s => (c.target?.map (s.journal.find? s.store)) :: found cs (s.call c).2

theorem run_append (cs ds : List Call) (s : Ledger) : run (cs ++ ds) s = run ds (run cs s) :=
  List.foldl_append

theorem answers_append (cs ds : List Call) (s : Ledger) :
    answers (cs ++ ds) s = answers cs s ++ answers ds (run cs s) := by
  induction cs generalizing s with
  | nil => rfl
  | cons c cs ih =>
    rw [List.cons_append, answers, answers, ih]
    rfl

theorem found_append (cs ds : List Call) (s : Ledger) :
    found (cs ++ ds) s = found cs s ++ found ds (run cs s) := by
  induction cs generalizing s with
  | nil => rfl
  | cons c cs ih =>
    rw [List.cons_append, found, found, ih]
    rfl

/-! ## Flattening -/

/-- A ledger with one scope more than a base, and a ledger where that scope is merged into
the innermost one of the base. -/
structure Flattens (base s u : Ledger) : Prop where
  store_eq : s.store = base.store
  world_eq : s.journal.world = base.journal.world
  parents_eq : s.journal.parents = base.journal.scope :: base.journal.parents
  flat_eq : u = { base with
    journal.scope := base.journal.scope.merge s.journal.scope }
  separate : s.journal.scope.Separate
  keyed : s.journal.scope.Keyed

namespace Flattens

variable {base : Ledger} {address : Address}

/-- It starts with a scope that is entered. -/
theorem enter (s : Ledger) : Flattens s (s.call .enter).2 s where
  store_eq := rfl
  world_eq := rfl
  parents_eq := rfl
  flat_eq := by
    change s = { s with journal.scope := s.journal.scope.merge Scope.empty }
    rw [Scope.merge_empty]
  separate := Scope.separate_empty
  keyed := Scope.keyed_empty

/-- **Committing the scope** leaves the flat journal. -/
theorem call_commit (h : Flattens base s u) : s.call .commit = (.ok .done, u) := by
  have hcommit : Journal.commit s.store s.journal = .ok () { s.journal with
      scope := base.journal.scope.merge s.journal.scope, parents := base.journal.parents } := by
    rw [Journal.commit, h.parents_eq]
  rw [Ledger.call, change_eq hcommit, h.flat_eq, h.store_eq]
  dsimp only
  rw [h.world_eq]

/-- **Reverting the scope** leaves the base. -/
theorem call_revert (h : Flattens base s u) : s.call .revert = (.ok .done, base) := by
  rw [Ledger.call, Journal.revert, h.parents_eq, h.store_eq]
  dsimp only
  rw [h.world_eq]

/-! ### Calls -/

/-- **Both journals find the same accounts.** -/
theorem find?_eq (h : Flattens base s u) (address : Address) :
    s.journal.find? s.store address = u.journal.find? u.store address := by
  rw [Journal.find?, Journal.find?, h.parents_eq, h.flat_eq, h.world_eq, h.store_eq]
  dsimp only
  rw [List.findSome?_cons, List.findSome?_cons, List.findSome?_cons,
    Scope.lookup_merge base.journal.scope h.separate h.keyed]
  cases s.journal.scope.lookup address with
  | some found => rfl
  | none => rw [Option.none_or]

theorem put (h : Flattens base s u) (o : Overlay) :
    Flattens base { s with journal := s.journal.put o } { u with journal := u.journal.put o } where
  store_eq := h.store_eq
  world_eq := h.world_eq
  parents_eq := h.parents_eq
  flat_eq := by
    rw [h.flat_eq]
    change _ = { base with
      journal.scope := base.journal.scope.merge (s.journal.scope.put o) }
    rw [Scope.merge_put _ h.keyed]
    rfl
  separate := h.separate.put o
  keyed := h.keyed.put o

theorem delete (h : Flattens base s u) (gone : Address) :
    Flattens base { s with journal.scope := s.journal.scope.delete gone }
      { u with journal.scope := u.journal.scope.delete gone } where
  store_eq := h.store_eq
  world_eq := h.world_eq
  parents_eq := h.parents_eq
  flat_eq := by
    rw [h.flat_eq, Scope.merge_delete _ h.keyed]
  separate := h.separate.delete gone
  keyed := h.keyed.delete gone

/-- Two calls answer alike, and what they leave is flattened again. -/
def Alike (base : Ledger) (r t : Except StateError Answer × Ledger) : Prop :=
  r.1 = t.1 ∧ Flattens base r.2 t.2

/-- **A change of an account**, which is created if there is none. -/
theorem update (h : Flattens base s u) (address : Address) (edit : Overlay → Overlay)
    {α : Type} (out : Overlay → α) (answer : α → Answer) :
    Alike base (s.change (do return out (← Journal.update s.store address edit)) answer)
      (u.change (do return out (← Journal.update u.store address edit)) answer) := by
  have hfind := h.find?_eq address
  have hrun (s : Ledger) : (do return out (← Journal.update s.store address edit) :
      Journal.Change α) s.journal = match s.journal.find? s.store address with
        | .ok found => .ok (out (found.getD (.fresh address 0 0)))
            (s.journal.put (edit (found.getD (.fresh address 0 0))))
        | .error e => .error e s.journal := by
    change EStateM.bind (Journal.update _ _ _) _ s.journal = _
    rw [EStateM.bind, Journal.update_run, Journal.findOrFresh]
    cases s.journal.find? s.store address <;> rfl
  rw [change, change, hrun s, hrun u, ← hfind]
  cases s.journal.find? s.store address with
  | ok found => exact ⟨rfl, h.put _⟩
  | error e => exact ⟨rfl, h⟩

/-- **A change of an account**, if there is one. -/
theorem update? (h : Flattens base s u) (address : Address) (edit : Overlay → Overlay)
    (answer : Option Overlay → Answer) :
    Alike base (s.change (Journal.update? s.store address edit) answer)
      (u.change (Journal.update? u.store address edit) answer) := by
  rw [change, change, Journal.update?_run, Journal.update?_run, ← h.find?_eq address]
  rcases s.journal.find? s.store address with e | (_ | o)
  · exact ⟨rfl, h⟩
  · exact ⟨rfl, h⟩
  · exact ⟨rfl, h.put _⟩

/-- **One call** that opens and closes no scope. -/
theorem call (h : Flattens base s u) (hc : c.IsPlain) : Alike base (s.call c) (u.call c) := by
  have hworld : s.journal.world = u.journal.world := by rw [h.world_eq, h.flat_eq]
  have hstore : s.store = u.store := by rw [h.store_eq, h.flat_eq]
  cases c with
  | enter | commit | revert | reopen | persist => exact hc.elim
  | createAccount address nonce balance => exact ⟨rfl, h.put _⟩
  | deleteAccount address => exact ⟨rfl, h.delete address⟩
  | getOrCreate address => exact h.update address id (fun _ => ()) _
  | incrementBalance address amount => exact h.update address _ Overlay.balance _
  | decrementBalance address amount => exact h.update address _ Overlay.balance _
  | incrementNonce address => exact h.update address _ Overlay.nonce _
  | setSlot address key value => exact h.update address _ (fun _ => ()) _
  | setCode address code => exact h.update address _ (fun _ => ()) _
  | mutate address edits => exact h.update? address _ _
  | read address r =>
    refine ⟨?_, h⟩
    have hfind := h.find?_eq address
    rw [← hstore] at hfind
    cases r <;> simp only [Ledger.call, read, Journal.exists?, Journal.isEmpty, Journal.balance,
      Journal.nonce, Journal.code, Journal.codeHash, Journal.slot, ← hfind, ← hworld, ← hstore]
  | readWorld address r =>
    refine ⟨?_, h⟩
    cases r <;> simp only [Ledger.call, readWorld, hworld, hstore]

/-- What calls are on both sides: they answer alike and find the same accounts, and what
they leave is flattened again. -/
structure Along (base : Ledger) (cs : List Call) (s u : Ledger) : Prop where
  flattens : Flattens base (run cs s) (run cs u)
  answers_eq : answers cs s = answers cs u
  found_eq : found cs s = found cs u

/-- Calls in a scope that is closed are the calls, or nothing. -/
theorem Along.run_nest (h : Along s cs (s.call .enter).2 s) (hc : c.Closes) :
    run (.enter :: (cs ++ [c])) s = if c = .commit then run cs s else s := by
  change run (cs ++ [c]) (s.call .enter).2 = _
  rw [run_append]
  change ((run cs (s.call .enter).2).call c).2 = _
  rcases hc with rfl | rfl
  · rw [h.flattens.call_commit, if_pos rfl]
  · rw [h.flattens.call_revert, if_neg (by decide)]

theorem Along.answers_nest (h : Along s cs (s.call .enter).2 s) (hc : c.Closes) :
    answers (.enter :: (cs ++ [c])) s = .ok .done :: (answers cs s ++ [.ok .done]) := by
  have hclose : ((run cs (s.call .enter).2).call c).1 = .ok .done := by
    rcases hc with rfl | rfl
    · rw [h.flattens.call_commit]
    · rw [h.flattens.call_revert]
  rw [answers, answers_append, h.answers_eq, answers, answers, hclose]
  rfl

theorem Along.found_nest (h : Along s cs (s.call .enter).2 s) (hc : c.Closes) :
    found (.enter :: (cs ++ [c])) s = none :: (found cs s ++ [none]) := by
  have hclose : c.target? = none := by
    rcases hc with rfl | rfl <;> rfl
  rw [found, found_append, h.found_eq, found, found, hclose]
  rfl

/-- **Balanced calls** keep two journals flattened, and answer alike in both: by induction
on their nesting, where the calls inside are in a scope of their own on either side. -/
theorem along (hcs : Balanced cs) (h : Flattens base s u) : Along base cs s u := by
  induction hcs generalizing base s u with
  | nil => exact ⟨h, rfl, rfl⟩
  | @cons c cs hc _ ih =>
    obtain ⟨hanswer, hnext⟩ := h.call hc
    obtain ⟨hflat, hanswers, hfound⟩ := ih hnext
    refine ⟨hflat, ?_, ?_⟩
    · rw [answers, answers, hanswer, hanswers]
    · rw [found, found, hfound, funext h.find?_eq]
  | @nest cs ds c hc _ _ ihcs ihds =>
    have hs := ihcs (enter s)
    have hu := ihcs (enter u)
    have hinner := ihcs h
    have hsplit : Call.enter :: (cs ++ c :: ds) = (.enter :: (cs ++ [c])) ++ ds := by
      rw [List.cons_append, List.append_assoc, List.singleton_append]
    -- a nested scope is closed by a commit, which flattens, or by a revert, which undoes it
    have hnext : Flattens base (run (.enter :: (cs ++ [c])) s)
        (run (.enter :: (cs ++ [c])) u) := by
      rw [hs.run_nest hc, hu.run_nest hc]
      split
      · exact hinner.flattens
      · exact h
    obtain ⟨hflat, hanswers, hfound⟩ := ihds hnext
    rw [hsplit]
    refine ⟨?_, ?_, ?_⟩
    · rw [run_append, run_append]
      exact hflat
    · rw [answers_append, answers_append, hanswers, hs.answers_nest hc, hu.answers_nest hc,
        hinner.answers_eq]
    · rw [found_append, found_append, hfound, hs.found_nest hc, hu.found_nest hc,
        hinner.found_eq]

end Flattens

/-- **Scopes flatten**: balanced calls in a scope that is committed leave what they leave
in the scope around it, answer the same and find the same accounts; in a scope that is
reverted they leave nothing. -/
theorem balanced_flattens (s : Ledger) (h : Balanced cs) :
    run (.enter :: (cs ++ [.commit])) s = run cs s ∧
    answers (.enter :: (cs ++ [.commit])) s = .ok .done :: (answers cs s ++ [.ok .done]) ∧
    found (.enter :: (cs ++ [.commit])) s = none :: (found cs s ++ [none]) ∧
    run (.enter :: (cs ++ [.revert])) s = s := by
  have hin := Flattens.along h (Flattens.enter s)
  refine ⟨?_, hin.answers_nest (.inl rfl), hin.found_nest (.inl rfl), ?_⟩
  · rw [hin.run_nest (.inl rfl), if_pos rfl]
  · rw [hin.run_nest (.inr rfl), if_neg (by decide)]

/-- An account is deleted and made again in a scope that is committed inside of another,
and given a slot in one that is reverted. -/
def remade : List Call :=
  [.createAccount 1 0 5, .enter, .deleteAccount 1, .incrementNonce 1, .commit,
    .enter, .setSlot 1 2 3, .revert, .read 1 .balance]

theorem balanced_flattens_of_remade : Balanced remade ∧
    run (.enter :: (remade ++ [.commit])) (start ∅) = run remade (start ∅) ∧
    answers (.enter :: (remade ++ [.commit])) (start ∅) =
      .ok .done :: (answers remade (start ∅) ++ [.ok .done]) ∧
    found (.enter :: (remade ++ [.commit])) (start ∅) =
      none :: (found remade (start ∅) ++ [none]) ∧
    run (.enter :: (remade ++ [.revert])) (start ∅) = start ∅ := by
  have hslot : Balanced [.setSlot 1 2 3] := .cons trivial .nil
  have hmade : Balanced [.deleteAccount 1, .incrementNonce 1] := .cons trivial (.cons trivial .nil)
  have hread : Balanced [.read 1 .balance] := .cons trivial .nil
  have hreverted := Balanced.nest (.inr rfl) hslot hread
  have hremade : Balanced remade := .cons trivial (.nest (.inl rfl) hmade hreverted)
  exact ⟨hremade, balanced_flattens (start ∅) hremade⟩

end Ledger
end Ethereum
