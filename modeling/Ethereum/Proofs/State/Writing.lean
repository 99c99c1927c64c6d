/-
# What is written

When the outermost scope is committed, its deletions and overlays are written into the world.
Nothing is assumed here about the world or the store but that this succeeds.  A deletion and an
overlay change one answer of the trie of accounts each (`World.Puts`), so an address has afterwards
what was said last about the addresses of its hash (`World.written_applyScope`), and code is new
only under the hashes of new code (`World.codes_applyScope`).  In particular the world gives the
balances that the scope showed (`World.balance_applyScope`) at every address whose hash is not that
of another address in the scope.
-/

import Mathlib
import Ethereum.Proofs.State.Balances
import Ethereum.Proofs.Trie.Answers

namespace Ethereum

namespace Scope

variable {s : Scope} {address : Address} {o : Overlay}

theorem lookup_eq_none (hdeleted : address ∉ s.deleted)
    (hupdated : ∀ o : Overlay, s.updated[address]? ≠ some o) : s.lookup address = none := by
  rw [lookup, if_neg (mt Std.ExtTreeSet.contains_iff_mem.mp hdeleted),
    Option.eq_none_iff_forall_ne_some.mpr hupdated]
  rfl

theorem updated_of_lookup (h : s.lookup address = some (some o)) :
    s.updated[address]? = some o := by
  rw [lookup] at h
  split at h
  · cases h
  · obtain ⟨o', ho', heq⟩ := Option.map_eq_some_iff.mp h
    exact Option.some.inj heq ▸ ho'

theorem mem_deleted_of_lookup (h : s.lookup address = some none) : address ∈ s.deleted := by
  rw [lookup] at h
  split at h
  · rename_i hcontains
    exact Std.ExtTreeSet.contains_iff_mem.mp hcontains
  · obtain ⟨o', -, heq⟩ := Option.map_eq_some_iff.mp h
    cases heq

/-- The scope has new code that is not empty, under this hash. -/
def HasCode (s : Scope) (h : Hash) (code : Bytes) : Prop :=
  code ≠ [] ∧ ∃ address o, s.lookup address = some (some o) ∧ o.newCode = some code ∧ o.codeHash = h

end Scope

namespace World

variable {store : Store} {w w' : World} {address : Address} {o : Overlay}

/-- The balance at an address; zero if there is no account. -/
def balance (w : World) (store : Store) (address : Address) : Except StateError Word := do
  return ((← w.account? store address).map Account.balance).getD 0

/-- Accounts are read from what their trie answers. -/
theorem account?_congr (h : w'.accounts.get store.nodes (Hash.toBytes address.hash) =
      w.accounts.get store.nodes (Hash.toBytes address.hash)) :
    w'.account? store address = w.account? store address := by
  rw [account?, account?, h]

/-- An account that was written is read back. -/
theorem account?_of_written {a : Account} (haddress : a.address = address)
    (hnonce : a.nonce ≤ Quantity.max)
    (h : w.accounts.get store.nodes (Hash.toBytes address.hash) = .ok (some a.encode)) :
    w.account? store address = .ok (some a) := by
  have hdecode : Account.decode address a.encode = .ok a := haddress ▸ Account.decode_encode hnonce
  rw [account?, h]
  simp only [Except.mapError, bind, Except.bind, hdecode]
  rfl

/-! ## One account -/

/-- `w'` has this account, or none, at all addresses that have the hash of `address`, and at the
others what `w` has. -/
structure Puts (store : Store) (address : Address) (found : Option Account) (w w' : World) :
    Prop where
  here : ∀ x : Address, x.hash = address.hash →
    w'.account? store x = .ok (found.map ({ · with address := x }))
  elsewhere : ∀ x : Address, x.hash ≠ address.hash → w'.account? store x = w.account? store x

/-- A change of one answer of the trie of accounts puts an account. -/
theorem puts_of_get {answer : Except TrieError (Option Bytes)} {found : Option Account}
    (h : w'.accounts.get store.nodes = Function.update (w.accounts.get store.nodes)
      (Hash.toBytes address.hash) answer)
    (hhere : ∀ x : Address, x.hash = address.hash →
      w'.accounts.get store.nodes (Hash.toBytes x.hash) = answer →
        w'.account? store x = .ok (found.map ({ · with address := x }))) :
    Puts store address found w w' := by
  constructor
  · intro x hx
    refine hhere x hx ?_
    rw [h, hx, Function.update_self]
  · intro x hx
    refine account?_congr ?_
    rw [h, Function.update_of_ne]
    exact fun heq => hx (Hash.toBytes_injective heq)

theorem updateAccounts_eq_ok {change : Trie → Except TrieError Trie}
    (h : updateAccounts change w = .ok () w') :
    ∃ t, change w.accounts = .ok t ∧ w' = { w with accounts := t } := by
  rw [updateAccounts, Trie.update] at h
  cases hchange : change w.accounts with
  | ok t =>
    rw [hchange] at h
    cases h
    exact ⟨t, rfl, rfl⟩
  | error e =>
    rw [hchange] at h
    cases h

/-- **A deletion** leaves nothing, and all code. -/
theorem puts_deleteAccount (h : deleteAccount store address w = .ok () w') :
    Puts store address none w w' ∧ w'.codes = w.codes := by
  obtain ⟨_, w₁, hupdate, h⟩ := bind_eq_ok h
  obtain ⟨t, ht, rfl⟩ := updateAccounts_eq_ok hupdate
  cases h
  refine ⟨puts_of_get (Trie.get_erase ht) fun x hx hget => ?_, rfl⟩
  rw [account?, hget]
  rfl

/-! ## Overlays -/

theorem applyStorage_keeps {root : Hash} (h : applyStorage store o w = .ok root w') :
    w'.accounts = w.accounts ∧ w'.codes = w.codes := by
  rw [applyStorage] at h
  split at h
  · cases h
    exact ⟨rfl, rfl⟩
  · rw [applySlots] at h
    split at h
    · cases h
      exact ⟨rfl, rfl⟩
    · cases h

/-- What an overlay that is written wrote: its storage, its code and its record, in this order. -/
theorem applyOverlay_eq_ok (h : applyOverlay store o w = .ok () w') :
    ∃ root w₁ t, applyStorage store o (w.uncovered o) = .ok root w₁ ∧
      (w₁.withCode o).accounts.insert store.nodes (Hash.toBytes o.address.hash)
        (o.toAccount root).encode = .ok t ∧
      w' = { w₁.withCode o with accounts := t } := by
  rw [applyOverlay_run] at h
  split at h
  · rename_i root w₁ hstorage
    obtain ⟨t, ht, rfl⟩ := updateAccounts_eq_ok h
    exact ⟨root, w₁, t, hstorage, ht, rfl⟩
  · cases h

/-- **An overlay that is written** leaves its account, and its new code.  If it has no slots, the
account has the storage under it. -/
theorem puts_applyOverlay (hnonce : o.nonce ≤ Quantity.max)
    (h : applyOverlay store o w = .ok () w') :
    (∃ root, (o.slots = ∅ → root = o.rootUnder) ∧
        Puts store o.address (some (o.toAccount root)) w w') ∧
      w'.codes = (w.withCode o).codes := by
  obtain ⟨root, w₁, t, hstorage, ht, rfl⟩ := applyOverlay_eq_ok h
  obtain ⟨haccounts, hcodes⟩ := applyStorage_keeps hstorage
  rw [codes_uncovered] at hcodes
  have hget := Trie.get_insert (o.toAccount root).encode_ne_nil ht
  rw [accounts_withCode, haccounts, accounts_uncovered] at hget
  refine ⟨⟨root, fun hslots => ?_, puts_of_get hget fun x hx hread => ?_⟩, ?_⟩
  · rw [applyStorage, hslots] at hstorage
    exact (EStateM.Result.ok.inj hstorage).1.symm
  · exact account?_of_written (a := { o.toAccount root with address := x }) rfl hnonce hread
  · show (w₁.withCode o).codes = _
    unfold withCode
    cases o.newCode with
    | none => exact hcodes
    | some code =>
      dsimp only
      split
      · exact hcodes
      · exact congrArg (·.insert o.codeHash code) hcodes

/-! ## Scopes -/

/-- What is at an address once a scope is written: what was there, if the scope says nothing about
addresses of its hash, and else what it says about one of these. -/
inductive Written (store : Store) (s : Scope) (w w' : World) (x : Address) : Prop
  | kept (hnone : ∀ a : Address, a.hash = x.hash → s.lookup a = none)
    (hread : w'.account? store x = w.account? store x)
  | gone {a : Address} (hhash : a.hash = x.hash) (hlookup : s.lookup a = some none)
    (hread : w'.account? store x = .ok none)
  | renewed {a : Address} {o : Overlay} {root : Hash} (hhash : a.hash = x.hash)
    (hlookup : s.lookup a = some (some o))
    (hread : w'.account? store x = .ok (some { o.toAccount root with address := x }))

section
variable {s : Scope}

/-- An overlay of a scope is written where the scope shows it, and left else. -/
theorem applyOverlay_of_mem {x : Address × Overlay} (hx : x ∈ s.updated.toList)
    (h : (if s.deleted.contains x.1 then pure () else applyOverlay store x.2 :
      EStateM StateError World Unit) w = .ok () w') :
    (s.lookup x.1 = some (some x.2) ∧ applyOverlay store x.2 w = .ok () w') ∨
      s.lookup x.1 = some none ∧ w' = w := by
  by_cases hdeleted : s.deleted.contains x.1
  · rw [if_pos hdeleted] at h
    cases h
    exact .inr ⟨Scope.lookup_of_mem_deleted (Std.ExtTreeSet.contains_iff_mem.mp hdeleted), rfl⟩
  · rw [if_neg hdeleted] at h
    refine .inl ⟨?_, h⟩
    rw [Scope.lookup, if_neg hdeleted, Std.ExtTreeMap.mem_toList_iff_getElem?_eq_some.mp hx]
    rfl

variable (hlies : ∀ a o, s.lookup a = some (some o) → Overlay.LiesAt a o)
include hlies

/-- What an overlay of a scope leaves when it is written. -/
theorem applyOverlay_cases {x : Address × Overlay} (hx : x ∈ s.updated.toList)
    (h : (if s.deleted.contains x.1 then pure () else applyOverlay store x.2 :
      EStateM StateError World Unit) w = .ok () w') :
    (s.lookup x.1 = some (some x.2) ∧ x.2.address = x.1 ∧
        (∃ root, (x.2.slots = ∅ → root = x.2.rootUnder) ∧
          Puts store x.1 (some (x.2.toAccount root)) w w') ∧
        w'.codes = (w.withCode x.2).codes) ∨
      s.lookup x.1 = some none ∧ w' = w := by
  refine (applyOverlay_of_mem hx h).imp_left fun ⟨hlookup, hwrite⟩ => ?_
  obtain ⟨haddress, hnonce⟩ := hlies x.1 x.2 hlookup
  obtain ⟨hputs, hcodes⟩ := puts_applyOverlay hnonce hwrite
  exact ⟨hlookup, haddress, haddress ▸ hputs, hcodes⟩

/-- What the overlays of a scope leave at an address: an account that one of them shows, or what was
there if none shows one of that hash. -/
theorem account?_of_updated (x : Address)
    (hrun : (s.updated.toList.forM fun (a, o) =>
      if s.deleted.contains a then pure () else applyOverlay store o : EStateM StateError World Unit)
      w = .ok () w') :
    (∃ a o root, s.lookup a = some (some o) ∧ a.hash = x.hash ∧ (o.slots = ∅ → root = o.rootUnder) ∧
        w'.account? store x = .ok (some { o.toAccount root with address := x })) ∨
      (∀ a o, s.lookup a = some (some o) → a.hash ≠ x.hash) ∧
        w'.account? store x = w.account? store x := by
  have hupdated := read_of_forM (fun w : World => w.account? store x)
    (fun y : Address × Overlay => s.lookup y.1 = some (some y.2) ∧ y.1.hash = x.hash)
    (fun y found => ∃ root, (y.2.slots = ∅ → root = y.2.rootUnder) ∧
      found = .ok (some { y.2.toAccount root with address := x }))
    (l := s.updated.toList) (fun y hy w w' h => by
      rcases applyOverlay_cases hlies hy h with ⟨hlookup, -, ⟨root, hroot, hputs⟩, -⟩ | ⟨hgone, rfl⟩
      · by_cases hhash : y.1.hash = x.hash
        · exact .inl ⟨⟨hlookup, hhash⟩, root, hroot, hputs.here x hhash.symm⟩
        · exact .inr ⟨fun h => hhash h.2, hputs.elsewhere x fun h => hhash h.symm⟩
      · refine .inr ⟨fun h => ?_, rfl⟩
        cases hgone.symm.trans h.1) hrun
  rcases hupdated with ⟨y, -, ⟨hlookup, hhash⟩, root, hroot, hread⟩ | ⟨hnone, hread⟩
  · exact .inl ⟨y.1, y.2, root, hlookup, hhash, hroot, hread⟩
  · refine .inr ⟨fun a o hlookup hhash => ?_, hread⟩
    have hmem := Std.ExtTreeMap.mem_toList_iff_getElem?_eq_some.mpr
      (Scope.updated_of_lookup hlookup)
    exact hnone (a, o) hmem ⟨hlookup, hhash⟩

/-- **What a scope leaves** when it is written, at any address. -/
theorem written_applyScope (hrun : applyScope store s w = .ok () w') (x : Address) :
    Written store s w w' x := by
  obtain ⟨_, w₁, hdelete, hupdate⟩ := bind_eq_ok hrun
  have hdeleted := read_of_forM (fun w : World => w.account? store x)
    (fun a : Address => a.hash = x.hash) (fun _ found => found = .ok none)
    (l := s.deleted.toList) (fun a _ w w' h => by
      obtain ⟨hputs, -⟩ := puts_deleteAccount h
      by_cases hhash : a.hash = x.hash
      · exact .inl ⟨hhash, hputs.here x hhash.symm⟩
      · exact .inr ⟨hhash, hputs.elsewhere x fun h => hhash h.symm⟩) hdelete
  rcases account?_of_updated hlies x hupdate with
    ⟨a, o, root, hlookup, hhash, -, hread⟩ | ⟨hupdated, hread⟩
  · exact .renewed hhash hlookup hread
  · rcases hdeleted with ⟨a, ha, hhash, hread'⟩ | ⟨hdeleted, hread'⟩
    · exact .gone hhash (Scope.lookup_of_mem_deleted (Std.ExtTreeSet.mem_toList.mp ha))
        (hread.trans hread')
    · refine .kept (fun a hhash => ?_) (hread.trans hread')
      cases hlookup : s.lookup a with
      | none => rfl
      | some held =>
        cases held with
        | none =>
          have hmem := Std.ExtTreeSet.mem_toList.mpr (Scope.mem_deleted_of_lookup hlookup)
          exact absurd hhash (hdeleted a hmem)
        | some o => exact absurd hhash (hupdated a o hlookup)

/-- **The code under a hash** once a scope is written: new code of the scope, or what was
there. -/
theorem codes_applyScope (hrun : applyScope store s w = .ok () w') (h : Hash) :
    (∃ code, s.HasCode h code ∧ w'.codes[h]? = some code) ∨
      (∀ code, ¬ s.HasCode h code) ∧ w'.codes[h]? = w.codes[h]? := by
  obtain ⟨_, w₁, hdelete, hupdate⟩ := bind_eq_ok hrun
  have hupdated := read_of_forM (fun w : World => w.codes[h]?)
    (fun y : Address × Overlay => s.lookup y.1 = some (some y.2) ∧
      ∃ code, code ≠ [] ∧ y.2.newCode = some code ∧ y.2.codeHash = h)
    (fun _ found => ∃ code, s.HasCode h code ∧ found = some code) (l := s.updated.toList)
    (fun y hy w w' hwrite => by
      rcases applyOverlay_cases hlies hy hwrite with ⟨hlookup, -, -, hcodes⟩ | ⟨hgone, rfl⟩
      · rw [hcodes]
        rcases w.codes_withCode y.2 h with ⟨code, hne, hnew, hhash, hread⟩ | ⟨hnone, hread⟩
        · exact .inl ⟨⟨hlookup, code, hne, hnew, hhash⟩,
            code, ⟨hne, y.1, y.2, hlookup, hnew, hhash⟩, hread⟩
        · exact .inr ⟨fun ⟨_, code, hne, hnew, hhash⟩ => hnone code hne hnew hhash, hread⟩
      · refine .inr ⟨fun h => ?_, rfl⟩
        cases hgone.symm.trans h.1) hupdate
  have hdeleted := read_of_forM (fun w : World => w.codes[h]?)
    (fun _ : Address => False) (fun _ _ => False) (l := s.deleted.toList)
    (fun a _ w w' hwrite => .inr ⟨id, congrArg (·[h]?) (puts_deleteAccount hwrite).2⟩) hdelete
  rcases hupdated with ⟨y, -, -, hread⟩ | ⟨hnone, hread⟩
  · exact .inl hread
  · rcases hdeleted with ⟨a, -, hfalse, -⟩ | ⟨-, hread'⟩
    · exact hfalse.elim
    · refine .inr ⟨?_, hread.trans hread'⟩
      rintro code ⟨hne, a, o, hlookup, hnew, hhash⟩
      exact hnone (a, o) (Std.ExtTreeMap.mem_toList_iff_getElem?_eq_some.mpr
        (Scope.updated_of_lookup hlookup)) ⟨hlookup, code, hne, hnew, hhash⟩

end

/-- **A scope that is written** leaves the balances that it showed, where hashes tell its
addresses apart. -/
theorem balance_applyScope {s : Scope} (hs : s.Regular)
    (hrun : applyScope store s w = .ok () w')
    (haddress : ∀ a : Address, s.lookup a ≠ none → a.hash = address.hash → a = address) :
    w'.balance store address = match s.lookup address with
      | none => w.balance store address
      | some found => .ok ((found.map Overlay.balance).getD 0) := by
  cases written_applyScope hs.liesAt hrun address with
  | kept hnone hread =>
    rw [hnone address rfl, balance, hread]
    rfl
  | @gone a hhash hlookup hread =>
    obtain rfl := haddress a (by simp [hlookup]) hhash
    rw [hlookup, balance, hread]
    rfl
  | @renewed a o root hhash hlookup hread =>
    obtain rfl := haddress a (by simp [hlookup]) hhash
    rw [hlookup, balance, hread]
    rfl

end World
end Ethereum
