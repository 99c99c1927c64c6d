/-
# What a listing has

A walk over a tree in memory lists values that the tree has at the end of the paths walked
(`Node.walk_all`), so the listing of a trie has entries of the trie only, and two tries with the
same entries list the same (`Trie.Has.entriesFrom_eq`).  With hashed keys, what is listed are
entries of names among the data (`Trie.HasHashed.entriesFrom_eq`).
-/

import Mathlib
import Ethereum.Proofs.Programs
import Ethereum.Proofs.Trie.Hashed
import Ethereum.Proofs.Trie.Listing

namespace Ethereum
namespace Node

variable {P : Hash × Bytes → Prop}

/-- All that is listed has a property. -/
def Listing.All (P : Hash × Bytes → Prop) (l : Listing) : Prop := ∀ x ∈ l.entries, P x

theorem Listing.All.add {l : Listing} (h : l.All P) {path : Path} {value : Bytes}
    (hvalue : path.length = 64 → P (Word.ofBytes path.toBytes, value)) :
    (l.add path value).All P := by
  rw [Listing.add]
  split
  · rename_i hlength
    intro x hx
    rcases Array.mem_push.mp hx with hx | rfl
    · exact h x hx
    · exact hvalue hlength.1
  · exact h

/-- **A walk adds values that the node has** at the end of the paths walked. -/
theorem walk_all {follow : Hash → Path → Listing → Except TrieError Listing} {n : Node}
    (hn : n.Canonical) {path : Path} {l l' : Listing} (hl : l.All P)
    (hfind : ∀ rest value, n.find rest = some value → (path ++ rest).length = 64 →
      P (Word.ofBytes (path ++ rest).toBytes, value))
    (h : n.walk follow path l = .ok l') : l'.All P := by
  induction n generalizing path l l' with
  | null =>
    rw [walk_null] at h
    exact Except.ok.inj h ▸ hl
  | hash k => exact absurd rfl (hn.ne_hash k)
  | leaf p v =>
    rw [walk_leaf] at h
    split at h
    · exact Except.ok.inj h ▸ hl
    · rw [← Except.ok.inj h]
      exact hl.add fun hlength => hfind p v (by rw [find_leaf, if_pos rfl]) hlength
  | extension p child ih =>
    rw [walk_extension] at h
    split at h
    · exact Except.ok.inj h ▸ hl
    · refine ih (hn nofun).2.2.canonical hl (fun rest value hvalue hlength => ?_) h
      rw [List.append_assoc] at hlength ⊢
      exact hfind (p ++ rest) value (by rwa [find_extension_append]) hlength
  | branch children v ih =>
    -- the children are walked in turn, each with the entries before it in the listing
    have hfold : ∀ (is : List Nibble) (l : Listing), l.All P →
        is.foldlM (fun l i => (children i).walk follow (path ++ [i]) l) l = .ok l' → l'.All P := by
      intro is
      induction is with
      | nil => exact fun l hl h => Except.ok.inj h ▸ hl
      | cons i is ihs =>
        intro l hl h
        rw [List.foldlM_cons] at h
        obtain ⟨l₁, hwalk, h⟩ := exists_of_bind_eq_ok h
        refine ihs l₁ (ih i ((hn nofun).child i) hl (fun rest value hvalue hlength => ?_) hwalk) h
        rw [List.append_assoc, List.singleton_append] at hlength ⊢
        exact hfind (i :: rest) value (by rwa [find_branch_cons]) hlength
    rw [walk_branch] at h
    split at h
    · exact Except.ok.inj h ▸ hl
    · refine hfold _ _ ?_ h
      cases v with
      | none => exact hl
      | some value =>
        refine hl.add fun hlength => ?_
        have hvalue := hfind [] value (find_branch_nil _ _)
        rw [List.append_nil] at hvalue
        exact hvalue hlength

end Node

namespace Trie

variable {data : List Bytes} {source source' : NodeSource} {log log' : List (Hash × Bytes)}
  {t u : Trie} {m : Bytes → Option Bytes}

/-- **Tries with the same entries list the same**, without fail, and entries only. -/
theorem Has.entriesFrom_eq (ht : t.Has source log m) (hu : u.Has source' log' m)
    (hs : source.Has log) (hs' : source'.Has log') (hb : source.Bounded) (hb' : source'.Bounded)
    (start : Hash) (limit : Nat) : ∃ entries,
      t.entriesFrom source start limit = .ok entries ∧
      u.entriesFrom source' start limit = .ok entries ∧
      ∀ x ∈ entries, m (Hash.toBytes x.1) = some x.2 := by
  obtain ⟨full, hroot, hcan, hfind⟩ := ht
  obtain ⟨full', hroot', hcan', hfind'⟩ := hu
  -- equal contents have one canonical trie
  obtain rfl := hcan.eq_of_find_eq hcan' (congrFun (hfind.trans hfind'.symm))
  obtain ⟨entries, hlist, hfull⟩ := hroot.entriesFrom hs hb start limit
  obtain ⟨entries', hlist', hfull'⟩ := hroot'.entriesFrom hs' hb' start limit
  obtain rfl := Except.ok.inj (hfull.symm.trans hfull')
  refine ⟨entries, hlist, hlist', ?_⟩
  rw [Node.entriesFrom] at hfull
  obtain ⟨l, hwalk, hl⟩ := exists_of_bind_eq_ok hfull
  have hall : l.All fun x => m (Hash.toBytes x.1) = some x.2 := by
    refine Node.walk_all hcan (fun x hx => absurd hx (Array.not_mem_empty x)) ?_ hwalk
    intro path value hvalue hlength
    rw [hfind, Path.entries] at hvalue
    rw [List.nil_append] at hlength ⊢
    have heven : path.length % 2 = 0 := by omega
    have hkey : Hash.toBytes (Word.ofBytes path.toBytes) = path.toBytes := by
      refine Word.toBytes_ofBytes ?_
      rw [Path.length_toBytes]
      omega
    rw [if_pos heven] at hvalue
    rw [hkey]
    exact hvalue
  intro x hx
  rw [← Except.ok.inj hl] at hx
  exact hall x (Array.mem_toList_iff.mp hx)

/-- **Tries with the same entries under the names** answer the same under every key, and what
they answer are entries of names. -/
theorem HasHashed.get_eq_get {κ : Type} {name : κ → Bytes} {entry : κ → Option Bytes}
    (ht : t.HasHashed data source log name entry) (hu : u.HasHashed data source' log' name entry)
    (key : Bytes) : t.get source key = u.get source' key ∧
      (t.get source key = .ok none ∨ ∃ k, name k ∈ data ∧
        key = Hash.toBytes (keccak (name k)) ∧ t.get source key = .ok (entry k)) := by
  obtain ⟨m, hm, hm', -⟩ := ht.common hu fun _ _ => rfl
  exact ⟨(hm.get_eq key).trans (hm'.get_eq key).symm, ht.get_cases key⟩

/-- **Tries with the same entries under the names** list the same, which are entries of
names. -/
theorem HasHashed.entriesFrom_eq {κ : Type} {name : κ → Bytes} {entry : κ → Option Bytes}
    (ht : t.HasHashed data source log name entry) (hu : u.HasHashed data source' log' name entry)
    (hs : source.Has log) (hs' : source'.Has log') (hb : source.Bounded) (hb' : source'.Bounded)
    (start : Hash) (limit : Nat) : ∃ entries,
      t.entriesFrom source start limit = .ok entries ∧
      u.entriesFrom source' start limit = .ok entries ∧
      ∀ x ∈ entries, ∃ k, name k ∈ data ∧ entry k = some x.2 := by
  obtain ⟨m, hm, hm', honly⟩ := ht.common hu fun _ _ => rfl
  obtain ⟨entries, hlist, hlist', hentries⟩ := hm.entriesFrom_eq hm' hs hs' hb hb' start limit
  refine ⟨entries, hlist, hlist', fun x hx => ?_⟩
  have hvalue := hentries x hx
  obtain ⟨k, hk, -, hentry⟩ := honly _ (by rw [hvalue]; exact Option.some_ne_none _)
  exact ⟨k, hk, hentry.symm.trans hvalue⟩

end Trie
end Ethereum
