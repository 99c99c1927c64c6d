/-
# What a trie over a store contains

`t.Has source log m` says that the trie `t` has the entries `m`, with the nodes that
it does not hold among those that were written (`log`).  Lookups, changes and the
root hash of such a trie are those of the entries, and once its nodes are written
it has the same entries when it is opened again at its root hash (`Has.ofRoot`).
-/

import Mathlib
import Ethereum.Proofs.Trie.Contents
import Ethereum.Proofs.Trie.Storing

namespace Ethereum

/-- No two of these byte strings have one hash. -/
def Collisionless (data : List Bytes) : Prop :=
  ∀ a ∈ data, ∀ b ∈ data, keccak a = keccak b → a = b

instance (data : List Bytes) : Decidable (Collisionless data) :=
  inferInstanceAs (Decidable (∀ a ∈ data, ∀ b ∈ data, keccak a = keccak b → a = b))

theorem Collisionless.mono {data data' : List Bytes} (h : Collisionless data')
    (hsub : data ⊆ data') : Collisionless data :=
  fun a ha b hb => h a (hsub ha) b (hsub hb)

namespace Trie

/-- The entries are no longer than byte strings in memory can be: the nibbles of a
key fit, and the bytes of a value. -/
def Fits (m : Bytes → Option Bytes) : Prop :=
  ∀ key value, m key = some value → key.length < 2 ^ 62 ∧ value.length < 2 ^ 63

theorem Fits.root {m : Bytes → Option Bytes} (h : Fits m) {n : Node}
    (hn : n.find = Path.entries m) : n.Fits := by
  intro path value hv
  rw [hn, Path.entries] at hv
  split at hv
  · have := h _ _ hv
    rw [Path.length_toBytes] at this
    omega
  · contradiction

theorem Fits.update {m : Bytes → Option Bytes} (h : Fits m) {key : Bytes} {v : Option Bytes}
    (hkey : key.length < 2 ^ 62) (hv : ∀ value, v = some value → value.length < 2 ^ 63) :
    Fits (Function.update m key v) := by
  intro key' value hvalue
  rw [Function.update_apply] at hvalue
  split at hvalue
  · rename_i heq
    rw [heq]
    exact ⟨hkey, hv value hvalue⟩
  · exact h key' value hvalue

/-- `t` has the entries `m`. -/
def Has (source : NodeSource) (log : List (Hash × Bytes)) (t : Trie)
    (m : Bytes → Option Bytes) : Prop :=
  ∃ full, Node.Rooted source log t.root full ∧ full.Canonical ∧ full.find = Path.entries m

/-- Only the encoding of the empty node was written under its hash. -/
def EmptyOnly (log : List (Hash × Bytes)) : Prop :=
  ∀ w ∈ log, w.1 = Node.emptyHash → w.2 = Node.null.encode

/-- Every write is under the hash of what is written. -/
def Addressed (log : List (Hash × Bytes)) : Prop := ∀ w ∈ log, w.1 = keccak w.2

variable {source source' : NodeSource} {log log' : List (Hash × Bytes)} {t u : Trie}
  {m : Bytes → Option Bytes}

theorem Addressed.left (h : Addressed (log ++ log')) : Addressed log :=
  fun w hw => h w (List.mem_append_left _ hw)

theorem Addressed.append (h : Addressed log) (h' : Addressed log') : Addressed (log ++ log') :=
  fun w hw => (List.mem_append.mp hw).elim (h w) (h' w)

theorem addressed_writes (t : Trie) : Addressed t.writes :=
  fun _ hw => Node.hash_eq_of_mem_writes hw

theorem Addressed.emptyOnly {data : List Bytes} (h : Addressed log) (hcol : Collisionless data)
    (hnull : Node.null.encode ∈ data) (hdata : ∀ w ∈ log, w.2 ∈ data) : EmptyOnly log := by
  intro w hw hempty
  refine hcol _ (hdata w hw) _ hnull ?_
  rw [← h w hw, hempty]
  exact rootHash_empty.symm

theorem has_empty : Has source log empty fun _ => none :=
  ⟨.null, .held .null, .null, by rw [Path.entries_none, Node.find_null_eq]⟩

theorem Has.get_eq (h : t.Has source log m) (key : Bytes) : t.get source key = .ok (m key) := by
  obtain ⟨full, hroot, -, hfind⟩ := h
  obtain ⟨n, hn, hlookup, -⟩ := hroot.exists_held
  rw [get, hlookup, hn.lookup, hfind, Path.entries_ofBytes]

theorem change_congr {t t' : Trie} (c : Change)
    (hinsert : ∀ path value, t.root.insert source path value = t'.root.insert source path value)
    (hremove : ∀ path, t.root.remove source path = t'.root.remove source path) :
    t.change source c = t'.change source c := by
  cases c with
  | put key value => rw [change, change, insert, insert, erase, erase, hinsert, hremove]
  | remove key => rw [change, change, erase, erase, hremove]

/-- **A change of the trie is one of its entries.** -/
theorem Has.change (h : t.Has source log m) (c : Change) :
    ∃ u, t.change source c = .ok u ∧ u.Has source log (c.apply m) := by
  obtain ⟨full, hroot, hcan, hfind⟩ := h
  obtain ⟨n, hn, -, hinsert, hremove⟩ := hroot.exists_held
  obtain ⟨u, hu, full', hfull', hcan', hfind'⟩ :=
    holds_change (t := ⟨n⟩) ⟨full, hn, hcan, hfind⟩ c
  exact ⟨u, (change_congr c hinsert hremove).trans hu, full', .held hfull', hcan', hfind'⟩

/-- **The entries fix the root hash.** -/
theorem Has.rootHash_eq (ht : t.Has source log m) (hu : u.Has source' log' m) :
    t.rootHash = u.rootHash := by
  obtain ⟨full, hroot, hcan, hfind⟩ := ht
  obtain ⟨full', hroot', hcan', hfind'⟩ := hu
  obtain rfl := hcan.eq_of_find_eq hcan' (congrFun (hfind.trans hfind'.symm))
  exact hroot.digest_eq.trans hroot'.digest_eq.symm

/-- A trie whose nodes are written has its entries when it is known by its hash. -/
theorem Has.collapse (h : t.Has source log m) (hfit : Fits m) (hs : source.Has log)
    (hs' : source'.Has log') (hlog : log ⊆ log') (hw : t.writes ⊆ log') :
    t.collapse.Has source' log' m := by
  obtain ⟨full, hroot, hcan, hfind⟩ := h
  refine ⟨full, ?_, hcan, hfind⟩
  by_cases hnull : t.root = .null
  · rw [Trie.collapse, if_pos (Node.isNull_eq_true_iff.mpr hnull)]
    exact hroot.extend hs hs' hlog
  · rw [Trie.collapse, if_neg (mt Node.isNull_eq_true_iff.mp hnull), hroot.digest_eq]
    exact hroot.store hcan (hfit.root hfind) hs hs' hlog hw (mt hroot.eq_null_iff.mpr hnull)

/-- The root is empty, or stands as a hash. -/
def Settled (t : Trie) : Prop := t.root = .null ∨ ∃ k, t.root = .hash k

theorem settled_collapse (t : Trie) : t.collapse.Settled := by
  by_cases hnull : t.root = .null
  · rw [collapse, if_pos (Node.isNull_eq_true_iff.mpr hnull)]
    exact .inl hnull
  · rw [collapse, if_neg (mt Node.isNull_eq_true_iff.mp hnull)]
    exact .inr ⟨_, rfl⟩

theorem rootHash_collapse (t : Trie) : t.collapse.rootHash = t.rootHash := by
  rw [collapse]
  split <;> rfl

theorem change_empty {c : Change} {value : Bytes} (h : c.entry = some value) :
    empty.change source c = .ok ⟨.leaf (Path.ofBytes c.key) value⟩ := by
  cases c with
  | remove key => cases h
  | put key v =>
    rw [Change.entry] at h
    split at h
    · contradiction
    · rename_i hv
      obtain rfl := Option.some.inj h
      rw [change, insert, if_neg (by rwa [List.isEmpty_iff]), empty, Node.insert_null]
      rfl

theorem rootHash_ofRoot (h : Hash) : (ofRoot h).rootHash = h := by
  rw [ofRoot]
  split
  · rename_i hempty
    rw [hempty, rootHash_empty]
  · rfl

theorem writes_ofRoot (h : Hash) : (ofRoot h).writes = [] := by
  rw [ofRoot]
  split <;> rfl

/-- A trie whose root is empty or stands as a hash is the one that is opened there. -/
theorem Has.ofRoot_eq (h : t.Has source log m) (hfit : Fits m) (hempty : EmptyOnly log)
    (ht : t.Settled) : ofRoot t.rootHash = t := by
  rcases ht with hroot | ⟨k, hroot⟩
  · have ht : t = empty := congrArg Trie.mk hroot
    rw [ht, ofRoot, if_pos rootHash_empty]
  · have ht : t = ⟨.hash k⟩ := congrArg Trie.mk hroot
    obtain ⟨full, hrooted, hcan, hfind⟩ := h
    rw [hroot] at hrooted
    obtain ⟨hmem, hnull⟩ := hrooted.mem_of_hash
    rw [ht, ofRoot, if_neg]
    · rfl
    · intro hk
      exact Node.encode_ne_encode_null hcan (hfit.root hfind) hnull (hempty _ hmem hk)

/-- **A trie whose nodes are written has its entries when it is opened again.** -/
theorem Has.ofRoot (h : t.Has source log m) (hfit : Fits m) (hs : source.Has log)
    (hs' : source'.Has log') (hlog : log ⊆ log') (hempty : EmptyOnly log')
    (hw : t.writes ⊆ log') : (ofRoot t.rootHash).Has source' log' m := by
  have hcollapse := h.collapse hfit hs hs' hlog hw
  rw [← rootHash_collapse, hcollapse.ofRoot_eq hfit hempty (settled_collapse t)]
  exact hcollapse

end Trie
end Ethereum
