/-
# What a trie contains

A trie that is filled in memory is a map of byte strings: whatever is put and
removed, in whatever order, no change fails, and lookups answer what the entries
say (`changes_get`).  The entries alone fix the node at the root, and so the root
hash (`root_eq_of_contents_eq`): no order of changes, no overwritten value and no
key that came and went leaves a trace.
-/

import Mathlib
import Ethereum.Proofs.Trie.Change

namespace Ethereum
namespace Trie

/-- A change of the entries of a trie. -/
inductive Change where
  | put (key value : Bytes)
  | remove (key : Bytes)
deriving DecidableEq, Repr

/-- The trie after a change. -/
def change (source : NodeSource) (t : Trie) : Change → Except TrieError Trie
  | .put key value => t.insert source key value
  | .remove key => t.erase source key

/-- The trie after changes made one after the other. -/
def changes (source : NodeSource) (cs : List Change) (t : Trie) : Except TrieError Trie :=
  cs.foldlM (change source) t

theorem changes_singleton {source : NodeSource} (c : Change) (t : Trie) :
    changes source [c] t = t.change source c :=
  bind_pure _

/-- The key whose entry a change replaces. -/
def Change.key : Change → Bytes
  | .put key _ | .remove key => key

/-- The entry that a change leaves: an empty value is none. -/
def Change.entry : Change → Option Bytes
  | .put _ value => if value = [] then none else some value
  | .remove _ => none

/-- A map after a change. -/
def Change.apply (m : Bytes → Option Bytes) (c : Change) : Bytes → Option Bytes :=
  Function.update m c.key c.entry

/-- The map that is left by changes of the empty map. -/
def contents (cs : List Change) : Bytes → Option Bytes :=
  cs.foldl Change.apply fun _ => none

theorem contents_append (cs ds : List Change) :
    contents (cs ++ ds) = ds.foldl Change.apply (contents cs) :=
  List.foldl_append

/-- Changes of other keys commute with an entry. -/
theorem foldl_apply_update {key : Bytes} {ds : List Change} (h : ∀ c ∈ ds, c.key ≠ key)
    (m : Bytes → Option Bytes) (v : Option Bytes) :
    ds.foldl Change.apply (Function.update m key v) =
      Function.update (ds.foldl Change.apply m) key v := by
  induction ds generalizing m with
  | nil => rfl
  | cons c ds ih =>
    have hc : c.key ≠ key := h c List.mem_cons_self
    rw [List.foldl_cons, List.foldl_cons, ← ih fun d hd => h d (List.mem_cons_of_mem c hd)]
    unfold Change.apply
    rw [Function.update_comm hc]

/-- A key that came and went leaves no entry. -/
theorem contents_transient {cs ds : List Change} {key : Bytes} (value : Bytes)
    (hcs : contents cs key = none) (hds : ∀ c ∈ ds, c.key ≠ key) :
    contents (cs ++ .put key value :: ds ++ [.remove key]) = contents (cs ++ ds) := by
  have hnone : contents cs = Function.update (contents cs) key none := by
    rw [← hcs, Function.update_eq_self]
  calc contents (cs ++ .put key value :: ds ++ [.remove key])
      = Function.update (ds.foldl Change.apply
          (Function.update (contents cs) key (Change.put key value).entry)) key none := by
        rw [contents_append, contents_append]
        rfl
    _ = ds.foldl Change.apply (Function.update (contents cs) key none) := by
        rw [foldl_apply_update hds, Function.update_idem, foldl_apply_update hds]
    _ = contents (cs ++ ds) := by rw [← hnone, contents_append]

section
variable {source : NodeSource} {P : Hash → Node → Prop} {m : Bytes → Option Bytes}

/-- A change of a trie is a change of what its root holds. -/
theorem holds_change {t : Trie} (h : Node.Holds source P t.root (Path.entries m)) (c : Change) :
    ∃ u, t.change source c = .ok u ∧ Node.Holds source P u.root (Path.entries (c.apply m)) := by
  obtain ⟨full, hfull, hcan, hfind⟩ := h
  have erased (key : Bytes) : ∃ u, t.erase source key = .ok u ∧
      Node.Holds source P u.root (Path.entries (Function.update m key none)) := by
    obtain ⟨n, hn, -, hholds⟩ := hfull.remove hcan (Path.ofBytes key)
    rw [Path.entries_update, ← hfind]
    exact ⟨⟨n⟩, by rw [erase, hn]; rfl, hholds⟩
  cases c with
  | remove key => exact erased key
  | put key value =>
    rw [change, insert]
    by_cases hv : value = []
    · subst hv
      exact erased key
    · obtain ⟨n, hn, hholds⟩ := hfull.insert hcan (Path.ofBytes key) hv
      rw [List.isEmpty_eq_false_iff.mpr hv, hn, Change.apply, Change.key, Change.entry, if_neg hv,
        Path.entries_update, ← hfind]
      exact ⟨⟨n⟩, rfl, hholds⟩

theorem holds_changes {t : Trie} (h : Node.Holds source P t.root (Path.entries m))
    (cs : List Change) :
    ∃ u, changes source cs t = .ok u ∧
      Node.Holds source P u.root (Path.entries (cs.foldl Change.apply m)) := by
  induction cs generalizing t m with
  | nil => exact ⟨t, rfl, h⟩
  | cons c cs ih =>
    obtain ⟨u, hu, hholds⟩ := holds_change h c
    obtain ⟨w, hw, hholds⟩ := ih hholds
    refine ⟨w, ?_, hholds⟩
    rw [changes, List.foldlM_cons, hu]
    exact hw

theorem holds_empty : Node.Holds source P empty.root (Path.entries fun _ => none) :=
  ⟨.null, .null, .null, by rw [Path.entries_none, Node.find_null_eq]⟩

theorem get_of_holds {t : Trie} (h : Node.Holds source P t.root (Path.entries m)) (key : Bytes) :
    t.get source key = .ok (m key) := by
  obtain ⟨full, hfull, -, hfind⟩ := h
  rw [get, hfull.lookup, hfind, Path.entries_ofBytes]

/-- Without a source, what a trie holds fixes its root. -/
theorem root_eq_of_holds {t u : Trie} (ht : Node.Holds .none P t.root (Path.entries m))
    (hu : Node.Holds .none P u.root (Path.entries m)) : t.root = u.root := by
  obtain ⟨n, hn, hcan, hfind⟩ := ht
  obtain ⟨n', hn', hcan', hfind'⟩ := hu
  rw [hn.eq_of_none, hn'.eq_of_none]
  exact hcan.eq_of_find_eq hcan' (congrFun (hfind.trans hfind'.symm))

end

/-- **A trie is a map.**  Changes of the empty trie never fail, and afterwards a
lookup answers what the same changes leave of the empty map: any key may be any
byte string, and an empty value is no value. -/
theorem changes_get (cs : List Change) :
    ∃ t, changes .none cs empty = .ok t ∧ ∀ key, t.get .none key = .ok (contents cs key) := by
  obtain ⟨t, ht, hholds⟩ := holds_changes (P := fun _ _ => True) holds_empty cs
  exact ⟨t, ht, get_of_holds hholds⟩

/-- The root of the trie that changes of the empty trie leave holds what they leave
of the empty map. -/
theorem holds_contents (cs : List Change) :
    ∃ t, changes .none cs empty = .ok t ∧
      Node.Holds .none (fun _ _ => True) t.root (Path.entries (contents cs)) :=
  holds_changes holds_empty cs

theorem rootHash_empty : empty.rootHash = Node.emptyHash := by
  have hdigest : keccak [0x80] = Node.emptyHash := by decide +kernel
  exact hdigest

/-- The same entries, the same root. -/
theorem changes_eq_of_contents_eq {cs ds : List Change} (h : contents cs = contents ds) :
    ∃ t, changes .none cs empty = .ok t ∧ changes .none ds empty = .ok t := by
  obtain ⟨t, ht, hholds⟩ := holds_contents cs
  obtain ⟨u, hu, hholds'⟩ := holds_contents ds
  rw [← h] at hholds'
  have htu : t = u := congrArg Trie.mk (root_eq_of_holds hholds hholds')
  exact ⟨t, ht, htu ▸ hu⟩

/-- What a trie contains is not empty. -/
theorem contents_ne_nil {cs : List Change} {key value : Bytes}
    (h : contents cs key = some value) : value ≠ [] := by
  obtain ⟨t, -, full, -, hcan, hfind⟩ := holds_contents cs
  have hkey : full.find (Path.ofBytes key) = some value := by
    rw [hfind, Path.entries_ofBytes, h]
  exact hcan.value_ne_nil hkey

/-- A last change that the entries do not show does not show in the trie. -/
theorem change_eq_of_apply_eq {cs : List Change} {t : Trie} (ht : changes .none cs empty = .ok t)
    {c : Change} (h : c.apply (contents cs) = contents cs) : t.change .none c = .ok t := by
  have hcs : contents (cs ++ [c]) = contents cs := by
    rw [contents_append, List.foldl_cons, List.foldl_nil, h]
  obtain ⟨u, hu, hu'⟩ := changes_eq_of_contents_eq hcs
  rw [ht] at hu'
  cases hu'
  rw [changes] at ht
  rw [changes, List.foldlM_append, ht] at hu
  exact (changes_singleton c t).symm.trans hu

/-- **The entries fix the root, whatever the history.**  Changes that leave the same
entries leave the same node at the root, and so the same root hash.  In
particular the root hash does not change when a value is overwritten by itself, when
a key that is absent is removed, or by a key that is put and removed later; and
without entries it is the hash of the empty trie. -/
theorem root_eq_of_contents_eq :
    (∀ cs ds : List Change, contents cs = contents ds →
      ∃ t u, changes .none cs empty = .ok t ∧ changes .none ds empty = .ok u ∧
        t.root = u.root ∧ t.rootHash = u.rootHash) ∧
    (∀ (cs : List Change) (key value : Bytes), contents cs key = some value →
      ∃ t u, changes .none cs empty = .ok t ∧ t.insert .none key value = .ok u ∧
        u.rootHash = t.rootHash) ∧
    (∀ (cs : List Change) (key : Bytes), contents cs key = none →
      ∃ t u, changes .none cs empty = .ok t ∧ t.erase .none key = .ok u ∧
        u.rootHash = t.rootHash) ∧
    (∀ (cs ds : List Change) (key value : Bytes), contents cs key = none →
      (∀ c ∈ ds, c.key ≠ key) →
      ∃ t u, changes .none (cs ++ ds) empty = .ok t ∧
        changes .none (cs ++ .put key value :: ds ++ [.remove key]) empty = .ok u ∧
        u.rootHash = t.rootHash) ∧
    ∀ cs : List Change, contents cs = (fun _ => none) →
      ∃ t, changes .none cs empty = .ok t ∧ t.rootHash = Node.emptyHash := by
  -- all five say that the node is a function of the contents
  refine ⟨?_, ?_, ?_, ?_, ?_⟩
  · intro cs ds h
    obtain ⟨t, ht, hu⟩ := changes_eq_of_contents_eq h
    exact ⟨t, t, ht, hu, rfl, rfl⟩
  · intro cs key value h
    obtain ⟨t, ht, -⟩ := holds_contents cs
    refine ⟨t, t, ht, change_eq_of_apply_eq (c := .put key value) ht ?_, rfl⟩
    rw [Change.apply, Change.key, Change.entry, if_neg (contents_ne_nil h), ← h,
      Function.update_eq_self]
  · intro cs key h
    obtain ⟨t, ht, -⟩ := holds_contents cs
    refine ⟨t, t, ht, change_eq_of_apply_eq (c := .remove key) ht ?_, rfl⟩
    rw [Change.apply, Change.key, Change.entry, ← h, Function.update_eq_self]
  · intro cs ds key value hcs hds
    obtain ⟨t, ht, hu⟩ := changes_eq_of_contents_eq (contents_transient value hcs hds).symm
    exact ⟨t, t, ht, hu, rfl⟩
  · intro cs h
    have hnil : contents cs = contents [] := h
    obtain ⟨t, ht, hu⟩ := changes_eq_of_contents_eq hnil
    cases hu
    exact ⟨empty, ht, rootHash_empty⟩

/-- Two words put in either order, with a third that came and went: the entries are
the same, and so is the root. -/
theorem root_eq_of_reordered :
    let dog : Change := .put [0x64, 0x6f, 0x67] [0x70, 0x75, 0x70]
    let doge : Change := .put [0x64, 0x6f, 0x67, 0x65] [0x63, 0x6f, 0x69, 0x6e]
    let horse : Change := .put [0x68] [0x73]
    contents [dog, doge] = contents [doge, horse, dog, .remove [0x68]] ∧
      ∃ t u, changes .none [dog, doge] empty = .ok t ∧
        changes .none [doge, horse, dog, .remove [0x68]] empty = .ok u ∧
        t.root = u.root ∧ t.rootHash = u.rootHash := by
  intro dog doge horse
  have h : contents [dog, doge] = contents [doge, horse, dog, .remove [0x68]] := by
    funext key
    simp only [contents, List.foldl, Change.apply, Change.key, Change.entry, Function.update_apply,
      dog, doge, horse]
    split_ifs <;> simp_all
  exact ⟨h, root_eq_of_contents_eq.1 _ _ h⟩

end Trie
end Ethereum
