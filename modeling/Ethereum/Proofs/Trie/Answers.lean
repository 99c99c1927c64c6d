/-
# What changed tries answer, on every source

Nothing is assumed here about the nodes or the source: bytes need not match their hashes,
nodes need not be canonical, and lookups may fail.  Where an insertion or a removal
succeeds, the lookup of its own path answers what was written, and every other lookup
answers what it did before, be it a value or an error (`Node.lookup_insert`,
`Node.lookup_remove`), and so it is with the keys of tries (`Trie.get_insert`,
`Trie.get_erase`).
-/

import Mathlib
import Ethereum.Proofs.Trie.Descending

namespace Ethereum

/-- What lookups answer, by path. -/
abbrev Answers := Path → Except TrieError (Option Bytes)

/-- The answers that `f` gives, all moved behind `p`. -/
def Path.behind (p : Path) (f : Answers) : Answers := fun path =>
  match Path.after? p path with
  | some rest => f rest
  | none => .ok none

namespace Path

@[simp] theorem behind_nil (f : Answers) : behind [] f = f := rfl

theorem behind_append (p : Path) (f : Answers) (path : Path) : behind p f (p ++ path) = f path := by
  rw [behind, after?_append]

theorem behind_eq_ok_none {p path : Path} (f : Answers) (h : ¬ p <+: path) :
    behind p f path = .ok none := by
  rw [behind, after?_eq_none_iff.mpr h]

theorem behind_behind (p q : Path) (f : Answers) : behind p (behind q f) = behind (p ++ q) f := by
  funext path
  rw [behind, behind, after?_append_left]
  cases after? p path <;> rfl

theorem behind_none (p : Path) : behind p (fun _ => .ok none) = fun _ => .ok none := by
  funext path
  rw [behind]
  split <;> rfl

/-- Changing an answer and moving it are one. -/
theorem behind_update (p path : Path) (f : Answers) (w : Option Bytes) :
    behind p (Function.update f path (.ok w)) =
      Function.update (behind p f) (p ++ path) (.ok w) := by
  funext q
  by_cases hq : p <+: q
  · obtain ⟨r, rfl⟩ := hq
    rw [behind_append]
    by_cases hr : r = path
    · rw [hr, Function.update_self, Function.update_self]
    · rw [Function.update_of_ne hr, Function.update_of_ne (by simpa using hr), behind_append]
  · rw [behind_eq_ok_none _ hq, Function.update_of_ne, behind_eq_ok_none _ hq]
    rintro rfl
    exact hq (List.prefix_append p path)

end Path

namespace Node

variable {source : NodeSource}

/-! ## Answers of rebuilt nodes -/

theorem lookup_null_eq : null.lookup source = fun _ => .ok none :=
  funext lookup_null

theorem lookup_leaf_eq (p : Path) (value : Bytes) :
    (leaf p value).lookup source = Function.update (fun _ => .ok none) p (.ok (some value)) := by
  funext path
  rw [lookup_leaf, Function.update_apply]
  by_cases h : p = path
  · rw [if_pos h, if_pos h.symm]
  · rw [if_neg h, if_neg (Ne.symm h)]

theorem lookup_extension_eq (p : Path) (child : Node) :
    (extension p child).lookup source = Path.behind p (child.lookup source) :=
  funext fun path => lookup_extension p path child

theorem lookup_wrap (p : Path) (n : Node) :
    (wrap p n).lookup source = Path.behind p (n.lookup source) := by
  rw [wrap]
  split
  · rename_i hp
    rw [hp, Path.behind_nil]
  · exact lookup_extension_eq p n

theorem lookup_prepend (p : Path) (n : Node) :
    (prepend p n).lookup source = Path.behind p (n.lookup source) := by
  cases n with
  | null => rw [prepend, lookup_null_eq, Path.behind_none]
  | leaf q v =>
    rw [prepend, lookup_leaf_eq, lookup_leaf_eq, Path.behind_update, Path.behind_none]
  | extension q c => rw [prepend, lookup_extension_eq, lookup_extension_eq, Path.behind_behind]
  | branch cs v => exact lookup_wrap p _
  | hash h => exact lookup_wrap p _

/-- A changed child is a changed answer behind its step. -/
theorem lookup_setChild {children : Nibble → Node} {i : Nibble} {child : Node} {rest : Path}
    {w : Option Bytes} (v : Option Bytes)
    (h : child.lookup source = Function.update ((children i).lookup source) rest (.ok w)) :
    (branch (setChild children i child) v).lookup source =
      Function.update ((branch children v).lookup source) (i :: rest) (.ok w) := by
  funext path
  rcases path with _ | ⟨j, path⟩
  · rw [Function.update_of_ne (by simp), lookup_branch_nil, lookup_branch_nil]
  · rw [lookup_branch_cons, setChild]
    by_cases hj : j = i
    · subst hj
      rw [if_pos rfl, h]
      by_cases hp : path = rest
      · rw [hp, Function.update_self, Function.update_self]
      · rw [Function.update_of_ne hp, Function.update_of_ne (by simpa using hp),
          lookup_branch_cons]
    · rw [if_neg hj, Function.update_of_ne (by simp [hj]), lookup_branch_cons]

theorem lookup_setValue (children : Nibble → Node) (v w : Option Bytes) :
    (branch children w).lookup source =
      Function.update ((branch children v).lookup source) [] (.ok w) := by
  funext path
  rcases path with _ | ⟨j, path⟩
  · rw [Function.update_self, lookup_branch_nil]
  · rw [Function.update_of_ne (by simp), lookup_branch_cons, lookup_branch_cons]

theorem lookup_emptyBranch : emptyBranch.lookup source = fun _ => .ok none := by
  funext path
  cases path with
  | nil => exact lookup_branch_nil _ _
  | cons i rest => exact (lookup_branch_cons _ _ i rest).trans (lookup_null rest)

/-- An entry is put into a branch where its first step is free. -/
theorem lookup_place {children : Nibble → Node} {v : Option Bytes} {path : Path} (value : Bytes)
    (h : ∀ i, path.head? = some i → children i = null) :
    (place path value (branch children v)).lookup source =
      Function.update ((branch children v).lookup source) path (.ok (some value)) := by
  cases path with
  | nil => exact lookup_setValue children v (some value)
  | cons i rest =>
    rw [place, branchOf_eq]
    refine lookup_setChild v ?_
    rw [h i rfl, lookup_null_eq, lookup_leaf_eq]

/-! ## Insertion -/

/-- An entry that leaves a fork at a free step, behind what leads to the fork. -/
theorem lookup_wrap_place {q b : Path} {children : Nibble → Node} {v : Option Bytes}
    (value : Bytes) (h : ∀ i, b.head? = some i → children i = null) :
    (wrap q (place b value (branch children v))).lookup source =
      Function.update (Path.behind q ((branch children v).lookup source)) (q ++ b)
        (.ok (some value)) := by
  rw [lookup_wrap, lookup_place value h, Path.behind_update]

/-- A leaf and a new entry, behind what their paths share. -/
theorem lookup_split_leaf {q a b : Path} {v value : Bytes} (hab : a.head? ≠ b.head?) :
    (wrap q (place b value (place a v emptyBranch))).lookup source =
      Function.update ((leaf (q ++ a) v).lookup source) (q ++ b) (.ok (some value)) := by
  have hleaf : Path.behind q ((place a v emptyBranch).lookup source) =
      (leaf (q ++ a) v).lookup source := by
    rw [emptyBranch, lookup_place v fun _ _ => rfl, ← emptyBranch, lookup_emptyBranch,
      Path.behind_update, Path.behind_none, lookup_leaf_eq]
  rw [← hleaf]
  cases a with
  | nil => exact lookup_wrap_place value fun _ _ => rfl
  | cons i rest =>
    rw [emptyBranch, place, branchOf_eq]
    refine lookup_wrap_place value fun j hj => ?_
    rw [setChild, if_neg]
    rintro rfl
    exact hab hj.symm

/-- An extension and a new entry that leaves its path. -/
theorem lookup_split_extension {q b rest : Path} {i : Nibble} {c : Node} {value : Bytes}
    (hi : some i ≠ b.head?) :
    (wrap q (place b value (branch (setChild (fun _ => null) i (wrap rest c)) none))).lookup source =
      Function.update ((extension (q ++ i :: rest) c).lookup source) (q ++ b) (.ok (some value)) := by
  have hfork : (branch (setChild (fun _ => null) i (wrap rest c)) none).lookup source =
      Path.behind (i :: rest) (c.lookup source) := by
    funext path
    rcases path with _ | ⟨j, path⟩
    · rw [lookup_branch_nil, Path.behind_eq_ok_none _ (by simp)]
    · by_cases hj : j = i
      · subst hj
        rw [lookup_branch_cons, setChild, if_pos rfl, lookup_wrap, Path.behind, Path.behind,
          Path.after?, if_pos rfl]
      · rw [lookup_branch_cons, setChild, if_neg hj, lookup_null,
          Path.behind_eq_ok_none _ (by simp [Ne.symm hj])]
  rw [lookup_wrap_place, hfork, Path.behind_behind, lookup_extension_eq]
  intro j hj
  rw [setChild, if_neg]
  rintro rfl
  exact hi hj.symm

/-- **An insertion changes one answer.** -/
theorem lookup_insert {path : Path} {n n' : Node} {value : Bytes}
    (h : n.insert source path value = .ok n') :
    n'.lookup source = Function.update (n.lookup source) path (.ok (some value)) := by
  induction n, path using descent source generalizing n' with
  | null path =>
    rw [insert_null] at h
    cases h
    rw [lookup_leaf_eq, lookup_null_eq]
  | leaf p v path =>
    by_cases hp : p = path
    · rw [insert_leaf, if_pos hp] at h
      cases h
      rw [hp, lookup_leaf_eq, lookup_leaf_eq, Function.update_idem]
    · obtain ⟨q, a, b, rfl, rfl, hab⟩ := Path.exists_split_of_ne hp
      rw [insert_leaf_of_parting q v value hab] at h
      cases h
      exact lookup_split_leaf hab
  | extension p c path ih =>
    obtain ⟨rest, rfl⟩ | ⟨q, i, rest, b, rfl, rfl, hi⟩ := Path.follows_or_parts p path
    · rw [insert_extension_append] at h
      obtain ⟨c', hc', rfl⟩ := exists_of_map_eq_ok h
      rw [lookup_extension_eq, lookup_extension_eq, ih rest rfl hc', Path.behind_update]
    · rw [insert_extension_of_parting q rest c value hi] at h
      cases h
      exact lookup_split_extension hi
  | branch_nil cs v =>
    rw [insert_branch_nil] at h
    cases h
    exact lookup_setValue cs v (some value)
  | branch_cons cs v i rest ih =>
    rw [insert_branch_cons] at h
    obtain ⟨c', hc', rfl⟩ := exists_of_map_eq_ok h
    exact lookup_setChild v (ih hc')
  | missing k e path hload =>
    rw [insert_hash_error hload] at h
    contradiction
  | loaded k m path hload ih =>
    rw [insert_hash hload] at h
    rw [ih h, funext (lookup_hash hload)]

/-! ## Removal -/

theorem lookup_resolve {n : Node} {m : { m : Node // m = n ∨ m.Advances }}
    (h : source.resolve n = .ok m) : m.val.lookup source = n.lookup source := by
  cases n with
  | hash k => exact (funext (lookup_hash (NodeSource.load_of_resolve h))).symm
  | null | leaf | extension | branch =>
    cases h
    rfl

/-- The answers of a branch with one child and no value. -/
theorem lookup_branch_of_single {children : Nibble → Node} {i : Nibble}
    (h : ∀ j, j ≠ i → children j = null) :
    (branch children none).lookup source = Path.behind [i] ((children i).lookup source) := by
  funext path
  rcases path with _ | ⟨j, rest⟩
  · rw [lookup_branch_nil, Path.behind_eq_ok_none _ (by simp)]
  · by_cases hj : j = i
    · subst hj
      exact (lookup_branch_cons children none j rest).trans (Path.behind_append [j] _ rest).symm
    · rw [lookup_branch_cons, h j hj, lookup_null, Path.behind_eq_ok_none _ (by simp [Ne.symm hj])]

/-- The answers of a branch without children. -/
theorem lookup_branch_of_null {children : Nibble → Node} (v : Option Bytes)
    (h : ∀ i, children i = null) :
    (branch children v).lookup source = Function.update (fun _ => .ok none) [] (.ok v) := by
  rw [funext h, lookup_setValue _ none, ← emptyBranch, lookup_emptyBranch]

/-- **A branch is collapsed** to a node that answers the same. -/
theorem lookup_collapse {children : Nibble → Node} {v : Option Bytes} {n : Node}
    (h : collapse source children v = .ok n) :
    n.lookup source = (branch children v).lookup source := by
  cases collapse_cases source children v with
  | empty hnull hrun =>
    cases hrun.symm.trans h
    rw [lookup_branch_of_null none hnull, lookup_null_eq, Function.update_eq_self]
  | value v hnull hrun =>
    cases hrun.symm.trans h
    rw [lookup_branch_of_null (some v) hnull, lookup_leaf_eq]
  | joined i hnull hrun =>
    obtain ⟨m, hm, rfl⟩ := exists_of_map_eq_ok (hrun.symm.trans h)
    rw [lookup_branch_of_single hnull, lookup_prepend, lookup_resolve hm]
  | kept _ _ _ hrun =>
    cases hrun.symm.trans h
    rfl

/-- **A removal changes one answer.** -/
theorem lookup_remove {path : Path} {n n' : Node} (h : n.remove source path = .ok n') :
    n'.lookup source = Function.update (n.lookup source) path (.ok none) := by
  induction n, path using descent source generalizing n' with
  | null path =>
    rw [remove_null] at h
    cases h
    rw [lookup_null_eq, Function.update_eq_self]
  | leaf p v path =>
    rw [remove_leaf] at h
    cases h
    by_cases hp : p = path
    · rw [if_pos hp, hp, lookup_leaf_eq, lookup_null_eq, Function.update_idem,
        Function.update_eq_self]
    · rw [if_neg hp, Function.eq_update_self_iff, lookup_leaf, if_neg hp]
  | extension p c path ih =>
    rw [remove_extension] at h
    cases hafter : Path.after? p path with
    | none =>
      rw [hafter] at h
      cases h
      rw [Function.eq_update_self_iff, lookup_extension, hafter]
    | some rest =>
      rw [hafter] at h
      obtain ⟨c', hc', rfl⟩ := exists_of_map_eq_ok h
      obtain rfl := Path.after?_eq_some_iff.mp hafter
      rw [lookup_prepend, lookup_extension_eq, ih rest rfl hc', Path.behind_update]
  | branch_nil cs v =>
    rw [remove_branch_nil] at h
    rw [lookup_collapse h]
    exact lookup_setValue cs v none
  | branch_cons cs v i rest ih =>
    rw [remove_branch_cons] at h
    obtain ⟨c', hc', h⟩ := exists_of_bind_eq_ok h
    rw [lookup_collapse h]
    exact lookup_setChild v (ih hc')
  | missing k e path hload =>
    rw [remove_hash_error hload] at h
    contradiction
  | loaded k m path hload ih =>
    rw [remove_hash hload] at h
    rw [ih h, funext (lookup_hash hload)]

end Node

namespace Trie

variable {source : NodeSource} {t t' : Trie} {key : Bytes}

theorem get_update {answer : Except TrieError (Option Bytes)}
    (h : t'.root.lookup source =
      Function.update (t.root.lookup source) (Path.ofBytes key) answer) :
    t'.get source = Function.update (t.get source) key answer := by
  have hinj : Function.Injective Path.ofBytes := Function.LeftInverse.injective Path.toBytes_ofBytes
  have hcomp := Function.update_comp_eq_of_injective (t.root.lookup source) hinj key answer
  rw [← h] at hcomp
  exact hcomp

/-- **Erasing a key** changes its answer. -/
theorem get_erase (h : t.erase source key = .ok t') :
    t'.get source = Function.update (t.get source) key (.ok none) := by
  obtain ⟨n, hn, h⟩ := exists_of_bind_eq_ok h
  cases h
  exact get_update (Node.lookup_remove hn)

/-- **Inserting a value** changes the answer of its key. -/
theorem get_insert {value : Bytes} (hvalue : value ≠ []) (h : t.insert source key value = .ok t') :
    t'.get source = Function.update (t.get source) key (.ok (some value)) := by
  rw [insert, if_neg (by simpa using hvalue)] at h
  obtain ⟨n, hn, h⟩ := exists_of_bind_eq_ok h
  cases h
  exact get_update (Node.lookup_insert hn)

/-- **A change** leaves its entry as the answer of its key. -/
theorem get_change {c : Change} (h : t.change source c = .ok t') :
    t'.get source = Function.update (t.get source) c.key (.ok c.entry) := by
  cases c with
  | remove key => exact get_erase h
  | put key value =>
    rw [Change.entry]
    split
    · rename_i hvalue
      refine get_erase ?_
      rwa [change, insert, if_pos (by simpa using hvalue)] at h
    · rename_i hvalue
      exact get_insert hvalue h

end Trie
end Ethereum
