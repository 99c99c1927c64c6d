/-
# Placeholders and what they stand for

A node in memory may hold placeholders, which a source turns into nodes that may
hold placeholders again.  `Unfolds source P node full` says that loading all of
them ends in the node `full`, which has none, and that `P h n` holds of every
placeholder `h` met on the way and the subtree `n` behind it.  Nothing is assumed
about the source elsewhere, and `P` is free: nothing, or that `h` is the digest
of `n`.

Lookups do not notice placeholders (`Unfolds.lookup`).  The equations of the
walks at each kind of node come first, and the ways in which a branch that has
lost an entry collapses (`CollapseCase`).
-/

import Mathlib
import Ethereum.Trie.Basic
import Ethereum.Proofs.Trie.Canonical

namespace Ethereum

namespace NodeSource

variable {source : NodeSource}

theorem resolve_hash {h : Hash} {n : Node} (hn : source.load h = .ok n) :
    source.resolve (.hash h) = .ok ⟨n, .inr (advances_of_load hn)⟩ := by
  rw [resolve]
  split
  · rename_i m hm
    rw [hn] at hm
    cases hm
    rfl
  · rename_i e he
    rw [hn] at he
    contradiction

theorem load_of_resolve {h : Hash} {m : { m : Node // m = .hash h ∨ m.Advances }}
    (hm : source.resolve (.hash h) = .ok m) : source.load h = .ok m.val := by
  rw [resolve] at hm
  split at hm
  · rename_i n hn
    cases hm
    exact hn
  · contradiction

/-- What is loaded is no placeholder. -/
theorem load_ne_hash {h k : Hash} {n : Node} (hn : source.load h = .ok n) : n ≠ .hash k := by
  rintro rfl
  exact advances_of_load hn

/-- The source without nodes loads nothing. -/
theorem load_none {h : Hash} {n : Node} : NodeSource.none.load h ≠ .ok n := nofun

end NodeSource

namespace Node

variable {source : NodeSource}

/-! ## Lookups, node by node -/

@[simp] theorem lookup_null (path : Path) : null.lookup source path = .ok none := by
  rw [lookup]
  rfl

@[simp] theorem lookup_leaf (p path : Path) (value : Bytes) :
    (leaf p value).lookup source path = .ok (if p = path then some value else none) := by
  rw [lookup]
  rfl

theorem lookup_extension (p path : Path) (child : Node) :
    (extension p child).lookup source path =
      match Path.after? p path with
      | some rest => child.lookup source rest
      | none => .ok none := by
  rw [lookup]
  simp only [NodeSource.resolve, bind, Except.bind, pure, Except.pure]
  split <;> rename_i heq <;> simp only [heq]

@[simp] theorem lookup_branch_nil (children : Nibble → Node) (value : Option Bytes) :
    (branch children value).lookup source [] = .ok value := by
  rw [lookup]
  rfl

@[simp] theorem lookup_branch_cons (children : Nibble → Node) (value : Option Bytes) (i : Nibble)
    (rest : Path) :
    (branch children value).lookup source (i :: rest) = (children i).lookup source rest := by
  rw [lookup]
  rfl

/-- A lookup below a placeholder goes on below the node that is loaded. -/
theorem lookup_hash {h : Hash} {n : Node} (hn : source.load h = .ok n) (path : Path) :
    (hash h).lookup source path = n.lookup source path := by
  rw [lookup, NodeSource.resolve_hash hn]
  cases n with
  | null => rw [lookup_null]; rfl
  | leaf p v => rw [lookup_leaf]; rfl
  | extension p c =>
    rw [lookup_extension]
    simp only [bind, Except.bind, pure, Except.pure]
    split <;> rename_i heq <;> simp only [heq]
  | branch cs v => cases path <;> simp only [lookup_branch_nil, lookup_branch_cons] <;> rfl
  | hash k => exact absurd rfl (NodeSource.load_ne_hash hn)

/-! ## Insertion, node by node -/

@[simp] theorem insert_null (path : Path) (value : Bytes) :
    null.insert source path value = .ok (leaf path value) := by
  rw [insert]
  rfl

theorem insert_leaf (p path : Path) (v value : Bytes) :
    (leaf p v).insert source path value =
      if p = path then .ok (leaf p value)
      else .ok (wrap (path.take (Path.commonLength p path))
        (place (path.drop (Path.commonLength p path)) value
          (place (p.drop (Path.commonLength p path)) v emptyBranch))) := by
  rw [insert]
  simp only [NodeSource.resolve, bind, Except.bind, pure, Except.pure]

/-- Inserting below an extension whose whole path is followed. -/
theorem insert_extension_of_drop_eq_nil {p path : Path} (child : Node) (value : Bytes)
    (h : p.drop (Path.commonLength p path) = []) :
    (extension p child).insert source path value =
      (child.insert source (path.drop (Path.commonLength p path)) value).map (extension p) := by
  rw [insert]
  simp only [NodeSource.resolve, bind, Except.bind, pure, Except.pure]
  split
  · cases child.insert source (path.drop (Path.commonLength p path)) value <;> rfl
  · rename_i heq
    rw [h] at heq
    contradiction

/-- Inserting where the path of an extension is left. -/
theorem insert_extension_of_drop_eq_cons {p path rest : Path} {i : Nibble} (child : Node)
    (value : Bytes) (h : p.drop (Path.commonLength p path) = i :: rest) :
    (extension p child).insert source path value =
      .ok (wrap (path.take (Path.commonLength p path))
        (place (path.drop (Path.commonLength p path)) value
          (branch (setChild (fun _ => null) i (wrap rest child)) none))) := by
  rw [insert]
  simp only [NodeSource.resolve, bind, Except.bind, pure, Except.pure]
  split
  · rename_i heq
    rw [h] at heq
    contradiction
  · rename_i heq
    rw [h] at heq
    cases heq
    rw [branchOf_eq]

/-- A leaf and the entry beside it stand in one branch, behind what their paths share. -/
theorem insert_leaf_of_parting (q : Path) {a b : Path} (v value : Bytes)
    (hab : a.head? ≠ b.head?) :
    (leaf (q ++ a) v).insert source (q ++ b) value =
      .ok (wrap q (place b value (place a v emptyBranch))) := by
  have hne : q ++ a ≠ q ++ b := fun h => hab (congrArg List.head? (List.append_cancel_left h))
  rw [insert_leaf, if_neg hne, Path.commonLength_of_parting q hab, List.take_left, List.drop_left,
    List.drop_left]

/-- An insertion goes on below an extension that it follows to its end. -/
theorem insert_extension_append (p rest : Path) (child : Node) (value : Bytes) :
    (extension p child).insert source (p ++ rest) value =
      (child.insert source rest value).map (extension p) := by
  rw [insert_extension_of_drop_eq_nil child value (by simp), Path.commonLength_append_self,
    List.drop_left]

/-- What is left of an extension and the entry beside it stand in one branch, behind
what their paths share. -/
theorem insert_extension_of_parting (q rest : Path) {b : Path} {i : Nibble} (child : Node)
    (value : Bytes) (hi : some i ≠ b.head?) :
    (extension (q ++ i :: rest) child).insert source (q ++ b) value =
      .ok (wrap q (place b value
        (branch (setChild (fun _ => null) i (wrap rest child)) none))) := by
  have hlen := Path.commonLength_of_parting q (a := i :: rest) hi
  rw [insert_extension_of_drop_eq_cons child value (by rw [hlen, List.drop_left]), hlen,
    List.take_left, List.drop_left]

@[simp] theorem insert_branch_nil (children : Nibble → Node) (v : Option Bytes) (value : Bytes) :
    (branch children v).insert source [] value = .ok (branch children (some value)) := by
  rw [insert]
  rfl

@[simp] theorem insert_branch_cons (children : Nibble → Node) (v : Option Bytes) (i : Nibble)
    (rest : Path) (value : Bytes) :
    (branch children v).insert source (i :: rest) value =
      ((children i).insert source rest value).map fun c => branch (setChild children i c) v := by
  rw [insert]
  simp only [NodeSource.resolve, bind, Except.bind, pure, Except.pure, branchOf_eq]
  cases (children i).insert source rest value <;> rfl

/-- An insertion below a placeholder is one below the node that is loaded. -/
theorem insert_hash {h : Hash} {n : Node} (hn : source.load h = .ok n) (path : Path)
    (value : Bytes) : (hash h).insert source path value = n.insert source path value := by
  rw [insert, NodeSource.resolve_hash hn]
  cases n with
  | null => rw [insert_null]; rfl
  | leaf p v =>
    rw [insert_leaf]
    simp only [bind, Except.bind, pure, Except.pure]
  | extension p c =>
    simp only [bind, Except.bind, pure, Except.pure]
    split <;> rename_i heq
    · rw [insert_extension_of_drop_eq_nil c value heq]
      cases c.insert source (path.drop (Path.commonLength p path)) value <;> rfl
    · rw [insert_extension_of_drop_eq_cons c value heq, branchOf_eq]
  | branch cs v =>
    cases path with
    | nil => rw [insert_branch_nil]; rfl
    | cons i rest =>
      rw [insert_branch_cons]
      simp only [bind, Except.bind, pure, Except.pure, branchOf_eq]
      cases (cs i).insert source rest value <;> rfl
  | hash k => exact absurd rfl (NodeSource.load_ne_hash hn)

/-! ## Removal, node by node -/

@[simp] theorem remove_null (path : Path) : null.remove source path = .ok null := by
  rw [remove]
  rfl

@[simp] theorem remove_leaf (p path : Path) (v : Bytes) :
    (leaf p v).remove source path = .ok (if p = path then null else leaf p v) := by
  rw [remove]
  rfl

theorem remove_extension (p path : Path) (child : Node) :
    (extension p child).remove source path =
      match Path.after? p path with
      | some rest => (child.remove source rest).map (prepend p)
      | none => .ok (extension p child) := by
  rw [remove]
  simp only [NodeSource.resolve, bind, Except.bind, pure, Except.pure]
  split <;> rename_i heq <;> simp only [heq]
  rename_i rest
  cases child.remove source rest <;> rfl

@[simp] theorem remove_branch_nil (children : Nibble → Node) (v : Option Bytes) :
    (branch children v).remove source [] = collapse source children none := by
  rw [remove]
  rfl

@[simp] theorem remove_branch_cons (children : Nibble → Node) (v : Option Bytes) (i : Nibble)
    (rest : Path) :
    (branch children v).remove source (i :: rest) =
      ((children i).remove source rest).bind fun c => collapse source (setChild children i c) v := by
  rw [remove]
  simp only [NodeSource.resolve, bind, Except.bind, childrenOf_ofFn]

/-- A removal below a placeholder is one below the node that is loaded. -/
theorem remove_hash {h : Hash} {n : Node} (hn : source.load h = .ok n) (path : Path) :
    (hash h).remove source path = n.remove source path := by
  rw [remove, NodeSource.resolve_hash hn]
  cases n with
  | null => rw [remove_null]; rfl
  | leaf p v => rw [remove_leaf]; rfl
  | extension p c =>
    rw [remove_extension]
    simp only [bind, Except.bind, pure, Except.pure]
    split <;> rename_i heq <;> simp only [heq]
    rename_i rest
    cases c.remove source rest <;> rfl
  | branch cs v =>
    cases path with
    | nil => rw [remove_branch_nil]; rfl
    | cons i rest =>
      rw [remove_branch_cons]
      simp only [bind, Except.bind, childrenOf_ofFn]
  | hash k => exact absurd rfl (NodeSource.load_ne_hash hn)

/-! ## Branches with few entries -/

/-- What takes the place of a branch: nothing, a leaf with its value, its last child behind
the step to it, or the branch itself where two of its slots are occupied. -/
inductive CollapseCase (source : NodeSource) (children : Nibble → Node) : Option Bytes → Prop
  | empty (hnull : ∀ i, children i = null) (hrun : collapse source children none = .ok null) :
    CollapseCase source children none
  | value (v : Bytes) (hnull : ∀ i, children i = null)
    (hrun : collapse source children (some v) = .ok (leaf [] v)) :
    CollapseCase source children (some v)
  | joined (i : Nibble) (hnull : ∀ j, j ≠ i → children j = null)
    (hrun : collapse source children none =
      (source.resolve (children i)).map fun m => prepend [i] m.val) :
    CollapseCase source children none
  | kept {v : Option Bytes} {s t : Option Nibble} (hst : s ≠ t) (hs : Occupied children v s)
    (ht : Occupied children v t) (hrun : collapse source children v = .ok (branch children v)) :
    CollapseCase source children v

theorem collapse_cases (source : NodeSource) (children : Nibble → Node) (v : Option Bytes) :
    CollapseCase source children v := by
  have hmem (i : Nibble) : i ∈ (List.finRange 16).filter (fun i => !(children i).isNull) ↔
      children i ≠ null := by
    rw [List.mem_filter, Bool.not_eq_true', ← Bool.not_eq_true, isNull_eq_true_iff]
    simp
  have hnodup : ((List.finRange 16).filter (fun i => !(children i).isNull)).Nodup :=
    (List.nodup_finRange 16).filter _
  rcases hleft : (List.finRange 16).filter (fun i => !(children i).isNull) with
    _ | ⟨i, _ | ⟨j, rest⟩⟩ <;> rw [hleft] at hnodup <;> simp only [hleft] at hmem
  · have hnull : ∀ i, children i = null := by simpa using hmem
    cases v with
    | none => exact .empty hnull (by simp only [collapse, hleft]; rfl)
    | some v => exact .value v hnull (by simp only [collapse, hleft]; rfl)
  · have hi : children i ≠ null := (hmem i).mp (List.mem_singleton_self i)
    cases v with
    | none =>
      refine .joined i (fun j hj => ?_) ?_
      · by_contra hne
        exact hj (List.mem_singleton.mp ((hmem j).mpr hne))
      · simp only [collapse, hleft]
        cases source.resolve (children i) <;> rfl
    | some v =>
      exact .kept (Option.some_ne_none i).symm (Option.some_ne_none v) hi
        (by simp only [collapse, hleft]; rfl)
  · have hij : i ≠ j := by
      rintro rfl
      simp at hnodup
    have hi := (hmem i).mp (by simp)
    have hj := (hmem j).mp (by simp)
    refine .kept (s := some i) (t := some j) (by simpa using hij) hi hj ?_
    simp only [collapse, hleft]
    rfl

/-! ## Unfolding -/

/-- Loading all placeholders below `node` ends in `full`; `P` holds of each of
them and the subtree behind it, which is not empty. -/
inductive Unfolds (source : NodeSource) (P : Hash → Node → Prop) : Node → Node → Prop
  | null : Unfolds source P null null
  | leaf (p : Path) (v : Bytes) : Unfolds source P (leaf p v) (leaf p v)
  | extension (p : Path) {c d : Node} (child : Unfolds source P c d) :
    Unfolds source P (extension p c) (extension p d)
  | branch {cs ds : Nibble → Node} (v : Option Bytes) (children : ∀ i, Unfolds source P (cs i) (ds i)) :
    Unfolds source P (branch cs v) (branch ds v)
  | hash {h : Hash} {m n : Node} (load : source.load h = .ok m) (below : Unfolds source P m n)
    (ne_null : n ≠ null) (known : P h n) : Unfolds source P (hash h) n

namespace Unfolds

variable {P : Hash → Node → Prop} {node full : Node}

/-- Only the empty node unfolds to the empty node. -/
theorem eq_null_iff (h : Unfolds source P node full) : node = .null ↔ full = .null := by
  cases h <;> simp_all

/-- **A lookup answers what the unfolded node answers.** -/
theorem lookup (h : Unfolds source P node full) (path : Path) :
    node.lookup source path = .ok (full.find path) := by
  induction h generalizing path with
  | null => rw [lookup_null, find_null]
  | leaf p v => rw [lookup_leaf, find_leaf]
  | extension p _ ih =>
    rw [lookup_extension, find_extension, Path.under]
    cases Path.after? p path with
    | none => rfl
    | some rest => exact ih rest
  | branch v _ ih =>
    cases path with
    | nil => rw [lookup_branch_nil, find_branch_nil]
    | cons i rest => rw [lookup_branch_cons, find_branch_cons, ih]
  | hash load _ _ _ ih => rw [lookup_hash load, ih]

/-- Without a source a node unfolds to itself only. -/
theorem eq_of_none (h : Unfolds .none P node full) : node = full := by
  induction h with
  | null | leaf => rfl
  | extension p _ ih => rw [ih]
  | branch v _ ih => rw [funext ih]
  | hash load => exact absurd load NodeSource.load_none

/-- A canonical node without placeholders unfolds to itself. -/
theorem refl_of_canonical {n : Node} (hn : n.Canonical) : Unfolds source P n n := by
  induction n with
  | null => exact .null
  | leaf p v => exact .leaf p v
  | extension p c ih => exact .extension p (ih (hn (by simp)).2.2.canonical)
  | branch cs v ih => exact .branch v fun i => ih i ((hn (by simp)).child i)
  | hash h => exact absurd (hn (by simp)) id

/-- What unfolds in one source unfolds in every source that loads the same under
the placeholders it meets. -/
theorem mono {source' : NodeSource} {P' : Hash → Node → Prop} (h : Unfolds source P node full)
    (hP : ∀ {h : Hash} {m n : Node}, source.load h = .ok m → P h n →
      source'.load h = .ok m ∧ P' h n) : Unfolds source' P' node full := by
  induction h with
  | null => exact .null
  | leaf p v => exact .leaf p v
  | extension p _ ih => exact .extension p ih
  | branch v _ ih => exact .branch v ih
  | hash load _ ne_null known ih =>
    obtain ⟨load', known'⟩ := hP load known
    exact .hash load' ih ne_null known'

/-- A node that is loaded, or is at hand, unfolds to the same. -/
theorem resolve (h : Unfolds source P node full) :
    ∃ m, source.resolve node = .ok m ∧ Unfolds source P m.val full ∧ ∀ k, m.val ≠ .hash k := by
  cases h with
  | hash load below => exact ⟨_, NodeSource.resolve_hash load, below, fun k =>
      NodeSource.load_ne_hash load⟩
  | null => exact ⟨_, rfl, .null, nofun⟩
  | leaf p v => exact ⟨_, rfl, .leaf p v, nofun⟩
  | extension p child => exact ⟨_, rfl, .extension p child, nofun⟩
  | branch v children => exact ⟨_, rfl, .branch v children, nofun⟩

end Unfolds
end Node
end Ethereum
