/-
# Changing a trie

Insertion and removal rebuild the nodes along a path and load the placeholders
that they meet.  Insertion splits a leaf or an extension where the new path
leaves it; removal joins what is left, so that no branch has a single entry and
no extension leads to a leaf or to another extension.
-/

import Ethereum.Trie.Source

namespace Ethereum
namespace Node

/-- A node behind a path: an extension, unless the path is empty. -/
def wrap (path : Path) (node : Node) : Node :=
  if path = [] then node else extension path node

/-- A branch without entries. -/
def emptyBranch : Node := branch (fun _ => null) none

/-- A branch with an entry put at the end of a path whose first step is free. -/
def place (path : Path) (value : Bytes) : Node → Node
  | branch children v =>
    match path with
    | [] => branch children (some value)
    | i :: rest => branchOf (setChild children i (leaf rest value)) v
  | node => node

/-- The node with `value` at the end of a path. -/
def insert (source : NodeSource) (node : Node) (path : Path) (value : Bytes) :
    Except TrieError Node := do
  match ← source.resolve node with
  | ⟨.null, _⟩ => return leaf path value
  | ⟨.leaf p v, _⟩ =>
    if p = path then return leaf p value
    let n := Path.commonLength p path
    return wrap (path.take n) (place (path.drop n) value (place (p.drop n) v emptyBranch))
  | ⟨.extension p child, _adv⟩ =>
    match _hd : p.drop (Path.commonLength p path) with
    | [] => return extension p (← child.insert source (path.drop (Path.commonLength p path)) value)
    | i :: rest =>
      let n := Path.commonLength p path
      let fork := branchOf (setChild (fun _ => null) i (wrap rest child)) none
      return wrap (path.take n) (place (path.drop n) value fork)
  | ⟨.branch children v, _⟩ =>
    match path with
    | [] => return branch children (some value)
    | i :: rest => return branchOf (setChild children i (← (children i).insert source rest value)) v
  | ⟨.hash h, _⟩ => return hash h
termination_by (path.length, sizeOf node)
decreasing_by
  · have hl := Path.commonLength_le_left p path
    have hr := Path.commonLength_le_right p path
    have hn := List.drop_eq_nil_iff.mp _hd
    rcases _adv with rfl | adv
    · rcases p with _ | ⟨m, p⟩
      · rw [show Path.commonLength [] path = 0 by simp [Path.commonLength]]
        exact Prod.Lex.right _ (by simp)
      · exact Prod.Lex.left _ _ (by simp at hn ⊢; omega)
    · rcases p with _ | ⟨m, p⟩
      · exact absurd rfl adv
      · exact Prod.Lex.left _ _ (by simp at hn ⊢; omega)
  · exact Prod.Lex.left _ _ (by simp)

/-- A path put in front of a node, joined with the path that the node has. -/
def prepend (path : Path) : Node → Node
  | null => null
  | leaf p value => leaf (path ++ p) value
  | extension p child => extension (path ++ p) child
  | node => wrap path node

/-- The branch with these entries, or the node that takes its place when fewer
than two are left. -/
def collapse (source : NodeSource) (children : Nibble → Node) (value : Option Bytes) :
    Except TrieError Node := do
  match (List.finRange 16).filter (fun i => !(children i).isNull), value with
  | [], none => return null
  | [], some v => return leaf [] v
  | [i], none => return prepend [i] (← source.resolve (children i)).val
  | _, v => return branch children v

/-- The node without a value at the end of a path. -/
def remove (source : NodeSource) (node : Node) (path : Path) : Except TrieError Node := do
  match ← source.resolve node with
  | ⟨.null, _⟩ => return null
  | ⟨.leaf p v, _⟩ => return if p = path then null else leaf p v
  | ⟨.extension p child, _adv⟩ =>
    match _hp : Path.after? p path with
    | some rest => return prepend p (← child.remove source rest)
    | none => return extension p child
  | ⟨.branch children v, _⟩ =>
    match path with
    | [] => collapse source children none
    | i :: rest =>
      let child ← (children i).remove source rest
      collapse source (childrenOf (Vector.ofFn (setChild children i child))) v
  | ⟨.hash h, _⟩ => return hash h
termination_by (path.length, sizeOf node)
decreasing_by
  · rw [Path.after?_eq_some_iff] at _hp
    subst _hp
    rcases _adv with rfl | adv
    · simp only [List.length_append, Node.extension.sizeOf_spec]
      rcases p with _ | ⟨m, p⟩
      · simp only [List.length_nil, Nat.zero_add]
        exact Prod.Lex.right _ (by omega)
      · exact Prod.Lex.left _ _ (by simp)
    · rcases p with _ | ⟨m, p⟩
      · exact absurd rfl adv
      · exact Prod.Lex.left _ _ (by simp only [List.length_append, List.length_cons]; omega)
  · exact Prod.Lex.left _ _ (by simp)

end Node
end Ethereum
