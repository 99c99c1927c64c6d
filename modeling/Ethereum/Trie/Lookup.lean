/-
# Looking a path up

A lookup follows a path from a node and loads the placeholders that it meets.
Each step shortens the path or goes down in what was already read, so it ends on
every source.
-/

import Ethereum.Trie.Source

namespace Ethereum
namespace Node

/-- The value at the end of a path. -/
def lookup (source : NodeSource) (node : Node) (path : Path) :
    Except TrieError (Option Bytes) := do
  match ← source.resolve node with
  | ⟨.null, _⟩ => return none
  | ⟨.leaf p value, _⟩ => return if p = path then some value else none
  | ⟨.extension p child, _adv⟩ =>
    match _hp : Path.after? p path with
    | some rest => child.lookup source rest
    | none => return none
  | ⟨.branch children value, _⟩ =>
    match path with
    | [] => return value
    | i :: rest => (children i).lookup source rest
  | ⟨.hash _, _⟩ => return none
termination_by (path.length, sizeOf node)
decreasing_by
  · rw [Path.after?_eq_some_iff] at _hp
    subst _hp
    rcases _adv with rfl | adv
    · simp only [List.length_append, Node.extension.sizeOf_spec]
      rcases p with _ | ⟨m, p⟩
      · simp only [List.length_nil, Nat.zero_add]
        exact Prod.Lex.right _ (by omega)
      · exact Prod.Lex.left _ _ (by simp)
    · rcases p with _ | ⟨m, p⟩
      · exact absurd rfl adv
      · exact Prod.Lex.left _ _ (by simp only [List.length_append, List.length_cons]; omega)
  · exact Prod.Lex.left _ _ (by simp)

end Node
end Ethereum
