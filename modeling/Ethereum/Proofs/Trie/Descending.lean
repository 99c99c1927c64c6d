/-
# Walks that meet a missing node

A walk down a trie goes on below what a placeholder loads, and nothing is assumed
about the source: placeholders may be missing, or lead in circles.  Still every
walk ends, since what is loaded uses up the path, and so there is one induction for
all of them (`Node.descent`).

It tells how walks fail.  Insertion fails exactly where a lookup of the same path
does (`insert_eq_error_iff`).  Removal fails there too, or at the last sibling left
in a branch, which no lookup of the path would have read; but a lookup of another
path does (`exists_lookup_of_remove`).

A change of a trie in place takes the old nodes apart and has nothing to put back.
When it fails the trie is left without entries, and an answer is lost with it: the
key that could not be read is now answered (`Trie.update_forgets`).
-/

import Mathlib
import Ethereum.Trie.Basic
import Ethereum.Proofs.Programs
import Ethereum.Proofs.Trie.Contents

namespace Ethereum

theorem map_eq_error_iff {ε α β : Type} {f : α → β} {x : Except ε α} {e : ε} :
    x.map f = .error e ↔ x = .error e := by
  cases x <;> simp [Except.map]

namespace Node

variable {source : NodeSource}

/-- **The induction along a walk.**  Below a placeholder it goes on with what is
loaded. -/
@[elab_as_elim]
theorem descent (source : NodeSource) {motive : Node → Path → Prop}
    (null : ∀ path, motive null path)
    (leaf : ∀ p v path, motive (leaf p v) path)
    (extension : ∀ p child path, (∀ rest, path = p ++ rest → motive child rest) →
      motive (extension p child) path)
    (branch_nil : ∀ children v, motive (branch children v) [])
    (branch_cons : ∀ children v i rest, motive (children i) rest →
      motive (branch children v) (i :: rest))
    (missing : ∀ h e path, source.load h = .error e → motive (hash h) path)
    (loaded : ∀ h n path, source.load h = .ok n → motive n path → motive (hash h) path)
    (node : Node) (path : Path) : motive node path := by
  induction hlen : path.length using Nat.strong_induction_on generalizing node path with
  | _ k ih =>
    subst hlen
    have shorter (n : Node) (rest : Path) (h : rest.length < path.length) : motive n rest :=
      ih rest.length h n rest rfl
    -- a node that uses up the path needs what is below it on shorter paths only
    have advancing (n : Node) (hn : n.Advances) : motive n path := by
      cases n with
      | null => exact null path
      | leaf p v => exact leaf p v path
      | extension p child =>
        refine extension p child path fun rest hrest => shorter child rest ?_
        have hp := List.length_pos_iff.mpr hn
        rw [hrest, List.length_append]
        omega
      | branch children v =>
        rcases path with _ | ⟨i, rest⟩
        · exact branch_nil children v
        · exact branch_cons children v i rest (shorter _ rest (by simp))
      | hash h => exact absurd hn id
    induction node with
    | null => exact advancing _ trivial
    | leaf p v => exact advancing _ trivial
    | branch children v => exact advancing _ trivial
    | extension p child ihc =>
      rcases p with _ | ⟨i, p⟩
      · refine extension [] child path fun rest hrest => ?_
        rw [List.nil_append] at hrest
        exact hrest ▸ ihc
      · exact advancing _ (List.cons_ne_nil i p)
    | hash h =>
      cases hload : source.load h with
      | error e => exact missing h e path hload
      | ok n => exact loaded h n path hload (advancing n (NodeSource.advances_of_load hload))

/-! ## Placeholders that do not load -/

theorem resolve_hash_error {h : Hash} {e : TrieError} (he : source.load h = .error e) :
    source.resolve (hash h) = .error e := by
  rw [NodeSource.resolve]
  split
  · rename_i n hn
    rw [he] at hn
    contradiction
  · rename_i e' he'
    rw [he] at he'
    cases he'
    rfl

/-- Only a placeholder can fail to resolve. -/
theorem eq_hash_of_resolve {n : Node} {e : TrieError} (he : source.resolve n = .error e) :
    ∃ h, n = hash h ∧ source.load h = .error e := by
  cases n with
  | hash h =>
    cases hload : source.load h with
    | ok m =>
      rw [NodeSource.resolve_hash hload] at he
      contradiction
    | error e' =>
      rw [resolve_hash_error hload] at he
      cases he
      exact ⟨h, rfl, hload⟩
  | null | leaf | extension | branch => contradiction

/-- What a node resolves to is no placeholder. -/
theorem resolve_ne_hash {n : Node} {m : { m : Node // m = n ∨ m.Advances }}
    (hm : source.resolve n = .ok m) (k : Hash) : m.val ≠ hash k := by
  cases n with
  | hash h => exact NodeSource.load_ne_hash (NodeSource.load_of_resolve hm)
  | null | leaf | extension | branch =>
    cases hm
    nofun

theorem lookup_hash_error {h : Hash} {e : TrieError} (he : source.load h = .error e)
    (path : Path) : (hash h).lookup source path = .error e := by
  rw [lookup, resolve_hash_error he]
  rfl

theorem insert_hash_error {h : Hash} {e : TrieError} (he : source.load h = .error e)
    (path : Path) (value : Bytes) : (hash h).insert source path value = .error e := by
  rw [insert, resolve_hash_error he]
  rfl

theorem remove_hash_error {h : Hash} {e : TrieError} (he : source.load h = .error e)
    (path : Path) : (hash h).remove source path = .error e := by
  rw [remove, resolve_hash_error he]
  rfl

/-! ## Failing lookups -/

/-- A lookup that fails met a placeholder that does not load. -/
theorem exists_load_of_lookup {node : Node} {path : Path} {e : TrieError}
    (h : node.lookup source path = .error e) : ∃ k, source.load k = .error e := by
  induction node, path using descent source with
  | null path => simp at h
  | leaf p v path => simp at h
  | extension p child path ih =>
    rw [lookup_extension] at h
    split at h
    · rename_i rest hrest
      exact ih rest (Path.after?_eq_some_iff.mp hrest) h
    · contradiction
  | branch_nil children v => simp at h
  | branch_cons children v i rest ih => exact ih (by simpa using h)
  | missing k e' path hload =>
    rw [lookup_hash_error hload] at h
    cases h
    exact ⟨k, hload⟩
  | loaded k n path hload ih => exact ih (by rwa [lookup_hash hload] at h)

/-- A lookup that fails fails on every longer path. -/
theorem lookup_append_error {node : Node} {path : Path} {e : TrieError}
    (h : node.lookup source path = .error e) (more : Path) :
    node.lookup source (path ++ more) = .error e := by
  induction node, path using descent source with
  | null path => simp at h
  | leaf p v path => simp at h
  | extension p child path ih =>
    rw [lookup_extension] at h
    split at h
    · rename_i rest hrest
      obtain rfl := Path.after?_eq_some_iff.mp hrest
      rw [lookup_extension, List.append_assoc, Path.after?_append]
      exact ih rest rfl h
    · contradiction
  | branch_nil children v => simp at h
  | branch_cons children v i rest ih =>
    rw [List.cons_append, lookup_branch_cons]
    exact ih (by simpa using h)
  | missing k e' path hload =>
    rw [lookup_hash_error hload] at h ⊢
    exact h
  | loaded k n path hload ih =>
    rw [lookup_hash hload] at h ⊢
    exact ih h

/-! ## Failing changes -/

/-- **An insertion fails exactly where a lookup fails,** with the same error. -/
theorem insert_eq_error_iff {node : Node} {path : Path} (value : Bytes) {e : TrieError} :
    node.insert source path value = .error e ↔ node.lookup source path = .error e := by
  induction node, path using descent source with
  | null path => simp
  | leaf p v path =>
    rw [insert_leaf, lookup_leaf]
    split <;> simp
  | extension p child path ih =>
    rw [lookup_extension]
    obtain ⟨rest, rfl⟩ | ⟨q, i, rest, b, rfl, rfl, hi⟩ := Path.follows_or_parts p path
    · rw [insert_extension_append, Path.after?_append, map_eq_error_iff]
      exact ih rest rfl
    · have hleft : Path.after? (q ++ i :: rest) (q ++ b) = none := by
        rw [Path.after?_eq_none_iff, List.prefix_append_right_inj]
        rintro ⟨c, rfl⟩
        exact hi rfl
      rw [insert_extension_of_parting q rest child value hi, hleft]
      simp
  | branch_nil children v => simp
  | branch_cons children v i rest ih =>
    rw [insert_branch_cons, lookup_branch_cons, map_eq_error_iff]
    exact ih
  | missing k e' path hload =>
    rw [insert_hash_error hload, lookup_hash_error hload]
    simp
  | loaded k n path hload ih =>
    rw [insert_hash hload, lookup_hash hload]
    exact ih

/-- What is left of a branch is no placeholder. -/
theorem collapse_ne_hash {children : Nibble → Node} {v : Option Bytes} {n : Node}
    (h : collapse source children v = .ok n) (k : Hash) : n ≠ hash k := by
  cases collapse_cases source children v with
  | empty _ hrun | value _ _ hrun | kept _ _ _ hrun =>
    cases hrun.symm.trans h
    nofun
  | joined i _ hrun =>
    obtain ⟨m, hm, rfl⟩ := exists_of_map_eq_ok (hrun.symm.trans h)
    exact prepend_ne_hash (resolve_ne_hash hm) [i] k

/-- What is left after a removal is no placeholder. -/
theorem remove_ne_hash {node n : Node} {path : Path} (h : node.remove source path = .ok n)
    (k : Hash) : n ≠ hash k := by
  induction node, path using descent source generalizing n k with
  | null path =>
    rw [remove_null] at h
    cases h
    nofun
  | leaf p v path =>
    rw [remove_leaf] at h
    split at h <;> cases h <;> nofun
  | extension p child path ih =>
    rw [remove_extension] at h
    split at h
    · rename_i rest hrest
      obtain ⟨m, hm, rfl⟩ := exists_of_map_eq_ok h
      exact prepend_ne_hash (ih rest (Path.after?_eq_some_iff.mp hrest) hm) p k
    · cases h
      nofun
  | branch_nil children v =>
    rw [remove_branch_nil] at h
    exact collapse_ne_hash h k
  | branch_cons children v i rest ih =>
    rw [remove_branch_cons] at h
    obtain ⟨m, -, hm⟩ := exists_of_bind_eq_ok h
    exact collapse_ne_hash hm k
  | missing k' e path hload =>
    rw [remove_hash_error hload] at h
    contradiction
  | loaded k' m path hload ih => exact ih (by rwa [remove_hash hload] at h) k

/-- A branch fails to collapse at its last child, a placeholder. -/
theorem exists_child_of_collapse {children : Nibble → Node} {v : Option Bytes} {e : TrieError}
    (h : collapse source children v = .error e) :
    ∃ i k, children i = hash k ∧ source.load k = .error e := by
  cases collapse_cases source children v with
  | empty _ hrun | value _ _ hrun | kept _ _ _ hrun => cases hrun.symm.trans h
  | joined i _ hrun =>
    rw [hrun, map_eq_error_iff] at h
    exact ⟨i, eq_hash_of_resolve h⟩

/-- A child that does not load fails the lookups through it. -/
theorem lookup_child_error {children : Nibble → Node} (v : Option Bytes) {i : Nibble} {k : Hash}
    {e : TrieError} (hi : children i = hash k) (he : source.load k = .error e) :
    (branch children v).lookup source [i] = .error e := by
  rw [lookup_branch_cons, hi, lookup_hash_error he]

/-- **A removal that fails leaves something unread:** there is a path, not always the
one to remove, whose lookup fails alike. -/
theorem exists_lookup_of_remove {node : Node} {path : Path} {e : TrieError}
    (h : node.remove source path = .error e) : ∃ q, node.lookup source q = .error e := by
  induction node, path using descent source with
  | null path => simp at h
  | leaf p v path => simp at h
  | extension p child path ih =>
    rw [remove_extension] at h
    split at h
    · rename_i rest hrest
      obtain ⟨q, hq⟩ := ih rest (Path.after?_eq_some_iff.mp hrest) (map_eq_error_iff.mp h)
      refine ⟨p ++ q, ?_⟩
      rw [lookup_extension, Path.after?_append]
      exact hq
    · contradiction
  | branch_nil children v =>
    rw [remove_branch_nil] at h
    obtain ⟨i, k, hi, hload⟩ := exists_child_of_collapse h
    exact ⟨[i], lookup_child_error v hi hload⟩
  | branch_cons children v i rest ih =>
    rw [remove_branch_cons] at h
    cases hchild : (children i).remove source rest with
    | error e' =>
      rw [hchild] at h
      cases h
      obtain ⟨q, hq⟩ := ih hchild
      exact ⟨i :: q, by rwa [lookup_branch_cons]⟩
    | ok c =>
      rw [hchild] at h
      obtain ⟨j, k, hj, hload⟩ := exists_child_of_collapse h
      -- the child that was changed is in memory, so it is a sibling that fails
      have hji : j ≠ i := by
        rintro rfl
        rw [setChild, if_pos rfl] at hj
        exact remove_ne_hash hchild k hj
      rw [setChild, if_neg hji] at hj
      exact ⟨[j], lookup_child_error v hj hload⟩
  | missing k e' path hload =>
    rw [remove_hash_error hload] at h
    cases h
    exact ⟨path, lookup_hash_error hload path⟩
  | loaded k n path hload ih =>
    rw [remove_hash hload] at h
    obtain ⟨q, hq⟩ := ih h
    exact ⟨q, by rwa [lookup_hash hload]⟩

/-- A removal fails wherever a lookup of its path does. -/
theorem remove_eq_error {node : Node} {path : Path} {e : TrieError}
    (h : node.lookup source path = .error e) : node.remove source path = .error e := by
  induction node, path using descent source with
  | null path => simp at h
  | leaf p v path => simp at h
  | extension p child path ih =>
    rw [lookup_extension] at h
    rw [remove_extension]
    split at h
    · rename_i rest hrest
      rw [ih rest (Path.after?_eq_some_iff.mp hrest) h]
      rfl
    · contradiction
  | branch_nil children v => simp at h
  | branch_cons children v i rest ih =>
    rw [remove_branch_cons, ih (by simpa using h)]
    rfl
  | missing k e' path hload =>
    rw [lookup_hash_error hload] at h
    cases h
    exact remove_hash_error hload path
  | loaded k n path hload ih =>
    rw [lookup_hash hload] at h
    rw [remove_hash hload, ih h]

end Node

namespace Trie

variable {source : NodeSource} {t : Trie} {e : TrieError}

/-- **A value cannot be put under a key exactly if the key cannot be read.** -/
theorem insert_eq_error_iff (key : Bytes) {value : Bytes} (hvalue : value ≠ []) :
    t.insert source key value = .error e ↔ t.get source key = .error e := by
  rw [insert, if_neg (by simpa using hvalue), get, ← Node.insert_eq_error_iff value]
  cases t.root.insert source (Path.ofBytes key) value <;> simp [bind, Except.bind, pure, Except.pure]

/-- A lookup that fails on a path fails for a key. -/
theorem exists_get_of_lookup {path : Path} (h : t.root.lookup source path = .error e) :
    ∃ key, t.get source key = .error e := by
  obtain ⟨more, heven⟩ : ∃ more : Path, (path ++ more).length % 2 = 0 := by
    rcases Nat.mod_two_eq_zero_or_one path.length with heven | hodd
    · exact ⟨[], by simpa using heven⟩
    · exact ⟨[0], by rw [List.length_append, List.length_singleton]; omega⟩
  refine ⟨Path.toBytes (path ++ more), ?_⟩
  rw [get, Path.ofBytes_toBytes heven]
  exact Node.lookup_append_error h more

/-- A key that cannot be removed leaves some key unread. -/
theorem exists_get_of_erase {key : Bytes} (h : t.erase source key = .error e) :
    ∃ k, t.get source k = .error e := by
  have hremove : t.root.remove source (Path.ofBytes key) = .error e := by
    unfold erase at h
    cases hr : t.root.remove source (Path.ofBytes key) <;>
      simp_all [bind, Except.bind, pure, Except.pure]
  obtain ⟨q, hq⟩ := Node.exists_lookup_of_remove hremove
  exact exists_get_of_lookup hq

/-- What fails is a key that cannot be read, be it put or removed. -/
theorem exists_get_of_insert {key value : Bytes} (h : t.insert source key value = .error e) :
    ∃ k, t.get source k = .error e := by
  by_cases hvalue : value = []
  · subst hvalue
    exact exists_get_of_erase h
  · exact ⟨key, (insert_eq_error_iff key hvalue).mp h⟩

theorem get_empty (key : Bytes) : empty.get source key = .ok none :=
  Node.lookup_null _

/-- What a change in place leaves behind when it fails. -/
theorem update_eq_error_iff {change : Trie → Except TrieError Trie} {t' : Trie} :
    update change t = .error e t' ↔ t' = empty ∧ change t = .error e := by
  unfold update
  cases change t <;> simp [eq_comm, and_comm]

/-- **A change that fails is not undone.**  Whatever the source lacks, a put or a
removal in place that fails leaves the trie without entries: it has the root hash
of the empty trie and answers nothing for every key.  A node did not load, and
before the change some key could not be read because of it; so the answers are not
those from before in any case. -/
theorem update_forgets {key value : Bytes} {t' : Trie}
    (h : update (·.insert source key value) t = .error e t' ∨
      update (·.erase source key) t = .error e t') :
    t' = empty ∧ t'.rootHash = Node.emptyHash ∧ (∀ source' k, t'.get source' k = .ok none) ∧
      (∃ k, source.load k = .error e) ∧ ∃ k, t.get source k = .error e := by
  obtain ⟨hempty, hget⟩ : t' = empty ∧ ∃ k, t.get source k = .error e := by
    rcases h with h | h
    · obtain ⟨hempty, hchange⟩ := update_eq_error_iff.mp h
      exact ⟨hempty, exists_get_of_insert hchange⟩
    · obtain ⟨hempty, hchange⟩ := update_eq_error_iff.mp h
      exact ⟨hempty, exists_get_of_erase hchange⟩
  subst hempty
  refine ⟨rfl, rootHash_empty, fun _ => get_empty, ?_, hget⟩
  obtain ⟨k, hk⟩ := hget
  exact Node.exists_load_of_lookup hk

/-- A trie with a value in memory beside a node that is missing. -/
def torn : Trie :=
  ⟨.branch (Node.setChild (Node.setChild (fun _ => .null) 0 (.leaf [1] [7])) 1 (.hash 5)) none⟩

/-- Removing the value would join the branch with the missing node; the value is
gone all the same. -/
theorem update_forgets_torn :
    torn.get .none [1] = .ok (some [7]) ∧
      update (·.erase .none [1]) torn = .error (.missingNode 5) empty ∧
      empty.rootHash = Node.emptyHash ∧ (∀ source' k, empty.get source' k = .ok none) ∧
      ∃ k, torn.get .none k = .error (.missingNode 5) := by
  have hget : torn.get .none [1] = .ok (some [7]) := by
    change (Node.branch _ none).lookup _ [0, 1] = _
    rw [Node.lookup_branch_cons]
    exact Node.lookup_leaf [1] [1] [7]
  have hupdate : update (·.erase .none [1]) torn = .error (.missingNode 5) empty := by
    have hmissing : NodeSource.none.load 5 = .error (.missingNode 5) := rfl
    have hremove : torn.root.remove .none [0, 1] = .error (.missingNode 5) := by
      rw [torn, Node.remove_branch_cons]
      change ((Node.leaf [1] [7]).remove _ [1]).bind _ = _
      rw [Node.remove_leaf, if_pos rfl]
      exact congrArg (· >>= _) (Node.resolve_hash_error hmissing)
    exact update_eq_error_iff.mpr ⟨rfl, congrArg (· >>= _) hremove⟩
  have hfails : update (·.insert .none [1] []) torn = .error (.missingNode 5) empty ∨
      update (·.erase .none [1]) torn = .error (.missingNode 5) empty := .inr hupdate
  obtain ⟨-, hroot, hnone, -, hlost⟩ := update_forgets hfails
  exact ⟨hget, hupdate, hroot, hnone, hlost⟩

end Trie
end Ethereum
