/-
# Which nodes an operation loads

A source is a function and nothing more: bytes need not match their hash, and nodes
may refer to each other in circles.  Here every operation on a trie is a relation
that follows it step by step and keeps the hashes of the nodes that it loads, in
order (`Looks`, `Inserts`, `Removes`).  The relations have no measure and no bound on
their depth, so that an operation has a run at all is what it means to end.

Every operation has a run, by the induction along a walk (`exists_looks` and its
like), and by induction on a run its result is that of the operation, and its loads
are few (`Looks.spec` and its like).  What is loaded uses up a step of the path before
the next node is loaded: it is no placeholder, and an extension in it has steps
(`NodeSource.advances_of_load`).  So a walk down loads one node for each step and one
more.  A removal resolves one sibling at most for each branch on its way back, and
there is one branch for each step and one where the path ends.

The hashes are all that a run knows of the source: it is a run on every other source
that has the same bytes under them (`Looks.congr` and its like).
-/

import Mathlib
import Ethereum.Proofs.Trie.Descending

namespace Ethereum

/-- A computation that reads a source ends there with few loads: it has a run, and
every run has the result of the computation, loads at most so many nodes, and loads
all that the result depends on. -/
def EndsWithin {α : Type} (runs : NodeSource → List Hash → α → Prop) (result : NodeSource → α)
    (source : NodeSource) (loads : Nat) : Prop :=
  (∃ hs, runs source hs (result source)) ∧ ∀ hs r, runs source hs r →
    r = result source ∧ hs.length ≤ loads ∧
      ∀ source' : NodeSource, (∀ k ∈ hs, source'.read k = source.read k) →
        result source' = result source

theorem NodeSource.load_congr {source source' : NodeSource} {h : Hash}
    (hread : source'.read h = source.read h) : source'.load h = source.load h := by
  rw [load, load, hread]

namespace Node

variable {source source' : NodeSource} {node : Node} {path : Path} {hs : List Hash}

/-! ## Lookups -/

/-- A lookup, with the hashes of the nodes that it loads. -/
inductive Looks (source : NodeSource) :
    Node → Path → List Hash → Except TrieError (Option Bytes) → Prop
  | null (path : Path) : Looks source null path [] (.ok none)
  | leaf (p path : Path) (v : Bytes) :
    Looks source (leaf p v) path [] (.ok (if p = path then some v else none))
  | left {p path : Path} (child : Node) (hleft : Path.after? p path = none) :
    Looks source (extension p child) path [] (.ok none)
  | followed {p path rest : Path} {child : Node} {hs : List Hash}
    {r : Except TrieError (Option Bytes)} (hrest : Path.after? p path = some rest)
    (below : Looks source child rest hs r) : Looks source (extension p child) path hs r
  | ended (children : Nibble → Node) (v : Option Bytes) :
    Looks source (branch children v) [] [] (.ok v)
  | descended {children : Nibble → Node} {i : Nibble} {rest : Path} {hs : List Hash}
    {r : Except TrieError (Option Bytes)} (v : Option Bytes)
    (below : Looks source (children i) rest hs r) :
    Looks source (branch children v) (i :: rest) hs r
  | missing {h : Hash} {e : TrieError} (path : Path) (load : source.load h = .error e) :
    Looks source (hash h) path [h] (.error e)
  | loaded {h : Hash} {n : Node} {path : Path} {hs : List Hash}
    {r : Except TrieError (Option Bytes)} (load : source.load h = .ok n)
    (below : Looks source n path hs r) : Looks source (hash h) path (h :: hs) r

/-- **A lookup ends.** -/
theorem exists_looks (source : NodeSource) (node : Node) (path : Path) :
    ∃ hs, Looks source node path hs (node.lookup source path) := by
  induction node, path using descent source with
  | null path => exact ⟨[], by rw [lookup_null]; exact .null path⟩
  | leaf p v path => exact ⟨[], by rw [lookup_leaf]; exact .leaf p path v⟩
  | extension p child path ih =>
    rw [lookup_extension]
    cases hafter : Path.after? p path with
    | none => exact ⟨[], .left child hafter⟩
    | some rest =>
      obtain ⟨hs, hrun⟩ := ih rest (Path.after?_eq_some_iff.mp hafter)
      exact ⟨hs, .followed hafter hrun⟩
  | branch_nil children v => exact ⟨[], by rw [lookup_branch_nil]; exact .ended children v⟩
  | branch_cons children v i rest ih =>
    obtain ⟨hs, hrun⟩ := ih
    exact ⟨hs, by rw [lookup_branch_cons]; exact .descended v hrun⟩
  | missing h e path hload =>
    exact ⟨[h], by rw [lookup_hash_error hload]; exact .missing path hload⟩
  | loaded h n path hload ih =>
    obtain ⟨hs, hrun⟩ := ih
    exact ⟨h :: hs, by rw [lookup_hash hload]; exact .loaded hload hrun⟩

/-- What follows the path of an extension is shorter, if the extension has steps. -/
theorem length_after {p rest : Path} (hrest : Path.after? p path = some rest) :
    rest.length ≤ path.length ∧ (p ≠ [] → rest.length + 1 ≤ path.length) := by
  rw [Path.after?_eq_some_iff] at hrest
  subst hrest
  rw [List.length_append]
  refine ⟨by omega, fun hp => ?_⟩
  have := List.length_pos_iff.mpr hp
  omega

/-- **What a run of a lookup is:** its result, and one load for each step of the path,
with one more where it starts at a placeholder. -/
theorem Looks.spec {r : Except TrieError (Option Bytes)} (h : Looks source node path hs r) :
    r = node.lookup source path ∧ hs.length ≤ path.length + 1 ∧
      (node.Advances → hs.length ≤ path.length) := by
  induction h with
  | null path => simp
  | leaf p path v => simp
  | left child hleft => simp [lookup_extension, hleft]
  | followed hrest below ih =>
    obtain ⟨hr, hlen, -⟩ := ih
    obtain ⟨hle, hlt⟩ := length_after hrest
    refine ⟨by rw [hr, lookup_extension, hrest], by omega, fun hp => ?_⟩
    have := hlt hp
    omega
  | ended children v => simp
  | descended v below ih =>
    obtain ⟨hr, hlen, -⟩ := ih
    refine ⟨by rw [hr, lookup_branch_cons], ?_, fun _ => ?_⟩ <;> rw [List.length_cons] <;> omega
  | missing path load => exact ⟨(lookup_hash_error load path).symm, by simp, False.elim⟩
  | @loaded h n path hs r load below ih =>
    obtain ⟨hr, -, hadv⟩ := ih
    have := hadv (NodeSource.advances_of_load load)
    refine ⟨by rw [hr, lookup_hash load], ?_, False.elim⟩
    rw [List.length_cons]
    omega

/-- Nodes that lead in a circle are loaded once for each step of the path, and once
more. -/
theorem looks_circle {h : Hash} (hload : source.load h = .ok (branch (fun _ => hash h) none))
    (path : Path) :
    Looks source (hash h) path (List.replicate (path.length + 1) h) (.ok none) := by
  induction path with
  | nil => exact .loaded hload (.ended _ none)
  | cons i rest ih => exact .loaded hload (.descended none ih)

/-- A run of a lookup knows nothing of the source but what it loads. -/
theorem Looks.congr {r : Except TrieError (Option Bytes)} (h : Looks source node path hs r)
    (hread : ∀ k ∈ hs, source'.read k = source.read k) : Looks source' node path hs r := by
  induction h with
  | null path => exact .null path
  | leaf p path v => exact .leaf p path v
  | left child hleft => exact .left child hleft
  | followed hrest below ih => exact .followed hrest (ih hread)
  | ended children v => exact .ended children v
  | descended v below ih => exact .descended v (ih hread)
  | missing path load =>
    exact .missing path ((NodeSource.load_congr (hread _ (by simp))).trans load)
  | loaded load below ih =>
    exact .loaded ((NodeSource.load_congr (hread _ (by simp))).trans load)
      (ih fun k hk => hread k (List.mem_cons_of_mem _ hk))

/-! ## Insertion -/

/-- An insertion, with the hashes of the nodes that it loads. -/
inductive Inserts (source : NodeSource) (value : Bytes) :
    Node → Path → List Hash → Except TrieError Node → Prop
  | null (path : Path) : Inserts source value null path [] (.ok (leaf path value))
  | replaced (p : Path) (v : Bytes) : Inserts source value (leaf p v) p [] (.ok (leaf p value))
  | split {p path : Path} (v : Bytes) (hne : p ≠ path) :
    Inserts source value (leaf p v) path []
      (.ok (wrap (path.take (Path.commonLength p path))
        (place (path.drop (Path.commonLength p path)) value
          (place (p.drop (Path.commonLength p path)) v emptyBranch))))
  | forked {p path rest : Path} {i : Nibble} (child : Node)
    (hdrop : p.drop (Path.commonLength p path) = i :: rest) :
    Inserts source value (extension p child) path []
      (.ok (wrap (path.take (Path.commonLength p path))
        (place (path.drop (Path.commonLength p path)) value
          (branch (setChild (fun _ => null) i (wrap rest child)) none))))
  | followed {p path : Path} {child : Node} {hs : List Hash} {r : Except TrieError Node}
    (hdrop : p.drop (Path.commonLength p path) = [])
    (below : Inserts source value child (path.drop (Path.commonLength p path)) hs r) :
    Inserts source value (extension p child) path hs (r.map (extension p))
  | ended (children : Nibble → Node) (v : Option Bytes) :
    Inserts source value (branch children v) [] [] (.ok (branch children (some value)))
  | descended {children : Nibble → Node} {i : Nibble} {rest : Path} {hs : List Hash}
    {r : Except TrieError Node} (v : Option Bytes)
    (below : Inserts source value (children i) rest hs r) :
    Inserts source value (branch children v) (i :: rest) hs
      (r.map fun c => branch (setChild children i c) v)
  | missing {h : Hash} {e : TrieError} (path : Path) (load : source.load h = .error e) :
    Inserts source value (hash h) path [h] (.error e)
  | loaded {h : Hash} {n : Node} {path : Path} {hs : List Hash} {r : Except TrieError Node}
    (load : source.load h = .ok n) (below : Inserts source value n path hs r) :
    Inserts source value (hash h) path (h :: hs) r

/-- What is left to insert below an extension that is followed to its end. -/
theorem eq_append_drop_commonLength {p : Path} (hdrop : p.drop (Path.commonLength p path) = []) :
    path = p ++ path.drop (Path.commonLength p path) := by
  obtain ⟨rest, rfl⟩ | ⟨q, i, rest, b, rfl, rfl, hi⟩ := Path.follows_or_parts p path
  · rw [Path.commonLength_append_self, List.drop_left]
  · rw [Path.commonLength_of_parting q (a := i :: rest) hi, List.drop_left] at hdrop
    contradiction

/-- **An insertion ends.** -/
theorem exists_inserts (source : NodeSource) (value : Bytes) (node : Node) (path : Path) :
    ∃ hs, Inserts source value node path hs (node.insert source path value) := by
  induction node, path using descent source with
  | null path => exact ⟨[], by rw [insert_null]; exact .null path⟩
  | leaf p v path =>
    rw [insert_leaf]
    split_ifs with heq
    · subst heq
      exact ⟨[], .replaced p v⟩
    · exact ⟨[], .split v heq⟩
  | extension p child path ih =>
    cases hdrop : p.drop (Path.commonLength p path) with
    | nil =>
      obtain ⟨hs, hrun⟩ := ih _ (eq_append_drop_commonLength hdrop)
      rw [insert_extension_of_drop_eq_nil child value hdrop]
      exact ⟨hs, .followed hdrop hrun⟩
    | cons i rest =>
      rw [insert_extension_of_drop_eq_cons child value hdrop]
      exact ⟨[], .forked child hdrop⟩
  | branch_nil children v => exact ⟨[], by rw [insert_branch_nil]; exact .ended children v⟩
  | branch_cons children v i rest ih =>
    obtain ⟨hs, hrun⟩ := ih
    exact ⟨hs, by rw [insert_branch_cons]; exact .descended v hrun⟩
  | missing h e path hload =>
    exact ⟨[h], by rw [insert_hash_error hload]; exact .missing path hload⟩
  | loaded h n path hload ih =>
    obtain ⟨hs, hrun⟩ := ih
    exact ⟨h :: hs, by rw [insert_hash hload]; exact .loaded hload hrun⟩

/-- **What a run of an insertion is:** its result, with as many loads as a lookup. -/
theorem Inserts.spec {value : Bytes} {r : Except TrieError Node}
    (h : Inserts source value node path hs r) :
    r = node.insert source path value ∧ hs.length ≤ path.length + 1 ∧
      (node.Advances → hs.length ≤ path.length) := by
  induction h with
  | null path => simp
  | replaced p v => simp [insert_leaf]
  | split v hne => simp [insert_leaf, hne]
  | forked child hdrop => simp [insert_extension_of_drop_eq_cons child value hdrop]
  | @followed p path child hs r hdrop below ih =>
    obtain ⟨hr, hlen, -⟩ := ih
    obtain ⟨hle, hlt⟩ := length_after
      (Path.after?_eq_some_iff.mpr (eq_append_drop_commonLength hdrop))
    refine ⟨by rw [hr, insert_extension_of_drop_eq_nil child value hdrop], by omega, fun hp => ?_⟩
    have := hlt hp
    omega
  | ended children v => simp
  | descended v below ih =>
    obtain ⟨hr, hlen, -⟩ := ih
    refine ⟨by rw [hr, insert_branch_cons], ?_, fun _ => ?_⟩ <;> rw [List.length_cons] <;> omega
  | missing path load => exact ⟨(insert_hash_error load path value).symm, by simp, False.elim⟩
  | loaded load below ih =>
    obtain ⟨hr, -, hadv⟩ := ih
    have := hadv (NodeSource.advances_of_load load)
    refine ⟨by rw [hr, insert_hash load], ?_, False.elim⟩
    rw [List.length_cons]
    omega

/-- A run of an insertion knows nothing of the source but what it loads. -/
theorem Inserts.congr {value : Bytes} {r : Except TrieError Node}
    (h : Inserts source value node path hs r)
    (hread : ∀ k ∈ hs, source'.read k = source.read k) :
    Inserts source' value node path hs r := by
  induction h with
  | null path => exact .null path
  | replaced p v => exact .replaced p v
  | split v hne => exact .split v hne
  | forked child hdrop => exact .forked child hdrop
  | followed hdrop below ih => exact .followed hdrop (ih hread)
  | ended children v => exact .ended children v
  | descended v below ih => exact .descended v (ih hread)
  | missing path load =>
    exact .missing path ((NodeSource.load_congr (hread _ (by simp))).trans load)
  | loaded load below ih =>
    exact .loaded ((NodeSource.load_congr (hread _ (by simp))).trans load)
      (ih fun k hk => hread k (List.mem_cons_of_mem _ hk))

/-! ## Removal -/

/-- The replacement of a placeholder by what it stands for, with what it loads. -/
inductive Resolves (source : NodeSource) : Node → List Hash → Except TrieError Node → Prop
  | held {n : Node} (hn : ∀ h, n ≠ hash h) : Resolves source n [] (.ok n)
  | load (h : Hash) : Resolves source (hash h) [h] (source.load h)

/-- The slots of a branch that have a child. -/
def standing (children : Nibble → Node) : List Nibble :=
  (List.finRange 16).filter fun i => !(children i).isNull

/-- What takes the place of a branch, with the hashes of the nodes that are loaded. -/
inductive Collapses (source : NodeSource) :
    (Nibble → Node) → Option Bytes → List Hash → Except TrieError Node → Prop
  | empty {children : Nibble → Node} (hnone : standing children = []) :
    Collapses source children none [] (.ok null)
  | value {children : Nibble → Node} (v : Bytes) (hnone : standing children = []) :
    Collapses source children (some v) [] (.ok (leaf [] v))
  | joined {children : Nibble → Node} {i : Nibble} {hs : List Hash}
    {r : Except TrieError Node} (hone : standing children = [i])
    (child : Resolves source (children i) hs r) :
    Collapses source children none hs (r.map (prepend [i]))
  | kept {children : Nibble → Node} {v : Option Bytes}
    (hmore : 2 ≤ (standing children).length ∨ (standing children).length = 1 ∧ v ≠ none) :
    Collapses source children v [] (.ok (branch children v))

/-- A removal, with the hashes of the nodes that it loads. -/
inductive Removes (source : NodeSource) : Node → Path → List Hash → Except TrieError Node → Prop
  | null (path : Path) : Removes source null path [] (.ok null)
  | leaf (p path : Path) (v : Bytes) :
    Removes source (leaf p v) path [] (.ok (if p = path then null else leaf p v))
  | left {p path : Path} (child : Node) (hleft : Path.after? p path = none) :
    Removes source (extension p child) path [] (.ok (extension p child))
  | followed {p path rest : Path} {child : Node} {hs : List Hash} {r : Except TrieError Node}
    (hrest : Path.after? p path = some rest) (below : Removes source child rest hs r) :
    Removes source (extension p child) path hs (r.map (prepend p))
  | ended {children : Nibble → Node} {hs : List Hash} {r : Except TrieError Node}
    (v : Option Bytes) (up : Collapses source children none hs r) :
    Removes source (branch children v) [] hs r
  | stuck {children : Nibble → Node} {i : Nibble} {rest : Path} {hs : List Hash} {e : TrieError}
    (v : Option Bytes) (below : Removes source (children i) rest hs (.error e)) :
    Removes source (branch children v) (i :: rest) hs (.error e)
  | descended {children : Nibble → Node} {i : Nibble} {rest : Path} {hs hs' : List Hash}
    {c : Node} {v : Option Bytes} {r : Except TrieError Node}
    (below : Removes source (children i) rest hs (.ok c))
    (up : Collapses source (setChild children i c) v hs' r) :
    Removes source (branch children v) (i :: rest) (hs ++ hs') r
  | missing {h : Hash} {e : TrieError} (path : Path) (load : source.load h = .error e) :
    Removes source (hash h) path [h] (.error e)
  | loaded {h : Hash} {n : Node} {path : Path} {hs : List Hash} {r : Except TrieError Node}
    (load : source.load h = .ok n) (below : Removes source n path hs r) :
    Removes source (hash h) path (h :: hs) r

theorem exists_resolves (source : NodeSource) (node : Node) :
    ∃ hs, Resolves source node hs ((source.resolve node).map fun m => m.val) := by
  rcases node.hash_or_ne_hash with ⟨h, rfl⟩ | hn
  · refine ⟨[h], ?_⟩
    have hrun : Resolves source (hash h) [h] (source.load h) := .load h
    cases hload : source.load h with
    | error e => rwa [resolve_hash_error hload, Except.map, ← hload]
    | ok n => rwa [NodeSource.resolve_hash hload, Except.map, ← hload]
  · refine ⟨[], ?_⟩
    have hrun : Resolves source node [] (.ok node) := .held hn
    cases node with
    | hash h => exact absurd rfl (hn h)
    | _ => exact hrun

theorem Resolves.spec {r : Except TrieError Node} (h : Resolves source node hs r) :
    r = (source.resolve node).map (fun m => m.val) ∧ hs.length ≤ 1 := by
  cases h with
  | held hn =>
    cases node with
    | hash h => exact absurd rfl (hn h)
    | _ => exact ⟨rfl, by simp⟩
  | load h =>
    refine ⟨?_, by simp⟩
    cases hload : source.load h with
    | error e => rw [resolve_hash_error hload]; rfl
    | ok n => rw [NodeSource.resolve_hash hload]; rfl

theorem Resolves.congr {r : Except TrieError Node} (h : Resolves source node hs r)
    (hread : ∀ k ∈ hs, source'.read k = source.read k) : Resolves source' node hs r := by
  cases h with
  | held hn => exact .held hn
  | load h =>
    rw [← NodeSource.load_congr (hread h (by simp))]
    exact .load h

theorem collapse_eq (source : NodeSource) (children : Nibble → Node) (v : Option Bytes) :
    collapse source children v =
      match standing children, v with
      | [], none => .ok null
      | [], some v => .ok (leaf [] v)
      | [i], none => (source.resolve (children i)).map fun m => prepend [i] m.val
      | _, v => .ok (branch children v) := by
  unfold collapse standing
  generalize (List.finRange 16).filter (fun i => !(children i).isNull) = left
  rcases left with _ | ⟨i, _ | ⟨j, more⟩⟩ <;> cases v <;> rfl

theorem map_prepend_resolve (source : NodeSource) (p : Path) (n : Node) :
    ((source.resolve n).map fun m => m.val).map (prepend p) =
      (source.resolve n).map fun m => prepend p m.val := by
  cases source.resolve n <;> rfl

/-- **A branch gives way in one run.** -/
theorem exists_collapses (source : NodeSource) (children : Nibble → Node) (v : Option Bytes) :
    ∃ hs, Collapses source children v hs (collapse source children v) := by
  rw [collapse_eq]
  rcases hstanding : standing children with _ | ⟨i, _ | ⟨j, more⟩⟩
  · cases v with
    | none => exact ⟨[], .empty hstanding⟩
    | some v => exact ⟨[], .value v hstanding⟩
  · cases v with
    | none =>
      obtain ⟨hs, hrun⟩ := exists_resolves source (children i)
      have hjoined := Collapses.joined hstanding hrun
      rw [map_prepend_resolve] at hjoined
      exact ⟨hs, hjoined⟩
    | some v => exact ⟨[], .kept (.inr ⟨by rw [hstanding]; rfl, nofun⟩)⟩
  · exact ⟨[], .kept (.inl (by simp [hstanding]))⟩

theorem Collapses.spec {children : Nibble → Node} {v : Option Bytes} {r : Except TrieError Node}
    (h : Collapses source children v hs r) :
    r = collapse source children v ∧ hs.length ≤ 1 := by
  rw [collapse_eq]
  cases h with
  | empty hnone => simp [hnone]
  | value v hnone => simp [hnone]
  | joined hone child =>
    obtain ⟨rfl, hlen⟩ := child.spec
    exact ⟨by rw [hone, map_prepend_resolve], hlen⟩
  | kept hmore =>
    refine ⟨?_, by simp⟩
    split
    · rename_i hnone
      simp [hnone] at hmore
    · rename_i hnone
      simp [hnone] at hmore
    · rename_i hone
      simp [hone] at hmore
    · rfl

theorem Collapses.congr {children : Nibble → Node} {v : Option Bytes} {r : Except TrieError Node}
    (h : Collapses source children v hs r)
    (hread : ∀ k ∈ hs, source'.read k = source.read k) : Collapses source' children v hs r := by
  cases h with
  | empty hnone => exact .empty hnone
  | value v hnone => exact .value v hnone
  | joined hone child => exact .joined hone (child.congr hread)
  | kept hmore => exact .kept hmore

/-- **A removal ends.** -/
theorem exists_removes (source : NodeSource) (node : Node) (path : Path) :
    ∃ hs, Removes source node path hs (node.remove source path) := by
  induction node, path using descent source with
  | null path => exact ⟨[], by rw [remove_null]; exact .null path⟩
  | leaf p v path => exact ⟨[], by rw [remove_leaf]; exact .leaf p path v⟩
  | extension p child path ih =>
    rw [remove_extension]
    cases hafter : Path.after? p path with
    | none => exact ⟨[], .left child hafter⟩
    | some rest =>
      obtain ⟨hs, hrun⟩ := ih rest (Path.after?_eq_some_iff.mp hafter)
      exact ⟨hs, .followed hafter hrun⟩
  | branch_nil children v =>
    obtain ⟨hs, hrun⟩ := exists_collapses source children none
    exact ⟨hs, by rw [remove_branch_nil]; exact .ended v hrun⟩
  | branch_cons children v i rest ih =>
    obtain ⟨hs, hrun⟩ := ih
    rw [remove_branch_cons]
    cases hchild : (children i).remove source rest with
    | error e => exact ⟨hs, .stuck v (hchild ▸ hrun)⟩
    | ok c =>
      obtain ⟨hs', hup⟩ := exists_collapses source (setChild children i c) v
      exact ⟨hs ++ hs', .descended (hchild ▸ hrun) hup⟩
  | missing h e path hload =>
    exact ⟨[h], by rw [remove_hash_error hload]; exact .missing path hload⟩
  | loaded h n path hload ih =>
    obtain ⟨hs, hrun⟩ := ih
    exact ⟨h :: hs, by rw [remove_hash hload]; exact .loaded hload hrun⟩

/-- **What a run of a removal is:** its result, and two loads at most for each step of
the path, one on the way down and one on the way back. -/
theorem Removes.spec {r : Except TrieError Node} (h : Removes source node path hs r) :
    r = node.remove source path ∧ hs.length ≤ 2 * path.length + 2 ∧
      (node.Advances → hs.length ≤ 2 * path.length + 1) := by
  -- one load for each step at most, and one for the last child of each branch that collapses
  induction h with
  | null path => simp
  | leaf p path v => simp
  | left child hleft => simp [remove_extension, hleft]
  | followed hrest below ih =>
    obtain ⟨hr, hlen, -⟩ := ih
    obtain ⟨hle, hlt⟩ := length_after hrest
    refine ⟨by rw [hr, remove_extension, hrest], by omega, fun hp => ?_⟩
    have := hlt hp
    omega
  | ended v up =>
    obtain ⟨hr, hlen⟩ := up.spec
    refine ⟨by rw [hr, remove_branch_nil], ?_, fun _ => ?_⟩ <;> rw [List.length_nil] <;> omega
  | stuck v below ih =>
    obtain ⟨hr, hlen, -⟩ := ih
    refine ⟨by rw [remove_branch_cons, ← hr]; rfl, ?_, fun _ => ?_⟩ <;>
      rw [List.length_cons] <;> omega
  | descended below up ih =>
    obtain ⟨hr, hlen, -⟩ := ih
    obtain ⟨hr', hlen'⟩ := up.spec
    refine ⟨by rw [hr', remove_branch_cons, ← hr]; rfl, ?_, fun _ => ?_⟩ <;>
      rw [List.length_append, List.length_cons] <;> omega
  | missing path load => exact ⟨(remove_hash_error load path).symm, by simp, False.elim⟩
  | loaded load below ih =>
    obtain ⟨hr, -, hadv⟩ := ih
    have := hadv (NodeSource.advances_of_load load)
    refine ⟨by rw [hr, remove_hash load], ?_, False.elim⟩
    rw [List.length_cons]
    omega

/-- A run of a removal knows nothing of the source but what it loads. -/
theorem Removes.congr {r : Except TrieError Node} (h : Removes source node path hs r)
    (hread : ∀ k ∈ hs, source'.read k = source.read k) : Removes source' node path hs r := by
  induction h with
  | null path => exact .null path
  | leaf p path v => exact .leaf p path v
  | left child hleft => exact .left child hleft
  | followed hrest below ih => exact .followed hrest (ih hread)
  | ended v up => exact .ended v (up.congr hread)
  | stuck v below ih => exact .stuck v (ih hread)
  | descended below up ih =>
    exact .descended (ih fun k hk => hread k (List.mem_append_left _ hk))
      (up.congr fun k hk => hread k (List.mem_append_right _ hk))
  | missing path load =>
    exact .missing path ((NodeSource.load_congr (hread _ (by simp))).trans load)
  | loaded load below ih =>
    exact .loaded ((NodeSource.load_congr (hread _ (by simp))).trans load)
      (ih fun k hk => hread k (List.mem_cons_of_mem _ hk))

end Node

/-! ## Operations on a trie -/

namespace Trie

variable {source : NodeSource} {value : Bytes}

/-- Reading the value under a key. -/
inductive Gets (t : Trie) (key : Bytes) (source : NodeSource) :
    List Hash → Except TrieError (Option Bytes) → Prop
  | walk {hs : List Hash} {r : Except TrieError (Option Bytes)}
    (h : t.root.Looks source (Path.ofBytes key) hs r) : Gets t key source hs r

/-- Removing a key. -/
inductive Erases (t : Trie) (key : Bytes) (source : NodeSource) :
    List Hash → Except TrieError Trie → Prop
  | walk {hs : List Hash} {r : Except TrieError Node}
    (h : t.root.Removes source (Path.ofBytes key) hs r) : Erases t key source hs (r.map mk)

/-- Putting a value under a key; an empty value removes the key. -/
inductive Puts (t : Trie) (key value : Bytes) (source : NodeSource) :
    List Hash → Except TrieError Trie → Prop
  | removal {hs : List Hash} {r : Except TrieError Trie} (hvalue : value = [])
    (h : Erases t key source hs r) : Puts t key value source hs r
  | walk {hs : List Hash} {r : Except TrieError Node} (hvalue : value ≠ [])
    (h : t.root.Inserts source value (Path.ofBytes key) hs r) :
    Puts t key value source hs (r.map mk)

theorem erase_eq_map (source : NodeSource) (t : Trie) (key : Bytes) :
    t.erase source key = (t.root.remove source (Path.ofBytes key)).map mk := by
  rw [erase]
  cases t.root.remove source (Path.ofBytes key) <;> rfl

theorem insert_eq_map (source : NodeSource) (t : Trie) (key : Bytes) (hvalue : value ≠ []) :
    t.insert source key value =
      (t.root.insert source (Path.ofBytes key) value).map mk := by
  rw [insert, if_neg (by simpa using hvalue)]
  cases t.root.insert source (Path.ofBytes key) value <;> rfl

theorem ends_get (source : NodeSource) (t : Trie) (key : Bytes) :
    EndsWithin (t.Gets key) (t.get · key) source (2 * key.length + 1) := by
  constructor
  · obtain ⟨hs, hrun⟩ := Node.exists_looks source t.root (Path.ofBytes key)
    exact ⟨hs, .walk hrun⟩
  · rintro hs r ⟨hrun⟩
    obtain ⟨hr, hlen, -⟩ := hrun.spec
    rw [Path.length_ofBytes] at hlen
    exact ⟨hr, hlen, fun source' hread => (hrun.congr hread).spec.1.symm.trans hr⟩

theorem ends_erase (source : NodeSource) (t : Trie) (key : Bytes) :
    EndsWithin (t.Erases key) (t.erase · key) source (2 * (2 * key.length) + 2) := by
  simp only [EndsWithin, erase_eq_map]
  constructor
  · obtain ⟨hs, hrun⟩ := Node.exists_removes source t.root (Path.ofBytes key)
    exact ⟨hs, .walk hrun⟩
  · rintro hs r ⟨hrun⟩
    obtain ⟨hr, hlen, -⟩ := hrun.spec
    rw [Path.length_ofBytes] at hlen
    refine ⟨by rw [hr], hlen, fun source' hread => ?_⟩
    rw [← (hrun.congr hread).spec.1, hr]

theorem ends_insert (source : NodeSource) (t : Trie) (key : Bytes) (hvalue : value ≠ []) :
    EndsWithin (t.Puts key value) (t.insert · key value) source (2 * key.length + 1) := by
  simp only [EndsWithin, insert_eq_map _ t key hvalue]
  constructor
  · obtain ⟨hs, hrun⟩ := Node.exists_inserts source value t.root (Path.ofBytes key)
    exact ⟨hs, .walk hvalue hrun⟩
  · rintro hs r (⟨hempty, -⟩ | ⟨-, hrun⟩)
    · exact absurd hempty hvalue
    · obtain ⟨hr, hlen, -⟩ := hrun.spec
      rw [Path.length_ofBytes] at hlen
      refine ⟨by rw [hr], hlen, fun source' hread => ?_⟩
      rw [← (hrun.congr hread).spec.1, hr]

theorem ends_insert_nil (source : NodeSource) (t : Trie) (key : Bytes) :
    EndsWithin (t.Puts key []) (t.insert · key []) source (2 * (2 * key.length) + 2) := by
  obtain ⟨⟨hs, hrun⟩, hall⟩ := ends_erase source t key
  constructor
  · exact ⟨hs, .removal rfl hrun⟩
  · rintro hs r (⟨-, hrun⟩ | ⟨hne, -⟩)
    · exact hall hs r hrun
    · exact absurd rfl hne

/-- **Operations on a trie end on every source.**  Opened at any hash, whatever the
source has under it and elsewhere, the trie answers or tells why not.  Reading a key,
and putting a value that is not empty, load at most one node for each nibble of the
key and one more; removing a key, also by an empty value, loads at most twice as
many. -/
theorem ofRoot_ends (source : NodeSource) (root : Hash) (key value : Bytes) :
    EndsWithin ((ofRoot root).Gets key) ((ofRoot root).get · key) source
        (2 * key.length + 1) ∧
      (value ≠ [] → EndsWithin ((ofRoot root).Puts key value)
        ((ofRoot root).insert · key value) source (2 * key.length + 1)) ∧
      EndsWithin ((ofRoot root).Puts key []) ((ofRoot root).insert · key []) source
        (2 * (2 * key.length) + 2) ∧
      EndsWithin ((ofRoot root).Erases key) ((ofRoot root).erase · key) source
        (2 * (2 * key.length) + 2) :=
  ⟨ends_get source _ key, ends_insert source _ key, ends_insert_nil source _ key,
    ends_erase source _ key⟩

end Trie
end Ethereum
