/-
# Changing a node changes one entry

`Holds source P node f` says that `node` unfolds to the canonical node with the
entries `f`.  Insertion and removal succeed on such a node and give one that
holds the entries with that single one changed (`Unfolds.insert`,
`Unfolds.remove`), whichever placeholders they meet.

The helpers of both are read as changes of entries first: a node behind a path
(`find_wrap`, `find_prepend`), an entry put into a branch (`find_place`), a child
replaced (`find_setChild`), and a branch with few entries left (`Unfolds.collapse`).
-/

import Mathlib
import Ethereum.Proofs.Trie.Unfolding

namespace Ethereum
namespace Node

/-! ## Entries of rebuilt nodes -/

theorem find_null_eq : null.find = fun _ => none :=
  funext find_null

theorem find_leaf_eq (p : Path) (value : Bytes) :
    (leaf p value).find = Function.update (fun _ => none) p (some value) := by
  funext path
  rw [find_leaf, Function.update_apply]
  exact if_congr eq_comm rfl rfl

theorem find_wrap (p : Path) (n : Node) : (wrap p n).find = Path.under p n.find := by
  unfold wrap
  split
  · rename_i hp
    rw [hp, Path.under_nil]
  · exact find_extension p n

theorem find_prepend (p : Path) {n : Node} (hn : ∀ h, n ≠ hash h) :
    (prepend p n).find = Path.under p n.find := by
  cases n with
  | null => rw [prepend, find_null_eq, Path.under_none]
  | leaf q v => rw [prepend, find_leaf_eq, find_leaf_eq, Path.under_update, Path.under_none]
  | extension q c => rw [prepend, find_extension, find_extension, Path.under_under]
  | branch cs v => exact find_wrap p _
  | hash h => exact absurd rfl (hn h)

/-- A changed child is a changed entry behind its step. -/
theorem find_setChild {children : Nibble → Node} {i : Nibble} {child : Node} {rest : Path}
    {w : Option Bytes} (v : Option Bytes)
    (h : child.find = Function.update (children i).find rest w) :
    (branch (setChild children i child) v).find =
      Function.update (branch children v).find (i :: rest) w := by
  funext path
  rcases path with _ | ⟨j, path⟩
  · rw [Function.update_of_ne (by simp), find_branch_nil, find_branch_nil]
  · rw [find_branch_cons, setChild]
    by_cases hj : j = i
    · subst hj
      rw [if_pos rfl, h]
      by_cases hp : path = rest
      · rw [hp, Function.update_self, Function.update_self]
      · rw [Function.update_of_ne hp, Function.update_of_ne (by simpa using hp), find_branch_cons]
    · rw [if_neg hj, Function.update_of_ne (by simp [hj]), find_branch_cons]

theorem find_setValue (children : Nibble → Node) (v w : Option Bytes) :
    (branch children w).find = Function.update (branch children v).find [] w := by
  funext path
  rcases path with _ | ⟨j, path⟩
  · rw [Function.update_self, find_branch_nil]
  · rw [Function.update_of_ne (by simp), find_branch_cons, find_branch_cons]

theorem find_emptyBranch : emptyBranch.find = fun _ => none := by
  funext path
  cases path with
  | nil => exact find_branch_nil _ _
  | cons i rest => exact (find_branch_cons _ _ i rest).trans (find_null rest)

theorem find_place {children : Nibble → Node} {v : Option Bytes} {path : Path} (value : Bytes)
    (h : ∀ i, path.head? = some i → children i = null) :
    (place path value (branch children v)).find =
      Function.update (branch children v).find path (some value) := by
  cases path with
  | nil => exact find_setValue children v (some value)
  | cons i rest =>
    rw [place, branchOf_eq]
    refine find_setChild v ?_
    rw [h i rfl, find_null_eq, find_leaf_eq]

/-! ## Shape of rebuilt nodes -/

theorem Proper.wrap {n : Node} (h : n.Proper) (hb : n.isBranch) (p : Path) :
    (Node.wrap p n).Proper := by
  unfold Node.wrap
  split
  · exact h
  · rename_i hp
    exact ⟨hp, hb, h⟩

theorem Canonical.prepend {n : Node} (h : n.Canonical) (p : Path) : (Node.prepend p n).Canonical := by
  cases n with
  | null => exact .null
  | leaf q v => exact Proper.canonical (h (by simp) : v ≠ [])
  | extension q c =>
    obtain ⟨hq, hb, hc⟩ := h (by simp)
    exact Proper.canonical ⟨by simp [hq], hb, hc⟩
  | branch cs v => exact ((h (by simp)).wrap rfl p).canonical
  | hash k => exact absurd (h (by simp)) id

/-- What holds of all children and of a new one holds of all afterwards. -/
theorem forall_setChild {Q : Node → Prop} {children : Nibble → Node} (h : ∀ i, Q (children i))
    (i : Nibble) {child : Node} (hc : Q child) (j : Nibble) : Q (setChild children i child j) := by
  unfold setChild
  split
  · exact hc
  · exact h j

theorem Occupied.setChild {children : Nibble → Node} {v : Option Bytes} {s : Option Nibble}
    (h : Occupied children v s) (i : Nibble) {child : Node} (hc : child ≠ null) :
    Occupied (Node.setChild children i child) v s := by
  rcases s with _ | j
  · exact h
  · rw [Occupied, Node.setChild]
    split
    · exact hc
    · exact h

theorem Occupied.setValue {children : Nibble → Node} {v : Option Bytes} {s : Option Nibble}
    (h : Occupied children v s) (value : Bytes) : Occupied children (some value) s := by
  rcases s with _ | j
  · exact Option.some_ne_none value
  · exact h

/-- Placing an entry occupies its slot and no other. -/
theorem exists_place {Q : Node → Prop} (children : Nibble → Node) (v : Option Bytes) (path : Path)
    {value : Bytes} (hv : value ≠ []) (hleaf : ∀ rest, Q (leaf rest value))
    (hc : ∀ i, Q (children i)) (hne : v ≠ some []) :
    ∃ children' v', place path value (branch children v) = branch children' v' ∧
      (∀ i, Q (children' i)) ∧ v' ≠ some [] ∧
      ∀ s, Occupied children' v' s ↔ s = path.head? ∨ Occupied children v s := by
  cases path with
  | nil =>
    refine ⟨children, some value, rfl, hc, by simpa using hv, ?_⟩
    intro s
    rcases s with _ | i <;> simp [Occupied]
  | cons i rest =>
    refine ⟨_, v, branchOf_eq _ _, forall_setChild hc i (hleaf rest), hne, ?_⟩
    intro s
    rcases s with _ | j
    · simp [Occupied]
    · by_cases hj : j = i <;> simp [Occupied, setChild, hj]

/-- Two occupied slots make a proper branch. -/
theorem proper_place {children : Nibble → Node} {v : Option Bytes} (path : Path) {value : Bytes}
    (hv : value ≠ []) (hc : ∀ i, (children i).Canonical) (hne : v ≠ some []) {s : Option Nibble}
    (hs : Occupied children v s) (hp : s ≠ path.head?) :
    (place path value (branch children v)).Proper ∧
      (place path value (branch children v)).isBranch := by
  obtain ⟨children', v', heq, hc', hne', hocc⟩ :=
    exists_place children v path hv (fun _ => Proper.canonical hv) hc hne
  rw [heq]
  exact ⟨⟨hc', hne', s, path.head?, hp, (hocc s).mpr (.inr hs), (hocc _).mpr (.inl rfl)⟩, rfl⟩

/-! ## Unfolding rebuilt nodes -/

variable {source : NodeSource} {P : Hash → Node → Prop}

namespace Unfolds

variable {node full : Node}

theorem wrap (h : Unfolds source P node full) (p : Path) :
    Unfolds source P (Node.wrap p node) (Node.wrap p full) := by
  unfold Node.wrap
  split
  · exact h
  · exact .extension p h

theorem prepend (h : Unfolds source P node full) (hn : ∀ k, node ≠ .hash k) (p : Path) :
    Unfolds source P (Node.prepend p node) (Node.prepend p full) := by
  cases h with
  | null => exact .null
  | leaf q v => exact .leaf _ v
  | extension q child => exact .extension _ child
  | branch v children => exact Unfolds.wrap (.branch v children) p
  | hash load => exact absurd rfl (hn _)

theorem setChild {cs ds : Nibble → Node} (h : ∀ i, Unfolds source P (cs i) (ds i)) (i : Nibble)
    {c d : Node} (hcd : Unfolds source P c d) (j : Nibble) :
    Unfolds source P (Node.setChild cs i c j) (Node.setChild ds i d j) := by
  unfold Node.setChild
  split
  · exact hcd
  · exact h j

theorem place {cs ds : Nibble → Node} (h : ∀ i, Unfolds source P (cs i) (ds i))
    (v : Option Bytes) (path : Path) (value : Bytes) :
    Unfolds source P (Node.place path value (.branch cs v)) (Node.place path value (.branch ds v)) := by
  cases path with
  | nil => exact .branch _ h
  | cons i rest =>
    rw [Node.place, Node.place, branchOf_eq, branchOf_eq]
    exact .branch v (setChild h i (.leaf rest value))

end Unfolds

/-- **`node` holds the entries `f`:** it unfolds to the canonical node with these
entries. -/
def Holds (source : NodeSource) (P : Hash → Node → Prop) (node : Node)
    (f : Path → Option Bytes) : Prop :=
  ∃ full, Unfolds source P node full ∧ full.Canonical ∧ full.find = f

/-- An entry split off an extension, at the step where the new path leaves it. -/
theorem holds_split {c d : Node} (h : Unfolds source P c d) (hc : d.Proper) (hb : d.isBranch)
    (q rest b : Path) (i : Nibble) {value : Bytes} (hv : value ≠ []) (hi : some i ≠ b.head?) :
    Holds source P
      (Node.wrap q (Node.place b value
        (.branch (Node.setChild (fun _ => .null) i (Node.wrap rest c)) none)))
      (Function.update (Node.extension (q ++ i :: rest) d).find (q ++ b) (some value)) := by
  have hnull : ∀ _ : Nibble, Unfolds source P null null := fun _ => .null
  have hd : (Node.wrap rest d).Proper := hc.wrap hb rest
  have hcs : ∀ j, (Node.setChild (fun _ => null) i (Node.wrap rest d) j).Canonical :=
    forall_setChild (fun _ => .null) i hd.canonical
  have hfork : (branch (Node.setChild (fun _ => null) i (Node.wrap rest d)) none).find =
      Path.under (i :: rest) d.find := by
    funext path
    rcases path with _ | ⟨j, path⟩
    · rw [find_branch_nil, Path.under_eq_none _ (by simp)]
    · by_cases hj : j = i
      · subst hj
        rw [find_branch_cons, Node.setChild, if_pos rfl, find_wrap, Path.under, Path.under,
          Path.after?, if_pos rfl]
      · rw [find_branch_cons, Node.setChild, if_neg hj, find_null,
          Path.under_eq_none _ (by simp [Ne.symm hj])]
  obtain ⟨hplace, hplaceb⟩ := proper_place b hv hcs (v := none) (by simp)
    (s := some i) (by simp [Occupied, Node.setChild, hd.ne_null]) hi
  refine ⟨_, (Unfolds.place (Unfolds.setChild hnull i (h.wrap rest)) none b value).wrap q,
    (hplace.wrap hplaceb q).canonical, ?_⟩
  rw [find_wrap, find_place, hfork, Path.under_update, Path.under_under, find_extension]
  intro j hj
  rw [Node.setChild, if_neg]
  rintro rfl
  exact hi hj.symm

/-- A leaf and the entry beside it, where the new path leaves that of the leaf. -/
theorem holds_split_leaf (q : Path) {a b : Path} {v value : Bytes} (hold : v ≠ [])
    (hv : value ≠ []) (hab : a.head? ≠ b.head?) :
    Holds source P (Node.wrap q (Node.place b value (Node.place a v emptyBranch)))
      (Function.update (Node.leaf (q ++ a) v).find (q ++ b) (some value)) := by
  obtain ⟨cs, w, heq, hcs, hw, hocc⟩ := exists_place (fun _ => .null) none a
    hold (fun _ => Proper.canonical hold) (fun _ => .null) (by simp)
  have ha : Occupied cs w a.head? := (hocc _).mpr (.inl rfl)
  have hone : (Node.branch cs w).find = Function.update (fun _ => none) a (some v) := by
    rw [← heq, find_place v fun _ _ => rfl]
    exact congrArg (Function.update · a (some v)) find_emptyBranch
  obtain ⟨hplace, hplaceb⟩ := proper_place b hv hcs hw ha hab
  have hfull := (hplace.wrap hplaceb q).canonical
  rw [emptyBranch, heq]
  -- nothing is behind a placeholder here, so the node unfolds to itself
  refine ⟨_, Unfolds.refl_of_canonical hfull, hfull, ?_⟩
  rw [find_wrap, find_place, hone, Path.under_update, Path.under_update, Path.under_none,
    find_leaf_eq]
  intro i hi
  by_contra hne
  rcases (hocc (some i)).mp hne with h | h
  · exact hab (h.symm.trans hi.symm)
  · exact h rfl

/-- **Insertion changes one entry.** -/
theorem Unfolds.insert {node full : Node} (h : Unfolds source P node full) (hc : full.Canonical)
    (path : Path) {value : Bytes} (hv : value ≠ []) :
    ∃ node', node.insert source path value = .ok node' ∧
      Holds source P node' (Function.update full.find path (some value)) := by
  induction h generalizing path with
  | null =>
    refine ⟨_, insert_null path value, _, .leaf path value, Proper.canonical hv, ?_⟩
    rw [find_leaf_eq, find_null_eq]
  | leaf p v =>
    by_cases hp : p = path
    · subst hp
      refine ⟨_, (insert_leaf p p v value).trans (if_pos rfl), _, .leaf p value,
        Proper.canonical hv, ?_⟩
      rw [find_leaf_eq, find_leaf_eq, Function.update_idem]
    · obtain ⟨q, a, b, rfl, rfl, hab⟩ := Path.exists_split_of_ne hp
      exact ⟨_, insert_leaf_of_parting q v value hab, holds_split_leaf q (hc (by simp)) hv hab⟩
  | @extension p c d child ih =>
    obtain ⟨hp, hb, hd⟩ := hc (by simp)
    obtain ⟨rest, rfl⟩ | ⟨q, i, rest, b, rfl, rfl, hi⟩ := Path.follows_or_parts p path
    · obtain ⟨c', hc', full', hfull', hcan, hfind⟩ := ih hd.canonical rest
      rw [insert_extension_append, hc']
      have hne : full' ≠ .null := by
        rintro rfl
        simpa using congrFun hfind rest
      -- a branch below the extension keeps the two entries that fork there
      have hpar : full'.isBranch := by
        obtain ⟨x, y, hxy, hx, hy⟩ := hd.exists_fork hb
        have keep {z : Path} (hz : d.find z ≠ none) : full'.find z ≠ none := by
          rw [hfind, Function.update_apply]
          split
          · simp
          · exact hz
        exact (hcan hne).isBranch_iff.mpr ⟨x, y, hxy, keep hx, keep hy⟩
      refine ⟨_, rfl, _, .extension _ hfull', Proper.canonical ⟨hp, hpar, hcan hne⟩, ?_⟩
      rw [find_extension, find_extension, hfind, Path.under_update]
    · exact ⟨_, insert_extension_of_parting q rest c value hi,
        holds_split child hd hb q rest b i hv hi⟩
  | @branch cs ds v children ih =>
    have hpr := hc (by simp)
    rcases path with _ | ⟨i, rest⟩
    · obtain ⟨hcs, hw, s, t, hst, hs, ht⟩ := hpr
      exact ⟨_, insert_branch_nil cs v value, _, .branch _ children, Proper.canonical
        ⟨hcs, by simpa using hv, s, t, hst, hs.setValue value, ht.setValue value⟩,
        find_setValue ds v (some value)⟩
    · obtain ⟨c', hc', full', hfull', hcan, hfind⟩ := ih i (hpr.child i) rest
      rw [insert_branch_cons, hc']
      have hne : full' ≠ .null := by
        rintro rfl
        simpa using congrFun hfind rest
      obtain ⟨s, t, hst, hs, ht⟩ := hpr.2.2
      exact ⟨_, rfl, _, .branch v (Unfolds.setChild children i hfull'), Proper.canonical
        ⟨forall_setChild hpr.child i hcan, hpr.2.1, s, t, hst, hs.setChild i hne,
          ht.setChild i hne⟩, find_setChild v hfind⟩
  | hash load _ _ _ ih =>
    obtain ⟨node', hnode', hholds⟩ := ih hc path
    exact ⟨node', by rw [insert_hash load, hnode'], hholds⟩

theorem prepend_ne_hash {n : Node} (hn : ∀ k, n ≠ hash k) (p : Path) (k : Hash) :
    prepend p n ≠ hash k := by
  cases n with
  | null | leaf | extension => nofun
  | branch cs v =>
    change wrap p (branch cs v) ≠ hash k
    unfold wrap
    split <;> nofun
  | hash h => exact absurd rfl (hn h)

/-- Removing an entry that is not there changes nothing. -/
theorem eq_update_none {f : Path → Option Bytes} {path : Path} (h : f path = none) :
    f = Function.update f path none := by
  rw [← h, Function.update_eq_self]

/-- The entries of a branch without children. -/
theorem find_branch_of_null {children : Nibble → Node} (v : Option Bytes)
    (h : ∀ i, children i = null) :
    (branch children v).find = Function.update (fun _ => none) [] v := by
  funext path
  rcases path with _ | ⟨i, rest⟩
  · rw [find_branch_nil, Function.update_self]
  · rw [find_branch_cons, h, find_null, Function.update_of_ne (by simp)]

/-- The entries of a branch with one child and no value. -/
theorem find_branch_of_single {children : Nibble → Node} {i : Nibble}
    (h : ∀ j, j ≠ i → children j = null) :
    (branch children none).find = Path.under [i] (children i).find := by
  funext path
  rcases path with _ | ⟨j, rest⟩
  · rw [find_branch_nil, Path.under_eq_none _ (by simp)]
  · by_cases hj : j = i
    · subst hj
      exact (find_branch_cons children none j rest).trans (Path.under_append [j] _ rest).symm
    · rw [find_branch_cons, h j hj, find_null, Path.under_eq_none _ (by simp [Ne.symm hj])]

/-- **Collapsing keeps the entries.**  A branch with at most one entry left gives
way to a node that is canonical again. -/
theorem Unfolds.collapse {cs ds : Nibble → Node} {v : Option Bytes}
    (h : ∀ i, Unfolds source P (cs i) (ds i)) (hc : ∀ i, (ds i).Canonical) (hv : v ≠ some []) :
    ∃ node', Node.collapse source cs v = .ok node' ∧ (∀ k, node' ≠ .hash k) ∧
      Holds source P node' (Node.branch ds v).find := by
  have hnull {i : Nibble} : cs i = .null ↔ ds i = .null := (h i).eq_null_iff
  cases collapse_cases source cs v with
  | empty hcs hrun =>
    rw [hrun, find_branch_of_null none fun i => hnull.mp (hcs i)]
    exact ⟨_, rfl, nofun, _, .null, .null, by rw [find_null_eq, Function.update_eq_self]⟩
  | value v hcs hrun =>
    rw [hrun, find_branch_of_null (some v) fun i => hnull.mp (hcs i)]
    exact ⟨_, rfl, nofun, _, .leaf [] v, Proper.canonical fun hnil => hv (congrArg some hnil),
      find_leaf_eq [] v⟩
  | joined i hother hrun =>
    obtain ⟨m, hm, hunf, hload⟩ := (h i).resolve
    rw [hrun, hm, find_branch_of_single fun j hj => hnull.mp (hother j hj)]
    exact ⟨_, rfl, prepend_ne_hash hload [i], _, hunf.prepend hload [i], (hc i).prepend [i],
      find_prepend [i] (hc i).ne_hash⟩
  | kept hst hs ht hrun =>
    -- a child is a placeholder only where there is something behind it
    have hoccupied {s : Option Nibble} (hs : Occupied cs v s) : Occupied ds v s := by
      cases s with
      | none => exact hs
      | some i => exact mt hnull.mpr hs
    rw [hrun]
    exact ⟨_, rfl, nofun, _, .branch v h,
      Proper.canonical ⟨hc, hv, _, _, hst, hoccupied hs, hoccupied ht⟩, rfl⟩

/-- **Removal changes one entry.** -/
theorem Unfolds.remove {node full : Node} (h : Unfolds source P node full) (hc : full.Canonical)
    (path : Path) :
    ∃ node', node.remove source path = .ok node' ∧ (∀ k, node' ≠ .hash k) ∧
      Holds source P node' (Function.update full.find path none) := by
  induction h generalizing path with
  | null => exact ⟨_, remove_null path, nofun, _, .null, .null, eq_update_none (find_null path)⟩
  | leaf p v =>
    rw [remove_leaf]
    by_cases hp : p = path
    · subst hp
      rw [if_pos rfl, find_leaf_eq, Function.update_idem]
      exact ⟨_, rfl, nofun, _, .null, .null, find_null_eq.trans (eq_update_none rfl)⟩
    · rw [if_neg hp]
      exact ⟨_, rfl, nofun, _, .leaf p v, hc, eq_update_none ((find_leaf p path v).trans (if_neg hp))⟩
  | @extension p c d child ih =>
    obtain ⟨hp, hb, hd⟩ := hc (by simp)
    rw [remove_extension]
    cases hafter : Path.after? p path with
    | none =>
      refine ⟨_, rfl, nofun, _, .extension p child, hc, eq_update_none ?_⟩
      rw [find_extension, Path.under, hafter, Option.bind_none]
    | some rest =>
      obtain rfl := Path.after?_eq_some_iff.mp hafter
      obtain ⟨c', hc', hload, full', hfull', hcan, hfind⟩ := ih hd.canonical rest
      simp only [hc']
      refine ⟨_, rfl, prepend_ne_hash hload p, _, hfull'.prepend hload p, hcan.prepend p, ?_⟩
      rw [find_prepend p hcan.ne_hash, hfind, Path.under_update, find_extension]
  | @branch cs ds v children ih =>
    have hpr := hc (by simp)
    rcases path with _ | ⟨i, rest⟩
    · rw [remove_branch_nil, ← find_setValue]
      exact Unfolds.collapse children hpr.child (by simp)
    · obtain ⟨c', hc', -, full', hfull', hcan, hfind⟩ := ih i (hpr.child i) rest
      rw [remove_branch_cons, hc', ← find_setChild v hfind]
      exact Unfolds.collapse (Unfolds.setChild children i hfull') (forall_setChild hpr.child i hcan)
        hpr.2.1
  | hash load _ _ _ ih =>
    obtain ⟨node', hnode', hholds⟩ := ih hc path
    exact ⟨node', by rw [remove_hash load, hnode'], hholds⟩

end Node
end Ethereum
