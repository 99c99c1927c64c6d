/-
# Placeholders come from the store

A tree in memory refers to the rest of itself by placeholders (`Node.placeholders`).  It is
grounded in a set of hashes (`Node.Grounded`) if all its placeholders are among them and
no extension in it lacks steps or a child, which is all that is needed to write it and to
read what was written.

What is read from any bytes has such extensions (`grounded_of_decode`).  So on any source,
whatever it holds under a hash, a change of a grounded tree leaves a grounded one, as long
as loading does not lead out of the set (`Anchors`): a rebuilt node has placeholders of the
old one and of what was loaded on the way, and no others (`Grounded.insert`,
`Grounded.remove`).  By induction on the changes (`Trie.grounded_changes`) this holds of two
sets, the hashes that loading leads to from the root (`anchors_meets`) and, if the source
reads all that its nodes refer to, those that it reads (`Complete.anchors`).
-/

import Mathlib
import Ethereum.Proofs.Trie.Settling

namespace Ethereum

namespace Node

/-- The hashes that stand for nodes in a tree in memory. -/
def placeholders : Node → List Hash
  | hash h => [h]
  | extension _ child => child.placeholders
  | branch children _ => (List.ofFn fun i => (children i).placeholders).flatten
  | _ => []

theorem mem_placeholders_branch {children : Nibble → Node} {v : Option Bytes} {h : Hash} :
    h ∈ (branch children v).placeholders ↔ ∃ i, h ∈ (children i).placeholders := by
  rw [placeholders, List.mem_flatten]
  constructor
  · rintro ⟨hs, hhs, hmem⟩
    obtain ⟨i, rfl⟩ := List.mem_ofFn.mp hhs
    exact ⟨i, hmem⟩
  · rintro ⟨i, hmem⟩
    exact ⟨_, List.mem_ofFn.mpr ⟨i, rfl⟩, hmem⟩

/-- A tree whose extensions have steps and children, and whose placeholders satisfy `P`. -/
def Grounded (P : Hash → Prop) : Node → Prop
  | extension p child => p ≠ [] ∧ child ≠ null ∧ child.Grounded P
  | branch children _ => ∀ i, (children i).Grounded P
  | hash h => P h
  | _ => True

variable {source : NodeSource} {P Q : Hash → Prop} {n : Node}

/-- The two halves of being grounded. -/
theorem grounded_iff :
    n.Grounded P ↔ n.Grounded (fun _ => True) ∧ ∀ h ∈ n.placeholders, P h := by
  induction n with
  | null | leaf => simp [Grounded, placeholders]
  | hash h => simp [Grounded, placeholders]
  | extension p child ih =>
    rw [Grounded, Grounded, ih, placeholders, and_assoc, and_assoc]
  | branch children v ih =>
    simp only [Grounded, mem_placeholders_branch, ih, forall_and]
    refine and_congr_right' ⟨?_, ?_⟩
    · rintro h k ⟨i, hk⟩
      exact h i k hk
    · intro h i k hk
      exact h k ⟨i, hk⟩

theorem Grounded.of_mem (h : n.Grounded P) {k : Hash} (hk : k ∈ n.placeholders) : P k :=
  (grounded_iff.mp h).2 k hk

/-! ## What is read -/

theorem grounded_of_decodeReference {b : Bytes} (h : decodeReference b = .ok n) :
    n.Grounded fun _ => True := by
  unfold decodeReference at h
  obtain ⟨d, -, h⟩ := exists_of_bind_eq_ok h
  split at h
  · cases h
    trivial
  · cases h
    trivial
  · contradiction

theorem Grounded.extend {p : Path} {child : Node} (hc : child.Grounded P)
    (h : Node.extend p child = .ok n) : n.Grounded P := by
  unfold Node.extend at h
  split at h
  · contradiction
  · rename_i hsteps
    cases h
    rw [not_or, Bool.not_eq_true, ← Bool.not_eq_true, isNull_eq_true_iff] at hsteps
    exact ⟨hsteps.1, hsteps.2, hc⟩

/-- **What is read has no extension without steps or a child,** whatever the bytes. -/
theorem grounded_of_decode {b : Bytes} (h : decode b = .ok n) : n.Grounded fun _ => True := by
  -- decoding goes down in the bytes that are left
  induction hlen : b.length using Nat.strong_induction_on generalizing b n with
  | _ k ih =>
    subst hlen
    -- a child is shorter than its parent, be it read in place or as a hash
    have child {x : Bytes} {c : Node} (hx : x.length < b.length)
        (hc : (if Rlp.isList x then decode x else decodeReference x) = .ok c) :
        c.Grounded fun _ => True := by
      split at hc
      · exact ih _ hx hc rfl
      · exact grounded_of_decodeReference hc
    rw [decode] at h
    obtain ⟨isEmpty, -, h⟩ := exists_of_bind_eq_ok h
    split at h
    · cases h
      trivial
    split at h
    · contradiction
    · rename_i path target hitems
      have hlt : target.length < b.length := length_of_mem_items hitems (by simp)
      obtain ⟨d, -, h⟩ := exists_of_bind_eq_ok h
      obtain ⟨⟨p, isLeaf⟩, -, h⟩ := exists_of_bind_eq_ok h
      dsimp only at h
      split at h
      · obtain ⟨value, -, h⟩ := exists_of_bind_eq_ok h
        cases h
        trivial
      · split at h
        · rename_i hlist
          obtain ⟨c, hc, h⟩ := exists_of_bind_eq_ok h
          exact (child hlt (by rwa [if_pos hlist])).extend h
        · rename_i hlist
          obtain ⟨c, hc, h⟩ := exists_of_bind_eq_ok h
          exact (child hlt (by rwa [if_neg hlist])).extend h
    · rename_i xs _ hitems
      split at h
      · obtain ⟨children, hchildren, h⟩ := exists_of_bind_eq_ok h
        obtain ⟨value, -, h⟩ := exists_of_bind_eq_ok h
        cases h
        rw [branchOf_eq]
        intro i
        dsimp only
        by_cases hi : i.val < children.length
        · rw [List.getD_eq_getElem _ _ hi]
          obtain ⟨⟨x, hx⟩, -, hread⟩ := exists_of_mem_mapM hchildren (List.getElem_mem hi)
          exact child (length_of_mem_items hitems (List.mem_of_mem_take hx)) hread
        · rw [List.getD_eq_default _ _ (by omega)]
          trivial
      · contradiction

end Node

/-! ## What is loaded -/

namespace NodeSource

/-- Loading does not lead out of a set of hashes. -/
def Anchors (source : NodeSource) (P : Hash → Prop) : Prop :=
  ∀ h n, P h → source.load h = .ok n → n.Grounded P

/-- The source has bytes under a hash. -/
def Reads (source : NodeSource) (h : Hash) : Prop := ∃ b, source.read h = some b

/-- The source reads all that its nodes refer to. -/
def Complete (source : NodeSource) : Prop :=
  ∀ h b n, source.read h = some b → Node.decode b = .ok n → ∀ k ∈ n.placeholders, source.Reads k

theorem exists_of_load {source : NodeSource} {h : Hash} {n : Node} (hn : source.load h = .ok n) :
    ∃ b, source.read h = some b ∧ Node.decode b = .ok n := by
  unfold load at hn
  split at hn
  · contradiction
  · rename_i b hb
    split at hn
    · rename_i m hm
      cases hn
      exact ⟨b, hb, hm⟩
    · contradiction

variable {source : NodeSource}

/-- **A complete source** is not left by loading. -/
theorem Complete.anchors (hs : source.Complete) : source.Anchors source.Reads := by
  intro h n _ hn
  obtain ⟨b, hb, hdecode⟩ := exists_of_load hn
  exact Node.grounded_iff.mpr ⟨Node.grounded_of_decode hdecode, hs h b n hb hdecode⟩

end NodeSource

namespace Node

variable {source : NodeSource} {P : Hash → Prop} {n n' : Node}

theorem meets_of_mem {k : Hash} (hk : k ∈ n.placeholders) : Meets source n k := by
  induction n with
  | null | leaf => exact absurd hk List.not_mem_nil
  | hash h =>
    rw [List.mem_singleton.mp hk]
    exact .here h
  | extension p child ih => exact .extension (ih hk)
  | branch children v ih =>
    obtain ⟨i, hi⟩ := mem_placeholders_branch.mp hk
    exact .branch i (ih i hi)

theorem Meets.trans {h k : Hash} {m : Node} (hn : Meets source n h) (hm : source.load h = .ok m)
    (hk : Meets source m k) : Meets source n k := by
  induction hn with
  | here h => exact .load hm hk
  | extension _ ih => exact .extension (ih hm)
  | branch i _ ih => exact .branch i (ih hm)
  | load hload _ ih => exact .load hload (ih hm)

/-- What loading leads to from a node that unfolds can be loaded and is known. -/
theorem Unfolds.exists_of_meets {P : Hash → Node → Prop} {full : Node} {k : Hash}
    (h : Unfolds source P n full) (hk : Meets source n k) :
    ∃ m sub, source.load k = .ok m ∧ P k sub := by
  induction hk generalizing full with
  | here k =>
    cases h with
    | hash load below ne_null known => exact ⟨_, _, load, known⟩
  | extension _ ih =>
    cases h with
    | extension p child => exact ih child
  | branch i _ ih =>
    cases h with
    | branch v children => exact ih (children i)
  | load hload _ ih =>
    cases h with
    | hash hload' below =>
      rw [hload] at hload'
      cases hload'
      exact ih below

/-- **What loading leads to** is not left by loading. -/
theorem anchors_meets (root : Node) : source.Anchors (Meets source root) := by
  intro h m hmeets hm
  obtain ⟨b, -, hdecode⟩ := NodeSource.exists_of_load hm
  exact grounded_iff.mpr ⟨grounded_of_decode hdecode, fun k hk => hmeets.trans hm (meets_of_mem hk)⟩

/-! ## Rebuilt nodes -/

theorem Grounded.wrap (hn : n.Grounded P) (hne : n ≠ null) (p : Path) :
    (Node.wrap p n).Grounded P ∧ Node.wrap p n ≠ null := by
  unfold Node.wrap
  split
  · exact ⟨hn, hne⟩
  · rename_i hp
    exact ⟨⟨hp, hne, hn⟩, nofun⟩

theorem Grounded.place (hn : n.Grounded P) (hb : n.isBranch) (path : Path) (value : Bytes) :
    (Node.place path value n).Grounded P ∧ (Node.place path value n).isBranch := by
  cases n with
  | branch children v =>
    cases path with
    | nil => exact ⟨hn, rfl⟩
    | cons i rest =>
      rw [Node.place, branchOf_eq]
      exact ⟨forall_setChild hn i trivial, rfl⟩
  | null | leaf | extension | hash => contradiction

theorem grounded_emptyBranch : emptyBranch.Grounded P := fun _ => trivial

theorem ne_null_of_isBranch (h : n.isBranch) : n ≠ null := by
  rintro rfl
  contradiction

theorem Grounded.prepend (hn : n.Grounded P) (p : Path) : (Node.prepend p n).Grounded P := by
  cases n with
  | null | leaf => trivial
  | extension q child => exact ⟨List.append_ne_nil_of_right_ne_nil p hn.1, hn.2⟩
  | branch children v => exact (hn.wrap nofun p).1
  | hash h => exact (hn.wrap nofun p).1

theorem Grounded.resolve (ha : source.Anchors P) (hn : n.Grounded P)
    {m : { m : Node // m = n ∨ m.Advances }} (hm : source.resolve n = .ok m) :
    m.val.Grounded P := by
  cases n with
  | hash h => exact ha h m.val hn (NodeSource.load_of_resolve hm)
  | null | leaf | extension | branch =>
    cases hm
    exact hn

/-! ## Changes -/

/-- **Insertion** needs no placeholders that were not there or loaded. -/
theorem Grounded.insert (ha : source.Anchors P) (hn : n.Grounded P) {path : Path} {value : Bytes}
    (h : n.insert source path value = .ok n') : n'.Grounded P ∧ n' ≠ null := by
  -- a placeholder is met in the node, or in what is loaded for one that was met
  induction n, path using descent source generalizing n' with
  | null path =>
    rw [insert_null] at h
    cases h
    exact ⟨trivial, nofun⟩
  | leaf p v path =>
    rw [insert_leaf] at h
    split at h
    · cases h
      exact ⟨trivial, nofun⟩
    · cases h
      obtain ⟨hold, hb⟩ := grounded_emptyBranch.place rfl (p.drop (Path.commonLength p path)) v
      obtain ⟨hnew, hb⟩ := hold.place hb (path.drop (Path.commonLength p path)) value
      exact hnew.wrap (ne_null_of_isBranch hb) _
  | extension p child path ih =>
    obtain ⟨hp, hne, hchild⟩ := hn
    obtain ⟨rest, rfl⟩ | ⟨q, i, rest, b, rfl, rfl, hi⟩ := Path.follows_or_parts p path
    · rw [insert_extension_append] at h
      obtain ⟨child', hinsert, rfl⟩ := exists_of_map_eq_ok h
      obtain ⟨hgrounded, hne'⟩ := ih rest rfl hchild hinsert
      exact ⟨⟨hp, hne', hgrounded⟩, nofun⟩
    · rw [insert_extension_of_parting q rest child value hi] at h
      cases h
      have hfork : (branch (setChild (fun _ => .null) i (Node.wrap rest child)) none).Grounded P :=
        forall_setChild (fun _ => trivial) i (hchild.wrap hne rest).1
      obtain ⟨hnew, hb⟩ := hfork.place rfl b value
      exact hnew.wrap (ne_null_of_isBranch hb) _
  | branch_nil children v =>
    rw [insert_branch_nil] at h
    cases h
    exact ⟨hn, nofun⟩
  | branch_cons children v i rest ih =>
    rw [insert_branch_cons] at h
    obtain ⟨child', hinsert, rfl⟩ := exists_of_map_eq_ok h
    exact ⟨forall_setChild hn i (ih (hn i) hinsert).1, nofun⟩
  | missing k e path hload =>
    rw [insert_hash_error hload] at h
    contradiction
  | loaded k m path hload ih =>
    rw [insert_hash hload] at h
    exact ih (ha k m hn hload) h

theorem Grounded.collapse (ha : source.Anchors P) {children : Nibble → Node} {v : Option Bytes}
    (hc : ∀ i, (children i).Grounded P) (h : Node.collapse source children v = .ok n') :
    n'.Grounded P := by
  cases collapse_cases source children v with
  | empty _ hrun | value _ _ hrun =>
    cases hrun.symm.trans h
    trivial
  | joined i _ hrun =>
    obtain ⟨m, hm, rfl⟩ := exists_of_map_eq_ok (hrun.symm.trans h)
    exact (Grounded.resolve ha (hc i) hm).prepend [i]
  | kept _ _ _ hrun =>
    cases hrun.symm.trans h
    exact hc

/-- **Removal** needs no placeholders that were not there or loaded. -/
theorem Grounded.remove (ha : source.Anchors P) (hn : n.Grounded P) {path : Path}
    (h : n.remove source path = .ok n') : n'.Grounded P := by
  induction n, path using descent source generalizing n' with
  | null path =>
    rw [remove_null] at h
    cases h
    trivial
  | leaf p v path =>
    rw [remove_leaf] at h
    split at h <;> cases h <;> trivial
  | extension p child path ih =>
    rw [remove_extension] at h
    split at h
    · rename_i rest hrest
      obtain ⟨m, hm, rfl⟩ := exists_of_map_eq_ok h
      exact (ih rest (Path.after?_eq_some_iff.mp hrest) hn.2.2 hm).prepend p
    · cases h
      exact hn
  | branch_nil children v =>
    rw [remove_branch_nil] at h
    exact Grounded.collapse ha hn h
  | branch_cons children v i rest ih =>
    rw [remove_branch_cons] at h
    obtain ⟨m, hm, h⟩ := exists_of_bind_eq_ok h
    exact Grounded.collapse ha (forall_setChild hn i (ih (hn i) hm)) h
  | missing k e path hload =>
    rw [remove_hash_error hload] at h
    contradiction
  | loaded k m path hload ih =>
    rw [remove_hash hload] at h
    exact ih (ha k m hn hload) h

end Node

namespace Trie

variable {source : NodeSource} {P : Hash → Prop} {t u : Trie}

theorem grounded_erase (ha : source.Anchors P) (ht : t.root.Grounded P) {key : Bytes}
    (h : t.erase source key = .ok u) : u.root.Grounded P := by
  obtain ⟨n, hn, h⟩ := exists_of_bind_eq_ok h
  cases h
  exact Node.Grounded.remove ha ht hn

theorem grounded_change (ha : source.Anchors P) (ht : t.root.Grounded P) {c : Change}
    (h : t.change source c = .ok u) : u.root.Grounded P := by
  cases c with
  | remove key => exact grounded_erase ha ht h
  | put key value =>
    rw [change, insert] at h
    split at h
    · exact grounded_erase ha ht h
    · obtain ⟨n, hn, h⟩ := exists_of_bind_eq_ok h
      cases h
      exact (Node.Grounded.insert ha ht hn).1

/-- **Changes that succeed** leave a trie grounded where it was. -/
theorem grounded_changes (ha : source.Anchors P) {cs : List Change} (ht : t.root.Grounded P)
    (h : changes source cs t = .ok u) : u.root.Grounded P := by
  induction cs generalizing t with
  | nil =>
    cases h
    exact ht
  | cons c cs ih =>
    rw [changes, List.foldlM_cons] at h
    obtain ⟨t', ht', h⟩ := exists_of_bind_eq_ok h
    exact ih (grounded_change ha ht ht') h

end Trie
end Ethereum
