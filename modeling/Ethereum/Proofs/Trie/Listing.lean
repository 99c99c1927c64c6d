/-
# Listing does not notice placeholders

Listing the entries below a node gives what listing the node it unfolds to gives,
and never fails (`Rooted.entriesFrom`).  The walk counts the loads on its way
down.  No placeholder is met again below itself, since the tree that it stands
for would then be below itself, so no way down loads more often than the source
has nodes (`Unfolds.walk`).
-/

import Mathlib
import Ethereum.Trie.Listing
import Ethereum.Proofs.Trie.Storing

namespace Ethereum

/-- The size of the source bounds the number of hashes that have bytes. -/
def NodeSource.Bounded (source : NodeSource) : Prop :=
  ∃ hashes : Finset Hash, (∀ h, source.read h ≠ .none → h ∈ hashes) ∧ hashes.card ≤ source.size

namespace Node

/-! ## No placeholder below itself -/

/-- The length of the longest way down. -/
def height : Node → Nat
  | extension _ child => child.height + 1
  | branch children _ => (Finset.univ.sup fun i => (children i).height) + 1
  | _ => 0

theorem height_child_lt (children : Nibble → Node) (v : Option Bytes) (i : Nibble) :
    (children i).height < (branch children v).height := by
  rw [height]
  exact Nat.lt_succ_of_le (Finset.le_sup (f := fun i => (children i).height) (Finset.mem_univ i))

variable {source : NodeSource} {node full : Node}

namespace Unfolds

variable {P P' : Hash → Node → Prop}

/-- A node unfolds in one way only. -/
theorem unique {full' : Node} (h : Unfolds source P node full)
    (h' : Unfolds source P' node full') : full = full' := by
  induction h generalizing full' with
  | null | leaf => cases h'; rfl
  | extension p _ ih =>
    cases h' with
    | extension _ child => rw [ih child]
  | branch v _ ih =>
    cases h' with
    | branch _ children => rw [funext fun i => ih i (children i)]
  | hash load _ _ _ ih =>
    cases h' with
    | hash load' below =>
      rw [load] at load'
      cases load'
      exact ih below

/-- What is known of a placeholder of a given height that is met below a node. -/
def Met (source : NodeSource) (P : Hash → Node → Prop) (k : Nat) (h : Hash) (n : Node) : Prop :=
  P h n ∧ Unfolds source P (.hash h) n ∧ n.height ≤ k

theorem mono_met {k l : Nat} (h : Unfolds source (Met source P k) node full) (hkl : k ≤ l) :
    Unfolds source (Met source P l) node full :=
  h.mono fun load met => ⟨load, met.1, met.2.1, le_trans met.2.2 hkl⟩

/-- What is met below a node is no higher than the node. -/
theorem met (h : Unfolds source P node full) :
    Unfolds source (Met source P full.height) node full := by
  induction h with
  | null => exact .null
  | leaf p v => exact .leaf p v
  | extension p _ ih => exact .extension p (ih.mono_met (Nat.le_succ _))
  | branch v _ ih => exact .branch v fun i => (ih i).mono_met (height_child_lt _ v i).le
  | hash load below ne_null known ih =>
    exact .hash load ih ne_null ⟨known, .hash load below ne_null known, le_refl _⟩

/-- What is met below a loaded node is lower than the node. -/
theorem met_of_ne_hash (h : Unfolds source P node full) (hn : ∀ k, node ≠ .hash k) :
    Unfolds source (fun h n => P h n ∧ Unfolds source P (.hash h) n ∧ n.height < full.height)
      node full := by
  cases h with
  | null => exact .null
  | leaf p v => exact .leaf p v
  | extension p child =>
    exact .extension p (child.met.mono fun load met =>
      ⟨load, met.1, met.2.1, Nat.lt_succ_of_le met.2.2⟩)
  | branch v children =>
    exact .branch v fun i => (children i).met.mono fun load met =>
      ⟨load, met.1, met.2.1, lt_of_le_of_lt met.2.2 (height_child_lt _ v i)⟩
  | hash => exact absurd rfl (hn _)

/-- **A placeholder is not met again below itself.** -/
theorem met_ne {h : Hash} {m : Node} (load : source.load h = .ok m)
    (below : Unfolds source P m full) :
    Unfolds source (fun k n => P k n ∧ k ≠ h) m full := by
  refine (below.met_of_ne_hash fun k => NodeSource.load_ne_hash load).mono fun load' met =>
    ⟨load', met.1, ?_⟩
  rintro rfl
  -- Met again it would stand for the same tree, which is lower than itself.
  obtain ⟨-, hk, hlt⟩ := met
  cases hk with
  | hash load'' below' =>
    rw [load] at load''
    cases load''
    rw [below.unique below'] at hlt
    exact absurd hlt (lt_irrefl _)

end Unfolds

/-! ## Walks, node by node -/

section
variable (follow : Hash → Path → Listing → Except TrieError Listing) (path : Path) (l : Listing)

theorem walk_null : null.walk follow path l = .ok l := by
  rw [walk.eq_def]
  exact ite_self _

theorem walk_leaf (p : Path) (value : Bytes) :
    (leaf p value).walk follow path l =
      if l.isFull || l.isBefore path then .ok l else .ok (l.add (path ++ p) value) := by
  rw [walk.eq_def]

theorem walk_extension (p : Path) (child : Node) :
    (extension p child).walk follow path l =
      if l.isFull || l.isBefore path then .ok l else child.walk follow (path ++ p) l := by
  rw [walk.eq_def]

theorem walk_branch (children : Nibble → Node) (value : Option Bytes) :
    (branch children value).walk follow path l =
      if l.isFull || l.isBefore path then .ok l
      else (List.finRange 16).foldlM (fun l i => (children i).walk follow (path ++ [i]) l)
        (match value with
          | some v => l.add path v
          | none => l) :=
  walk.eq_def follow (branch children value) path l

theorem walk_hash (h : Hash) :
    (hash h).walk follow path l =
      if l.isFull || l.isBefore path then .ok l else follow h path l := by
  rw [walk.eq_def]

theorem walk_skip (h : (l.isFull || l.isBefore path) = true) (n : Node) :
    n.walk follow path l = .ok l := by
  cases n with
  | null => exact walk_null follow path l
  | leaf p v => rw [walk_leaf, if_pos h]
  | extension p c => rw [walk_extension, if_pos h]
  | branch cs v => rw [walk_branch, if_pos h]
  | hash k => rw [walk_hash, if_pos h]

theorem walkHash_succ {h : Hash} {m : Node} (load : source.load h = .ok m) (fuel : Nat) :
    walkHash source (fuel + 1) h path l = m.walk (walkHash source fuel) path l := by
  rw [walkHash, load]
  rfl

end

/-! ## Walks and placeholders -/

/-- Two folds that agree and succeed step by step. -/
theorem foldlM_agree {α β ε : Type} {f g : β → α → Except ε β}
    (h : ∀ b a, ∃ b', f b a = .ok b' ∧ g b a = .ok b') (xs : List α) (b : β) :
    ∃ b', xs.foldlM f b = .ok b' ∧ xs.foldlM g b = .ok b' := by
  induction xs generalizing b with
  | nil => exact ⟨b, rfl, rfl⟩
  | cons a xs ih =>
    obtain ⟨b', hf, hg⟩ := h b a
    obtain ⟨c, hf', hg'⟩ := ih b'
    refine ⟨c, ?_, ?_⟩
    · rw [List.foldlM_cons, hf]
      exact hf'
    · rw [List.foldlM_cons, hg]
      exact hg'

/-- A walk lists what is below the unfolded node, if it does so below each
placeholder that it follows. -/
theorem Unfolds.walk_of_follow {P : Hash → Node → Prop} (h : Unfolds source P node full)
    {f g : Hash → Path → Listing → Except TrieError Listing}
    (hf : ∀ {h : Hash} {m n : Node}, source.load h = .ok m → Unfolds source P m n → P h n →
      ∀ path l, ∃ l', f h path l = .ok l' ∧ n.walk g path l = .ok l')
    (path : Path) (l : Listing) :
    ∃ l', node.walk f path l = .ok l' ∧ full.walk g path l = .ok l' := by
  induction h generalizing path l with
  | null => exact ⟨l, walk_null f path l, walk_null g path l⟩
  | leaf p v =>
    refine ⟨if l.isFull || l.isBefore path then l else l.add (path ++ p) v, ?_, ?_⟩
    · rw [walk_leaf]
      split <;> rfl
    · rw [walk_leaf]
      split <;> rfl
  | extension p child ih =>
    rw [walk_extension, walk_extension]
    split
    · exact ⟨l, rfl, rfl⟩
    · exact ih (path ++ p) l
  | branch v children ih =>
    rw [walk_branch, walk_branch]
    split
    · exact ⟨l, rfl, rfl⟩
    · exact foldlM_agree (fun l i => ih i (path ++ [i]) l) _ _
  | @hash h m n load below ne_null known =>
    by_cases hskip : (l.isFull || l.isBefore path) = true
    · exact ⟨l, walk_skip f path l hskip _, walk_skip g path l hskip n⟩
    · rw [walk_hash, if_neg hskip]
      exact hf load below known path l

/-- **A walk that may load every node once lists what is there.** -/
theorem Unfolds.walk {hashes : Finset Hash} {fuel : Nat}
    (h : Unfolds source (fun k _ => k ∈ hashes) node full) (hfuel : hashes.card ≤ fuel)
    (follow : Hash → Path → Listing → Except TrieError Listing) (path : Path) (l : Listing) :
    ∃ l', node.walk (walkHash source fuel) path l = .ok l' ∧ full.walk follow path l = .ok l' := by
  induction fuel generalizing hashes node full path l with
  | zero =>
    rw [Nat.le_zero, Finset.card_eq_zero] at hfuel
    subst hfuel
    exact h.walk_of_follow (fun _ _ hmem => absurd hmem (Finset.notMem_empty _)) path l
  | succ fuel ih =>
    refine h.walk_of_follow (fun {k m n} load below hmem path l => ?_) path l
    rw [walkHash_succ path l load]
    have hbelow : Unfolds source (fun k' _ => k' ∈ hashes.erase k) m n :=
      (below.met_ne load).mono fun load met => ⟨load, Finset.mem_erase.mpr ⟨met.2, met.1⟩⟩
    refine ih hbelow ?_ path l
    have := Finset.card_erase_of_mem hmem
    omega

/-- **A root lists the entries of its tree.** -/
theorem Rooted.entriesFrom {root : Node} {log : List (Hash × Bytes)}
    (h : Rooted source log root full) (hs : source.Has log) (hb : source.Bounded)
    (start : Hash) (limit : Nat) :
    ∃ entries, root.entriesFrom source start limit = .ok entries ∧
      full.entriesFrom .none start limit = .ok entries := by
  obtain ⟨hashes, hmem, hcard⟩ := hb
  have hbelow {m : Node} (h : Unfolds source (Stored log) m full) :
      Unfolds source (fun k _ => k ∈ hashes) m full :=
    h.mono fun load known => ⟨load, hmem _ (by simp [hs _ known.mem])⟩
  have hwalk (l : Listing) : ∃ l',
      root.walk (walkHash source (maxLoads source)) [] l = .ok l' ∧
        full.walk (walkHash .none (maxLoads .none)) [] l = .ok l' := by
    cases h with
    | held h => exact (hbelow h).walk (by rw [maxLoads]; omega) _ _ l
    | stored mem load below ne_null =>
      by_cases hskip : (l.isFull || l.isBefore []) = true
      · exact ⟨l, walk_skip _ _ l hskip _, walk_skip _ _ l hskip full⟩
      · rw [walk_hash, if_neg hskip, maxLoads, walkHash_succ _ l load]
        exact (hbelow below).walk (by omega) _ _ l
  obtain ⟨l, hroot, hfull⟩ := hwalk ⟨Path.ofBytes (Hash.toBytes start), limit, #[]⟩
  refine ⟨l.entries.toList, ?_, ?_⟩
  · rw [Node.entriesFrom, hroot]
    rfl
  · rw [Node.entriesFrom, hfull]
    rfl

end Node
end Ethereum
