/-
# Changes keep nodes canonical, placeholders included

Other modules unfold a node before they call it canonical.  Here the nodes stay as
they are in memory: a placeholder is as good as what it loads, and what it loads may
hold placeholders again, without end.  `Node.Neat` is the shape of one node in
memory, `Node.Meets` says which placeholders loading leads to, and a node is settled
(`Node.Settled`) if it and all that is loaded below it have this shape.

A settled node that is not empty is taken apart and put together by one equation for
each kind of node (`sturdy_extension_iff` and the like), in which a placeholder
stands for what it loads.  From them, along a walk (`Node.descent`), insertion and
removal succeed on every settled node and settle again (`Settled.insert`,
`Settled.remove`, both in `settled_changes`).  An extension stays in front of a
branch because insertion into a branch gives a branch, and because removal joins an
extension with what is left below it (`Settled.prepend`, `Settled.collapse`).
-/

import Mathlib
import Ethereum.Proofs.Trie.Coding
import Ethereum.Proofs.Trie.Descending

namespace Ethereum
namespace Node

variable {source : NodeSource}

/-- Whether the node is a branch, or a placeholder of one. -/
def Forks (source : NodeSource) (n : Node) : Prop :=
  n.isBranch ∨ ∃ h m, n = hash h ∧ source.load h = .ok m ∧ m.isBranch

/-- The shape of a canonical node that is not empty, as far as it is in memory. -/
def Neat (source : NodeSource) : Node → Prop
  | null => False
  | leaf _ value => value ≠ []
  | extension p child => p ≠ [] ∧ child.Forks source ∧ child.Neat source
  | branch children value =>
    (∀ i, children i ≠ null → (children i).Neat source) ∧ value ≠ some [] ∧
      ∃ s t, s ≠ t ∧ Occupied children value s ∧ Occupied children value t
  | hash _ => True

/-- The placeholders in a node, and in what they load. -/
inductive Meets (source : NodeSource) : Node → Hash → Prop
  | here (h : Hash) : Meets source (hash h) h
  | extension {p : Path} {child : Node} {h : Hash} (below : Meets source child h) :
    Meets source (extension p child) h
  | branch {children : Nibble → Node} {value : Option Bytes} {h : Hash} (i : Nibble)
    (below : Meets source (children i) h) : Meets source (branch children value) h
  | load {k h : Hash} {n : Node} (load : source.load k = .ok n) (below : Meets source n h) :
    Meets source (hash k) h

/-- Every placeholder below the node loads a neat node. -/
def Loads (source : NodeSource) (n : Node) : Prop :=
  ∀ h, Meets source n h → ∃ m, source.load h = .ok m ∧ m.Neat source

/-- A settled node that is not empty. -/
def Sturdy (source : NodeSource) (n : Node) : Prop := n.Neat source ∧ n.Loads source

/-- **A settled node.**  It is empty or neat, and every placeholder met below it
loads a node that is neat too. -/
def Settled (source : NodeSource) (n : Node) : Prop :=
  (n ≠ null → n.Neat source) ∧ n.Loads source

theorem Settled.sturdy {n : Node} (h : n.Settled source) (hn : n ≠ null) : n.Sturdy source :=
  ⟨h.1 hn, h.2⟩

theorem Sturdy.settled {n : Node} (h : n.Sturdy source) : n.Settled source :=
  ⟨fun _ => h.1, h.2⟩

theorem Sturdy.ne_null {n : Node} (h : n.Sturdy source) : n ≠ null := by
  rintro rfl
  exact h.1

theorem Settled.null : Settled source null :=
  ⟨fun h => absurd rfl h, nofun⟩

/-! ## One equation for each kind of node -/

@[simp] theorem sturdy_leaf_iff {p : Path} {value : Bytes} :
    (leaf p value).Sturdy source ↔ value ≠ [] :=
  ⟨fun h => h.1, fun h => ⟨h, nofun⟩⟩

theorem sturdy_extension_iff {p : Path} {child : Node} :
    (extension p child).Sturdy source ↔
      p ≠ [] ∧ child.Forks source ∧ child.Sturdy source := by
  constructor
  · rintro ⟨⟨hp, hf, hn⟩, hl⟩
    exact ⟨hp, hf, hn, fun h hh => hl h (.extension hh)⟩
  · rintro ⟨hp, hf, hn, hl⟩
    refine ⟨⟨hp, hf, hn⟩, fun h hh => ?_⟩
    cases hh with
    | extension below => exact hl h below

theorem sturdy_branch_iff {children : Nibble → Node} {value : Option Bytes} :
    (branch children value).Sturdy source ↔
      (∀ i, (children i).Settled source) ∧ value ≠ some [] ∧
        ∃ s t, s ≠ t ∧ Occupied children value s ∧ Occupied children value t := by
  constructor
  · rintro ⟨⟨hc, hrest⟩, hl⟩
    exact ⟨fun i => ⟨hc i, fun h hh => hl h (.branch i hh)⟩, hrest⟩
  · rintro ⟨hc, hrest⟩
    refine ⟨⟨fun i => (hc i).1, hrest⟩, fun h hh => ?_⟩
    cases hh with
    | branch i below => exact (hc i).2 h below

/-- A placeholder is as good as what it loads. -/
theorem sturdy_hash_iff {h : Hash} :
    (hash h).Sturdy source ↔ ∃ n, source.load h = .ok n ∧ n.Sturdy source := by
  constructor
  · rintro ⟨-, hl⟩
    obtain ⟨n, hload, hn⟩ := hl h (.here h)
    exact ⟨n, hload, hn, fun k hk => hl k (.load hload hk)⟩
  · rintro ⟨n, hload, hn, hl⟩
    refine ⟨trivial, fun k hk => ?_⟩
    cases hk with
    | here => exact ⟨n, hload, hn⟩
    | load hload' below =>
      rw [hload] at hload'
      cases hload'
      exact hl k below

theorem forks_hash_iff {h : Hash} {n : Node} (hn : source.load h = .ok n) :
    (hash h).Forks source ↔ n.Forks source := by
  have hbranch : (hash h).Forks source ↔ n.isBranch := by
    simp [Forks, isBranch, hn]
  rw [hbranch, Forks, or_iff_left]
  rintro ⟨k, -, rfl, -⟩
  exact NodeSource.load_ne_hash hn rfl

theorem Forks.ne_null {n : Node} (h : n.Forks source) : n ≠ null := by
  rintro rfl
  obtain h | ⟨k, m, hk, -⟩ := h <;> contradiction

/-- In memory as a whole, settled nodes are the canonical ones without placeholders. -/
theorem settled_none_iff {n : Node} : n.Settled .none ↔ n.Canonical := by
  induction n with
  | null => exact iff_of_true .null .null
  | leaf p v => exact ⟨fun h => h.1, fun h => ⟨h, nofun⟩⟩
  | hash h =>
    refine iff_of_false (fun hs => ?_) fun hc => hc.ne_hash h rfl
    obtain ⟨n, hload, -⟩ := sturdy_hash_iff.mp (hs.sturdy nofun)
    exact NodeSource.load_none hload
  | extension p child ih =>
    constructor
    · intro h _
      obtain ⟨hp, hf, hc⟩ := sturdy_extension_iff.mp (h.sturdy nofun)
      have hbranch : child.isBranch := hf.resolve_right fun ⟨_, _, _, hload, _⟩ =>
        NodeSource.load_none hload
      exact ⟨hp, hbranch, ih.mp hc.settled hc.ne_null⟩
    · intro h
      obtain ⟨hp, hb, hc⟩ := h nofun
      exact (sturdy_extension_iff.mpr
        ⟨hp, .inl hb, (ih.mpr hc.canonical).sturdy hc.ne_null⟩).settled
  | branch children v ih =>
    constructor
    · intro h _
      obtain ⟨hc, hrest⟩ := sturdy_branch_iff.mp (h.sturdy nofun)
      exact ⟨fun i => (ih i).mp (hc i), hrest⟩
    · intro h
      obtain ⟨hc, hrest⟩ := h nofun
      exact (sturdy_branch_iff.mpr ⟨fun i => (ih i).mpr (hc i), hrest⟩).settled

/-! ## Rebuilt nodes -/

theorem Sturdy.wrap {n : Node} (h : n.Sturdy source) (hf : n.Forks source) (p : Path) :
    (Node.wrap p n).Sturdy source := by
  unfold Node.wrap
  split
  · exact h
  · rename_i hp
    exact sturdy_extension_iff.mpr ⟨hp, hf, h⟩

/-- An entry placed beside another one makes a branch of both. -/
theorem sturdy_place {children : Nibble → Node} {v : Option Bytes} (path : Path) {value : Bytes}
    (hv : value ≠ []) (hc : ∀ i, (children i).Settled source) (hne : v ≠ some [])
    {s : Option Nibble} (hs : Occupied children v s) (hp : s ≠ path.head?) :
    (place path value (branch children v)).Sturdy source ∧
      (place path value (branch children v)).isBranch := by
  obtain ⟨children', v', heq, hc', hne', hocc⟩ :=
    exists_place children v path hv (fun _ => (sturdy_leaf_iff.mpr hv).settled) hc hne
  rw [heq]
  exact ⟨sturdy_branch_iff.mpr
    ⟨hc', hne', s, path.head?, hp, (hocc s).mpr (.inr hs), (hocc _).mpr (.inl rfl)⟩, rfl⟩

theorem Settled.prepend {n : Node} (h : n.Settled source) (hn : ∀ k, n ≠ hash k) (p : Path) :
    (Node.prepend p n).Settled source := by
  cases n with
  | null => exact .null
  | leaf q v => exact (sturdy_leaf_iff.mpr (sturdy_leaf_iff.mp (h.sturdy nofun))).settled
  | extension q child =>
    obtain ⟨hq, hrest⟩ := sturdy_extension_iff.mp (h.sturdy nofun)
    exact (sturdy_extension_iff.mpr ⟨by simp [hq], hrest⟩).settled
  | branch children v => exact ((h.sturdy nofun).wrap (.inl rfl) p).settled
  | hash k => exact absurd rfl (hn k)

/-- What a settled node resolves to is settled. -/
theorem Settled.resolve {n : Node} (h : n.Settled source) :
    ∃ m, source.resolve n = .ok m ∧ m.val.Settled source := by
  cases n with
  | hash k =>
    obtain ⟨m, hload, hm⟩ := sturdy_hash_iff.mp (h.sturdy nofun)
    exact ⟨_, NodeSource.resolve_hash hload, hm.settled⟩
  | null | leaf | extension | branch => exact ⟨_, rfl, h⟩

/-! ## Changes -/

/-- **Insertion settles again.**  A value put into a branch leaves a branch. -/
theorem Settled.insert {n : Node} {path : Path} (h : n.Settled source) {value : Bytes}
    (hv : value ≠ []) :
    ∃ n', n.insert source path value = .ok n' ∧ n'.Sturdy source ∧
      (n.Forks source → n'.isBranch) := by
  -- below an extension there must be a branch again, which the second part keeps track of
  induction n, path using descent source with
  | null path =>
    exact ⟨_, insert_null path value, sturdy_leaf_iff.mpr hv, fun hf => absurd rfl hf.ne_null⟩
  | leaf p v path =>
    have hleaf : ¬ (leaf p v).Forks source := by simp [Forks, isBranch]
    by_cases hp : p = path
    · exact ⟨_, (insert_leaf p path v value).trans (if_pos hp), sturdy_leaf_iff.mpr hv,
        fun hf => absurd hf hleaf⟩
    · obtain ⟨q, a, b, rfl, rfl, hab⟩ := Path.exists_split_of_ne hp
      refine ⟨_, insert_leaf_of_parting q v value hab, ?_, fun hf => absurd hf hleaf⟩
      -- the entry that was there first, then the new one beside it
      have hold : v ≠ [] := sturdy_leaf_iff.mp (h.sturdy (by simp))
      obtain ⟨cs, w, heq, hcs, hw, hocc⟩ := exists_place (fun _ => .null) none a hold
        (fun _ => (sturdy_leaf_iff.mpr hold).settled) (fun _ => .null) (by simp)
      obtain ⟨hplace, hbranch⟩ := sturdy_place b hv hcs hw ((hocc a.head?).mpr (.inl rfl)) hab
      rw [emptyBranch, heq]
      exact hplace.wrap (.inl hbranch) q
  | extension p child path ih =>
    have hext : ¬ (extension p child).Forks source := by simp [Forks, isBranch]
    obtain ⟨hp, hf, hc⟩ := sturdy_extension_iff.mp (h.sturdy (by simp))
    obtain ⟨rest, rfl⟩ | ⟨q, i, rest, b, rfl, rfl, hi⟩ := Path.follows_or_parts p path
    · obtain ⟨child', hinsert, hsturdy, hbranch⟩ := ih rest rfl hc.settled
      rw [insert_extension_append, hinsert]
      exact ⟨_, rfl, sturdy_extension_iff.mpr ⟨hp, .inl (hbranch hf), hsturdy⟩,
        fun hf => absurd hf hext⟩
    · refine ⟨_, insert_extension_of_parting q rest child value hi, ?_,
        fun hf => absurd hf hext⟩
      -- what is left of the extension, then the new entry beside it
      have hrest := hc.wrap hf rest
      obtain ⟨hplace, hbranch⟩ := sturdy_place b hv
        (forall_setChild (fun _ => .null) i hrest.settled) (v := none) (by simp) (s := some i)
        (by simpa [Occupied, Node.setChild] using hrest.ne_null) hi
      exact hplace.wrap (.inl hbranch) q
  | branch_nil children v =>
    obtain ⟨hc, -, s, t, hst, hs, ht⟩ := sturdy_branch_iff.mp (h.sturdy (by simp))
    exact ⟨_, insert_branch_nil children v value, sturdy_branch_iff.mpr
      ⟨hc, by simpa using hv, s, t, hst, hs.setValue value, ht.setValue value⟩, fun _ => rfl⟩
  | branch_cons children v i rest ih =>
    obtain ⟨hc, hne, s, t, hst, hs, ht⟩ := sturdy_branch_iff.mp (h.sturdy (by simp))
    obtain ⟨child', hinsert, hsturdy, -⟩ := ih (hc i)
    rw [insert_branch_cons, hinsert]
    exact ⟨_, rfl, sturdy_branch_iff.mpr
      ⟨forall_setChild hc i hsturdy.settled, hne, s, t, hst, hs.setChild i hsturdy.ne_null,
        ht.setChild i hsturdy.ne_null⟩, fun _ => rfl⟩
  | missing k e path hload =>
    obtain ⟨m, hload', -⟩ := sturdy_hash_iff.mp (h.sturdy (by simp))
    rw [hload] at hload'
    contradiction
  | loaded k m path hload ih =>
    obtain ⟨m', hload', hm⟩ := sturdy_hash_iff.mp (h.sturdy (by simp))
    rw [hload] at hload'
    cases hload'
    rw [insert_hash hload, forks_hash_iff hload]
    exact ih hm.settled

/-- **A branch that lost an entry settles again.**  The last child left may be a
placeholder; it is loaded before its step is put in front of it. -/
theorem Settled.collapse {children : Nibble → Node} {v : Option Bytes}
    (hc : ∀ i, (children i).Settled source) (hv : v ≠ some []) :
    ∃ n', Node.collapse source children v = .ok n' ∧ n'.Settled source := by
  cases collapse_cases source children v with
  | empty _ hrun => exact ⟨_, hrun, .null⟩
  | value v _ hrun =>
    exact ⟨_, hrun, (sturdy_leaf_iff.mpr fun hnil => hv (congrArg some hnil)).settled⟩
  | joined i _ hrun =>
    obtain ⟨m, hm, hsettled⟩ := (hc i).resolve
    rw [hrun, hm]
    exact ⟨_, rfl, hsettled.prepend (resolve_ne_hash hm) [i]⟩
  | kept hst hs ht hrun =>
    exact ⟨_, hrun, (sturdy_branch_iff.mpr ⟨hc, hv, _, _, hst, hs, ht⟩).settled⟩

/-- **Removal settles again.** -/
theorem Settled.remove {n : Node} {path : Path} (h : n.Settled source) :
    ∃ n', n.remove source path = .ok n' ∧ n'.Settled source := by
  induction n, path using descent source with
  | null path => exact ⟨_, remove_null path, .null⟩
  | leaf p v path =>
    rw [remove_leaf]
    split
    · exact ⟨_, rfl, .null⟩
    · exact ⟨_, rfl, h⟩
  | extension p child path ih =>
    obtain ⟨-, -, hc⟩ := sturdy_extension_iff.mp (h.sturdy nofun)
    rw [remove_extension]
    cases hafter : Path.after? p path with
    | none => exact ⟨_, rfl, h⟩
    | some rest =>
      obtain ⟨child', hremove, hsettled⟩ :=
        ih rest (Path.after?_eq_some_iff.mp hafter) hc.settled
      simp only [hremove]
      exact ⟨_, rfl, hsettled.prepend (remove_ne_hash hremove) p⟩
  | branch_nil children v =>
    obtain ⟨hc, -, -⟩ := sturdy_branch_iff.mp (h.sturdy nofun)
    rw [remove_branch_nil]
    exact Settled.collapse hc nofun
  | branch_cons children v i rest ih =>
    obtain ⟨hc, hne, -⟩ := sturdy_branch_iff.mp (h.sturdy nofun)
    obtain ⟨child', hremove, hsettled⟩ := ih (hc i)
    rw [remove_branch_cons, hremove]
    exact Settled.collapse (forall_setChild hc i hsettled) hne
  | missing k e path hload =>
    obtain ⟨m, hload', -⟩ := sturdy_hash_iff.mp (h.sturdy nofun)
    rw [hload] at hload'
    contradiction
  | loaded k m path hload ih =>
    obtain ⟨m', hload', hm⟩ := sturdy_hash_iff.mp (h.sturdy nofun)
    rw [hload] at hload'
    cases hload'
    rw [remove_hash hload]
    exact ih hm.settled

/-- **Changes keep nodes canonical.**  On a settled node, whatever its placeholders
load and wherever the path leads, a value that is not empty can be inserted and the
path can be removed, and both give a settled node; the first is not empty. -/
theorem settled_changes {n : Node} (h : n.Settled source) (path : Path) :
    (∀ value ≠ [], ∃ n', n.insert source path value = .ok n' ∧ n' ≠ null ∧ n'.Settled source) ∧
      ∃ n', n.remove source path = .ok n' ∧ n'.Settled source := by
  refine ⟨fun value hv => ?_, h.remove⟩
  obtain ⟨n', hinsert, hsturdy, -⟩ := h.insert hv
  exact ⟨n', hinsert, hsturdy.ne_null, hsturdy.settled⟩

/-- A branch with two placeholders of itself. -/
def circle : Node := branch (setChild (setChild (fun _ => null) 0 (hash 5)) 1 (hash 5)) none

/-- The source in which the placeholders of `circle` lead back to it. -/
def circling : NodeSource := ⟨fun h => if h = 5 then some circle.encode else none, 1⟩

theorem circle_child (i : Nibble) :
    setChild (setChild (fun _ => null) 0 (hash 5)) 1 (hash 5) i = null ∨
      setChild (setChild (fun _ => null) 0 (hash 5)) 1 (hash 5) i = hash 5 := by
  unfold setChild
  split
  · exact .inr rfl
  · split
    · exact .inr rfl
    · exact .inl rfl

theorem load_circling : circling.load 5 = .ok circle := by
  have hdecode : decode circle.encode = .ok circle := by
    rw [circle, encode_branch]
    refine decode_branch (fun i => isItem_reference _) (Rlp.isItem_string (by simp))
      (by decide +kernel) (fun i => ?_) (Rlp.payload_string (by simp))
    rcases circle_child i with hi | hi <;> rw [hi]
    · exact read_reference nofun fun _ => decode_encode .null (by decide)
    · have hstring : Rlp.isList (Rlp.string (Hash.toBytes 5)) = false :=
        Rlp.isList_string (by rw [Hash.length_toBytes]; omega)
      change (if Rlp.isList (Rlp.string (Hash.toBytes 5)) then _ else _) = _
      rw [hstring, if_neg Bool.false_ne_true]
      exact decodeReference_hashed 5
  have hread : circling.read 5 = some circle.encode := rfl
  simp only [NodeSource.load, hread, hdecode]

theorem meets_circle {n : Node} {h : Hash} (hmeets : Meets circling n h)
    (hn : n = null ∨ n = hash 5 ∨ n = circle) : h = 5 := by
  induction hmeets with
  | here h => simpa [circle] using hn
  | extension => simp [circle] at hn
  | branch i _ ih =>
    obtain ⟨rfl, -⟩ : _ ∧ _ := by simpa [circle] using hn
    exact ih ((circle_child i).imp_right .inl)
  | load hload _ ih =>
    obtain rfl : _ = (5 : Hash) := by simpa [circle] using hn
    rw [load_circling] at hload
    cases hload
    exact ih (.inr (.inr rfl))

/-- Loading below a placeholder of `circle` never ends, and still every change of it
succeeds. -/
theorem settled_changes_circle : (hash 5).Settled circling ∧
    (∃ n', (hash 5).insert circling [0, 1, 3] [7] = .ok n' ∧ n' ≠ null ∧ n'.Settled circling) ∧
      ∃ n', (hash 5).remove circling [0, 1, 3] = .ok n' ∧ n'.Settled circling := by
  have hneat : circle.Neat circling := by
    refine ⟨fun i hi => ?_, nofun, some 0, some 1, by decide, nofun, nofun⟩
    rw [(circle_child i).resolve_left hi]
    trivial
  have hsettled : (hash 5).Settled circling := by
    refine ⟨fun _ => trivial, fun h hh => ⟨circle, ?_, hneat⟩⟩
    rw [meets_circle hh (.inr (.inl rfl))]
    exact load_circling
  obtain ⟨hinsert, hremove⟩ := settled_changes hsettled [0, 1, 3]
  exact ⟨hsettled, hinsert [7] nofun, hremove⟩

end Node
end Ethereum
