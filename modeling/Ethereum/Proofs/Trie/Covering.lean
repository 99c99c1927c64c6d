/-
# A listing covers what lookups answer

Nothing is assumed here about the source or about the shape of nodes.  A walk that returns
has only added entries (`Listing.Extends`), and each value that a lookup finds below the node
is listed by then, if it is asked for and the limit is not reached (`Listing.Gains`).  A walk
does so if what follows placeholders does (`serves_walk`), and that does for any number of
loads (`serves_walkHash`).  A subtree that is left out holds nothing that is asked for, or the
list is full already (`serves_of_not_skip`).

So a listing that returns less than the limit has every answer from the start on
(`Trie.mem_of_entriesFrom`).
-/

import Mathlib
import Ethereum.Proofs.Trie.Answers
import Ethereum.Proofs.Trie.Ranging

namespace Ethereum
namespace Node
namespace Listing

variable {l l' l'' : Listing} {x : Hash × Bytes}

/-- `l'` asks for the same as `l`, and starts with the same entries. -/
structure Extends (l l' : Listing) : Prop where
  start_eq : l'.start = l.start
  limit_eq : l'.limit = l.limit
  kept : l.entries.toList <+: l'.entries.toList

theorem Extends.refl (l : Listing) : l.Extends l := ⟨rfl, rfl, List.prefix_refl _⟩

theorem Extends.trans (h : l.Extends l') (h' : l'.Extends l'') : l.Extends l'' where
  start_eq := h'.start_eq.trans h.start_eq
  limit_eq := h'.limit_eq.trans h.limit_eq
  kept := h.kept.trans h'.kept

theorem extends_add (l : Listing) (path : Path) (value : Bytes) : l.Extends (l.add path value) := by
  unfold add
  split
  · refine ⟨rfl, rfl, ?_⟩
    show _ <+: (l.entries.push _).toList
    rw [Array.toList_push]
    exact List.prefix_append _ _
  · exact .refl l

theorem extends_value (l : Listing) (path : Path) (v : Option Bytes) :
    l.Extends (match v with
      | some v => l.add path v
      | none => l) := by
  cases v with
  | none => exact .refl l
  | some w => exact l.extends_add path w

/-- The entry is listed, or the list is full. -/
def Covers (l : Listing) (x : Hash × Bytes) : Prop := l.isFull ∨ x ∈ l.entries

theorem Covers.mono (hx : l.Covers x) (h : l.Extends l') : l'.Covers x := by
  rcases hx with hfull | hmem
  · have hle : l.entries.size ≤ l'.entries.size := h.kept.length_le
    have hlimit := h.limit_eq
    simp only [isFull, decide_eq_true_eq] at hfull
    refine .inl ?_
    simp only [isFull, decide_eq_true_eq]
    omega
  · exact .inr (Array.mem_toList_iff.mp (h.kept.subset (Array.mem_toList_iff.mpr hmem)))

theorem covers_add {path : Path} (hlength : path.length = 64) (hstart : ¬ path < l.start)
    (value : Bytes) : (l.add path value).Covers (Word.ofBytes path.toBytes, value) := by
  rw [add, if_pos ⟨hlength, hstart⟩]
  exact .inr Array.mem_push_self

end Listing

variable {source : NodeSource} {follow : Hash → Path → Listing → Except TrieError Listing}

/-- What a walk below `n` from the end of a path on makes of a listing: it adds entries, and
covers each value that a lookup finds below `n` and that is asked for. -/
structure Listing.Gains (source : NodeSource) (n : Node) (path : Path) (l l' : Listing) : Prop where
  grows : l.Extends l'
  covers : ∀ rest value, n.lookup source rest = .ok (some value) → (path ++ rest).length = 64 →
    ¬ path ++ rest < l.start → l'.Covers (Word.ofBytes (path ++ rest).toBytes, value)

/-- The walk covers what lookups find below `n`, if it returns. -/
def Serves (source : NodeSource) (n : Node) (walk : Path → Listing → Except TrieError Listing) :
    Prop :=
  ∀ path l l', walk path l = .ok l' → Listing.Gains source n path l l'

/-- A walk that stops at once has nothing to cover, so the others are left to look at. -/
theorem serves_of_not_skip {n : Node}
    (h : ∀ path (l l' : Listing), ¬ (l.isFull || l.isBefore path) = true →
      n.walk follow path l = .ok l' → Listing.Gains source n path l l') :
    Serves source n (n.walk follow) := by
  intro path l l' hrun
  by_cases hskip : (l.isFull || l.isBefore path) = true
  · rw [walk_skip _ _ _ hskip] at hrun
    obtain rfl := Except.ok.inj hrun
    refine ⟨.refl l, fun rest value _ _ hstart => ?_⟩
    rcases Bool.or_eq_true_iff.mp hskip with hfull | hbefore
    · exact .inl hfull
    · exact absurd (lt_of_isBefore hbefore rest) hstart
  · exact h path l l' hskip hrun

/-- Walks below one child after the other cover what is below each of them. -/
theorem gains_of_foldlM {children : Nibble → Node} {path : Path} (is : List Nibble)
    (hserves : ∀ i, Serves source (children i) ((children i).walk follow)) {l l' : Listing}
    (hrun : is.foldlM (fun l i => (children i).walk follow (path ++ [i]) l) l = .ok l') :
    l.Extends l' ∧ ∀ i ∈ is, Listing.Gains source (children i) (path ++ [i]) l l' := by
  induction is generalizing l with
  | nil =>
    obtain rfl := Except.ok.inj hrun
    exact ⟨.refl l, fun i hi => absurd hi List.not_mem_nil⟩
  | cons i is ih =>
    rw [List.foldlM_cons] at hrun
    obtain ⟨l₁, hwalk, hrest⟩ := exists_of_bind_eq_ok hrun
    obtain ⟨hgrows, hcovers⟩ := hserves i _ _ _ hwalk
    obtain ⟨hgrows', hgains⟩ := ih hrest
    refine ⟨hgrows.trans hgrows', fun j hj => ⟨hgrows.trans hgrows', ?_⟩⟩
    intro rest value hlookup hlength hstart
    rcases List.mem_cons.mp hj with rfl | hj
    · exact (hcovers rest value hlookup hlength hstart).mono hgrows'
    · exact (hgains j hj).covers rest value hlookup hlength (hgrows.start_eq ▸ hstart)

/-- **A walk covers what lookups find below the node,** if what follows placeholders does. -/
theorem serves_walk (hfollow : ∀ h, Serves source (hash h) (follow h)) (n : Node) :
    Serves source n (n.walk follow) := by
  -- a walk skips a node only where all keys below it come before the start
  induction n with
  | null =>
    intro path l l' hrun
    rw [walk_null] at hrun
    obtain rfl := Except.ok.inj hrun
    refine ⟨.refl l, fun rest value hlookup => ?_⟩
    rw [lookup_null] at hlookup
    cases hlookup
  | hash h =>
    refine serves_of_not_skip fun path l l' hskip hrun => hfollow h path l l' ?_
    rwa [walk_hash, if_neg hskip] at hrun
  | leaf p v =>
    refine serves_of_not_skip fun path l l' hskip hrun => ?_
    rw [walk_leaf, if_neg hskip] at hrun
    obtain rfl := Except.ok.inj hrun
    refine ⟨l.extends_add _ _, fun rest value hlookup hlength hstart => ?_⟩
    rw [lookup_leaf] at hlookup
    split_ifs at hlookup with hp
    · obtain rfl := hp
      obtain rfl := Option.some.inj (Except.ok.inj hlookup)
      exact Listing.covers_add hlength hstart v
    · cases hlookup
  | extension p child ih =>
    refine serves_of_not_skip fun path l l' hskip hrun => ?_
    rw [walk_extension, if_neg hskip] at hrun
    obtain ⟨hgrows, hcovers⟩ := ih (path ++ p) l l' hrun
    refine ⟨hgrows, fun rest value hlookup hlength hstart => ?_⟩
    rw [lookup_extension] at hlookup
    split at hlookup
    · rename_i below hbelow
      obtain rfl := Path.after?_eq_some_iff.mp hbelow
      rw [← List.append_assoc] at hlength hstart ⊢
      exact hcovers below value hlookup hlength hstart
    · cases hlookup
  | branch children v ih =>
    refine serves_of_not_skip fun path l l' hskip hrun => ?_
    rw [walk_branch, if_neg hskip] at hrun
    -- the value of the branch itself comes before the children
    have hvalue := l.extends_value path v
    obtain ⟨hgrows, hgains⟩ := gains_of_foldlM _ ih hrun
    refine ⟨hvalue.trans hgrows, fun rest value hlookup hlength hstart => ?_⟩
    rcases rest with _ | ⟨i, rest⟩
    · rw [lookup_branch_nil] at hlookup
      obtain rfl := Except.ok.inj hlookup
      rw [List.append_nil] at hlength hstart ⊢
      exact (Listing.covers_add hlength hstart value).mono hgrows
    · rw [lookup_branch_cons] at hlookup
      rw [List.append_cons] at hlength hstart ⊢
      exact (hgains i (List.mem_finRange i)).covers rest value hlookup hlength
        (hvalue.start_eq ▸ hstart)

/-- **A walk below a placeholder** covers what lookups find there, however many loads it may
make. -/
theorem serves_walkHash (fuel : Nat) (h : Hash) : Serves source (hash h) (walkHash source fuel h) := by
  induction fuel generalizing h with
  | zero =>
    intro path l l' hrun
    cases hrun
  | succ fuel ih =>
    intro path l l' hrun
    rw [walkHash] at hrun
    obtain ⟨n, hload, hwalk⟩ := exists_of_bind_eq_ok hrun
    obtain ⟨hgrows, hcovers⟩ := serves_walk ih n path l l' hwalk
    refine ⟨hgrows, fun rest value hlookup => hcovers rest value ?_⟩
    rwa [lookup_hash hload] at hlookup

end Node

/-- **A listing covers the answers.**  If it returns less than the limit, it has what is under
each key from the start on. -/
theorem Trie.mem_of_entriesFrom {t : Trie} {source : NodeSource} {start h : Hash} {limit : Nat}
    {value : Bytes} {entries : List (Hash × Bytes)}
    (hlist : t.entriesFrom source start limit = .ok entries) (hroom : entries.length < limit)
    (hget : t.get source (Hash.toBytes h) = .ok (some value)) (hstart : start ≤ h) :
    (h, value) ∈ entries := by
  rw [entriesFrom, Node.entriesFrom] at hlist
  obtain ⟨l, hwalk, hl⟩ := exists_of_bind_eq_ok hlist
  obtain rfl := Except.ok.inj hl
  obtain ⟨hgrows, hcovers⟩ := Node.serves_walk (Node.serves_walkHash _) t.root [] _ l hwalk
  have hlength : (Path.ofBytes (Hash.toBytes h)).length = 64 := by
    rw [Path.length_ofBytes, Hash.length_toBytes]
  have hafter : ¬ Path.ofBytes (Hash.toBytes h) < Path.ofBytes (Hash.toBytes start) := by
    rw [Path.ofBytes_lt_iff, Hash.toBytes_lt_iff, BitVec.not_lt]
    exact hstart
  have hcovered := hcovers (Path.ofBytes (Hash.toBytes h)) value hget
  rw [List.nil_append, Path.toBytes_ofBytes] at hcovered
  rcases hcovered hlength hafter with hfull | hmem
  · have hlimit : l.limit = limit := hgrows.limit_eq
    simp only [Node.Listing.isFull, decide_eq_true_eq] at hfull
    rw [Array.length_toList] at hroom
    omega
  · have hword : Word.ofBytes (Hash.toBytes h) = h := Word.ofBytes_toBytes h
    rw [hword] at hmem
    exact Array.mem_toList_iff.mpr hmem

end Ethereum
