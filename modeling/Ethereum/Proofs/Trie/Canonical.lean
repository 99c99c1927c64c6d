/-
# The one node for given entries

`find` reads a path off a node whose whole subtree is in memory.  Many nodes
answer alike; a *canonical* one (`Canonical`) holds nothing that no path reaches:
no empty value, no extension without steps or in front of anything but a branch,
no branch with a single entry, no empty node but the root.

Two entries of a branch part at their first step (`Proper.exists_fork`), an
extension is as long as its entries agree, and so a canonical node is known from
what it answers (`Canonical.eq_of_find_eq`).
-/

import Mathlib
import Ethereum.Trie.Node
import Ethereum.Proofs.Trie.Path

namespace Ethereum
namespace Node

/-- The value at the end of a path below a node whose subtree is in memory. -/
def find : Node → Path → Option Bytes
  | null, _ => none
  | leaf p value, path => if p = path then some value else none
  | extension p child, path => Path.under p child.find path
  | branch _ value, [] => value
  | branch children _, i :: rest => (children i).find rest
  | hash _, _ => none

/-- Whether the node branches. -/
def isBranch : Node → Bool
  | branch _ _ => true
  | _ => false

/-- Whether a branch has something in a slot: its value, or a child. -/
def Occupied (children : Nibble → Node) (value : Option Bytes) : Option Nibble → Prop
  | none => value ≠ none
  | some i => children i ≠ null

/-- A canonical node that is not empty. -/
def Proper : Node → Prop
  | null => False
  | leaf _ value => value ≠ []
  | extension p child => p ≠ [] ∧ child.isBranch ∧ child.Proper
  | branch children value =>
    (∀ i, children i ≠ null → (children i).Proper) ∧ value ≠ some [] ∧
      ∃ s t, s ≠ t ∧ Occupied children value s ∧ Occupied children value t
  | hash _ => False

/-- **A canonical node.**  It is empty, or nothing below it is empty or longer
than it has to be. -/
def Canonical (n : Node) : Prop := n ≠ null → n.Proper

theorem isNull_eq_true_iff {n : Node} : n.isNull = true ↔ n = null := by
  cases n <;> simp [isNull]

theorem hash_or_ne_hash (n : Node) : (∃ h, n = hash h) ∨ ∀ h, n ≠ hash h := by
  cases n with
  | hash h => exact .inl ⟨h, rfl⟩
  | _ => exact .inr nofun

@[simp] theorem find_null (path : Path) : null.find path = none := by
  rw [find]

@[simp] theorem find_branch_nil (children : Nibble → Node) (value : Option Bytes) :
    (branch children value).find [] = value := by
  rw [find]

@[simp] theorem find_branch_cons (children : Nibble → Node) (value : Option Bytes) (i : Nibble)
    (rest : Path) : (branch children value).find (i :: rest) = (children i).find rest := by
  rw [find]

theorem find_leaf (p path : Path) (value : Bytes) :
    (leaf p value).find path = if p = path then some value else none := by
  rw [find]

theorem find_extension (p : Path) (child : Node) :
    (extension p child).find = Path.under p child.find := by
  funext path
  rw [find]

theorem find_extension_append (p path : Path) (child : Node) :
    (extension p child).find (p ++ path) = child.find path := by
  rw [find_extension, Path.under_append]

theorem Canonical.null : Canonical null := fun h => absurd rfl h

theorem Proper.canonical {n : Node} (h : n.Proper) : n.Canonical := fun _ => h

theorem Canonical.ne_hash {n : Node} (h : n.Canonical) (k : Hash) : n ≠ hash k := by
  rintro rfl
  exact h nofun

theorem Proper.ne_null {n : Node} (h : n.Proper) : n ≠ null := by
  rintro rfl
  exact h

theorem Proper.child {children : Nibble → Node} {value : Option Bytes}
    (h : (branch children value).Proper) (i : Nibble) : (children i).Canonical :=
  h.1 i

/-- What a path leads to below a canonical node is not empty. -/
theorem Canonical.value_ne_nil {n : Node} (h : n.Canonical) {path : Path} {value : Bytes}
    (hv : n.find path = some value) : value ≠ [] := by
  induction n generalizing path with
  | null => simp at hv
  | hash h => simp [find] at hv
  | leaf p v =>
    rw [find_leaf] at hv
    split at hv
    · cases hv
      exact h (by simp)
    · contradiction
  | extension p child ih =>
    rw [find_extension] at hv
    obtain ⟨rest, -, hv⟩ := Option.bind_eq_some_iff.mp hv
    exact ih (h (by simp)).2.2.canonical hv
  | branch children v ih =>
    rcases path with _ | ⟨i, rest⟩
    · rintro rfl
      exact (h (by simp)).2.1 hv
    · exact ih i ((h (by simp)).child i) hv

/-- A canonical node that is not empty has an entry. -/
theorem Proper.exists_find {n : Node} (h : n.Proper) : ∃ path, n.find path ≠ none := by
  induction n with
  | null => exact absurd h id
  | hash _ => exact absurd h id
  | leaf p v => exact ⟨p, by simp [find_leaf]⟩
  | extension p child ih =>
    obtain ⟨path, hpath⟩ := ih h.2.2
    exact ⟨p ++ path, by rwa [find_extension_append]⟩
  | branch children v ih =>
    obtain ⟨hc, -, s, t, -, hs, -⟩ := h
    rcases s with _ | i
    · exact ⟨[], hs⟩
    · obtain ⟨path, hpath⟩ := ih i (hc i hs)
      exact ⟨i :: path, hpath⟩

/-- An occupied slot of a branch has an entry that starts there. -/
theorem Proper.exists_find_of_occupied {children : Nibble → Node} {value : Option Bytes}
    (h : (branch children value).Proper) {s : Option Nibble} (hs : Occupied children value s) :
    ∃ path, path.head? = s ∧ (branch children value).find path ≠ none := by
  rcases s with _ | i
  · exact ⟨[], rfl, hs⟩
  · obtain ⟨path, hpath⟩ := (h.1 i hs).exists_find
    exact ⟨i :: path, rfl, hpath⟩

/-- Two entries of a branch part at their first step. -/
theorem Proper.exists_fork {n : Node} (h : n.Proper) (hn : n.isBranch) :
    ∃ a b : Path, a.head? ≠ b.head? ∧ n.find a ≠ none ∧ n.find b ≠ none := by
  rcases n with _ | _ | _ | ⟨children, value⟩ | _
  case branch =>
    obtain ⟨s, t, hst, hs, ht⟩ := h.2.2
    obtain ⟨a, ha, hfa⟩ := h.exists_find_of_occupied hs
    obtain ⟨b, hb, hfb⟩ := h.exists_find_of_occupied ht
    exact ⟨a, b, by rwa [ha, hb], hfa, hfb⟩
  all_goals exact absurd hn Bool.false_ne_true

/-- Below an extension every entry starts with its path. -/
theorem prefix_of_find_extension {p path : Path} {child : Node}
    (h : (extension p child).find path ≠ none) : p <+: path := by
  by_contra hp
  rw [find_extension, Path.under_eq_none _ hp] at h
  exact h rfl

/-- Extensions with the same entries have the same path. -/
theorem path_eq_of_find_eq {p q : Path} {c d : Node} (hp : (extension p c).Proper)
    (hq : (extension q d).Proper)
    (h : ∀ path, (extension p c).find path = (extension q d).find path) : p = q := by
  obtain ⟨a, b, hab, ha, hb⟩ := hp.2.2.exists_fork hp.2.1
  obtain ⟨a', b', hab', ha', hb'⟩ := hq.2.2.exists_fork hq.2.1
  have below {path : Path} (hf : c.find path ≠ none) : q <+: p ++ path := by
    rw [← find_extension_append p, h] at hf
    exact prefix_of_find_extension hf
  have above {path : Path} (hf : d.find path ≠ none) : p <+: q ++ path := by
    rw [← find_extension_append q, ← h] at hf
    exact prefix_of_find_extension hf
  have hle := Path.length_le_of_fork hab (below ha) (below hb)
  have hge := Path.length_le_of_fork hab' (above ha') (above hb')
  exact (List.prefix_of_prefix_length_le (above ha') (List.prefix_append q a') hge).eq_of_length
    (by omega)

/-- A leaf has one entry. -/
theorem eq_of_find_leaf {p path : Path} {value : Bytes} (h : (leaf p value).find path ≠ none) :
    p = path := by
  by_contra hp
  rw [find_leaf, if_neg hp] at h
  exact h rfl

/-- Only branches have entries that part at the first step. -/
theorem Proper.isBranch_iff {n : Node} (h : n.Proper) :
    n.isBranch ↔ ∃ a b : Path, a.head? ≠ b.head? ∧ n.find a ≠ none ∧ n.find b ≠ none := by
  refine ⟨h.exists_fork, ?_⟩
  rintro ⟨a, b, hab, ha, hb⟩
  cases n with
  | null => exact absurd h id
  | hash _ => exact absurd h id
  | branch children value => rfl
  | leaf p value =>
    rw [← eq_of_find_leaf ha, ← eq_of_find_leaf hb] at hab
    exact absurd rfl hab
  | extension p child =>
    have hle := Path.length_le_of_fork (p := []) hab (prefix_of_find_extension ha)
      (prefix_of_find_extension hb)
    exact absurd (List.eq_nil_of_length_eq_zero (Nat.le_zero.mp hle)) h.1

/-- With the same entries both nodes branch or none does. -/
theorem isBranch_of_find_eq {m n : Node} (hm : m.Proper) (hn : n.Proper)
    (h : ∀ path, m.find path = n.find path) (hb : m.isBranch) : n.isBranch := by
  obtain ⟨a, b, hab, ha, hb⟩ := hm.isBranch_iff.mp hb
  exact hn.isBranch_iff.mpr ⟨a, b, hab, by rwa [← h], by rwa [← h]⟩

/-- No leaf has the entries of an extension. -/
theorem leaf_ne_extension {p q : Path} {value : Bytes} {c : Node} (hc : (extension q c).Proper)
    (h : ∀ path, (extension q c).find path = (leaf p value).find path) : False := by
  obtain ⟨a, b, hab, ha, hb⟩ := hc.2.2.exists_fork hc.2.1
  rw [← find_extension_append q, h] at ha hb
  exact hab (congrArg List.head?
    (List.append_cancel_left ((eq_of_find_leaf ha).symm.trans (eq_of_find_leaf hb))))

/-- A canonical node without entries is empty. -/
theorem Canonical.eq_null {n : Node} (h : n.Canonical) (hf : ∀ path, n.find path = none) :
    n = .null := by
  by_contra hn
  obtain ⟨path, hpath⟩ := (h hn).exists_find
  exact hpath (hf path)

theorem Proper.eq_of_find_eq {m n : Node} (hm : m.Proper) (hn : n.Proper)
    (h : ∀ path, m.find path = n.find path) : m = n := by
  have hmn := isBranch_of_find_eq hm hn h
  have hnm := isBranch_of_find_eq hn hm fun path => (h path).symm
  -- the entries tell the kind of a node: a branch has two that part at the first step, an
  -- extension two that part later, and a leaf has one
  induction m generalizing n with
  | null => exact absurd hm id
  | hash _ => exact absurd hm id
  | leaf p v =>
    cases n with
    | null => exact absurd hn id
    | hash _ => exact absurd hn id
    | leaf q w =>
      have hp : (leaf q w).find p ≠ none := by
        rw [← h, find_leaf, if_pos rfl]
        exact Option.some_ne_none v
      obtain rfl : q = p := eq_of_find_leaf hp
      have hv := h q
      rw [find_leaf, find_leaf, if_pos rfl, if_pos rfl] at hv
      rw [Option.some.inj hv]
    | extension q d => exact (leaf_ne_extension hn fun path => (h path).symm).elim
    | branch ds w => exact absurd (hnm rfl) Bool.false_ne_true
  | extension p c ih =>
    cases n with
    | null => exact absurd hn id
    | hash _ => exact absurd hn id
    | leaf q w => exact (leaf_ne_extension hm h).elim
    | extension q d =>
      obtain rfl := path_eq_of_find_eq hm hn h
      have hcd : ∀ path, c.find path = d.find path := fun path => by
        rw [← find_extension_append p, h, find_extension_append]
      rw [ih hm.2.2 hn.2.2 hcd (fun _ => hn.2.1) fun _ => hm.2.1]
    | branch ds w => exact absurd (hnm rfl) Bool.false_ne_true
  | branch cs v ih =>
    cases n with
    | null => exact absurd hn id
    | hash _ => exact absurd hn id
    | leaf q w => exact absurd (hmn rfl) Bool.false_ne_true
    | extension q d => exact absurd (hmn rfl) Bool.false_ne_true
    | branch ds w =>
      obtain rfl : v = w := by simpa using h []
      have hcs : cs = ds := funext fun i => by
        have hi : ∀ rest, (cs i).find rest = (ds i).find rest := fun rest => by
          simpa using h (i :: rest)
        by_cases hc : cs i = .null
        · have hd : ∀ rest, (ds i).find rest = none := fun rest => by rw [← hi, hc, find_null]
          rw [hc, (hn.child i).eq_null hd]
        · have hd : ds i ≠ .null := fun hd =>
            hc ((hm.child i).eq_null fun rest => by rw [hi, hd, find_null])
          have hci := hm.1 i hc
          have hdi := hn.1 i hd
          exact ih i hci hdi hi (isBranch_of_find_eq hci hdi hi)
            (isBranch_of_find_eq hdi hci fun rest => (hi rest).symm)
      rw [hcs]

/-- **A canonical node is known from what it answers.** -/
theorem Canonical.eq_of_find_eq {m n : Node} (hm : m.Canonical) (hn : n.Canonical)
    (h : ∀ path, m.find path = n.find path) : m = n := by
  by_cases hm' : m = .null
  · rw [hm', hn.eq_null fun path => by rw [← h, hm', find_null]]
  · have hn' : n ≠ .null := fun hn' => hm' (hm.eq_null fun path => by rw [h, hn', find_null])
    exact (hm hm').eq_of_find_eq (hn hn') h

end Node
end Ethereum
