/-
# Nodes read back from their encoding

What is read from the encoding of a node is the node as storage holds it
(`Readable.decode_encode`): a child with a short encoding comes back whole, a longer
one as its hash (`Node.embed`, `Node.shallow`).  Two shapes do not come back, and
nodes without them are `Readable`: a branch with an empty value is read as one without
a value, and an extension without steps or without a child is refused.  Canonical
nodes have neither (`decode_encode`).

The lengths in an encoding have to stay below `2 ^ 64`, which they do below every
key and value that fits in memory (`Node.length_encode_lt`).
-/

import Mathlib
import Ethereum.Trie.Source
import Ethereum.Proofs.Rlp.RoundTrip
import Ethereum.Proofs.Trie.Canonical
import Ethereum.Proofs.Trie.HexPrefix

namespace Ethereum

namespace Node

/-! ## Nodes in storage -/

/-- A node that can be read back: no extension in it lacks steps or a child, and no
value of a branch is empty.  It may hold hashes. -/
def Readable : Node → Prop
  | extension p child => p ≠ [] ∧ child ≠ null ∧ child.Readable
  | branch children v => v ≠ some [] ∧ ∀ i, (children i).Readable
  | _ => True

theorem Canonical.readable {n : Node} (hn : n.Canonical) : n.Readable := by
  induction n with
  | extension p child ih =>
    obtain ⟨hp, -, hchild⟩ := hn nofun
    exact ⟨hp, hchild.ne_null, ih hchild.canonical⟩
  | branch children v ih =>
    have hproper := hn nofun
    exact ⟨hproper.2.1, fun i => ih i (hproper.child i)⟩
  | _ => trivial

/-- A node as its parent in storage holds it. -/
def embed (n : Node) : Node :=
  match n.reference with
  | .inline _ => n
  | .hashed h => hash h

/-- A node as storage holds it. -/
def shallow : Node → Node
  | extension p child => extension p child.embed
  | branch children v => branch (fun i => (children i).embed) v
  | n => n

theorem reference_of_short {n : Node} (hn : ∀ h, n ≠ hash h) (h : n.encode.length < 32) :
    n.reference = .inline n.encode := by
  cases n with
  | hash k => exact absurd rfl (hn k)
  | _ => rw [reference, referenceOf, if_pos h]; exact nofun

theorem reference_of_long {n : Node} (hn : ∀ h, n ≠ hash h) (h : ¬ n.encode.length < 32) :
    n.reference = .hashed (keccak n.encode) := by
  cases n with
  | hash k => exact absurd rfl (hn k)
  | _ => rw [reference, referenceOf, if_neg h]; exact nofun

theorem embed_of_short {n : Node} (hn : ∀ h, n ≠ hash h) (h : n.encode.length < 32) :
    n.embed = n := by
  rw [embed, reference_of_short hn h]

theorem embed_of_long {n : Node} (hn : ∀ h, n ≠ hash h) (h : ¬ n.encode.length < 32) :
    n.embed = hash (keccak n.encode) := by
  rw [embed, reference_of_long hn h]

theorem length_reference_hashed (h : Hash) : (Reference.hashed h).encode.length = 33 :=
  Rlp.length_string_hash h

/-- A reference is never longer than that to a hash. -/
theorem length_reference_le (n : Node) : n.reference.encode.length ≤ 33 := by
  rcases n.hash_or_ne_hash with ⟨h, rfl⟩ | hn
  · exact (length_reference_hashed h).le
  · by_cases hlen : n.encode.length < 32
    · rw [reference_of_short hn hlen]
      exact le_trans hlen.le (by omega)
    · rw [reference_of_long hn hlen]
      exact (length_reference_hashed _).le

/-- A child whose reference is short is embedded. -/
theorem embed_of_reference {n : Node} (h : n.reference.encode.length < 32) : n.embed = n := by
  rw [embed]
  split
  · rfl
  · rename_i k hk
    rw [hk, length_reference_hashed] at h
    omega

theorem encode_extension (p : Path) (child : Node) :
    (extension p child).encode =
      Rlp.list [Rlp.string (HexPrefix.encode p false), child.reference.encode] := by
  rw [encode, reference]

theorem encode_branch (children : Nibble → Node) (v : Option Bytes) :
    (branch children v).encode =
      Rlp.list ((List.ofFn fun i => (children i).reference.encode) ++ [Rlp.string (v.getD [])]) := by
  simp only [encode, reference]

/-- The children of a short node are all embedded. -/
theorem shallow_of_short {n : Node} (h : n.encode.length < 32) : n.shallow = n := by
  cases n with
  | extension p child =>
    rw [encode_extension] at h
    have hle := Rlp.length_flatten_le
      [Rlp.string (HexPrefix.encode p false), child.reference.encode]
    simp only [List.flatten_cons, List.flatten_nil, List.length_append, List.length_nil] at hle
    rw [shallow, embed_of_reference (by omega)]
  | branch children v =>
    rw [shallow]
    congr 1
    funext i
    refine embed_of_reference ?_
    rw [encode_branch] at h
    have hle := Rlp.length_flatten_le
      ((List.ofFn fun i => (children i).reference.encode) ++ [Rlp.string (v.getD [])])
    have hmem : (children i).reference.encode ∈
        (List.ofFn fun i => (children i).reference.encode) ++ [Rlp.string (v.getD [])] :=
      List.mem_append_left _ (List.mem_ofFn.mpr ⟨i, rfl⟩)
    have := (List.sublist_flatten_of_mem hmem).length_le
    omega
  | _ => rfl

/-- A node stays one that is not empty. -/
theorem isNull_embed (n : Node) : n.embed.isNull = n.isNull := by
  rw [embed]
  split
  · rfl
  · rename_i h hn
    cases n with
    | null => contradiction
    | _ => rfl

/-! ## Reading -/

theorem decodeReference_hashed (h : Hash) :
    decodeReference (Rlp.string (Hash.toBytes h)) = .ok (hash h) := by
  have hlen := Hash.length_toBytes h
  have hpayload := Rlp.payload_string (b := Hash.toBytes h) (by omega)
  simp only [decodeReference, hpayload, bind, Except.bind, hlen]
  exact congrArg (fun h => Except.ok (hash h)) (Word.ofBytes_toBytes h)

theorem isItem_encode {n : Node} (h : n.encode.length < 2 ^ 64) : Rlp.IsItem n.encode := by
  cases n with
  | null => exact Rlp.isItem_string (by simp)
  | hash k => exact Rlp.isItem_string (by rw [Hash.length_toBytes]; omega)
  | _ =>
    exact Rlp.isItem_list (lt_of_le_of_lt (Rlp.length_flatten_le _) h)

theorem isItem_hashed (h : Hash) : Rlp.IsItem (Reference.hashed h).encode :=
  isItem_encode (n := .hash h) (by rw [encode, Rlp.length_string_hash]; omega)

theorem isItem_reference (n : Node) : Rlp.IsItem n.reference.encode := by
  rcases n.hash_or_ne_hash with ⟨h, rfl⟩ | hn
  · exact isItem_hashed h
  · by_cases hlen : n.encode.length < 32
    · rw [reference_of_short hn hlen]
      exact isItem_encode (by omega)
    · rw [reference_of_long hn hlen]
      exact isItem_hashed _

/-- Nodes that are not empty are written as lists. -/
theorem exists_list {n : Node} (hnull : n ≠ null) (hn : ∀ h, n ≠ hash h) :
    ∃ xs, n.encode = Rlp.list xs := by
  cases n with
  | null => exact absurd rfl hnull
  | hash h => exact absurd rfl (hn h)
  | _ => exact ⟨_, by rw [encode]⟩

/-- Reading a child, given that its node comes back if it is embedded. -/
theorem read_reference {n : Node} (hn : ∀ h, n ≠ hash h)
    (ih : n.encode.length < 2 ^ 64 → decode n.encode = .ok n.shallow) :
    (if Rlp.isList n.reference.encode then decode n.reference.encode
      else decodeReference n.reference.encode) = .ok n.embed := by
  by_cases hlen : n.encode.length < 32
  · rw [reference_of_short hn hlen, embed_of_short hn hlen, Reference.encode]
    by_cases hnull : n = null
    · subst hnull
      rfl
    · obtain ⟨xs, hxs⟩ := exists_list hnull hn
      have hlist : Rlp.isList n.encode := by
        rw [hxs] at hlen ⊢
        exact Rlp.isList_list (by have := Rlp.length_flatten_le xs; omega)
      rw [if_pos hlist, ih (by omega), shallow_of_short hlen]
  · rw [reference_of_long hn hlen, embed_of_long hn hlen, Reference.encode]
    have hstring : Rlp.isList (Rlp.string (Hash.toBytes (keccak n.encode))) = false :=
      Rlp.isList_string (by rw [Hash.length_toBytes]; omega)
    rw [hstring, if_neg Bool.false_ne_true, decodeReference_hashed]

theorem isEmptyString_nil : isEmptyString (Rlp.string []) = .ok true := by
  rw [isEmptyString, Rlp.isString_string (by simp), if_pos rfl, Rlp.payload_string (by simp)]
  rfl

theorem isEmptyString_list {xs : List Bytes} (h : xs.flatten.length < 2 ^ 64) :
    isEmptyString (Rlp.list xs) = .ok false := by
  rw [isEmptyString, Rlp.isString_list h, if_neg Bool.false_ne_true]

/-- Reading items one by one, each of which gives a node. -/
theorem mapM_ofFn {k : Nat} {g : Bytes → Except DecodeError Node} {f : Fin k → Bytes}
    {c : Fin k → Node} (h : ∀ i, g (f i) = .ok (c i)) :
    (List.ofFn f).mapM g = .ok (List.ofFn c) := by
  have hg : g ∘ f = fun i => pure (c i) := funext h
  rw [List.ofFn_eq_map, List.mapM_map, List.ofFn_eq_map, hg]
  exact List.mapM_pure

theorem decode_pair {a b : Bytes} (ha : Rlp.IsItem a) (hb : Rlp.IsItem b)
    (hlen : [a, b].flatten.length < 2 ^ 64) {p : Path} {isLeaf : Bool}
    (hp : Rlp.payload a = .ok (HexPrefix.encode p isLeaf)) :
    decode (Rlp.list [a, b]) =
      if isLeaf then (Rlp.payload b).map (leaf p)
      else (if Rlp.isList b then decode b else decodeReference b).bind (extend p) := by
  have hitems : Rlp.items (Rlp.list [a, b]) = .ok [a, b] :=
    Rlp.items_list (by simp [ha, hb]) hlen
  rw [decode, isEmptyString_list hlen]
  simp only [bind, Except.bind]
  rw [if_neg Bool.false_ne_true]
  split
  · rename_i heq
    rw [hitems] at heq
    contradiction
  · rename_i heq
    rw [hitems] at heq
    cases heq
    simp only [hp, HexPrefix.decode_encode]
    cases isLeaf
    · rw [if_neg Bool.false_ne_true, if_neg Bool.false_ne_true]
      split <;> rfl
    · rw [if_pos rfl, if_pos rfl]
      cases Rlp.payload b <;> rfl
  · rename_i xs hne heq
    rw [hitems] at heq
    cases heq
    exact (hne a b rfl).elim

theorem decode_branch {items : Nibble → Bytes} {b value : Bytes} {children : Nibble → Node}
    (hitems : ∀ i, Rlp.IsItem (items i)) (hb : Rlp.IsItem b)
    (hlen : (List.ofFn items ++ [b]).flatten.length < 2 ^ 64)
    (hc : ∀ i, (if Rlp.isList (items i) then decode (items i) else decodeReference (items i)) =
      .ok (children i))
    (hvalue : Rlp.payload b = .ok value) :
    decode (Rlp.list (List.ofFn items ++ [b])) =
      .ok (branch children (if value.isEmpty then none else some value)) := by
  have hread : Rlp.items (Rlp.list (List.ofFn items ++ [b])) = .ok (List.ofFn items ++ [b]) := by
    refine Rlp.items_list (?_) hlen
    intro x hx
    rcases List.mem_append.mp hx with hx | hx
    · obtain ⟨i, rfl⟩ := List.mem_ofFn.mp hx
      exact hitems i
    · rw [List.mem_singleton.mp hx]
      exact hb
  have hlength : (List.ofFn items ++ [b]).length = 17 := by simp
  rw [decode, isEmptyString_list hlen]
  simp only [bind, Except.bind]
  rw [if_neg Bool.false_ne_true]
  split
  · rename_i heq
    rw [hread] at heq
    contradiction
  · rename_i heq
    rw [hread] at heq
    have := congrArg (fun xs => xs.toOption.map List.length) heq
    simp [Except.toOption] at this
  · rename_i xs hne heq
    rw [hread] at heq
    cases heq
    have htake : (List.ofFn items ++ [b]).take 16 = List.ofFn items :=
      List.take_left' List.length_ofFn
    -- sixteen children, then the value
    have hlast : (List.ofFn items ++ [b])[16] = b := by simp
    have hget : ∀ i : Nibble, (List.ofFn children).getD i.val null = children i := fun i => by
      rw [List.getD_eq_getElem?_getD, List.getElem?_ofFn, dif_pos i.isLt, Option.getD_some]
    rw [dif_pos hlength, List.mapM_subtype (g := fun x =>
      if Rlp.isList x then decode x else decodeReference x) fun _ _ => rfl, List.unattach_attach,
      htake, mapM_ofFn hc]
    simp only [hlast, hvalue, branchOf_eq, hget]
    rfl

/-- Reading any child: a hash comes back as it is. -/
theorem read_child {n : Node}
    (ih : (∀ h, n ≠ hash h) → n.encode.length < 2 ^ 64 → decode n.encode = .ok n.shallow) :
    (if Rlp.isList n.reference.encode then decode n.reference.encode
      else decodeReference n.reference.encode) = .ok n.embed := by
  rcases n.hash_or_ne_hash with ⟨h, rfl⟩ | hn
  · have hstring : Rlp.isList (Rlp.string (Hash.toBytes h)) = false :=
      Rlp.isList_string (by rw [Hash.length_toBytes]; omega)
    show (if Rlp.isList (Rlp.string (Hash.toBytes h)) then _ else _) = _
    rw [hstring, if_neg Bool.false_ne_true]
    exact decodeReference_hashed h
  · exact read_reference hn (ih hn)

/-- **What is read from the encoding of a node is the node as storage holds it.** -/
theorem Readable.decode_encode {n : Node} (hn : n.Readable) (hh : ∀ h, n ≠ hash h)
    (hlen : n.encode.length < 2 ^ 64) : decode n.encode = .ok n.shallow := by
  -- a child is read from its reference, in place if that is short
  induction n with
  | null =>
    rw [encode, decode, isEmptyString_nil]
    rfl
  | hash h => exact absurd rfl (hh h)
  | leaf p v =>
    rw [encode] at hlen ⊢
    have hflat := lt_of_le_of_lt (Rlp.length_flatten_le _) hlen
    have hp := Rlp.le_length_string (HexPrefix.encode p true)
    have hv := Rlp.le_length_string v
    simp only [List.flatten_cons, List.flatten_nil, List.length_append, List.length_nil] at hflat
    rw [decode_pair (Rlp.isItem_string (by omega)) (Rlp.isItem_string (by omega)) (by simpa using hflat)
      (Rlp.payload_string (by omega)), if_pos rfl, Rlp.payload_string (by omega)]
    rfl
  | extension p child ih =>
    obtain ⟨hp, hne, hchild⟩ := hn
    rw [encode_extension] at hlen ⊢
    have hflat := lt_of_le_of_lt (Rlp.length_flatten_le _) hlen
    have hle := Rlp.le_length_string (HexPrefix.encode p false)
    simp only [List.flatten_cons, List.flatten_nil, List.length_append, List.length_nil] at hflat
    rw [decode_pair (Rlp.isItem_string (by omega)) (isItem_reference child) (by simpa using hflat)
      (Rlp.payload_string (by omega)), if_neg Bool.false_ne_true, read_child (ih hchild)]
    have hnull : child.embed.isNull = false := by
      rw [isNull_embed]
      exact Bool.eq_false_iff.mpr fun h => hne (isNull_eq_true_iff.mp h)
    rw [Except.bind, extend, if_neg (by simp [hp, hnull]), shallow]
  | branch children v ih =>
    obtain ⟨hv, hc⟩ := hn
    rw [encode_branch] at hlen ⊢
    have hflat := lt_of_le_of_lt (Rlp.length_flatten_le _) hlen
    have hle := Rlp.le_length_string (v.getD [])
    have hvlen : (v.getD []).length < 2 ^ 64 := by
      rw [List.flatten_append, List.length_append, List.flatten_singleton] at hflat
      omega
    rw [decode_branch (fun i => isItem_reference (children i)) (Rlp.isItem_string hvlen) hflat
      (fun i => read_child (ih i (hc i))) (Rlp.payload_string hvlen), shallow]
    rcases v with _ | v
    · rfl
    · rw [Option.getD_some, if_neg]
      rintro hnil
      exact hv (congrArg some (List.isEmpty_iff.mp hnil))

theorem decode_encode {n : Node} (hn : n.Canonical) (hlen : n.encode.length < 2 ^ 64) :
    decode n.encode = .ok n.shallow :=
  hn.readable.decode_encode hn.ne_hash hlen

/-! ## Lengths -/

/-- The entries below a node are no longer than byte strings in memory can be. -/
def Fits (n : Node) : Prop :=
  ∀ path value, n.find path = some value → path.length < 2 ^ 63 ∧ value.length < 2 ^ 63

theorem Fits.extension {p : Path} {child : Node} (h : (extension p child).Fits) : child.Fits :=
  fun path value hv => by
    have := h (p ++ path) value (by rwa [find_extension_append])
    rw [List.length_append] at this
    omega

theorem Fits.branch {children : Nibble → Node} {v : Option Bytes} (h : (branch children v).Fits)
    (i : Nibble) : (children i).Fits :=
  fun path value hv => by
    have := h (i :: path) value (by rwa [find_branch_cons])
    rw [List.length_cons] at this
    omega

theorem length_flatten_references_le (children : Nibble → Node) :
    (List.ofFn fun i => (children i).reference.encode).flatten.length ≤ 528 := by
  rw [List.length_flatten, List.map_ofFn]
  refine le_trans (List.sum_le_card_nsmul _ 33 ?_) (by simp)
  intro k hk
  obtain ⟨i, rfl⟩ := List.mem_ofFn.mp hk
  exact length_reference_le (children i)

/-- **Encodings stay below the length that a header can hold.** -/
theorem length_encode_lt {n : Node} (hn : n.Canonical) (hfit : n.Fits) :
    n.encode.length < 2 ^ 64 := by
  cases n with
  | null => decide
  | hash h => exact absurd rfl (hn.ne_hash h)
  | leaf p v =>
    obtain ⟨hp, hv⟩ := hfit p v (by rw [find_leaf, if_pos rfl])
    have hpath := HexPrefix.length_encode p true
    have hpath' := Rlp.length_string_le (b := HexPrefix.encode p true) (by omega)
    have hvalue' := Rlp.length_string_le (b := v) (by omega)
    rw [encode]
    refine Rlp.length_list_lt ?_
    simp only [List.flatten_cons, List.flatten_nil, List.length_append, List.length_nil]
    omega
  | extension p child =>
    -- the path of an extension is part of that of an entry, which fits
    obtain ⟨path, hpath⟩ := (hn (by simp)).2.2.exists_find
    obtain ⟨value, hvalue⟩ := Option.ne_none_iff_exists'.mp hpath
    have hp := (hfit (p ++ path) value (by rwa [find_extension_append])).1
    rw [List.length_append] at hp
    have hpath := HexPrefix.length_encode p false
    have hpath' := Rlp.length_string_le (b := HexPrefix.encode p false) (by omega)
    have hchild := length_reference_le child
    rw [encode_extension]
    refine Rlp.length_list_lt ?_
    simp only [List.flatten_cons, List.flatten_nil, List.length_append, List.length_nil]
    omega
  | branch children v =>
    have hv : (v.getD []).length < 2 ^ 63 := by
      rcases v with _ | v
      · simp
      · exact (hfit [] v (by rw [find_branch_nil])).2
    have hvalue := Rlp.length_string_le (b := v.getD []) (by omega)
    have hchildren := length_flatten_references_le children
    rw [encode_branch]
    refine Rlp.length_list_lt ?_
    rw [List.flatten_append, List.length_append, List.flatten_singleton]
    omega

/-- Only the empty node is written as the empty string. -/
theorem encode_ne_encode_null {n : Node} (hn : n.Canonical) (hfit : n.Fits) (hnull : n ≠ null) :
    n.encode ≠ null.encode := by
  obtain ⟨xs, hxs⟩ := exists_list hnull hn.ne_hash
  have hlen := length_encode_lt hn hfit
  intro heq
  rw [hxs] at heq hlen
  have hlist := Rlp.isList_list (lt_of_le_of_lt (Rlp.length_flatten_le xs) hlen)
  rw [heq] at hlist
  contradiction

end Node
end Ethereum
