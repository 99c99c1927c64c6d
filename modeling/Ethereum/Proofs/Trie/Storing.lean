/-
# Nodes that went to storage

A placeholder stands for a node that its parent refers to by hash, and that was
written under it (`Stored`).  A node in memory that unfolds by such
placeholders has the encoding, the reference and the digest of what it unfolds
to (`Unfolds.encode_eq`, `Unfolds.digest_eq`), so loading goes unnoticed there too.

Storing a node writes what the placeholders below it will need: where the
writes can be read, the node as storage holds it unfolds to the same tree
(`Unfolds.store`).  A root is stored whatever its size, so it may stand in memory
as a hash that no parent would refer to (`Rooted`).
-/

import Mathlib
import Ethereum.Proofs.Trie.Change
import Ethereum.Proofs.Trie.Coding

namespace Ethereum

namespace NodeSource

/-- The source reads every node that was written. -/
def Has (source : NodeSource) (log : List (Hash × Bytes)) : Prop :=
  ∀ w ∈ log, source.read w.1 = some w.2

theorem load_of_read {source : NodeSource} {h : Hash} {b : Bytes} {n : Node}
    (hread : source.read h = some b) (hn : Node.decode b = .ok n) : source.load h = .ok n := by
  simp only [load, hread, hn]

theorem load_of_read_eq {source source' : NodeSource} {h : Hash} {n : Node}
    (hn : source.load h = .ok n) (hread : source.read h = source'.read h) :
    source'.load h = .ok n := by
  rwa [load, ← hread, ← load]

end NodeSource

namespace Node

/-- A node was written under its hash, and parents refer to it by that. -/
structure Stored (log : List (Hash × Bytes)) (h : Hash) (n : Node) : Prop where
  hash_eq : h = keccak n.encode
  mem : (h, n.encode) ∈ log
  long : ¬ n.encode.length < 32

variable {source source' : NodeSource} {log log' : List (Hash × Bytes)} {node full : Node}

theorem Unfolds.ne_hash {P : Hash → Node → Prop} (h : Unfolds source P node full) (k : Hash) :
    full ≠ .hash k := by
  induction h with
  | hash _ _ _ _ ih => exact ih
  | _ => exact nofun

theorem digest_eq {n : Node} (hn : ∀ h, n ≠ hash h) : n.digest = keccak n.encode := by
  cases n with
  | hash h => exact absurd rfl (hn h)
  | _ => rfl

namespace Unfolds

/-- What unfolds from some writes unfolds wherever more of them are read. -/
theorem extend (h : Unfolds source (Stored log) node full) (hs : source.Has log)
    (hs' : source'.Has log') (hlog : log ⊆ log') : Unfolds source' (Stored log') node full :=
  h.mono fun load known =>
    ⟨NodeSource.load_of_read_eq load ((hs _ known.mem).trans (hs' _ (hlog known.mem)).symm),
      known.hash_eq, hlog known.mem, known.long⟩

theorem reference_of_encode {m n : Node} (hm : ∀ k, m ≠ .hash k) (hn : ∀ k, n ≠ .hash k)
    (h : m.encode = n.encode) : m.reference = n.reference := by
  by_cases hlen : n.encode.length < 32
  · rw [reference_of_short hn hlen, reference_of_short hm (by rwa [h]), h]
  · rw [reference_of_long hn hlen, reference_of_long hm (by rwa [h]), h]

/-- **Parents refer alike to a node and to what it unfolds to.** -/
theorem reference_eq (h : Unfolds source (Stored log) node full) :
    node.reference = full.reference := by
  induction h with
  | null | leaf => rfl
  | extension p child ih =>
    refine reference_of_encode nofun nofun ?_
    rw [encode_extension, encode_extension, ih]
  | branch v children ih =>
    refine reference_of_encode nofun nofun ?_
    simp only [encode_branch, ih]
  | hash load below ne_null known ih =>
    rw [reference_of_long below.ne_hash known.long, ← known.hash_eq]
    rfl

theorem encode_eq (h : Unfolds source (Stored log) node full) (hn : ∀ k, node ≠ .hash k) :
    node.encode = full.encode := by
  cases h with
  | null | leaf => rfl
  | extension p child => rw [encode_extension, encode_extension, child.reference_eq]
  | branch v children => simp only [encode_branch, (children _).reference_eq]
  | hash => exact absurd rfl (hn _)

/-- **A node and what it unfolds to have one digest.** -/
theorem digest_eq (h : Unfolds source (Stored log) node full) : node.digest = full.digest := by
  rcases node.hash_or_ne_hash with ⟨k, rfl⟩ | hn
  · cases h with
    | hash load below ne_null known =>
      rw [Node.digest_eq below.ne_hash, ← known.hash_eq]
      rfl
  · rw [Node.digest_eq hn, Node.digest_eq h.ne_hash, h.encode_eq hn]

end Unfolds

/-! ## Writing -/

/-- A node that can be loaded unfolds from where its parent refers to it. -/
theorem unfolds_embed (hc : full.Canonical) (hfit : full.Fits) (hs : source.Has log)
    (hmem : ¬ full.encode.length < 32 → (keccak full.encode, full.encode) ∈ log)
    (h : Unfolds source (Stored log) full.shallow full) :
    Unfolds source (Stored log) full.embed full := by
  by_cases hlen : full.encode.length < 32
  · rw [embed_of_short hc.ne_hash hlen]
    rwa [shallow_of_short hlen] at h
  · have hdecode := decode_encode hc (length_encode_lt hc hfit)
    rw [embed_of_long hc.ne_hash hlen]
    refine .hash (NodeSource.load_of_read (hs _ (hmem hlen)) hdecode) h ?_
      ⟨rfl, hmem hlen, hlen⟩
    rintro rfl
    exact hlen (by decide)

/-- A node is written if it is the root or too long for its parent. -/
theorem mem_own_iff {isRoot : Bool} {b : Bytes} {w : Hash × Bytes} :
    w ∈ writes.own isRoot b ↔ (isRoot ∨ 32 ≤ b.length) ∧ w = (keccak b, b) := by
  rw [writes.own]
  split <;> simp_all

theorem mem_writes_self {n : Node} {isRoot : Bool} (hnull : n ≠ null) (hn : ∀ k, n ≠ hash k)
    (h : isRoot ∨ ¬ n.encode.length < 32) : (keccak n.encode, n.encode) ∈ n.writes isRoot := by
  have hown : (keccak n.encode, n.encode) ∈ writes.own isRoot n.encode :=
    mem_own_iff.mpr ⟨h.imp_right not_lt.mp, rfl⟩
  cases n with
  | null => exact absurd rfl hnull
  | hash k => exact absurd rfl (hn k)
  | leaf p v => exact hown
  | extension p child => exact List.mem_append_right _ hown
  | branch children v => exact List.mem_append_right _ hown

/-- What holds of the node itself, as a root or not, holds of all that is written. -/
theorem forall_mem_writes {Q : Hash × Bytes → Prop} {n : Node} {isRoot : Bool}
    (hroot : ∀ b, ∀ w ∈ writes.own isRoot b, Q w) (hbelow : ∀ b, ∀ w ∈ writes.own false b, Q w) :
    ∀ w ∈ n.writes isRoot, Q w := by
  induction n generalizing isRoot with
  | null | hash => exact nofun
  | leaf p v => exact hroot _
  | extension p child ih => exact List.forall_mem_append.mpr ⟨ih hbelow, hroot _⟩
  | branch children v ih =>
    refine List.forall_mem_append.mpr ⟨fun w hw => ?_, hroot _⟩
    obtain ⟨ws, hws, hw⟩ := List.mem_flatten.mp hw
    obtain ⟨i, rfl⟩ := List.mem_ofFn.mp hws
    exact ih i hbelow w hw

/-- Every write is under the hash of what is written. -/
theorem hash_eq_of_mem_writes {n : Node} {isRoot : Bool} {w : Hash × Bytes}
    (hw : w ∈ n.writes isRoot) : w.1 = keccak w.2 := by
  have hown {r : Bool} (b : Bytes) (w : Hash × Bytes) (hb : w ∈ writes.own r b) :
      w.1 = keccak w.2 := by
    rw [(mem_own_iff.mp hb).2]
  exact forall_mem_writes hown hown w hw

theorem mem_writes_extension {p : Path} {child : Node} {isRoot : Bool} {w : Hash × Bytes}
    (hw : w ∈ child.writes false) : w ∈ (extension p child).writes isRoot := by
  rw [writes]
  exact List.mem_append_left _ hw

theorem mem_writes_branch {children : Nibble → Node} {v : Option Bytes} {isRoot : Bool} (i : Nibble)
    {w : Hash × Bytes} (hw : w ∈ (children i).writes false) :
    w ∈ (branch children v).writes isRoot := by
  rw [writes]
  exact List.mem_append_left _ (List.mem_flatten.mpr ⟨_, List.mem_ofFn.mpr ⟨i, rfl⟩, hw⟩)

/-- **What is written can be read back.**  Where the writes of a node are read, the
node as its parent holds it unfolds to the same tree, and so does the node as
storage holds it. -/
theorem Unfolds.store (h : Unfolds source (Stored log) node full) (hc : full.Canonical)
    (hfit : full.Fits) (hs : source.Has log) (hs' : source'.Has log') (hlog : log ⊆ log')
    {isRoot : Bool} (hw : node.writes isRoot ⊆ log') :
    Unfolds source' (Stored log') full.embed full ∧
      ((∀ k, node ≠ .hash k) → Unfolds source' (Stored log') full.shallow full) := by
  induction h generalizing isRoot with
  | null => exact ⟨.null, fun _ => .null⟩
  | leaf p v =>
    have hmem : ¬ (Node.leaf p v).encode.length < 32 →
        (keccak (Node.leaf p v).encode, (Node.leaf p v).encode) ∈ log' :=
      fun hlen => hw (mem_writes_self nofun nofun (.inr hlen))
    exact ⟨unfolds_embed hc hfit hs' hmem (.leaf p v), fun _ => .leaf p v⟩
  | @extension p c d child ih =>
    have hd := (hc (by simp)).2.2.canonical
    have hshallow : Unfolds source' (Stored log') (Node.extension p d).shallow (.extension p d) :=
      .extension p (ih hd hfit.extension fun w h => hw (mem_writes_extension h)).1
    have hencode := (Unfolds.extension p child).encode_eq nofun
    refine ⟨unfolds_embed hc hfit hs' (fun hlen => ?_) hshallow, fun _ => hshallow⟩
    rw [← hencode] at hlen ⊢
    exact hw (mem_writes_self nofun nofun (.inr hlen))
  | @branch cs ds v children ih =>
    have hshallow : Unfolds source' (Stored log') (Node.branch ds v).shallow (.branch ds v) :=
      .branch v fun i => (ih i ((hc (by simp)).child i) (hfit.branch i) fun w h =>
        hw (mem_writes_branch i h)).1
    have hencode := (Unfolds.branch v children).encode_eq nofun
    refine ⟨unfolds_embed hc hfit hs' (fun hlen => ?_) hshallow, fun _ => hshallow⟩
    rw [← hencode] at hlen ⊢
    exact hw (mem_writes_self nofun nofun (.inr hlen))
  | hash load below ne_null known =>
    refine ⟨?_, fun hn => absurd rfl (hn _)⟩
    rw [embed_of_long hc.ne_hash known.long, ← known.hash_eq]
    exact (Unfolds.hash load below ne_null known).extend hs hs' hlog

/-! ## Roots -/

/-- The root of a trie whose tree is `full`: held as a node, or stored whole and
known by its hash alone. -/
inductive Rooted (source : NodeSource) (log : List (Hash × Bytes)) : Node → Node → Prop
  | held {root full : Node} (h : Unfolds source (Stored log) root full) :
    Rooted source log root full
  | stored {m full : Node} (mem : (full.digest, full.encode) ∈ log)
    (load : source.load full.digest = .ok m) (below : Unfolds source (Stored log) m full)
    (ne_null : full ≠ null) : Rooted source log (hash full.digest) full

namespace Rooted

variable {root : Node}

theorem digest_eq (h : Rooted source log root full) : root.digest = full.digest := by
  cases h with
  | held h => exact h.digest_eq
  | stored => rfl

theorem eq_null_iff (h : Rooted source log root full) : root = .null ↔ full = .null := by
  cases h with
  | held h => exact h.eq_null_iff
  | stored read load below ne_null => exact iff_of_false nofun ne_null

/-- A root is walked like a node that is held. -/
theorem exists_held (h : Rooted source log root full) :
    ∃ n, Unfolds source (Stored log) n full ∧
      (∀ path, root.lookup source path = n.lookup source path) ∧
      (∀ path value, root.insert source path value = n.insert source path value) ∧
      ∀ path, root.remove source path = n.remove source path := by
  cases h with
  | held h => exact ⟨root, h, fun _ => rfl, fun _ _ => rfl, fun _ => rfl⟩
  | stored _ load below =>
    exact ⟨_, below, lookup_hash load, insert_hash load, remove_hash load⟩

/-- A root that stands as a hash was written under it. -/
theorem mem_of_hash {k : Hash} (h : Rooted source log (.hash k) full) :
    (k, full.encode) ∈ log ∧ full ≠ .null := by
  cases h with
  | held h =>
    cases h with
    | hash load below ne_null known => exact ⟨known.mem, ne_null⟩
  | stored mem load below ne_null => exact ⟨mem, ne_null⟩

/-- Where nothing is read or was written, a root is its tree. -/
theorem eq_of_nil (h : Rooted .none [] root full) : root = full := by
  cases h with
  | held h => exact h.eq_of_none
  | stored mem => exact absurd mem List.not_mem_nil

theorem extend (h : Rooted source log root full) (hs : source.Has log) (hs' : source'.Has log')
    (hlog : log ⊆ log') : Rooted source' log' root full := by
  cases h with
  | held h => exact .held (h.extend hs hs' hlog)
  | stored mem load below ne_null =>
    have hread := (hs _ mem).trans (hs' _ (hlog mem)).symm
    exact .stored (hlog mem) (NodeSource.load_of_read_eq load hread) (below.extend hs hs' hlog)
      ne_null

/-- **A root that is stored is known by its hash.** -/
theorem store (h : Rooted source log root full) (hc : full.Canonical) (hfit : full.Fits)
    (hs : source.Has log) (hs' : source'.Has log') (hlog : log ⊆ log')
    (hw : root.writes true ⊆ log') (hnull : full ≠ null) :
    Rooted source' log' (hash full.digest) full := by
  rcases root.hash_or_ne_hash with ⟨k, rfl⟩ | hn
  · have hk : k = full.digest := h.digest_eq
    rw [← hk]
    exact h.extend hs hs' hlog
  · cases h with
    | stored => exact absurd rfl (hn _)
    | held h =>
      have hmem := hw (mem_writes_self (fun hr => hnull (h.eq_null_iff.mp hr)) hn (.inl rfl))
      rw [h.encode_eq hn, ← Node.digest_eq hc.ne_hash] at hmem
      have hdecode := decode_encode hc (length_encode_lt hc hfit)
      exact .stored hmem (NodeSource.load_of_read (hs' _ hmem) hdecode)
        ((h.store hc hfit hs hs' hlog hw).2 hn) hnull

end Rooted
end Node
end Ethereum
