/-
# A store behind tries and code

Code and trie nodes are put under their hashes, so what was put stays: a later write
to the same key puts the same bytes, if no two of the byte strings that are put have
one hash (`Keeps.foldl_write`).  `Backs` says that a store which never fails holds the
trie nodes that were written (`log`), and `Backs.commit` that a commit adds to them.
-/

import Mathlib
import Std.Data.ExtTreeMap.Lemmas
import Ethereum.Proofs.Trie.Entries
import Ethereum.State.World

namespace Ethereum

/-- Data no two of which have one hash, among them those whose hashes are constants:
the empty code and the node of the empty trie. -/
structure Apart (data : List Bytes) : Prop where
  collisionless : Collisionless data
  nil_mem : [] ∈ data
  null_mem : Node.null.encode ∈ data

theorem keccak_nil : keccak [] = Store.emptyCodeHash := by decide +kernel

/-- The empty code is told by its hash. -/
theorem Apart.keccak_eq_emptyCodeHash_iff {data : List Bytes} (h : Apart data) {code : Bytes}
    (hcode : code ∈ data) : keccak code = Store.emptyCodeHash ↔ code = [] := by
  constructor
  · intro heq
    exact h.collisionless code hcode [] h.nil_mem (heq.trans keccak_nil.symm)
  · rintro rfl
    exact keccak_nil

namespace Store

/-- The write that puts bytes under their hash. -/
def putting (b : Bytes) : StoreWrite := .put (Hash.toBytes (keccak b)) b

theorem mem_codeWrites {x : StoreWrite} {code : Bytes} :
    x ∈ codeWrites code ↔ code ≠ [] ∧ x = putting code := by
  rw [codeWrites]
  split
  · rename_i hempty
    simp [List.isEmpty_iff.mp hempty]
  · rename_i hempty
    rw [List.mem_singleton, putting]
    exact (and_iff_right (mt List.isEmpty_iff.mpr hempty)).symm

theorem mem_nodeWrites {x : StoreWrite} {w : Hash × Bytes} (hw : w.1 = keccak w.2) :
    x ∈ nodeWrites w ↔ w.1 ≠ Node.emptyHash ∧ x = putting w.2 := by
  rw [nodeWrites]
  split
  · rename_i hempty
    simp [hempty]
  · rename_i hempty
    rw [List.mem_singleton, putting, ← hw]
    exact (and_iff_right hempty).symm

/-- The store holds bytes under their hash. -/
def Keeps (s : Store) (b : Bytes) : Prop := s.entries[Hash.toBytes (keccak b)]? = some b

variable {data : List Bytes} {s : Store} {log : List (Hash × Bytes)}

theorem Keeps.write (hcol : Collisionless data) {b c : Bytes} (hb : b ∈ data) (hc : c ∈ data)
    (h : s.Keeps b ∨ c = b) : (s.write (putting c)).Keeps b := by
  change (s.entries.insert (Hash.toBytes (keccak c)) c)[Hash.toBytes (keccak b)]? = some b
  rw [Std.ExtTreeMap.getElem?_insert]
  simp only [Std.compare_eq_iff_eq]
  split
  · rename_i heq
    rw [hcol c hc b hb (Word.toBytes_injective heq)]
  · rename_i hne
    exact h.resolve_right fun hcb => hne (by rw [hcb])

/-- **What was put under its hash stays there.** -/
theorem Keeps.foldl_write (hcol : Collisionless data) {writes : List StoreWrite}
    (hwrites : ∀ x ∈ writes, ∃ c ∈ data, x = putting c) {b : Bytes} (hb : b ∈ data)
    (h : s.Keeps b ∨ putting b ∈ writes) : (writes.foldl Store.write s).Keeps b := by
  induction writes generalizing s with
  | nil => exact h.resolve_right List.not_mem_nil
  | cons x writes ih =>
    obtain ⟨c, hc, rfl⟩ := hwrites x List.mem_cons_self
    refine ih (fun y hy => hwrites y (List.mem_cons_of_mem _ hy)) ?_
    rcases h with h | h
    · exact .inl (.write hcol hb hc (.inl h))
    · rcases List.mem_cons.mp h with h | h
      · have hcb : b = c := (StoreWrite.put.inj h).2
        exact .inl (.write hcol hb hc (.inr hcb.symm))
      · exact .inr h

theorem foldl_write_fails (writes : List StoreWrite) (s : Store) :
    (writes.foldl write s).refusesReads = s.refusesReads ∧
      (writes.foldl write s).failingCommits = s.failingCommits := by
  induction writes generalizing s with
  | nil => exact ⟨rfl, rfl⟩
  | cons x writes ih =>
    have hx : (s.write x).refusesReads = s.refusesReads ∧
        (s.write x).failingCommits = s.failingCommits := by
      cases x <;> exact ⟨rfl, rfl⟩
    exact ⟨(ih _).1.trans hx.1, (ih _).2.trans hx.2⟩

/-- Code and trie nodes are put under their hashes. -/
theorem exists_putting {codes : List Bytes} {nodes : List (Hash × Bytes)}
    (haddr : Trie.Addressed nodes) (hcodes : ∀ c ∈ codes, c ∈ data)
    (hnodes : ∀ w ∈ nodes, w.2 ∈ data) {x : StoreWrite}
    (hx : x ∈ codes.flatMap codeWrites ++ nodes.flatMap nodeWrites) :
    ∃ c ∈ data, x = putting c := by
  rcases List.mem_append.mp hx with hx | hx
  · obtain ⟨c, hc, hx⟩ := List.mem_flatMap.mp hx
    exact ⟨c, hcodes c hc, (mem_codeWrites.mp hx).2⟩
  · obtain ⟨w, hw, hx⟩ := List.mem_flatMap.mp hx
    exact ⟨w.2, hnodes w hw, ((mem_nodeWrites (haddr w hw)).mp hx).2⟩

/-- The store never fails and holds the trie nodes that were written, which are among
the data. -/
structure Backs (data : List Bytes) (s : Store) (log : List (Hash × Bytes)) : Prop where
  reads : s.refusesReads = false
  commits : s.failingCommits = 0
  addressed : Trie.Addressed log
  mem_data : ∀ w ∈ log, w.2 ∈ data
  keeps : ∀ w ∈ log, w.1 ≠ Node.emptyHash → s.Keeps w.2

theorem backs_nil (entries : Std.ExtTreeMap Bytes Bytes) : Backs data ⟨entries, 0, false⟩ [] :=
  ⟨rfl, rfl, nofun, nofun, nofun⟩

namespace Backs

theorem read_eq (h : s.Backs data log) (key : Bytes) : s.read key = .ok s.entries[key]? := by
  rw [read, if_neg (by rw [h.reads]; exact Bool.false_ne_true)]

theorem emptyOnly (h : s.Backs data log) (hd : Apart data) : Trie.EmptyOnly log :=
  h.addressed.emptyOnly hd.collisionless hd.null_mem h.mem_data

/-- The nodes that were written are read. -/
theorem has (h : s.Backs data log) (hd : Apart data) : s.nodes.Has log := by
  intro w hw
  by_cases hempty : w.1 = Node.emptyHash
  · simp only [nodes, node, if_pos hempty]
    rw [h.emptyOnly hd w hw hempty]
    rfl
  · have hkeeps : s.entries[Hash.toBytes w.1]? = some w.2 := by
      rw [h.addressed w hw]
      exact h.keeps w hw hempty
    simp only [nodes, node, if_neg hempty, h.read_eq, hkeeps]

/-- Code that is kept is found by its hash. -/
theorem code_eq (h : s.Backs data log) {code : Bytes} (hcode : s.Keeps code)
    (hne : keccak code ≠ emptyCodeHash) : s.code (keccak code) = .ok (some code) := by
  rw [Store.code, if_neg hne, h.read_eq, hcode]

/-- **A commit of code and trie nodes** leaves a store that holds them too. -/
theorem commit (h : s.Backs data log) (hd : Apart data) {codes : List Bytes}
    {nodes : List (Hash × Bytes)} (hcodes : ∀ c ∈ codes, c ∈ data)
    (haddr : Trie.Addressed nodes) (hnodes : ∀ w ∈ nodes, w.2 ∈ data) :
    ∃ s', Store.commit (codes.flatMap codeWrites ++ nodes.flatMap nodeWrites) s = .ok () s' ∧
      s'.Backs data (log ++ nodes) ∧ (∀ b ∈ data, s.Keeps b → s'.Keeps b) ∧
      ∀ c ∈ codes, c ≠ [] → s'.Keeps c := by
  have hput : ∀ x ∈ codes.flatMap codeWrites ++ nodes.flatMap nodeWrites,
      ∃ c ∈ data, x = putting c := fun _ => exists_putting haddr hcodes hnodes
  have hkeeps : ∀ b ∈ data, s.Keeps b ∨ putting b ∈
      codes.flatMap codeWrites ++ nodes.flatMap nodeWrites →
      ((codes.flatMap codeWrites ++ nodes.flatMap nodeWrites).foldl write s).Keeps b :=
    fun b hb hb' => .foldl_write hd.collisionless hput hb hb'
  obtain ⟨hreads, hcommits⟩ :=
    foldl_write_fails (codes.flatMap codeWrites ++ nodes.flatMap nodeWrites) s
  refine ⟨_, ?_, ⟨hreads.trans h.reads, hcommits.trans h.commits, h.addressed.append haddr, ?_, ?_⟩,
    fun b hb hb' => hkeeps b hb (.inl hb'), ?_⟩
  · rw [Store.commit, if_neg (by rw [h.commits]; exact lt_irrefl 0)]
  · intro w hw
    exact (List.mem_append.mp hw).elim (h.mem_data w) (hnodes w)
  · intro w hw hne
    rcases List.mem_append.mp hw with hw | hw
    · exact hkeeps w.2 (h.mem_data w hw) (.inl (h.keeps w hw hne))
    · refine hkeeps w.2 (hnodes w hw) (.inr (List.mem_append_right _ ?_))
      exact List.mem_flatMap.mpr ⟨w, hw, (mem_nodeWrites (haddr w hw)).mpr ⟨hne, rfl⟩⟩
  · intro c hc hne
    refine hkeeps c (hcodes c hc) (.inr (List.mem_append_left _ ?_))
    exact List.mem_flatMap.mpr ⟨c, hc, mem_codeWrites.mpr ⟨hne, rfl⟩⟩

end Backs
end Store
end Ethereum
