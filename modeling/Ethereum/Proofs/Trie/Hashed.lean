/-
# Tries with hashed keys

Accounts and slots are kept under the hashes of what names them.  A trie says
nothing then of names that share a hash, so what it has is told only for the names
among some data, no two of which do, and it has nothing else (`Trie.HasHashed`).

The entries under the names fix the root hash (`HasHashed.rootHash_eq`), and the root
hash binds what lookups answer (`HasHashed.get_congr`).
-/

import Mathlib
import Ethereum.Proofs.Trie.Binding
import Ethereum.Proofs.Trie.Entries

namespace Ethereum

theorem Hash.toBytes_injective : Function.Injective Hash.toBytes := Word.toBytes_injective

namespace Trie

variable {κ : Type}

/-- `t` has `entry k` under the hash of every name `k` that is among the data, and
nothing else. -/
def HasHashed (data : List Bytes) (source : NodeSource) (log : List (Hash × Bytes)) (t : Trie)
    (name : κ → Bytes) (entry : κ → Option Bytes) : Prop :=
  ∃ m, t.Has source log m ∧ Fits m ∧
    (∀ k, name k ∈ data → m (Hash.toBytes (keccak (name k))) = entry k) ∧
    ∀ key, m key ≠ none → ∃ k, name k ∈ data ∧ key = Hash.toBytes (keccak (name k))

variable {data : List Bytes} {source source' : NodeSource} {log log' : List (Hash × Bytes)}
  {t u : Trie} {name : κ → Bytes} {entry entry' : κ → Option Bytes}

theorem hasHashed_empty : HasHashed data source log empty name fun _ => none :=
  ⟨fun _ => none, has_empty, nofun, fun _ _ => rfl, fun _ hkey => absurd rfl hkey⟩

theorem HasHashed.get_eq (h : t.HasHashed data source log name entry) {k : κ} (hk : name k ∈ data) :
    t.get source (Hash.toBytes (keccak (name k))) = .ok (entry k) := by
  obtain ⟨m, hm, -, hentry, -⟩ := h
  rw [hm.get_eq, hentry k hk]

/-- **Two tries with the same entries under the names** have all entries in common. -/
theorem HasHashed.common (h : t.HasHashed data source log name entry)
    (h' : u.HasHashed data source' log' name entry')
    (heq : ∀ k, name k ∈ data → entry k = entry' k) :
    ∃ m, t.Has source log m ∧ u.Has source' log' m ∧
      ∀ key, m key ≠ none → ∃ k, name k ∈ data ∧ key = Hash.toBytes (keccak (name k)) ∧
        m key = entry k := by
  obtain ⟨m, hm, -, hentry, honly⟩ := h
  obtain ⟨m', hm', -, hentry', honly'⟩ := h'
  have hsame : ∀ k, name k ∈ data →
      m (Hash.toBytes (keccak (name k))) = m' (Hash.toBytes (keccak (name k))) :=
    fun k hk => by rw [hentry k hk, hentry' k hk, heq k hk]
  have hmm' : m = m' := funext fun key => by
    by_cases hkey : m key = none
    · by_cases hkey' : m' key = none
      · rw [hkey, hkey']
      · obtain ⟨k, hk, rfl⟩ := honly' key hkey'
        exact hsame k hk
    · obtain ⟨k, hk, rfl⟩ := honly key hkey
      exact hsame k hk
  refine ⟨m, hm, hmm' ▸ hm', fun key hkey => ?_⟩
  obtain ⟨k, hk, rfl⟩ := honly key hkey
  exact ⟨k, hk, rfl, hentry k hk⟩

/-- **The entries under the names fix the root hash.** -/
theorem HasHashed.rootHash_eq (h : t.HasHashed data source log name entry)
    (h' : u.HasHashed data source' log' name entry')
    (heq : ∀ k, name k ∈ data → entry k = entry' k) : t.rootHash = u.rootHash := by
  obtain ⟨m, hm, hm', -⟩ := h.common h' heq
  exact hm.rootHash_eq hm'

/-- What is under a key is under the hash of a name. -/
theorem HasHashed.get_cases (h : t.HasHashed data source log name entry) (key : Bytes) :
    t.get source key = .ok none ∨
      ∃ k, name k ∈ data ∧ key = Hash.toBytes (keccak (name k)) ∧
        t.get source key = .ok (entry k) := by
  obtain ⟨m, hm, -, hentry, honly⟩ := id h
  by_cases hkey : m key = none
  · exact .inl (by rw [hm.get_eq, hkey])
  · obtain ⟨k, hk, rfl⟩ := honly key hkey
    exact .inr ⟨k, hk, rfl, h.get_eq hk⟩

/-- **The root hash binds what lookups answer.**  The data has what was written, and what
is written with the tries. -/
theorem HasHashed.get_congr (h : t.HasHashed data source log name entry)
    (h' : u.HasHashed data source' log' name entry') (hs : source.Has log) (hs' : source'.Has log')
    (hcol : Collisionless data) (hnull : Node.null.encode ∈ data) (hlog : ∀ w ∈ log, w.2 ∈ data)
    (hlog' : ∀ w ∈ log', w.2 ∈ data) (ht : ∀ w ∈ t.writes, w.2 ∈ data)
    (hu : ∀ w ∈ u.writes, w.2 ∈ data) (heq : t.rootHash = u.rootHash) (key : Bytes) :
    t.get source key = u.get source' key := by
  obtain ⟨m, hm, hfits, -⟩ := h
  obtain ⟨m', hm', hfits', -⟩ := h'
  have hmm' := hm.entries_eq hm' hfits hfits' hs hs' hcol hnull hlog hlog' ht hu heq
  rw [hm.get_eq, hm'.get_eq, hmm']

/-- **A change under a hashed name** is one of its entry. -/
theorem HasHashed.change [DecidableEq κ] (h : t.HasHashed data source log name entry)
    (hcol : Collisionless data) (hname : Function.Injective name) {k : κ} (hk : name k ∈ data)
    {c : Change} (hkey : c.key = Hash.toBytes (keccak (name k)))
    (hfit : ∀ v, c.entry = some v → v.length < 2 ^ 63) :
    ∃ u, t.change source c = .ok u ∧
      u.HasHashed data source log name (Function.update entry k c.entry) := by
  obtain ⟨m, hm, hfits, hentry, honly⟩ := h
  obtain ⟨u, hu, hhas⟩ := hm.change c
  refine ⟨u, hu, c.apply m, hhas, ?_, ?_, ?_⟩
  · have hlen : c.key.length = 32 := by rw [hkey, Hash.length_toBytes]
    exact hfits.update (by omega) hfit
  · intro l hl
    rw [Change.apply, hkey, Function.update_apply, Function.update_apply]
    by_cases hkl : l = k
    · rw [if_pos hkl, hkl, if_pos rfl]
    · rw [if_neg hkl, if_neg, hentry l hl]
      intro heq
      exact hkl (hname (hcol _ hl _ hk (Hash.toBytes_injective heq)))
  · intro key hne
    rw [Change.apply, Function.update_apply] at hne
    split at hne
    · rename_i hck
      exact ⟨k, hk, hck.trans hkey⟩
    · exact honly key hne

/-- What was written stays known where more is. -/
theorem HasHashed.extend (h : t.HasHashed data source log name entry) (hs : source.Has log)
    (hs' : source'.Has log') (hlog : log ⊆ log') :
    t.HasHashed data source' log' name entry := by
  obtain ⟨m, ⟨full, hroot, hcan, hfind⟩, hfits, hentry⟩ := h
  exact ⟨m, ⟨full, hroot.extend hs hs' hlog, hcan, hfind⟩, hfits, hentry⟩

theorem HasHashed.collapse (h : t.HasHashed data source log name entry) (hs : source.Has log)
    (hs' : source'.Has log') (hlog : log ⊆ log') (hw : t.writes ⊆ log') :
    t.collapse.HasHashed data source' log' name entry := by
  obtain ⟨m, hm, hfits, hentry⟩ := h
  exact ⟨m, hm.collapse hfits hs hs' hlog hw, hfits, hentry⟩

theorem HasHashed.ofRoot (h : t.HasHashed data source log name entry) (hs : source.Has log)
    (hs' : source'.Has log') (hlog : log ⊆ log') (hempty : EmptyOnly log')
    (hw : t.writes ⊆ log') : (Trie.ofRoot t.rootHash).HasHashed data source' log' name entry := by
  obtain ⟨m, hm, hfits, hentry⟩ := h
  exact ⟨m, hm.ofRoot hfits hs hs' hlog hempty hw, hfits, hentry⟩

end Trie
end Ethereum
