/-
# Children are written before their parents

Whether a node is written is decided apart from how its parent refers to it: a node is
written if it is the root or has an encoding of 32 bytes or more, and a parent refers by
hash to a placeholder and to a node that is written with so many.  The two agree: a hash
in the bytes of a parent is that of a node written below it or of a placeholder below it
(`Node.mem_of_mem_embed`), also where short nodes lie in one another, since what is kept
in place is short as a whole and keeps its own children in place (`Node.shallow`).

A sequence of writes is closed (`Node.Closed`) if all of them can be read and what each of
them refers to was written before it or is known; an initial part of such a sequence is
closed as well (`Closed.left`).  The writes of a tree in which extensions lead somewhere
are closed, given its placeholders (`Node.closed_writes`, by induction on the tree), and
tries have such trees after changes on any source (`Trie.grounded_changes`).  Values may
be empty there, as a source can hold them.  An empty value of a branch is read back as
none, so it is left out before the bytes are read (`Node.tidy`).

The placeholders of the tree are met from the root that was opened, and are read by a
source that reads all that its nodes refer to; so such a source remains one if the
writing stops half way (`NodeSource.Complete.after`).  Nothing is assumed about the hash
function, nor about what lies under a hash.
-/

import Mathlib
import Ethereum.Proofs.Trie.Entries
import Ethereum.Proofs.Trie.Grounding

namespace Ethereum
namespace Node

variable {P : Hash → Prop} {n c : Node} {isRoot : Bool}

/-! ## What is read of a node that is written -/

/-- The tree with empty values of branches taken away, which are not told from absent ones
when they are read. -/
def tidy : Node → Node
  | extension p child => extension p child.tidy
  | branch children v => branch (fun i => (children i).tidy) (if v = some [] then none else v)
  | n => n

theorem tidy_ne_hash (hn : ∀ h, n ≠ hash h) (h : Hash) : n.tidy ≠ hash h := by
  cases n with
  | hash k => exact absurd rfl (hn k)
  | _ => exact nofun

theorem tidy_ne_null (hn : n ≠ null) : n.tidy ≠ null := by
  cases n with
  | null => exact absurd rfl hn
  | _ => exact nofun

theorem encode_tidy (n : Node) : n.tidy.encode = n.encode := by
  have reference {c : Node} (h : c.tidy.encode = c.encode) : c.tidy.reference = c.reference := by
    rcases c.hash_or_ne_hash with ⟨k, rfl⟩ | hc
    · rfl
    · exact Unfolds.reference_of_encode (tidy_ne_hash hc) hc h
  induction n with
  | null | leaf | hash => rfl
  | extension p child ih => rw [tidy, encode_extension, encode_extension, reference ih]
  | branch children v ih =>
    have hvalue : (if v = some [] then none else v).getD [] = v.getD [] := by
      split
      · rename_i hv
        rw [hv]
        rfl
      · rfl
    simp only [tidy, encode_branch, hvalue, fun i => reference (ih i)]

theorem placeholders_tidy (n : Node) : n.tidy.placeholders = n.placeholders := by
  induction n with
  | null | leaf | hash => rfl
  | extension p child ih => exact ih
  | branch children v ih => simp only [tidy, placeholders, ih]

theorem Grounded.readable_tidy (hn : n.Grounded P) : n.tidy.Readable := by
  induction n with
  | null | leaf | hash => trivial
  | extension p child ih => exact ⟨hn.1, tidy_ne_null hn.2.1, ih hn.2.2⟩
  | branch children v ih =>
    refine ⟨?_, fun i => ih i (hn i)⟩
    split
    · nofun
    · assumption

/-- **What is read of a grounded node** is the node as storage holds it. -/
theorem Grounded.decode_encode (hn : n.Grounded P) (hh : ∀ h, n ≠ hash h)
    (hlen : n.encode.length < 2 ^ 64) : decode n.encode = .ok n.tidy.shallow := by
  rw [← encode_tidy] at hlen ⊢
  exact hn.readable_tidy.decode_encode (tidy_ne_hash hh) hlen

/-- A reference to a child is to a node that is written with it, or one of its
placeholders. -/
theorem mem_of_mem_embed {k : Hash} (hk : k ∈ c.tidy.embed.placeholders) :
    k ∈ (c.writes false).map Prod.fst ∨ k ∈ c.placeholders := by
  rcases c.hash_or_ne_hash with ⟨h, rfl⟩ | hc
  · exact .inr hk
  · by_cases hlen : c.encode.length < 32
    · rw [embed_of_short (tidy_ne_hash hc) (by rwa [encode_tidy]), placeholders_tidy] at hk
      exact .inr hk
    · -- a child that is referred to by hash is long enough to be written itself
      rw [embed_of_long (tidy_ne_hash hc) (by rwa [encode_tidy]), encode_tidy, placeholders,
        List.mem_singleton] at hk
      have hnull : c ≠ null := by
        rintro rfl
        exact hlen (by decide)
      rw [hk]
      exact .inl (List.mem_map.mpr ⟨_, mem_writes_self hnull hc (.inr hlen), rfl⟩)

/-! ## Closed sequences of writes -/

/-- Every write can be read, and what it refers to was written before it or is known. -/
def Closed (known : Hash → Prop) (ws : List (Hash × Bytes)) : Prop :=
  ∀ before w after, ws = before ++ w :: after →
    ∃ n, decode w.2 = .ok n ∧ ∀ k ∈ n.placeholders, k ∈ before.map Prod.fst ∨ known k

variable {K K' : Hash → Prop} {xs ys : List (Hash × Bytes)}

theorem closed_nil : Closed K [] := by
  intro before w after h
  simp at h

theorem closed_singleton {w : Hash × Bytes} (hn : decode w.2 = .ok n)
    (hK : ∀ k ∈ n.placeholders, K k) : Closed K [w] := by
  intro before w' after heq
  cases before with
  | nil =>
    cases heq
    exact ⟨n, hn, fun k hk => .inr (hK k hk)⟩
  | cons v before => simp at heq

theorem Closed.mono (h : Closed K xs) (hK : ∀ k, K k → K' k) : Closed K' xs := by
  intro before w after heq
  obtain ⟨n, hn, hrefs⟩ := h before w after heq
  exact ⟨n, hn, fun k hk => (hrefs k hk).imp_right (hK k)⟩

theorem Closed.left (h : Closed K (xs ++ ys)) : Closed K xs := by
  intro before w after heq
  exact h before w (after ++ ys) (by rw [heq, List.append_assoc, List.cons_append])

theorem Closed.of_mem (h : Closed K xs) {w : Hash × Bytes} (hw : w ∈ xs) (hn : decode w.2 = .ok n)
    {k : Hash} (hk : k ∈ n.placeholders) : k ∈ xs.map Prod.fst ∨ K k := by
  obtain ⟨before, after, rfl⟩ := List.append_of_mem hw
  obtain ⟨m, hm, hrefs⟩ := h before w after rfl
  rw [hn] at hm
  cases hm
  refine (hrefs k hk).imp_left fun hbefore => ?_
  rw [List.map_append]
  exact List.mem_append_left _ hbefore

theorem closed_append (hx : Closed K xs)
    (hy : Closed (fun k => k ∈ xs.map Prod.fst ∨ K k) ys) : Closed K (xs ++ ys) := by
  intro before w after heq
  rcases List.append_eq_append_iff.mp heq with ⟨more, rfl, hys⟩ | ⟨rest, rfl, hrest⟩
  · obtain ⟨n, hn, hrefs⟩ := hy more w after hys
    refine ⟨n, hn, fun k hk => ?_⟩
    rw [List.map_append, List.mem_append, or_assoc, or_left_comm]
    exact hrefs k hk
  · -- the write is the first of the second part, or one of the first part
    cases rest with
    | nil =>
      obtain ⟨n, hn, hrefs⟩ := hy [] w after hrest.symm
      refine ⟨n, hn, fun k hk => ?_⟩
      simpa using hrefs k hk
    | cons v rest =>
      obtain ⟨rfl, -⟩ := List.cons.inj hrest
      exact hx before w rest rfl

theorem closed_flatten {xss : List (List (Hash × Bytes))} (h : ∀ xs ∈ xss, Closed K xs) :
    Closed K xss.flatten := by
  induction xss with
  | nil => exact closed_nil
  | cons xs xss ih =>
    rw [List.flatten_cons]
    refine closed_append (h xs List.mem_cons_self) ?_
    exact (ih fun ys hys => h ys (List.mem_cons_of_mem xs hys)).mono fun k hk => .inr hk

theorem closed_own (hn : n.Grounded P) (hh : ∀ h, n ≠ hash h)
    (hlen : ∀ w ∈ writes.own isRoot n.encode, w.2.length < 2 ^ 64)
    (hK : ∀ k ∈ n.tidy.shallow.placeholders, K k) : Closed K (writes.own isRoot n.encode) := by
  rw [writes.own] at hlen ⊢
  split at hlen
  · rename_i hwritten
    rw [if_pos hwritten]
    have hdecode := hn.decode_encode hh (hlen _ (List.mem_singleton_self _))
    exact closed_singleton hdecode hK
  · rename_i hunwritten
    rw [if_neg hunwritten]
    exact closed_nil

/-- **The writes of a tree** are closed, given its placeholders. -/
theorem closed_writes (hn : n.Grounded P) (hlen : ∀ w ∈ n.writes isRoot, w.2.length < 2 ^ 64) :
    Closed (· ∈ n.placeholders) (n.writes isRoot) := by
  induction n generalizing isRoot with
  | null | hash => exact closed_nil
  | leaf p v => exact closed_own hn (by simp) hlen fun k hk => absurd hk List.not_mem_nil
  | extension p child ih =>
    rw [writes, List.forall_mem_append] at hlen
    refine closed_append (ih hn.2.2 hlen.1) (closed_own hn (by simp) hlen.2 fun k hk => ?_)
    exact mem_of_mem_embed hk
  | branch children v ih =>
    rw [writes, List.forall_mem_append] at hlen
    refine closed_append (closed_flatten fun ws hws => ?_)
      (closed_own hn (by simp) hlen.2 fun k hk => ?_)
    · obtain ⟨i, rfl⟩ := List.mem_ofFn.mp hws
      refine (ih i (hn i) fun w hw => hlen.1 w ?_).mono fun k hk =>
        mem_placeholders_branch.mpr ⟨i, hk⟩
      exact List.mem_flatten.mpr ⟨_, hws, hw⟩
    · obtain ⟨i, hi⟩ := mem_placeholders_branch.mp hk
      rcases mem_of_mem_embed hi with hwritten | hplace
      · left
        obtain ⟨w, hw, rfl⟩ := List.mem_map.mp hwritten
        exact List.mem_map.mpr
          ⟨w, List.mem_flatten.mpr ⟨_, List.mem_ofFn.mpr ⟨i, rfl⟩, hw⟩, rfl⟩
      · exact .inr (mem_placeholders_branch.mpr ⟨i, hplace⟩)

/-! ## The order of writing -/

theorem length_of_mem_writes {w : Hash × Bytes} (hw : w ∈ n.writes false) : 32 ≤ w.2.length := by
  have hown (b : Bytes) (w : Hash × Bytes) (hb : w ∈ writes.own false b) : 32 ≤ w.2.length := by
    obtain ⟨hlong, rfl⟩ := mem_own_iff.mp hb
    exact hlong.resolve_left nofun
  exact forall_mem_writes hown hown w hw

/-- **The root comes last,** after nodes that are referred to by hash. -/
theorem exists_writes_root (hnull : n ≠ null) (hh : ∀ h, n ≠ hash h) :
    ∃ below, n.writes true = below ++ [(n.digest, n.encode)] ∧ ∀ w ∈ below, 32 ≤ w.2.length := by
  cases n with
  | null => exact absurd rfl hnull
  | hash h => exact absurd rfl (hh h)
  | leaf p v => exact ⟨[], rfl, nofun⟩
  | extension p child => exact ⟨_, rfl, fun w hw => length_of_mem_writes hw⟩
  | branch children v =>
    refine ⟨_, rfl, fun w hw => ?_⟩
    obtain ⟨ws, hws, hw⟩ := List.mem_flatten.mp hw
    obtain ⟨i, rfl⟩ := List.mem_ofFn.mp hws
    exact length_of_mem_writes hw

end Node

namespace NodeSource

variable {source : NodeSource} {ws : List (Hash × Bytes)}

/-- The source after a write. -/
def put (source : NodeSource) (w : Hash × Bytes) : NodeSource where
  read h := if h = w.1 then some w.2 else source.read h
  size := source.size + 1

/-- The source after some writes. -/
def after (source : NodeSource) (ws : List (Hash × Bytes)) : NodeSource := ws.foldl put source

theorem read_after {h : Hash} {b : Bytes} (hb : (source.after ws).read h = some b) :
    (h, b) ∈ ws ∨ source.read h = some b := by
  induction ws generalizing source with
  | nil => exact .inr hb
  | cons w ws ih =>
    rcases ih hb with hmem | hput
    · exact .inl (List.mem_cons_of_mem w hmem)
    · rw [put] at hput
      dsimp only at hput
      split at hput
      · rename_i heq
        obtain rfl := Option.some.inj hput
        rw [heq]
        exact .inl List.mem_cons_self
      · exact .inr hput

theorem reads_after {h : Hash} (hread : h ∈ ws.map Prod.fst ∨ source.Reads h) :
    (source.after ws).Reads h := by
  induction ws generalizing source with
  | nil => exact hread.resolve_left List.not_mem_nil
  | cons w ws ih =>
    refine ih ?_
    have hput : h = w.1 ∨ source.Reads h → (source.put w).Reads h := by
      intro hor
      by_cases heq : h = w.1
      · exact ⟨w.2, if_pos heq⟩
      · obtain ⟨b, hb⟩ := hor.resolve_left heq
        exact ⟨b, (if_neg heq).trans hb⟩
    rw [List.map_cons, List.mem_cons, or_assoc, or_left_comm] at hread
    exact hread.imp_right hput

/-- **A source that reads all that its nodes refer to** does so after writes that are
closed, given what it reads. -/
theorem Complete.after (hs : source.Complete) (hws : Node.Closed source.Reads ws) :
    (source.after ws).Complete := by
  intro h b n hread hn k hk
  rcases read_after hread with hmem | hold
  · exact reads_after (hws.of_mem hmem hn hk)
  · exact reads_after (.inr (hs h b n hold hn k hk))

end NodeSource

namespace Trie

variable {source : NodeSource} {start t : Trie} {cs : List Change}

/-- A trie that is opened is grounded in every set that has its root. -/
theorem grounded_start {P : Hash → Prop} (hstart : start = empty ∨ ∃ h, start = ofRoot h)
    (hroot : ∀ h, start.root = .hash h → P h) : start.root.Grounded P := by
  rcases hstart with rfl | ⟨h, rfl⟩
  · trivial
  · unfold ofRoot at hroot ⊢
    split
    · trivial
    · rename_i hne
      exact hroot h (by rw [if_neg hne])

/-- **Storing a trie writes a closed set of nodes, children first.**  The trie was opened
empty or at a hash, and changed with success.  Every node is written under its hash, the
root last and the others only if they have 32 bytes or more; a root that is empty or was
not loaded is not written at all.  What the bytes of a node refer to was written before it
or stands as a placeholder in the trie.  So wherever the writing stops, what was written
refers to what was written and to what is met from the root that was opened, and a source
that reads all that its nodes refer to still does so.

A header has room for eight bytes of length, more than byte strings in memory need. -/
theorem writes_closed (hstart : start = empty ∨ ∃ h, start = ofRoot h)
    (ht : changes source cs start = .ok t) (hlen : ∀ w ∈ t.writes, w.2.length < 2 ^ 64) :
    (∀ w ∈ t.writes, w.1 = keccak w.2) ∧
    (t.Settled → t.writes = []) ∧
    (¬ t.Settled → ∃ below, t.writes = below ++ [(t.rootHash, t.root.encode)] ∧
      ∀ w ∈ below, 32 ≤ w.2.length) ∧
    (∀ before w after, t.writes = before ++ w :: after →
      ∃ n, Node.decode w.2 = .ok n ∧
        ∀ k ∈ n.placeholders, k ∈ before.map Prod.fst ∨ k ∈ t.root.placeholders) ∧
    ∀ written, written <+: t.writes →
      (∀ w ∈ written, ∀ n, Node.decode w.2 = .ok n →
        ∀ k ∈ n.placeholders, k ∈ written.map Prod.fst ∨ Node.Meets source start.root k) ∧
      (source.Complete → (∀ h, start.root = .hash h → source.Reads h) →
        (source.after written).Complete) := by
  -- every placeholder in the changed trie was in it at the start, or was loaded on the way
  have hmeets : t.root.Grounded (Node.Meets source start.root) :=
    grounded_changes (Node.anchors_meets start.root)
      (grounded_start hstart fun h hroot => hroot ▸ .here h) ht
  have hclosed : Node.Closed (· ∈ t.root.placeholders) t.writes :=
    Node.closed_writes hmeets hlen
  refine ⟨addressed_writes t, ?_, ?_, hclosed, ?_⟩
  · rintro (hroot | ⟨h, hroot⟩) <;> rw [writes, hroot] <;> rfl
  · intro hheld
    rw [Settled, not_or, not_exists] at hheld
    exact Node.exists_writes_root hheld.1 hheld.2
  · rintro written ⟨rest, hrest⟩
    rw [← hrest] at hclosed
    refine ⟨fun w hw n hn k hk => ?_, fun hcomplete hroot => hcomplete.after ?_⟩
    · exact (hclosed.left.of_mem hw hn hk).imp_right hmeets.of_mem
    · have hreads : t.root.Grounded source.Reads :=
        grounded_changes hcomplete.anchors (grounded_start hstart hroot) ht
      exact hclosed.left.mono fun k hk => hreads.of_mem hk

/-- `Node.circle` with a third child, which is in memory and too long to be kept in its
parent. -/
def grown : Trie :=
  ⟨.branch (Node.setChild (Node.setChild (Node.setChild (fun _ => .null) 0 (.hash 5)) 1 (.hash 5)) 2
    (.leaf [0] (List.replicate 40 0x61))) none⟩

theorem changes_circling :
    changes Node.circling [.put [0x20] (List.replicate 40 0x61)] (ofRoot 5) = .ok grown := by
  have hopen : ofRoot 5 = ⟨.hash 5⟩ := if_neg (by decide)
  have hinsert : (Node.hash 5).insert Node.circling (Path.ofBytes [0x20]) (List.replicate 40 0x61) =
      .ok grown.root := by
    change (Node.hash 5).insert Node.circling [2, 0] _ = _
    rw [Node.insert_hash Node.load_circling, Node.circle, Node.insert_branch_cons]
    change (Node.null.insert Node.circling [0] _).map _ = _
    rw [Node.insert_null]
    rfl
  rw [changes_singleton, hopen, change, insert, hinsert]
  rfl

theorem reads_circling : Node.circling.Reads 5 := ⟨_, rfl⟩

theorem complete_circling : Node.circling.Complete := by
  intro h b n hread hn k hk
  have hh : h = 5 := by
    by_contra hne
    exact absurd ((if_neg hne).symm.trans hread) nofun
  have hload := NodeSource.load_of_read hread hn
  rw [hh, Node.load_circling] at hload
  cases hload
  rw [Node.meets_circle (Node.meets_of_mem hk) (.inr (.inr rfl))]
  exact reads_circling

/-- The child is written and then the root, which refers to the child and to the node that was
in the source before; the source is complete after one write and after both. -/
theorem writes_closed_grown :
    changes Node.circling [.put [0x20] (List.replicate 40 0x61)] (ofRoot 5) = .ok grown ∧
      (∀ w ∈ grown.writes, w.2.length < 2 ^ 64) ∧ grown.writes.length = 2 ∧
      grown.writes.getLast? = some (grown.rootHash, grown.root.encode) ∧
      Node.circling.Complete ∧ Node.circling.Reads 5 ∧
      ∀ written, written <+: grown.writes → (Node.circling.after written).Complete := by
  have hlen : ∀ w ∈ grown.writes, w.2.length < 2 ^ 64 := by decide +kernel
  have hheld : ¬ grown.Settled := by
    rintro (hroot | ⟨h, hroot⟩) <;> exact absurd hroot nofun
  obtain ⟨-, -, hroot, -, hinitial⟩ := writes_closed (.inr ⟨5, rfl⟩) changes_circling hlen
  obtain ⟨below, hwrites, -⟩ := hroot hheld
  refine ⟨changes_circling, hlen, by decide +kernel, by rw [hwrites, List.getLast?_concat],
    complete_circling, reads_circling, fun written hwritten => ?_⟩
  refine (hinitial written hwritten).2 complete_circling fun h hopen => ?_
  have hroot : (ofRoot 5).root = .hash 5 := congrArg Trie.root (if_neg (by decide))
  rw [hroot] at hopen
  cases hopen
  exact reads_circling

end Trie
end Ethereum
