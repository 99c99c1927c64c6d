/-
# The root hash binds the entries

An encoding is read back as the node with its children as storage holds them
(`Node.decode_encode`), so equal encodings come from nodes of one kind, with equal
paths and values and with equal references.  A reference is the child itself, or a
hash that no short child has, and equal hashes come from equal encodings as long as
keccak does not collide on what was hashed.  Going down, two canonical nodes with
one encoding are one node (`Node.eq_of_encode_eq`).

The root hash is the hash of an encoding, and so tries with one root hash have the
same entries (`Trie.Has.entries_eq`, `Trie.get_eq_of_rootHash_eq`).
-/

import Mathlib
import Ethereum.Proofs.Trie.Modes

namespace Ethereum

namespace Node

/-! ## What is hashed below a node -/

/-- The encodings of a node and of the nodes below it. -/
def encodings : Node → List Bytes
  | null => [null.encode]
  | leaf p v => [(leaf p v).encode]
  | extension p child => (extension p child).encode :: child.encodings
  | branch children v =>
    (branch children v).encode :: (List.ofFn fun i => (children i).encodings).flatten
  | hash _ => []

theorem encode_mem_encodings {n : Node} (hn : ∀ h, n ≠ hash h) : n.encode ∈ n.encodings := by
  cases n with
  | hash h => exact absurd rfl (hn h)
  | _ => exact List.mem_cons_self

theorem snd_of_mem_own {isRoot : Bool} {b : Bytes} {w : Hash × Bytes}
    (hw : w ∈ writes.own isRoot b) : w.2 = b := by
  rw [(mem_own_iff.mp hw).2]

/-- What is written below a node is among its encodings. -/
theorem mem_encodings_of_mem_writes {n : Node} {isRoot : Bool} {w : Hash × Bytes}
    (hw : w ∈ n.writes isRoot) : w.2 ∈ n.encodings := by
  induction n generalizing isRoot with
  | null | hash => exact absurd hw List.not_mem_nil
  | leaf p v => exact List.mem_singleton.mpr (snd_of_mem_own hw)
  | extension p child ih =>
    rcases List.mem_append.mp hw with hw | hw
    · exact List.mem_cons_of_mem _ (ih hw)
    · exact List.mem_cons.mpr (.inl (snd_of_mem_own hw))
  | branch children v ih =>
    rcases List.mem_append.mp hw with hw | hw
    · obtain ⟨ws, hws, hw⟩ := List.mem_flatten.mp hw
      obtain ⟨i, rfl⟩ := List.mem_ofFn.mp hws
      exact List.mem_cons_of_mem _ (List.mem_flatten.mpr ⟨_, List.mem_ofFn.mpr ⟨i, rfl⟩, ih i hw⟩)
    · exact List.mem_cons.mpr (.inl (snd_of_mem_own hw))

/-- The data has every encoding that is hashed below a node. -/
def HashedIn (data : List Bytes) (n : Node) : Prop := ∀ w ∈ n.writes false, w.2 ∈ data

variable {data : List Bytes} {m n c d : Node}

theorem HashedIn.encode_mem (h : n.HashedIn data) (hn : ∀ h, n ≠ hash h)
    (hlong : ¬ n.encode.length < 32) : n.encode ∈ data := by
  have hnull : n ≠ null := by
    rintro rfl
    exact hlong (by decide)
  exact h _ (mem_writes_self hnull hn (.inr hlong))

theorem HashedIn.extension {p : Path} (h : (extension p c).HashedIn data) : c.HashedIn data :=
  fun w hw => h w (mem_writes_extension hw)

theorem HashedIn.branch {children : Nibble → Node} {v : Option Bytes}
    (h : (branch children v).HashedIn data) (i : Nibble) : (children i).HashedIn data :=
  fun w hw => h w (mem_writes_branch i hw)

/-! ## Equal encodings -/

/-- **Equal references come from equal children.**  A child that is embedded is no hash,
and children that are hashed have equal encodings. -/
theorem eq_of_embed_eq (hcol : Collisionless data) (hc : ∀ h, c ≠ hash h) (hd : ∀ h, d ≠ hash h)
    (hcdata : c.HashedIn data) (hddata : d.HashedIn data) (ih : c.encode = d.encode → c = d)
    (h : c.embed = d.embed) : c = d := by
  by_cases hcs : c.encode.length < 32
  · rw [embed_of_short hc hcs] at h
    by_cases hds : d.encode.length < 32
    · rwa [embed_of_short hd hds] at h
    · rw [embed_of_long hd hds] at h
      exact absurd h (hc _)
  · rw [embed_of_long hc hcs] at h
    by_cases hds : d.encode.length < 32
    · rw [embed_of_short hd hds] at h
      exact absurd h.symm (hd _)
    · rw [embed_of_long hd hds] at h
      have hkeccak : keccak c.encode = keccak d.encode := Node.hash.inj h
      exact ih (hcol _ (hcdata.encode_mem hc hcs) _ (hddata.encode_mem hd hds) hkeccak)

/-- Equal encodings come from nodes that storage holds alike. -/
theorem shallow_eq_of_encode_eq (hm : m.Canonical) (hn : n.Canonical) (hmfit : m.Fits)
    (hnfit : n.Fits) (h : m.encode = n.encode) : m.shallow = n.shallow := by
  have hdecode := decode_encode hm (length_encode_lt hm hmfit)
  rw [h, decode_encode hn (length_encode_lt hn hnfit)] at hdecode
  exact (Except.ok.inj hdecode).symm

/-- **An encoding comes from one canonical node only**, if keccak does not collide on the
encodings that are hashed below it. -/
theorem eq_of_encode_eq (hcol : Collisionless data) (hm : m.Canonical) (hn : n.Canonical)
    (hmfit : m.Fits) (hnfit : n.Fits) (hmdata : m.HashedIn data) (hndata : n.HashedIn data)
    (h : m.encode = n.encode) : m = n := by
  -- equal encodings have equal references to their children, and hashes tell these apart
  induction m generalizing n with
  | null =>
    have hshallow := shallow_eq_of_encode_eq hm hn hmfit hnfit h
    cases n <;> cases hshallow
    rfl
  | leaf p v =>
    have hshallow := shallow_eq_of_encode_eq hm hn hmfit hnfit h
    cases n <;> cases hshallow
    rfl
  | hash k => exact absurd rfl (hm.ne_hash k)
  | extension p c ih =>
    have hshallow := shallow_eq_of_encode_eq hm hn hmfit hnfit h
    cases n with
    | extension q d =>
      obtain ⟨rfl, hembed⟩ := Node.extension.inj hshallow
      have hc := (hm (by simp)).2.2.canonical
      have hd := (hn (by simp)).2.2.canonical
      rw [eq_of_embed_eq hcol hc.ne_hash hd.ne_hash hmdata.extension hndata.extension
        (ih hc hd hmfit.extension hnfit.extension hmdata.extension hndata.extension) hembed]
    | _ => cases hshallow
  | branch cs v ih =>
    have hshallow := shallow_eq_of_encode_eq hm hn hmfit hnfit h
    cases n with
    | branch ds w =>
      obtain ⟨hembed, rfl⟩ := Node.branch.inj hshallow
      have hcs : cs = ds := funext fun i => by
        have hc := (hm (by simp)).child i
        have hd := (hn (by simp)).child i
        exact eq_of_embed_eq hcol hc.ne_hash hd.ne_hash (hmdata.branch i) (hndata.branch i)
          (ih i hc hd (hmfit.branch i) (hnfit.branch i) (hmdata.branch i) (hndata.branch i))
          (congrFun hembed i)
      rw [hcs]
    | _ => cases hshallow

/-- **A digest comes from one canonical node only.**  The data has the encodings of both
nodes as well, since a root is hashed whatever its size. -/
theorem eq_of_digest_eq (hcol : Collisionless data) (hm : m.Canonical) (hn : n.Canonical)
    (hmfit : m.Fits) (hnfit : n.Fits) (hmdata : m.HashedIn data) (hndata : n.HashedIn data)
    (hmself : m.encode ∈ data) (hnself : n.encode ∈ data) (h : m.digest = n.digest) : m = n := by
  rw [digest_eq hm.ne_hash, digest_eq hn.ne_hash] at h
  exact eq_of_encode_eq hcol hm hn hmfit hnfit hmdata hndata (hcol _ hmself _ hnself h)

/-! ## What was written below a root -/

/-- A child that stays as it is when it is embedded is a placeholder or short, and nothing
is written below either. -/
theorem writes_of_embed_eq (h : n.embed = n)
    (hshort : n.encode.length < 32 → n.writes false = []) : n.writes false = [] := by
  rcases n.hash_or_ne_hash with ⟨k, rfl⟩ | hn
  · rfl
  · refine hshort (by_contra fun hlong => ?_)
    rw [embed_of_long hn hlong] at h
    exact hn _ h.symm

theorem writes_of_short (h : n.encode.length < 32) : n.writes false = [] := by
  have hown {b : Bytes} (hb : b.length < 32) : writes.own false b = [] := by
    rw [writes.own, if_neg (by simpa using hb)]
  induction n with
  | null | hash => rfl
  | leaf p v => exact hown h
  | extension p child ih =>
    rw [writes, hown h, List.append_nil]
    exact writes_of_embed_eq (Node.extension.inj (shallow_of_short h)).2 ih
  | branch children v ih =>
    have hchildren := (Node.branch.inj (shallow_of_short h)).1
    rw [writes, hown h, List.append_nil, List.flatten_eq_nil_iff]
    intro ws hws
    obtain ⟨i, rfl⟩ := List.mem_ofFn.mp hws
    exact writes_of_embed_eq (congrFun hchildren i) (ih i)

/-- Nothing is written below a node as its parent in storage holds it. -/
theorem writes_embed (n : Node) : n.embed.writes false = [] := by
  rcases n.hash_or_ne_hash with ⟨k, rfl⟩ | hn
  · rfl
  · by_cases hlen : n.encode.length < 32
    · rw [embed_of_short hn hlen]
      exact writes_of_short hlen
    · rw [embed_of_long hn hlen]
      rfl

/-- Below a node as storage holds it only the node itself is hashed. -/
theorem hashedIn_shallow (h : n.shallow.encode ∈ data) : n.shallow.HashedIn data := by
  intro w hw
  suffices hown : w ∈ writes.own false n.shallow.encode by
    rwa [snd_of_mem_own hown]
  cases n with
  | null | hash => exact absurd hw List.not_mem_nil
  | leaf p v => exact hw
  | extension p child =>
    rw [shallow, writes, writes_embed, List.nil_append] at hw
    exact hw
  | branch children v =>
    have hnil : (List.ofFn fun i => (children i).embed.writes false).flatten = [] := by
      simp only [writes_embed, List.ofFn_const, List.flatten_replicate_nil]
    rw [shallow, writes, hnil, List.nil_append] at hw
    exact hw

section
variable {source : NodeSource} {log : List (Hash × Bytes)} {node full root : Node}

/-- Below a node that was loaded only the node itself is hashed. -/
theorem hashedIn_of_load {k : Hash} (hs : source.Has log) (hmem : (k, full.encode) ∈ log)
    (hload : source.load k = .ok node) (hc : full.Canonical) (hfit : full.Fits)
    (hencode : node.encode = full.encode) (hdata : full.encode ∈ data) : node.HashedIn data := by
  have hread := NodeSource.load_of_read (hs _ hmem) (decode_encode hc (length_encode_lt hc hfit))
  rw [hload] at hread
  obtain rfl := Except.ok.inj hread
  exact hashedIn_shallow (hencode ▸ hdata)

/-- **What is hashed below an unfolded node** was written, or is written with the node that
unfolds to it. -/
theorem Unfolds.hashedIn (h : Unfolds source (Stored log) node full) (hs : source.Has log)
    (hlog : ∀ w ∈ log, w.2 ∈ data) (hc : full.Canonical) (hfit : full.Fits)
    (hnode : node.HashedIn data) : full.HashedIn data := by
  induction h with
  | null | leaf => exact hnode
  | @extension p c d child ih =>
    intro w hw
    rcases List.mem_append.mp hw with hw | hw
    · exact ih (hc (by simp)).2.2.canonical hfit.extension hnode.extension w hw
    · rw [← (Unfolds.extension p child).encode_eq nofun] at hw
      exact hnode w (List.mem_append_right _ hw)
  | @branch cs ds v children ih =>
    intro w hw
    rcases List.mem_append.mp hw with hw | hw
    · obtain ⟨ws, hws, hw⟩ := List.mem_flatten.mp hw
      obtain ⟨i, rfl⟩ := List.mem_ofFn.mp hws
      exact ih i ((hc (by simp)).child i) (hfit.branch i) (hnode.branch i) w hw
    · rw [← (Unfolds.branch v children).encode_eq nofun] at hw
      exact hnode w (List.mem_append_right _ hw)
  | @hash k m n load below ne_null known ih =>
    have hencode := below.encode_eq fun _ => NodeSource.load_ne_hash load
    exact ih hc hfit (hashedIn_of_load hs known.mem load hc hfit hencode (hlog _ known.mem))

/-- What is written with a child is written with a root. -/
theorem writes_false_subset (n : Node) : n.writes false ⊆ n.writes true := by
  have hown (b : Bytes) : writes.own false b ⊆ writes.own true b :=
    fun _ hw => mem_own_iff.mpr ⟨.inl rfl, (mem_own_iff.mp hw).2⟩
  cases n with
  | null | hash => exact List.Subset.refl _
  | leaf p v => exact hown _
  | extension p child =>
    exact List.append_subset.mpr ⟨List.subset_append_left _ _,
      fun _ hw => List.mem_append_right _ (hown _ hw)⟩
  | branch children v =>
    exact List.append_subset.mpr ⟨List.subset_append_left _ _,
      fun _ hw => List.mem_append_right _ (hown _ hw)⟩

/-- **What is hashed of the tree under a root** was written, or is written with the root. -/
theorem Rooted.hashedIn (h : Rooted source log root full) (hs : source.Has log)
    (hlog : ∀ w ∈ log, w.2 ∈ data) (hnull : null.encode ∈ data) (hc : full.Canonical)
    (hfit : full.Fits) (hroot : ∀ w ∈ root.writes true, w.2 ∈ data) :
    full.HashedIn data ∧ full.encode ∈ data := by
  have hwrites : root.HashedIn data := fun w hw => hroot w (writes_false_subset root hw)
  rcases root.hash_or_ne_hash with ⟨k, rfl⟩ | hn
  · have hmem := hlog _ h.mem_of_hash.1
    refine ⟨?_, hmem⟩
    cases h with
    | held h => exact h.hashedIn hs hlog hc hfit hwrites
    | stored mem load below =>
      have hencode := below.encode_eq fun _ => NodeSource.load_ne_hash load
      exact below.hashedIn hs hlog hc hfit
        (hashedIn_of_load hs mem load hc hfit hencode hmem)
  · cases h with
    | stored => exact absurd rfl (hn _)
    | held h =>
      refine ⟨h.hashedIn hs hlog hc hfit hwrites, ?_⟩
      rw [← h.encode_eq hn]
      by_cases hroot' : root = .null
      · rw [hroot']
        exact hnull
      · exact hroot _ (mem_writes_self hroot' hn (.inl rfl))

end

end Node

namespace Trie

/-! ## Equal root hashes -/

/-- **The root hash binds the entries**, also of tries over stores: where nothing that was
written, or is written with one of the tries, has the hash of something else, tries with
one root hash have the same entries. -/
theorem Has.entries_eq {source source' : NodeSource} {log log' : List (Hash × Bytes)} {t u : Trie}
    {m m' : Bytes → Option Bytes} {data : List Bytes} (ht : t.Has source log m)
    (hu : u.Has source' log' m') (htfit : Fits m) (hufit : Fits m') (hs : source.Has log)
    (hs' : source'.Has log') (hcol : Collisionless data) (hnull : Node.null.encode ∈ data)
    (hlog : ∀ w ∈ log, w.2 ∈ data) (hlog' : ∀ w ∈ log', w.2 ∈ data)
    (htdata : ∀ w ∈ t.writes, w.2 ∈ data) (hudata : ∀ w ∈ u.writes, w.2 ∈ data)
    (h : t.rootHash = u.rootHash) : m = m' := by
  obtain ⟨n, hn, hcan, hfind⟩ := ht
  obtain ⟨n', hn', hcan', hfind'⟩ := hu
  have hfit := htfit.root hfind
  have hfit' := hufit.root hfind'
  obtain ⟨hhashed, hself⟩ := hn.hashedIn hs hlog hnull hcan hfit htdata
  obtain ⟨hhashed', hself'⟩ := hn'.hashedIn hs' hlog' hnull hcan' hfit' hudata
  have hdigest : n.digest = n'.digest := by
    rw [← hn.digest_eq, ← hn'.digest_eq]
    exact h
  obtain rfl := Node.eq_of_digest_eq hcol hcan hcan' hfit hfit' hhashed hhashed' hself hself' hdigest
  funext key
  rw [← Path.entries_ofBytes m, ← hfind, hfind', Path.entries_ofBytes]

/-- Changes whose keys and values fit in memory leave entries that do. -/
theorem fits_contents {cs : List Change} (h : ∀ c ∈ cs, c.Fits) : Fits (contents cs) := by
  induction cs using List.reverseRecOn with
  | nil => exact nofun
  | append_singleton cs c ih =>
    have hc : c.Fits := h c (by simp)
    rw [contents_append]
    exact (ih fun d hd => h d (List.mem_append_left _ hd)).update hc.1 hc.2

/-- The same encodings below two roots that are held: equal root hashes come from one
root. -/
theorem root_eq_of_rootHash_eq {t u : Trie} (ht : t.root.Canonical) (hu : u.root.Canonical)
    (htfit : t.root.Fits) (hufit : u.root.Fits)
    (hcol : Collisionless (t.root.encodings ++ u.root.encodings)) (h : t.rootHash = u.rootHash) :
    t.root = u.root := by
  refine Node.eq_of_digest_eq hcol ht hu htfit hufit ?_ ?_ ?_ ?_ h
  · exact fun w hw => List.mem_append_left _ (Node.mem_encodings_of_mem_writes hw)
  · exact fun w hw => List.mem_append_right _ (Node.mem_encodings_of_mem_writes hw)
  · exact List.mem_append_left _ (Node.encode_mem_encodings ht.ne_hash)
  · exact List.mem_append_right _ (Node.encode_mem_encodings hu.ne_hash)

/-- **The root hash binds the contents.**  Two tries that changes of the empty trie leave,
and that have one root hash, answer every lookup alike, if keccak does not collide on the
encodings of the nodes in the two.  Keys and values are those that fit in memory. -/
theorem get_eq_of_rootHash_eq (cs ds : List Change) (hcs : ∀ c ∈ cs, c.Fits)
    (hds : ∀ d ∈ ds, d.Fits) :
    ∃ t u, changes .none cs empty = .ok t ∧ changes .none ds empty = .ok u ∧
      (Collisionless (t.root.encodings ++ u.root.encodings) → t.rootHash = u.rootHash →
        ∀ key, ∃ v, t.get .none key = .ok v ∧ u.get .none key = .ok v) := by
  obtain ⟨t, ht, htholds⟩ := holds_contents cs
  obtain ⟨u, hu, huholds⟩ := holds_contents ds
  refine ⟨t, u, ht, hu, fun hcol h key => ⟨contents cs key, get_of_holds htholds key, ?_⟩⟩
  obtain ⟨n, hn, hncan, hnfind⟩ := id htholds
  obtain ⟨n', hn', hncan', hnfind'⟩ := huholds
  obtain rfl := hn.eq_of_none
  obtain rfl := hn'.eq_of_none
  have hroot := root_eq_of_rootHash_eq hncan hncan' ((fits_contents hcs).root hnfind)
    ((fits_contents hds).root hnfind') hcol h
  rw [get, ← hroot]
  exact get_of_holds htholds key

/-- Two words, one with a value that takes a node of its own, put in either order: the
root hashes are equal, and lookups answer alike. -/
theorem get_eq_of_two_words :
    let dog : Change := .put [0x64, 0x6f, 0x67] (List.replicate 32 0x70)
    let doge : Change := .put [0x64, 0x6f, 0x67, 0x65] [0x63]
    (∀ c ∈ [dog, doge], c.Fits) ∧ (∀ d ∈ [doge, dog], d.Fits) ∧
      ∃ t u, changes .none [dog, doge] empty = .ok t ∧ changes .none [doge, dog] empty = .ok u ∧
        Collisionless (t.root.encodings ++ u.root.encodings) ∧ t.rootHash = u.rootHash ∧
        ∀ key, ∃ v, t.get .none key = .ok v ∧ u.get .none key = .ok v := by
  intro dog doge
  have hfit : ∀ c ∈ [dog, doge], c.Fits := by
    simp [dog, doge, Change.Fits, Change.key, Change.entry]
  have hfit' : ∀ c ∈ [doge, dog], c.Fits := by
    simp [dog, doge, Change.Fits, Change.key, Change.entry]
  have hcontents : contents [dog, doge] = contents [doge, dog] := by
    funext key
    simp only [contents, List.foldl, Change.apply, Change.key, Change.entry, Function.update_apply,
      dog, doge]
    split_ifs <;> simp_all
  let leaf : Trie := ⟨.leaf (Path.ofBytes dog.key) (List.replicate 32 0x70)⟩
  let fork : Trie := ⟨Node.wrap (Path.ofBytes dog.key)
    (Node.place [6, 5] [0x63] (Node.place [] (List.replicate 32 0x70) Node.emptyBranch))⟩
  have hleaf : empty.change .none dog = .ok leaf := by
    rw [change, insert, empty, Node.insert_null]
    rfl
  have hfork : leaf.change .none doge = .ok fork := by
    rw [change, insert, Node.insert_leaf]
    rfl
  have hrun : changes .none [dog, doge] empty = .ok fork := by
    rw [changes, List.foldlM_cons, hleaf]
    exact (changes_singleton doge leaf).trans hfork
  obtain ⟨t, u, ht, hu, hget⟩ := get_eq_of_rootHash_eq _ _ hfit hfit'
  obtain ⟨t', ht', hu'⟩ := changes_eq_of_contents_eq hcontents
  obtain rfl : t = fork := Except.ok.inj (ht.symm.trans hrun)
  obtain rfl : t' = fork := Except.ok.inj (ht'.symm.trans hrun)
  obtain rfl : u = fork := Except.ok.inj (hu.symm.trans hu')
  have hcol : Collisionless (fork.root.encodings ++ fork.root.encodings) := by
    decide +kernel
  exact ⟨hfit, hfit', fork, fork, hrun, hu', hcol, rfl, hget hcol rfl⟩

end Trie
end Ethereum
