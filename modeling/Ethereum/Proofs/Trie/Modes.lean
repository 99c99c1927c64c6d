/-
# A stored trie answers like one in memory

The same calls are made on a trie in memory and on one that reads from a store and
writes to it when it is committed.  Every call succeeds in both modes, with the same
answer and the same root hash after it (`answers_eq`): whichever part of the tree
is in memory, the stored trie has the entries of the other (`Agree`).

Two things are assumed.  Keys and values fit in memory, which bounds the lengths in
an encoding, and no two of the encodings that the store has been given, nor that of
the empty node, have one hash.
-/

import Mathlib
import Std.Data.ExtTreeMap.Lemmas
import Ethereum.Proofs.Trie.Entries
import Ethereum.Proofs.Trie.Listing

namespace Ethereum
namespace Trie

/-! ## Calls -/

/-- Where a trie keeps its nodes. -/
inductive Mode where
  | inMemory
  | stored
deriving DecidableEq, Repr

/-- A call of a trie. -/
inductive Call where
  | change (c : Change)
  | get (key : Bytes)
  | entriesFrom (start : Hash) (limit : Nat)
  | rootHash
  | commit
  /-- Replaces the trie by the one that is opened at its root hash. -/
  | reopen
deriving DecidableEq, Repr

/-- What a call returns. -/
inductive Answer where
  | done
  | value (v : Option Bytes)
  | entries (es : List (Hash × Bytes))
  | hash (h : Hash)
deriving DecidableEq, Repr

/-- A trie and what was written to its store, the last write at the end. -/
structure Bench where
  trie : Trie
  log : List (Hash × Bytes)

/-- The nodes in a store after writes. -/
def nodes (log : List (Hash × Bytes)) : Std.ExtTreeMap Hash Bytes :=
  log.foldl (fun m w => m.insert w.1 w.2) ∅

namespace Mode

/-- The source that a trie reads from after writes. -/
def source (log : List (Hash × Bytes)) : Mode → NodeSource
  | inMemory => .none
  | stored => ⟨fun h => (nodes log)[h]?, (nodes log).size⟩

/-- A call in a mode: what it returns, and what it leaves. -/
def call (mode : Mode) (s : Bench) : Call → Except TrieError Answer × Bench
  | .change c =>
    match Trie.update (fun t => t.change (mode.source s.log) c) s.trie with
    | .ok _ t => (.ok .done, { s with trie := t })
    | .error e t => (.error e, { s with trie := t })
  | .get key => ((s.trie.get (mode.source s.log) key).map .value, s)
  | .entriesFrom start limit =>
    ((s.trie.entriesFrom (mode.source s.log) start limit).map .entries, s)
  | .rootHash => (.ok (.hash s.trie.rootHash), s)
  | .commit =>
    match mode with
    | inMemory => (.ok .done, s)
    | stored => (.ok .done, ⟨s.trie.collapse, s.log ++ s.trie.writes⟩)
  | .reopen =>
    match mode with
    | inMemory => (.ok .done, s)
    | stored => (.ok .done, { s with trie := .ofRoot s.trie.rootHash })

theorem call_change {mode : Mode} {s : Bench} {c : Change} {t : Trie}
    (h : s.trie.change (mode.source s.log) c = .ok t) :
    mode.call s (.change c) = (.ok .done, { s with trie := t }) := by
  rw [call]
  simp only [update, h]

/-- Calls one after the other from the empty trie: their answers, each with the root
hash after it, and what they leave. -/
def run (mode : Mode) (cs : List Call) : List (Except TrieError Answer × Hash) × Bench :=
  cs.foldl (fun r c =>
    let (a, s) := mode.call r.2 c
    (r.1 ++ [(a, s.trie.rootHash)], s)) ([], ⟨empty, []⟩)

end Mode

/-! ## The store -/

/-- The encodings that a store was given, after that of the empty node. -/
def encodings (log : List (Hash × Bytes)) : List Bytes :=
  Node.null.encode :: log.map Prod.snd

theorem mem_encodings {log : List (Hash × Bytes)} {w : Hash × Bytes} (h : w ∈ log) :
    w.2 ∈ encodings log :=
  List.mem_cons_of_mem _ (List.mem_map_of_mem h)

theorem encodings_subset (log writes : List (Hash × Bytes)) :
    encodings log ⊆ encodings (log ++ writes) := by
  intro b hb
  rw [encodings, List.map_append, ← List.cons_append]
  exact List.mem_append_left _ hb

/-- **What was written is what is read**, if no two encodings have one hash. -/
theorem read_iff {log : List (Hash × Bytes)} (hlog : Addressed log)
    (hcol : Collisionless (encodings log)) (h : Hash) (b : Bytes) :
    (Mode.stored.source log).read h = some b ↔ (h, b) ∈ log := by
  change (nodes log)[h]? = some b ↔ _
  induction log using List.reverseRecOn with
  | nil => simp [nodes]
  | append_singleton log w ih =>
    have hinsert : (nodes (log ++ [w]))[h]? = if w.1 = h then some w.2 else (nodes log)[h]? := by
      rw [nodes, List.foldl_append, List.foldl_cons, List.foldl_nil, ← nodes,
        Std.ExtTreeMap.getElem?_insert]
      simp only [Std.compare_eq_iff_eq]
    rw [hinsert, List.mem_append, List.mem_singleton]
    by_cases hw : w.1 = h
    · subst hw
      rw [if_pos rfl, Option.some.injEq]
      constructor
      · rintro rfl
        exact .inr rfl
      · rintro (hb | hb)
        · refine hcol _ (mem_encodings (by simp)) _ (mem_encodings (List.mem_append_left _ hb)) ?_
          rw [← hlog w (by simp), ← hlog (w.1, b) (List.mem_append_left _ hb)]
        · exact (congrArg Prod.snd hb).symm
    · rw [if_neg hw, ih hlog.left (hcol.mono (encodings_subset _ _)), or_iff_left]
      rintro rfl
      exact hw rfl

/-- The store has what was written to it. -/
theorem has_log {log : List (Hash × Bytes)} (hlog : Addressed log)
    (hcol : Collisionless (encodings log)) : (Mode.stored.source log).Has log :=
  fun w hw => (read_iff hlog hcol w.1 w.2).mpr hw

theorem bounded_source (log : List (Hash × Bytes)) : (Mode.stored.source log).Bounded := by
  refine ⟨(nodes log).keys.toFinset, ?_, ?_⟩
  · intro h hh
    rw [List.mem_toFinset, Std.ExtTreeMap.mem_keys, Std.ExtTreeMap.mem_iff_isSome_getElem?]
    exact Option.isSome_iff_ne_none.mpr hh
  · refine le_trans (List.toFinset_card_le _) ?_
    rw [Std.ExtTreeMap.length_keys]
    rfl

/-! ## Both tries -/

/-- The key and the value of a change fit in memory: the nibbles of the key do, and
the bytes of the value. -/
def Change.Fits (c : Change) : Prop :=
  c.key.length < 2 ^ 62 ∧ ∀ v, c.entry = some v → v.length < 2 ^ 63

/-- What a call gives the trie fits in memory. -/
def Call.Fits : Call → Prop
  | .change c => c.Fits
  | _ => True

/-- **Both tries have the same entries**, the stored one with its store. -/
structure Agree (s u : Bench) (m : Bytes → Option Bytes) : Prop where
  stored : s.trie.Has (Mode.stored.source s.log) s.log m
  inMemory : u.trie.Has .none [] m
  fits : Fits m
  addressed : Addressed s.log

namespace Agree

variable {s u : Bench} {m : Bytes → Option Bytes}

theorem start : Agree ⟨empty, []⟩ ⟨empty, []⟩ fun _ => none where
  stored := has_empty
  inMemory := has_empty
  fits := nofun
  addressed := nofun

/-- The stored trie is rooted in the tree of the trie in memory. -/
theorem rooted (h : Agree s u m) :
    Node.Rooted (Mode.stored.source s.log) s.log s.trie.root u.trie.root := by
  obtain ⟨full, hroot, hcan, hfind⟩ := h.stored
  obtain ⟨full', hroot', hcan', hfind'⟩ := h.inMemory
  obtain rfl := hcan.eq_of_find_eq hcan' (congrFun (hfind.trans hfind'.symm))
  rwa [hroot'.eq_of_nil]

/-- A change succeeds on both tries and leaves them agreeing. -/
theorem change (h : Agree s u m) {c : Change} (hc : c.Fits) :
    ∃ t t', s.trie.change (Mode.stored.source s.log) c = .ok t ∧
      u.trie.change .none c = .ok t' ∧
      Agree { s with trie := t } { u with trie := t' } (c.apply m) := by
  obtain ⟨t, ht, hstored⟩ := h.stored.change c
  obtain ⟨t', ht', hinMemory⟩ := h.inMemory.change c
  exact ⟨t, t', ht, ht', hstored, hinMemory, h.fits.update hc.1 hc.2, h.addressed⟩

/-- A commit leaves the entries, and the store has all nodes. -/
theorem commit (h : Agree s u m) (hcol : Collisionless (encodings (s.log ++ s.trie.writes))) :
    Agree ⟨s.trie.collapse, s.log ++ s.trie.writes⟩ u m := by
  have haddr : Addressed (s.log ++ s.trie.writes) := h.addressed.append (addressed_writes _)
  have hs := has_log h.addressed (hcol.mono (encodings_subset _ _))
  have hstored := h.stored.collapse h.fits hs (has_log haddr hcol) (List.subset_append_left _ _)
    (List.subset_append_right _ _)
  exact ⟨hstored, h.inMemory, h.fits, haddr⟩

end Agree

/-- **One call**: it succeeds in both modes with the same answer, and leaves both tries
agreeing. -/
theorem Agree.call {s u : Bench} {m : Bytes → Option Bytes} (h : Agree s u m) {c : Call}
    (hc : c.Fits) (hreopen : c = .reopen → s.trie.Settled)
    (hcol : Collisionless (encodings (Mode.stored.call s c).2.log)) :
    (∃ m', Agree (Mode.stored.call s c).2 (Mode.inMemory.call u c).2 m') ∧
      (c = .commit → (Mode.stored.call s c).2.trie.Settled) ∧
      ∃ a, (Mode.stored.call s c).1 = .ok a ∧ (Mode.inMemory.call u c).1 = .ok a := by
  -- both tries answer from the entries, which the two modes share
  cases c with
  | change c =>
    obtain ⟨t, t', ht, ht', hagree⟩ := h.change hc
    have ht' : u.trie.change (Mode.inMemory.source u.log) c = .ok t' := ht'
    rw [Mode.call_change ht, Mode.call_change ht']
    exact ⟨⟨_, hagree⟩, nofun, .done, rfl, rfl⟩
  | get key =>
    refine ⟨⟨m, h⟩, nofun, .value (m key), ?_, ?_⟩
    · rw [Mode.call, h.stored.get_eq]
      rfl
    · rw [Mode.call, show Mode.inMemory.source u.log = .none from rfl, h.inMemory.get_eq]
      rfl
  | entriesFrom start limit =>
    obtain ⟨es, hs, hu⟩ := h.rooted.entriesFrom (has_log h.addressed hcol) (bounded_source s.log)
      start limit
    refine ⟨⟨m, h⟩, nofun, .entries es, ?_, ?_⟩
    · rw [Mode.call, entriesFrom, hs]
      rfl
    · rw [Mode.call, entriesFrom, show Mode.inMemory.source u.log = .none from rfl, hu]
      rfl
  | rootHash =>
    refine ⟨⟨m, h⟩, nofun, .hash u.trie.rootHash, ?_, rfl⟩
    rw [Mode.call, h.stored.rootHash_eq h.inMemory]
  | commit => exact ⟨⟨m, h.commit hcol⟩, fun _ => settled_collapse s.trie, .done, rfl, rfl⟩
  | reopen =>
    refine ⟨⟨m, ?_⟩, nofun, .done, rfl, rfl⟩
    change Agree ⟨ofRoot s.trie.rootHash, s.log⟩ u m
    have hempty : EmptyOnly s.log :=
      h.addressed.emptyOnly hcol List.mem_cons_self fun _ hw => mem_encodings hw
    rw [h.stored.ofRoot_eq h.fits hempty (hreopen rfl)]
    exact h

theorem run_append (mode : Mode) (cs : List Call) (c : Call) :
    mode.run (cs ++ [c]) =
      ((mode.run cs).1 ++ [((mode.call (mode.run cs).2 c).1,
        (mode.call (mode.run cs).2 c).2.trie.rootHash)], (mode.call (mode.run cs).2 c).2) := by
  rw [Mode.run, List.foldl_append, ← Mode.run]
  rfl

theorem bench_run (mode : Mode) (cs : List Call) :
    (mode.run cs).2 = cs.foldl (fun s c => (mode.call s c).2) ⟨empty, []⟩ := by
  induction cs using List.reverseRecOn with
  | nil => rfl
  | append_singleton cs c ih =>
    rw [run_append, ih, List.foldl_append]
    rfl

/-- Only a commit writes to the store. -/
theorem log_call (s : Bench) (c : Call) :
    (Mode.stored.call s c).2.log = s.log ++ if c = .commit then s.trie.writes else [] := by
  cases c with
  | change c =>
    rw [Mode.call]
    split
    · exact (List.append_nil _).symm
    · exact (List.append_nil _).symm
  | commit => rfl
  | _ => exact (List.append_nil _).symm

/-- What follows a commit, and is none, writes nothing. -/
theorem log_run_commit {cs : List Call} {t : Trie} (h : (Mode.stored.run cs).2 = ⟨t, []⟩)
    {ds : List Call} (hds : ∀ d ∈ ds, d ≠ .commit) :
    (Mode.stored.run (cs ++ .commit :: ds)).2.log = t.writes := by
  induction ds using List.reverseRecOn with
  | nil => rw [run_append, log_call, h, if_pos rfl, List.nil_append]
  | append_singleton ds d ih =>
    rw [← List.cons_append, ← List.append_assoc, run_append, log_call,
      ih fun d hd => hds d (List.mem_append_left _ hd), if_neg (hds d (by simp)), List.append_nil]

/-- **Calls one after the other** have the same answers in both modes. -/
theorem Agree.run (cs : List Call) (hfit : ∀ c ∈ cs, c.Fits)
    (hreopen : cs.IsChain fun c d => d = .reopen → c = .commit)
    (hcol : Collisionless (encodings (Mode.stored.run cs).2.log)) :
    (∃ m, Agree (Mode.stored.run cs).2 (Mode.inMemory.run cs).2 m) ∧
      (cs.getLast? = none ∨ cs.getLast? = some .commit → (Mode.stored.run cs).2.trie.Settled) ∧
      (Mode.stored.run cs).1 = (Mode.inMemory.run cs).1 ∧
      ∀ r ∈ (Mode.stored.run cs).1, ∃ a, r.1 = .ok a := by
  induction cs using List.reverseRecOn with
  | nil => exact ⟨⟨_, .start⟩, fun _ => .inl rfl, rfl, nofun⟩
  | append_singleton cs c ih =>
    rw [run_append] at hcol ⊢
    rw [run_append]
    obtain ⟨hchain, -, hlast⟩ := List.isChain_append.mp hreopen
    obtain ⟨⟨m, hagree⟩, hsettled, hsame, hok⟩ := ih
      (fun d hd => hfit d (List.mem_append_left _ hd)) hchain
      (by rw [log_call] at hcol; exact hcol.mono (encodings_subset _ _))
    have hsettled : c = .reopen → (Mode.stored.run cs).2.trie.Settled := by
      intro hc
      refine hsettled ?_
      cases hcs : cs.getLast? with
      | none => exact .inl rfl
      | some d => exact .inr (congrArg some (hlast d hcs c rfl hc))
    obtain ⟨⟨m', hagree'⟩, hsettled', a, hs, hu⟩ := hagree.call (hfit c (by simp)) hsettled hcol
    refine ⟨⟨m', hagree'⟩, fun h => hsettled' (by simpa using h), ?_, ?_⟩
    · rw [hs, hu, hsame, hagree'.stored.rootHash_eq hagree'.inMemory]
    · intro r hr
      rcases List.mem_append.mp hr with hr | hr
      · exact hok r hr
      · exact ⟨a, by rw [List.mem_singleton.mp hr, hs]⟩

/-- **A stored trie answers like one in memory.**  The same calls, a reopening only
right after a commit, all succeed in both modes, with the same answers and the same
root hash after each, as long as keys and values fit in memory and no two encodings
among those that the store was given and that of the empty node have one hash. -/
theorem answers_eq (cs : List Call) (hfit : ∀ c ∈ cs, c.Fits)
    (hreopen : cs.IsChain fun c d => d = .reopen → c = .commit)
    (hcol : Collisionless (encodings (Mode.stored.run cs).2.log)) :
    (Mode.stored.run cs).1 = (Mode.inMemory.run cs).1 ∧
      ∀ r ∈ (Mode.stored.run cs).1, ∃ a, r.1 = .ok a :=
  (Agree.run cs hfit hreopen hcol).2.2

/-- Two words are stored, one with a value that takes a node of its own, and read
back after the trie is opened again. -/
theorem answers_eq_of_two_words :
    let dog : Bytes := [0x64, 0x6f, 0x67]
    let pup : Bytes := List.replicate 32 0x70
    let cs : List Call := [.change (.put dog pup), .change (.put (dog ++ [0x65]) [0x63]), .commit,
      .reopen, .get dog, .entriesFrom 0 10, .rootHash]
    ((∀ c ∈ cs, c.Fits) ∧ (cs.IsChain fun c d => d = .reopen → c = .commit) ∧
      Collisionless (encodings (Mode.stored.run cs).2.log)) ∧
      (Mode.stored.run cs).1 = (Mode.inMemory.run cs).1 ∧
        ∀ r ∈ (Mode.stored.run cs).1, ∃ a, r.1 = .ok a := by
  intro dog pup cs
  have hfit : ∀ c ∈ cs, c.Fits := by
    simp [cs, dog, pup, Call.Fits, Change.Fits, Change.key, Change.entry]
  have hreopen : cs.IsChain fun c d => d = .reopen → c = .commit := by
    simp [cs]
  let leaf : Trie := ⟨.leaf (Path.ofBytes dog) pup⟩
  let fork : Trie := ⟨Node.wrap (Path.ofBytes dog)
    (Node.place [6, 5] [0x63] (Node.place [] pup Node.emptyBranch))⟩
  have hleaf : (Mode.stored.call ⟨empty, []⟩ (.change (.put dog pup))).2 = ⟨leaf, []⟩ := by
    refine congrArg Prod.snd (Mode.call_change (s := ⟨empty, []⟩) ?_)
    rw [change, insert, empty, Node.insert_null]
    rfl
  have hfork : (Mode.stored.call ⟨leaf, []⟩ (.change (.put (dog ++ [0x65]) [0x63]))).2 =
      ⟨fork, []⟩ := by
    refine congrArg Prod.snd (Mode.call_change (s := ⟨leaf, []⟩) ?_)
    rw [change, insert, Node.insert_leaf]
    rfl
  have hrun : (Mode.stored.run [.change (.put dog pup), .change (.put (dog ++ [0x65]) [0x63])]).2 =
      ⟨fork, []⟩ := by
    rw [bench_run, List.foldl_cons, hleaf, List.foldl_cons, hfork, List.foldl_nil]
  have hlog : (Mode.stored.run cs).2.log = fork.writes := log_run_commit hrun (by simp)
  have hcol : Collisionless (encodings (Mode.stored.run cs).2.log) := by
    rw [hlog]
    decide +kernel
  exact ⟨⟨hfit, hreopen, hcol⟩, answers_eq cs hfit hreopen hcol⟩

end Trie
end Ethereum
