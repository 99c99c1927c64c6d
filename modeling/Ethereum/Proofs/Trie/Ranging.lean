/-
# Listing from a start on is exact

In a tree that is all in memory, a walk meets the entries in the order of their paths
(`Node.inOrder`, `Node.pairwise_inOrder`).  A walk that starts with some entries listed
appends those it meets that have 64 nibbles and are not before the start, and cuts the
list at the limit (`Node.walk_eq`).  Leaving a subtree out does not show: it is left out
when the list is full, and appending would change nothing then, or when its path is
before the start, and then everything below it is (`Node.asked_of_isBefore`).

So a listing has the first of all entries to list, as many as the limit allows, whatever
part of the trie is in memory (`Trie.Has.listsExactly`), and the entries are what the
changes of the trie left (`Trie.has_inMemory`, `Trie.has_stored`).  Whatever lists in this
way can be listed page by page, each page from the key after the last one on
(`ListsExactly.pagesExactly`).
-/

import Mathlib
import Ethereum.Proofs.Trie.Modes
import Ethereum.Proofs.Trie.Ordering

namespace Ethereum

/-! ## Listings -/

section
variable {ε β : Type}

/-- The key of one entry is before that of another. -/
def KeyBefore (x y : Hash × β) : Prop := x.1 < y.1

instance : @Std.Irrefl (Hash × β) KeyBefore := ⟨fun x => BitVec.lt_irrefl x.1⟩

instance : @Std.Antisymm (Hash × β) KeyBefore :=
  ⟨fun _ _ hxy hyx => absurd hyx (BitVec.lt_asymm hxy)⟩

/-- **An exact listing.**  From a start on there are these entries, in the order of their
keys, and what is listed are the first of them, as many as the limit allows. -/
def ListsExactly (list : Hash → Nat → Except ε (List (Hash × β))) (entry : Hash → β → Prop) :
    Prop :=
  ∀ start, ∃ all : List (Hash × β), all.Pairwise KeyBefore ∧
    (∀ h v, (h, v) ∈ all ↔ start ≤ h ∧ entry h v) ∧
    ∀ limit, list start limit = .ok (all.take limit)

/-- Up to so many pages, each from the key after the last one listed on. -/
def pages (list : Hash → Nat → Except ε (List (Hash × β))) (limit : Nat) :
    Nat → Hash → Except ε (List (Hash × β))
  | 0, _ => .ok []
  | rounds + 1, start => do
    let page ← list start limit
    match page.getLast? with
    | none => return page
    | some (h, _) =>
      if h = Word.max then return page
      else return page ++ (← pages list limit rounds (h + 1))

/-- **Paging is exact.**  Enough pages that are not empty list every entry once, in the
order of the keys. -/
def PagesExactly (list : Hash → Nat → Except ε (List (Hash × β))) (entry : Hash → β → Prop) :
    Prop :=
  ∃ all : List (Hash × β), all.Pairwise KeyBefore ∧ (∀ h v, (h, v) ∈ all ↔ entry h v) ∧
    ∀ limit rounds, 0 < limit → all.length < rounds → pages list limit rounds 0 = .ok all

theorem le_max (h : Hash) : h ≤ Word.max := by
  rw [BitVec.le_def, Word.max, BitVec.toNat_allOnes]
  have := h.isLt
  omega

/-- The key after one that is not the last. -/
theorem succ_le_iff {g h : Hash} (hg : g ≠ Word.max) : g + 1 ≤ h ↔ g < h := by
  have hlt := g.isLt
  have hne : g.toNat ≠ 2 ^ 256 - 1 := fun heq =>
    hg (BitVec.eq_of_toNat_eq (by rw [heq, Word.max, BitVec.toNat_allOnes]))
  rw [BitVec.le_def, BitVec.lt_def, BitVec.toNat_add]
  have : g.toNat + (1 : Hash).toNat < 2 ^ 256 := by
    show g.toNat + 1 < _
    omega
  rw [Nat.mod_eq_of_lt this]
  rfl

variable {list : Hash → Nat → Except ε (List (Hash × β))} {entry : Hash → β → Prop}

theorem ListsExactly.congr {entry' : Hash → β → Prop} (h : ListsExactly list entry)
    (hentry : ∀ k v, entry k v ↔ entry' k v) : ListsExactly list entry' := by
  have heq : entry = entry' := funext fun k => funext fun v => propext (hentry k v)
  exact heq ▸ h

/-- What is read from the values of an exact listing is listed exactly. -/
theorem ListsExactly.map {ε' γ : Type} {list' : Hash → Nat → Except ε' (List (Hash × γ))}
    (h : ListsExactly list entry) (f : β → γ)
    (hlist : ∀ start limit xs, list start limit = .ok xs → (∀ x ∈ xs, entry x.1 x.2) →
      list' start limit = .ok (xs.map fun x => (x.1, f x.2))) :
    ListsExactly list' fun k w => ∃ v, entry k v ∧ f v = w := by
  intro start
  obtain ⟨all, hsorted, hmem, hall⟩ := h start
  refine ⟨all.map fun x => (x.1, f x.2), ?_, fun k w => ?_, fun limit => ?_⟩
  · rw [List.pairwise_map]
    exact hsorted
  · rw [List.mem_map]
    constructor
    · rintro ⟨x, hx, heq⟩
      cases heq
      obtain ⟨hstart, hentry⟩ := (hmem x.1 x.2).mp hx
      exact ⟨hstart, x.2, hentry, rfl⟩
    · rintro ⟨hstart, v, hentry, rfl⟩
      exact ⟨(k, v), (hmem k v).mpr ⟨hstart, hentry⟩, rfl⟩
  · rw [hlist start limit _ (hall limit) fun x hx =>
      ((hmem x.1 x.2).mp (List.mem_of_mem_take hx)).2, List.map_take]

/-- What is listed after a page is what is listed from the next key on. -/
theorem drop_eq_of_next {all rest ys zs : List (Hash × β)} {start k : Hash} {v : β}
    (hk : k ≠ Word.max) (hall : all = (zs ++ [(k, v)]) ++ rest)
    (hsorted : all.Pairwise KeyBefore) (hmem : ∀ h v, (h, v) ∈ all ↔ start ≤ h ∧ entry h v)
    (hsorted' : ys.Pairwise KeyBefore) (hmem' : ∀ h v, (h, v) ∈ ys ↔ k + 1 ≤ h ∧ entry h v) :
    ys = rest := by
  subst hall
  obtain ⟨hpage, hrest, hcross⟩ := List.pairwise_append.mp hsorted
  refine hsorted'.eq_of_mem_iff hrest fun ⟨h, w⟩ => ?_
  rw [hmem', succ_le_iff hk]
  constructor
  · rintro ⟨hlt, hentry⟩
    have hstart : start ≤ k := ((hmem k v).mp (by simp)).1
    have hin := (hmem h w).mpr ⟨BitVec.le_trans hstart (BitVec.le_of_lt hlt), hentry⟩
    -- nothing on the page is after its last entry
    refine (List.mem_append.mp hin).resolve_left fun hpageMem => ?_
    rcases List.mem_append.mp hpageMem with hz | hz
    · exact BitVec.lt_asymm hlt ((List.pairwise_append.mp hpage).2.2 _ hz (k, v) (by simp))
    · rw [List.mem_singleton, Prod.mk.injEq] at hz
      exact BitVec.lt_irrefl k (hz.1 ▸ hlt)
  · intro hin
    have hlt : k < h := hcross (k, v) (by simp) _ hin
    exact ⟨hlt, ((hmem h w).mp (List.mem_append_right _ hin)).2⟩

/-- Pages from a start on list what there is from there on. -/
theorem ListsExactly.pages_eq (h : ListsExactly list entry) {limit : Nat} (hlimit : 0 < limit)
    {rounds : Nat} {start : Hash} {all : List (Hash × β)} (hsorted : all.Pairwise KeyBefore)
    (hmem : ∀ h v, (h, v) ∈ all ↔ start ≤ h ∧ entry h v)
    (hlist : ∀ limit, list start limit = .ok (all.take limit)) (hrounds : all.length < rounds) :
    pages list limit rounds start = .ok all := by
  induction rounds generalizing start all with
  | zero => exact absurd hrounds (Nat.not_lt_zero _)
  | succ rounds ih =>
    rw [pages, hlist]
    simp only [bind, Except.bind, pure, Except.pure]
    have hsplit := List.take_append_drop limit all
    -- an empty page ends the listing, since the limit is not zero
    rcases hlast : (all.take limit).getLast? with _ | ⟨k, v⟩
    · have hnil : all = [] := by
        have := List.getLast?_eq_none_iff.mp hlast
        rw [List.take_eq_nil_iff] at this
        exact this.resolve_left (by omega)
      rw [hnil]
      simp
    · obtain ⟨zs, hzs⟩ := List.getLast?_eq_some_iff.mp hlast
      rw [hzs] at hsplit
      obtain ⟨all', hsorted', hmem', hlist'⟩ := h (k + 1)
      dsimp only
      split_ifs with hmax
      · -- no key follows the greatest one
        have hdrop : all.drop limit = [] := by
          refine List.eq_nil_iff_forall_not_mem.mpr fun x hx => ?_
          rw [← hsplit] at hsorted
          have hlt : k < x.1 := (List.pairwise_append.mp hsorted).2.2 (k, v) (by simp) x hx
          rw [hmax] at hlt
          exact BitVec.not_lt.mpr (le_max x.1) hlt
        rw [hdrop, List.append_nil] at hsplit
        rw [hzs, hsplit]
      · have hrest := drop_eq_of_next hmax hsplit.symm hsorted hmem hsorted' hmem'
        have hlength : all'.length < rounds := by
          rw [hrest]
          have := congrArg List.length hsplit
          simp only [List.length_append, List.length_singleton] at this
          omega
        rw [ih hsorted' hmem' hlist' hlength, hrest, hzs]
        exact congrArg Except.ok hsplit

/-- **An exact listing can be paged.** -/
theorem ListsExactly.pagesExactly (h : ListsExactly list entry) : PagesExactly list entry := by
  obtain ⟨all, hsorted, hmem, hlist⟩ := h 0
  refine ⟨all, hsorted, fun k v => ?_, fun limit rounds hlimit hrounds =>
    h.pages_eq hlimit hsorted hmem hlist hrounds⟩
  rw [hmem]
  exact and_iff_right (BitVec.le_def.mpr (Nat.zero_le _))

end

namespace Node

/-! ## Entries in order -/

/-- The entries below a node at the end of a path, as a walk meets them. -/
def inOrder : Node → Path → List (Path × Bytes)
  | null, _ => []
  | leaf p v, path => [(path ++ p, v)]
  | extension p child, path => child.inOrder (path ++ p)
  | branch children v, path =>
    v.toList.map (fun v => (path, v)) ++
      (List.finRange 16).flatMap fun i => (children i).inOrder (path ++ [i])
  | hash _, _ => []

/-- **What a walk meets** are the values that the node has. -/
theorem mem_inOrder {n : Node} {path : Path} {x : Path × Bytes} :
    x ∈ n.inOrder path ↔ ∃ rest, x.1 = path ++ rest ∧ n.find rest = some x.2 := by
  -- the order of the list does not matter here, only what it has
  induction n generalizing path with
  | null => simp [inOrder]
  | hash h => simp [inOrder, find]
  | leaf p v =>
    simp only [inOrder, List.mem_singleton, find_leaf]
    constructor
    · rintro rfl
      exact ⟨p, rfl, if_pos rfl⟩
    · rintro ⟨rest, hpath, hfind⟩
      split_ifs at hfind with hp
      rw [Option.some.injEq] at hfind
      exact Prod.ext (by rw [hpath, hp]) hfind.symm
  | extension p child ih =>
    rw [inOrder, ih, find_extension]
    constructor
    · rintro ⟨rest, hpath, hfind⟩
      exact ⟨p ++ rest, by rw [hpath, List.append_assoc], by rwa [Path.under_append]⟩
    · rintro ⟨rest, hpath, hfind⟩
      obtain ⟨rest', hrest, hfind⟩ := Option.bind_eq_some_iff.mp hfind
      rw [Path.after?_eq_some_iff] at hrest
      exact ⟨rest', by rw [hpath, hrest, List.append_assoc], hfind⟩
  | branch children v ih =>
    rw [inOrder, List.mem_append, List.mem_flatMap]
    constructor
    · rintro (hvalue | ⟨i, -, hchild⟩)
      · obtain ⟨w, hw, rfl⟩ := List.mem_map.mp hvalue
        refine ⟨[], by simp, ?_⟩
        rw [find_branch_nil]
        exact Option.mem_toList.mp hw
      · obtain ⟨rest, hpath, hfind⟩ := (ih i).mp hchild
        exact ⟨i :: rest, by rw [hpath, List.append_assoc, List.singleton_append],
          by rwa [find_branch_cons]⟩
    · rintro ⟨rest, hpath, hfind⟩
      rcases rest with _ | ⟨i, rest⟩
      · rw [find_branch_nil] at hfind
        rw [List.append_nil] at hpath
        exact .inl (List.mem_map.mpr ⟨x.2, by simp [hfind], by rw [← hpath]⟩)
      · rw [find_branch_cons] at hfind
        exact .inr ⟨i, List.mem_finRange i, (ih i).mpr
          ⟨rest, by rw [hpath, List.append_assoc, List.singleton_append], hfind⟩⟩

/-- **A walk meets entries in the order of their paths.** -/
theorem pairwise_inOrder (n : Node) (path : Path) :
    (n.inOrder path).Pairwise fun x y => x.1 < y.1 := by
  induction n generalizing path with
  | null => exact .nil
  | hash h => exact .nil
  | leaf p v => exact List.pairwise_singleton _ _
  | extension p child ih => exact ih (path ++ p)
  | branch children v ih =>
    rw [inOrder, List.pairwise_append, List.pairwise_flatMap]
    refine ⟨?_, ⟨fun i _ => ih i _, ?_⟩, ?_⟩
    · cases v with
      | none => exact .nil
      | some w => exact List.pairwise_singleton _ _
    · refine (List.pairwise_lt_finRange 16).imp fun {i j} hij x hx y hy => ?_
      obtain ⟨r, hr, -⟩ := mem_inOrder.mp hx
      obtain ⟨s, hs, -⟩ := mem_inOrder.mp hy
      rw [hr, hs, List.append_assoc, List.append_assoc]
      exact List.append_left_lt (List.cons_lt_cons_iff.mpr (.inl hij))
    · intro x hx y hy
      obtain ⟨w, -, rfl⟩ := List.mem_map.mp hx
      obtain ⟨i, -, hy⟩ := List.mem_flatMap.mp hy
      obtain ⟨s, hs, -⟩ := mem_inOrder.mp hy
      rw [hs, List.append_assoc]
      have hlt : path ++ [] < path ++ ([i] ++ s) := List.append_left_lt (List.nil_lt_cons i s)
      rwa [List.append_nil] at hlt

/-- The entries that are asked for, by their keys: those with 64 nibbles that are not
before the start. -/
def asked (start : Path) (xs : List (Path × Bytes)) : List (Hash × Bytes) :=
  (xs.filter fun x => x.1.length = 64 ∧ ¬ x.1 < start).map fun x => (Word.ofBytes x.1.toBytes, x.2)

theorem asked_append (start : Path) (xs ys : List (Path × Bytes)) :
    asked start (xs ++ ys) = asked start xs ++ asked start ys := by
  rw [asked, List.filter_append, List.map_append, asked, asked]

/-! ## Walks -/

namespace Listing

variable {l : Listing}

/-- The listing with more entries, as many as the limit allows. -/
def extend (l : Listing) (xs : List (Hash × Bytes)) : Listing :=
  { l with entries := ((l.entries.toList ++ xs).take l.limit).toArray }

theorem extend_nil (hl : l.entries.size ≤ l.limit) : l.extend [] = l := by
  rw [extend, List.append_nil, List.take_of_length_le (by simpa using hl)]

theorem extend_full (hl : l.entries.size ≤ l.limit) (hfull : l.isFull) (xs : List (Hash × Bytes)) :
    l.extend xs = l := by
  have hsize : l.limit = l.entries.toList.length := by
    have : l.limit ≤ l.entries.size := by simpa [isFull] using hfull
    simpa using le_antisymm this hl
  have htake : (l.entries.toList ++ xs).take l.limit = l.entries.toList := by
    rw [hsize, List.take_left]
  rw [extend, htake]

theorem extend_extend (l : Listing) (xs ys : List (Hash × Bytes)) :
    (l.extend xs).extend ys = l.extend (xs ++ ys) := by
  simp only [extend, ← List.append_assoc]
  congr 2
  generalize l.entries.toList ++ xs = zs
  rcases le_total l.limit zs.length with hle | hle
  · rw [List.take_append_of_le_length (by simpa using hle), List.take_take, Nat.min_self,
      List.take_append_of_le_length hle]
  · rw [List.take_of_length_le hle]

theorem size_extend_le (l : Listing) (xs : List (Hash × Bytes)) :
    (l.extend xs).entries.size ≤ (l.extend xs).limit := by
  simp [extend]

/-- Adding a value extends the listing by it, if it is asked for. -/
theorem add_eq_extend (hl : l.entries.size < l.limit) (path : Path) (value : Bytes) :
    l.add path value = l.extend (asked l.start [(path, value)]) := by
  rw [add]
  by_cases hasked : path.length = 64 ∧ ¬ path < l.start
  · rw [if_pos hasked, asked, List.filter_cons_of_pos (by simpa using hasked)]
    rw [extend, List.take_of_length_le (by simpa using hl)]
    simp [← List.push_toArray]
  · rw [if_neg hasked, asked, List.filter_cons_of_neg (by simpa using hasked)]
    exact (extend_nil hl.le).symm

end Listing

/-- Whatever goes on from a path that is before the start is before it too. -/
theorem lt_of_isBefore {l : Listing} {path : Path} (h : l.isBefore path) (rest : Path) :
    path ++ rest < l.start := by
  have hlt : path.take (min path.length l.start.length) <
      l.start.take (min path.length l.start.length) := by
    simpa [Listing.isBefore] using h
  have hlen : (path.take (min path.length l.start.length)).length =
      (l.start.take (min path.length l.start.length)).length := by
    rw [List.length_take, List.length_take]
    omega
  have hbefore := append_lt_append hlen hlt
    (path.drop (min path.length l.start.length) ++ rest)
    (l.start.drop (min path.length l.start.length))
  rwa [← List.append_assoc, List.take_append_drop, List.take_append_drop] at hbefore

/-- **Nothing is asked for below a path that is before the start.** -/
theorem asked_of_isBefore {l : Listing} {path : Path} (h : l.isBefore path) (n : Node) :
    asked l.start (n.inOrder path) = [] := by
  rw [asked, List.map_eq_nil_iff, List.filter_eq_nil_iff]
  intro x hx
  obtain ⟨rest, hpath, -⟩ := mem_inOrder.mp hx
  have hbefore := lt_of_isBefore h rest
  rw [← hpath] at hbefore
  simp [hbefore]

/-- A walk that stops at once lists what it meets up to the limit, which is nothing. -/
theorem extend_asked_of_skip {l : Listing} {path : Path} (hl : l.entries.size ≤ l.limit)
    (hskip : (l.isFull || l.isBefore path) = true) (n : Node) :
    l.extend (asked l.start (n.inOrder path)) = l := by
  rcases Bool.or_eq_true_iff.mp hskip with hfull | hbefore
  · exact Listing.extend_full hl hfull _
  · rw [asked_of_isBefore hbefore]
    exact Listing.extend_nil hl

/-- Walks below one child after the other. -/
theorem foldlM_walk {follow : Hash → Path → Listing → Except TrieError Listing}
    {children : Nibble → Node} {path : Path} {start : Path}
    (h : ∀ i (l : Listing), l.start = start → l.entries.size ≤ l.limit →
      (children i).walk follow (path ++ [i]) l =
        .ok (l.extend (asked start ((children i).inOrder (path ++ [i])))))
    (is : List Nibble) {l : Listing} (hstart : l.start = start) (hl : l.entries.size ≤ l.limit) :
    is.foldlM (fun l i => (children i).walk follow (path ++ [i]) l) l =
      .ok (l.extend (asked start (is.flatMap fun i => (children i).inOrder (path ++ [i])))) := by
  induction is generalizing l with
  | nil => exact congrArg Except.ok (Listing.extend_nil hl).symm
  | cons i is ih =>
    rw [List.foldlM_cons, h i l hstart hl, List.flatMap_cons, asked_append,
      ← Listing.extend_extend]
    exact ih hstart (Listing.size_extend_le l _)

theorem size_lt_of_not_skip {l : Listing} {path : Path}
    (hskip : ¬ (l.isFull || l.isBefore path) = true) : l.entries.size < l.limit := by
  simp only [Listing.isFull, Bool.or_eq_true, decide_eq_true_eq, not_or, not_le] at hskip
  exact hskip.1

/-- **What a walk meets is listed,** as far as it is asked for and up to the limit. -/
theorem walk_eq {follow : Hash → Path → Listing → Except TrieError Listing} {n : Node}
    (hn : n.Canonical) (path : Path) {l : Listing} (hl : l.entries.size ≤ l.limit) :
    n.walk follow path l = .ok (l.extend (asked l.start (n.inOrder path))) := by
  -- a node that is skipped would have added nothing
  induction n generalizing path l with
  | null => rw [walk_null, inOrder, asked, List.filter_nil, List.map_nil, Listing.extend_nil hl]
  | hash h => exact absurd rfl (hn.ne_hash h)
  | leaf p v =>
    rw [walk_leaf]
    split_ifs with hskip
    · rw [extend_asked_of_skip hl hskip]
    · rw [Listing.add_eq_extend (size_lt_of_not_skip hskip), inOrder]
  | extension p child ih =>
    rw [walk_extension]
    split_ifs with hskip
    · rw [extend_asked_of_skip hl hskip]
    · exact ih (hn nofun).2.2.canonical (path ++ p) hl
  | branch children v ih =>
    rw [walk_branch]
    split_ifs with hskip
    · rw [extend_asked_of_skip hl hskip]
    · have hchild (i : Nibble) (l' : Listing) (hstart : l'.start = l.start)
          (hl' : l'.entries.size ≤ l'.limit) :
          (children i).walk follow (path ++ [i]) l' =
            .ok (l'.extend (asked l.start ((children i).inOrder (path ++ [i])))) :=
        hstart ▸ ih i ((hn nofun).child i) (path ++ [i]) hl'
      have hfold {l' : Listing} (hstart : l'.start = l.start) (hl' : l'.entries.size ≤ l'.limit) :=
        foldlM_walk hchild (List.finRange 16) hstart hl'
      rw [inOrder, asked_append, ← Listing.extend_extend]
      cases v with
      | none =>
        show _ = Except.ok ((l.extend []).extend _)
        rw [Listing.extend_nil hl]
        exact hfold rfl hl
      | some w =>
        dsimp only
        rw [Listing.add_eq_extend (size_lt_of_not_skip hskip)]
        exact hfold rfl (Listing.size_extend_le l _)

/-- **A listing has the first entries asked for.** -/
theorem entriesFrom_eq {n : Node} (hn : n.Canonical) (source : NodeSource) (start : Hash)
    (limit : Nat) : n.entriesFrom source start limit =
      .ok ((asked (Path.ofBytes (Hash.toBytes start)) (n.inOrder [])).take limit) := by
  let l : Listing := ⟨Path.ofBytes (Hash.toBytes start), limit, #[]⟩
  have hwalk : n.walk (walkHash source (maxLoads source)) [] l =
      .ok (l.extend (asked l.start (n.inOrder []))) := walk_eq hn [] (Nat.zero_le limit)
  rw [entriesFrom, hwalk]
  rfl

/-- The path of a key of 32 bytes. -/
theorem ofBytes_toBytes_hash {path : Path} (h : path.length = 64) :
    Path.ofBytes (Hash.toBytes (Word.ofBytes path.toBytes)) = path := by
  have hlen : path.toBytes.length = 32 := by
    rw [Path.length_toBytes]
    omega
  rw [Hash.toBytes, Word.toBytes_ofBytes hlen, Path.ofBytes_toBytes (by omega)]

/-- The entries asked for are in the order of their keys. -/
theorem pairwise_asked (n : Node) (start : Path) :
    (asked start (n.inOrder [])).Pairwise KeyBefore := by
  rw [asked, List.pairwise_map]
  have hsorted := (pairwise_inOrder n []).filter fun x => x.1.length = 64 ∧ ¬ x.1 < start
  refine hsorted.imp_of_mem fun {x y} hx hy hxy => ?_
  have hx := (of_decide_eq_true (List.mem_filter.mp hx).2).1
  have hy := (of_decide_eq_true (List.mem_filter.mp hy).2).1
  rw [KeyBefore, ← Hash.toBytes_lt_iff, ← Path.ofBytes_lt_iff, ofBytes_toBytes_hash hx,
    ofBytes_toBytes_hash hy]
  exact hxy

/-- **The entries asked for** are those with a key of 32 bytes that is not before the
start. -/
theorem mem_asked (n : Node) (start h : Hash) (v : Bytes) :
    (h, v) ∈ asked (Path.ofBytes (Hash.toBytes start)) (n.inOrder []) ↔
      start ≤ h ∧ n.find (Path.ofBytes (Hash.toBytes h)) = some v := by
  rw [← BitVec.not_lt, ← Hash.toBytes_lt_iff, ← Path.ofBytes_lt_iff, asked, List.mem_map]
  constructor
  · rintro ⟨⟨path, w⟩, hx, heq⟩
    obtain ⟨hmem, hasked⟩ := List.mem_filter.mp hx
    obtain ⟨hlen, hstart⟩ := of_decide_eq_true hasked
    obtain ⟨rest, hpath, hfind⟩ := mem_inOrder.mp hmem
    cases heq
    rw [ofBytes_toBytes_hash hlen]
    have hpath : path = rest := hpath.trans (List.nil_append rest)
    exact ⟨hstart, hpath ▸ hfind⟩
  · rintro ⟨hstart, hfind⟩
    have hlen : (Path.ofBytes (Hash.toBytes h)).length = 64 := by
      rw [Path.length_ofBytes, Hash.length_toBytes]
    refine ⟨(Path.ofBytes (Hash.toBytes h), v), List.mem_filter.mpr ⟨?_, ?_⟩, ?_⟩
    · exact mem_inOrder.mpr ⟨_, (List.nil_append _).symm, hfind⟩
    · exact decide_eq_true ⟨hlen, hstart⟩
    · rw [Path.toBytes_ofBytes]
      exact congrArg (·, v) (Word.ofBytes_toBytes h)

end Node

namespace Trie

variable {source : NodeSource} {log : List (Hash × Bytes)} {t : Trie} {m : Bytes → Option Bytes}

/-- **A trie lists exactly the entries with a key of 32 bytes,** whatever part of it is
in memory. -/
theorem Has.listsExactly (ht : t.Has source log m) (hs : source.Has log) (hb : source.Bounded) :
    ListsExactly (t.entriesFrom source) fun h v => m (Hash.toBytes h) = some v := by
  obtain ⟨full, hroot, hcan, hfind⟩ := ht
  refine fun start => ⟨Node.asked (Path.ofBytes (Hash.toBytes start)) (full.inOrder []),
    Node.pairwise_asked full _, fun h v => ?_, fun limit => ?_⟩
  · rw [Node.mem_asked, hfind, Path.entries_ofBytes]
  · obtain ⟨entries, hlist, hfull⟩ := hroot.entriesFrom hs hb start limit
    rw [Node.entriesFrom_eq hcan] at hfull
    rw [Trie.entriesFrom, hlist, hfull]

/-! ### After calls -/

/-- The change that a call makes. -/
def Call.change? : Call → Option Change
  | .change c => some c
  | _ => none

/-- What calls one after the other leave of the empty map. -/
def left (cs : List Call) : Bytes → Option Bytes := contents (cs.filterMap Call.change?)

theorem left_append (cs : List Call) (c : Call) :
    left (cs ++ [c]) = (c.change?.toList).foldl Change.apply (left cs) := by
  rw [left, List.filterMap_append, contents_append, left]
  cases hc : c.change? <;> simp [hc]

/-- **A trie in memory has what the calls left.** -/
theorem has_inMemory (cs : List Call) : (Mode.inMemory.run cs).2.trie.Has .none [] (left cs) := by
  induction cs using List.reverseRecOn with
  | nil => exact has_empty
  | append_singleton cs c ih =>
    rw [run_append, left_append]
    cases c with
    | change c =>
      obtain ⟨t, ht, hhas⟩ := ih.change c
      have ht : (Mode.inMemory.run cs).2.trie.change
          (Mode.inMemory.source (Mode.inMemory.run cs).2.log) c = .ok t := ht
      rw [Mode.call_change ht]
      exact hhas
    | _ => exact ih

/-- **A stored trie has what the calls left.** -/
theorem has_stored {cs : List Call} (hfit : ∀ c ∈ cs, c.Fits)
    (hreopen : cs.IsChain fun c d => d = .reopen → c = .commit)
    (hcol : Collisionless (encodings (Mode.stored.run cs).2.log)) :
    (Mode.stored.run cs).2.trie.Has (Mode.stored.source (Mode.stored.run cs).2.log)
      (Mode.stored.run cs).2.log (left cs) ∧ Addressed (Mode.stored.run cs).2.log := by
  obtain ⟨⟨m, hagree⟩, -⟩ := Agree.run cs hfit hreopen hcol
  have hm : m = left cs := funext fun key =>
    Except.ok.inj ((hagree.inMemory.get_eq key).symm.trans ((has_inMemory cs).get_eq key))
  exact ⟨hm ▸ hagree.stored, hagree.addressed⟩

theorem listsExactly_inMemory (cs : List Call) :
    ListsExactly ((Mode.inMemory.run cs).2.trie.entriesFrom .none)
      fun h v => left cs (Hash.toBytes h) = some v :=
  (has_inMemory cs).listsExactly nofun ⟨∅, fun _ hh => absurd rfl hh, Nat.zero_le _⟩

theorem listsExactly_stored {cs : List Call} (hfit : ∀ c ∈ cs, c.Fits)
    (hreopen : cs.IsChain fun c d => d = .reopen → c = .commit)
    (hcol : Collisionless (encodings (Mode.stored.run cs).2.log)) :
    ListsExactly ((Mode.stored.run cs).2.trie.entriesFrom
      (Mode.stored.source (Mode.stored.run cs).2.log))
      fun h v => left cs (Hash.toBytes h) = some v := by
  obtain ⟨hhas, haddressed⟩ := has_stored hfit hreopen hcol
  exact hhas.listsExactly (has_log haddressed hcol) (bounded_source _)

end Trie
end Ethereum
