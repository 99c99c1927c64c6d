/-
# Memory is an array of bytes

After calls that write and resize, of which some fail, a memory reads at every address the
byte that was last written there, and zero where nothing was (`lastWritten`).  What one
call writes is said by where it starts, how many bytes it has and which they are
(`Call.start`, `Call.length`, `Call.source`), with no word of how memory keeps them: a value
is cut or goes on with zeros up to its target, and a copy reads zeros past the end of its
data.

A call that writes does so in one way or is refused (`call_eq`), a call that resizes leaves
the bytes that are kept (`call_resize`), so a call that succeeds puts its bytes where it
writes and leaves all others (`byteAt_call`), and the calls that succeed, one after the
other, tell what is read (`byteAt_run`).

A copy counts the end of what it reads in 64 bits and takes a larger end for one past the
data, which it is as long as data and copies are shorter than `2 ^ 63` (`Call.Fits`).
Nothing is said here of the room that the machine has for an array: only the limit bounds it.
-/

import Mathlib
import Ethereum.Memory
import Ethereum.Proofs.Programs

namespace Ethereum

theorem Bytes.getD_fit (b : Bytes) {len i : Nat} (h : i < len) :
    (fit b len).getD i 0 = b.getD i 0 := by
  rw [fit, List.getD_eq_getElem?_getD, List.getD_eq_getElem?_getD, List.getElem?_append,
    List.length_take]
  split
  · rw [List.getElem?_take_of_lt h]
  · have hout : b.length ≤ i := by omega
    rw [List.getElem?_eq_none hout, List.getElem?_replicate]
    split <;> rfl

theorem Word.toQuantity?_eq_some_iff {w : Word} {n : Nat} :
    w.toQuantity? = some n ↔ w.toNat = n ∧ n ≤ Quantity.max := by
  unfold toQuantity?
  grind

namespace Memory

variable {m m' : Memory}

/-! ## Bytes that are written -/

theorem getD_overwrite {data : Array UInt8} {offset : Nat} {bytes : Bytes}
    (h : offset + bytes.length ≤ data.size) (i : Nat) :
    (overwrite data offset bytes).getD i 0 =
      if offset ≤ i ∧ i < offset + bytes.length then bytes.getD (i - offset) 0
      else data.getD i 0 := by
  induction bytes generalizing data offset with
  | nil => simp [overwrite]
  | cons b bytes ih =>
    rw [List.length_cons] at h ⊢
    have hput : (data.setIfInBounds offset b).getD i 0 = if i = offset then b else data.getD i 0 := by
      simp only [Array.getD_eq_getD_getElem?, Array.getElem?_setIfInBounds]
      grind
    rw [overwrite, ih (by rw [Array.size_setIfInBounds]; omega), hput]
    rcases lt_trichotomy i offset with hlt | rfl | hgt
    · rw [if_neg (by omega), if_neg (by omega), if_neg (by omega)]
    · rw [if_neg (by omega), if_pos rfl, if_pos (by omega), Nat.sub_self, List.getD_cons_zero]
    · have hnext : i - offset = (i - (offset + 1)) + 1 := by omega
      rw [hnext, List.getD_cons_succ, if_neg hgt.ne']
      exact if_congr (by omega) rfl rfl

/-- **A write** is read back where it was made, and everything else as before. -/
theorem byteAt_write (m : Memory) (offset : Nat) (bytes : Bytes) (i : Nat) :
    (m.write offset bytes).byteAt i =
      if offset ≤ i ∧ i < offset + bytes.length then bytes.getD (i - offset) 0
      else m.byteAt i := by
  unfold write
  split
  · rw [List.length_nil, if_neg (by omega)]
  · simp only [byteAt]
    rw [getD_overwrite (by rw [Array.size_append, Array.size_replicate]; omega)]
    congr 1
    simp only [Array.getD_eq_getD_getElem?, Array.getElem?_append, Array.getElem?_replicate]
    grind

theorem limit_write (m : Memory) (offset : Nat) (bytes : Bytes) :
    (m.write offset bytes).limit = m.limit := by
  unfold write
  split <;> rfl

theorem set_eq (m : Memory) (offset : Nat) (bytes : Bytes) (len : Nat) :
    m.set offset bytes len =
      if len = 0 ∨ offset + len ≤ min Quantity.max m.limit then .ok (m.write offset (bytes.fit len))
      else .error .notSupported := by
  unfold set admits
  refine if_congr ?_ rfl rfl
  simp only [Bool.or_eq_true, Bool.and_eq_true, decide_eq_true_eq, le_min_iff]

theorem copy_eq (m : Memory) (offset dataOffset len : Word) (data : Bytes) :
    m.copy offset dataOffset len data =
      if len.toNat = 0 ∨ offset.toNat + len.toNat ≤ min Quantity.max m.limit then
        .ok (m.write offset.toNat ((source data dataOffset len).fit len.toNat))
      else .error .notSupported := by
  unfold copy
  split
  · rename_i hzero
    rw [hzero]
    rfl
  · rename_i hne
    have hpos : len.toNat ≠ 0 := fun h => hne (BitVec.eq_of_toNat_eq h)
    split
    · rename_i start n hstart hn
      obtain ⟨rfl, -⟩ := Word.toQuantity?_eq_some_iff.mp hstart
      obtain ⟨rfl, -⟩ := Word.toQuantity?_eq_some_iff.mp hn
      exact set_eq m _ _ _
    · rename_i hlarge
      rw [if_neg]
      intro h
      have hle := (le_min_iff.mp (h.resolve_left hpos)).1
      exact hlarge _ _ (Word.toQuantity?_eq_some_iff.mpr ⟨rfl, by omega⟩)
        (Word.toQuantity?_eq_some_iff.mpr ⟨rfl, by omega⟩)

/-- What a copy reads, if neither it nor the data reach beyond `2 ^ 63`. -/
theorem getD_source {data : Bytes} {offset len : Word} (hdata : data.length < 2 ^ 63)
    (hlen : len.toNat < 2 ^ 63) (k : Nat) :
    (source data offset len).getD k 0 = data.getD (offset.toNat + k) 0 := by
  rw [source, List.getD_eq_getElem?_getD, List.getD_eq_getElem?_getD]
  split
  · rw [List.getElem?_drop]
  · rename_i hbeyond
    have hout : data.length ≤ offset.toNat + k := by
      unfold Quantity.max at hbeyond
      omega
    rw [List.getElem?_eq_none hout, List.getElem?_nil]

theorem resizeEnd_keeps {stop : Word} (h : m.resizeEnd stop = .ok m') :
    m'.data = m.data ∧ m'.limit = m.limit := by
  unfold resizeEnd at h
  split at h
  · obtain rfl := Except.ok.inj h
    exact ⟨rfl, rfl⟩
  split at h
  · obtain rfl := Except.ok.inj h
    exact ⟨rfl, rfl⟩
  · contradiction

theorem resizeOffset_keeps {offset len : Word} (h : m.resizeOffset offset len = .ok m') :
    m'.data = m.data ∧ m'.limit = m.limit := by
  unfold resizeOffset at h
  split at h
  · obtain rfl := Except.ok.inj h
    exact ⟨rfl, rfl⟩
  split at h
  · exact resizeEnd_keeps h
  · contradiction

/-! ## Calls -/

/-- A call that changes a memory. -/
inductive Call where
  /-- Writes a value, in as many bytes as it has if no target says otherwise. -/
  | set (offset : Nat) (value : Bytes) (target : Option Nat)
  | copy (offset dataOffset len : Word) (data : Bytes)
  | resizeOffset (offset len : Word)
  | resizeEnd (stop : Word)
deriving DecidableEq, Repr

/-- What a call comes to. -/
def call (m : Memory) : Call → Except ExitReason Memory
  | .set offset value target => (m.set offset value (target.getD value.length)).mapError .fatal
  | .copy offset dataOffset len data => (m.copy offset dataOffset len data).mapError .fatal
  | .resizeOffset offset len => (m.resizeOffset offset len).mapError .error
  | .resizeEnd stop => (m.resizeEnd stop).mapError .error

/-- The memory that a call leaves. -/
def after (m : Memory) (c : Call) : Memory :=
  match m.call c with
  | .ok m' => m'
  | .error _ => m

/-- The memory that calls leave, made one after the other. -/
def run (m : Memory) (cs : List Call) : Memory := cs.foldl after m

/-- Those of the calls that succeed. -/
def succeeded (m : Memory) : List Call → List Call
  | [] => []
  | c :: cs =>
    match m.call c with
    | .ok m' => c :: m'.succeeded cs
    | .error _ => m.succeeded cs

namespace Call

/-- Whether a call does not write. -/
def isResize : Call → Bool
  | resizeOffset _ _ | resizeEnd _ => true
  | _ => false

/-- The first address that a call writes to. -/
def start : Call → Nat
  | set offset _ _ => offset
  | copy offset _ _ _ => offset.toNat
  | _ => 0

/-- How many bytes a call writes. -/
def length : Call → Nat
  | set _ value target => target.getD value.length
  | copy _ _ len _ => len.toNat
  | _ => 0

/-- The bytes that a call writes, one after the other. -/
def source : Call → Nat → UInt8
  | set _ value _, k => value.getD k 0
  | copy _ dataOffset _ data, k => data.getD (dataOffset.toNat + k) 0
  | _, _ => 0

/-- The byte that a call writes at an address, if it writes there. -/
def byte? (c : Call) (i : Nat) : Option UInt8 :=
  if c.start ≤ i ∧ i < c.start + c.length then some (c.source (i - c.start)) else none

/-- Data and copies are shorter than `2 ^ 63`, unless a copy is too long for any memory. -/
def Fits : Call → Prop
  | copy _ _ len data => data.length < 2 ^ 63 ∧ (len.toNat ≤ Quantity.max → len.toNat < 2 ^ 63)
  | _ => True

/-- The string that memory is given to write. -/
def bytes : Call → Bytes
  | set _ value target => value.fit (target.getD value.length)
  | copy _ dataOffset len data => (Memory.source data dataOffset len).fit len.toNat
  | _ => []

theorem length_bytes (c : Call) : c.bytes.length = c.length := by
  cases c with
  | set => exact Bytes.length_fit _ _
  | copy => exact Bytes.length_fit _ _
  | resizeOffset => rfl
  | resizeEnd => rfl

theorem getD_bytes {c : Call} (hfit : c.Fits) (hmax : c.length ≤ Quantity.max) {k : Nat}
    (hk : k < c.length) : c.bytes.getD k 0 = c.source k := by
  cases c with
  | set => exact Bytes.getD_fit _ hk
  | copy => exact (Bytes.getD_fit _ hk).trans (getD_source hfit.1 (hfit.2 hmax) k)
  | resizeOffset => rfl
  | resizeEnd => rfl

theorem getD_byte? (c : Call) (i : Nat) (b : UInt8) : (c.byte? i).getD b =
    if c.start ≤ i ∧ i < c.start + c.length then c.source (i - c.start) else b := by
  rw [byte?]
  split <;> rfl

theorem byte?_resize {c : Call} (hc : c.isResize) : c.byte? = fun _ => none := by
  cases c with
  | set | copy => contradiction
  | resizeOffset | resizeEnd => rfl

end Call

/-- The byte that the last call to write at an address wrote there, and zero if none did. -/
def lastWritten (cs : List Call) (i : Nat) : UInt8 :=
  (cs.reverse.findSome? (·.byte? i)).getD 0

/-! ## What one call does -/

/-- **A call writes or is refused**: it writes if it has no bytes or ends within 64 bits and
the limit. -/
theorem call_eq {c : Call} (hc : c.isResize = false) : m.call c =
    if c.length = 0 ∨ c.start + c.length ≤ min Quantity.max m.limit then
      .ok (m.write c.start c.bytes)
    else .error (.fatal .notSupported) := by
  cases c with
  | set =>
    rw [call, set_eq]
    exact apply_ite (Except.mapError ExitReason.fatal) _ _ _
  | copy =>
    rw [call, copy_eq]
    exact apply_ite (Except.mapError ExitReason.fatal) _ _ _
  | resizeOffset | resizeEnd => contradiction

theorem call_resize {c : Call} (hc : c.isResize) (h : m.call c = .ok m') :
    m'.data = m.data ∧ m'.limit = m.limit := by
  cases c with
  | set | copy => contradiction
  | resizeOffset => exact resizeOffset_keeps (mapError_eq_ok h)
  | resizeEnd => exact resizeEnd_keeps (mapError_eq_ok h)

/-- A call that succeeds and does not resize writes, and what it writes is a quantity long. -/
theorem eq_write_of_call {c : Call} (hc : c.isResize = false) (h : m.call c = .ok m') :
    m' = m.write c.start c.bytes ∧ c.length ≤ Quantity.max := by
  rw [call_eq hc] at h
  split at h
  · rename_i hfits
    refine ⟨(Except.ok.inj h).symm, ?_⟩
    omega
  · contradiction

/-- **What one call writes.**  A call that succeeds puts its bytes where it writes, and
leaves all others. -/
theorem byteAt_call {c : Call} (h : m.call c = .ok m') (hfit : c.Fits) (i : Nat) :
    m'.byteAt i = (c.byte? i).getD (m.byteAt i) := by
  by_cases hc : c.isResize
  · rw [c.byte?_resize hc, byteAt, (call_resize hc h).1]
    rfl
  · obtain ⟨rfl, hmax⟩ := eq_write_of_call (Bool.eq_false_iff.mpr hc) h
    rw [byteAt_write, Call.getD_byte?, c.length_bytes]
    split
    · exact Call.getD_bytes hfit hmax (by omega)
    · rfl

theorem limit_after (m : Memory) (c : Call) : (m.after c).limit = m.limit := by
  unfold after
  split
  · rename_i m' h
    by_cases hc : c.isResize
    · exact (call_resize hc h).2
    · rw [(eq_write_of_call (Bool.eq_false_iff.mpr hc) h).1, limit_write]
  · rfl

/-! ## What calls leave -/

theorem limit_run (m : Memory) (cs : List Call) : (m.run cs).limit = m.limit := by
  induction cs generalizing m with
  | nil => rfl
  | cons c cs ih => exact (ih (m.after c)).trans (limit_after m c)

theorem byteAt_run {cs : List Call} (hfit : ∀ c ∈ cs, c.Fits) (i : Nat) :
    (m.run cs).byteAt i =
      ((m.succeeded cs).reverse.findSome? (·.byte? i)).getD (m.byteAt i) := by
  induction cs generalizing m with
  | nil => rfl
  | cons c cs ih =>
    have hrest : ∀ d ∈ cs, d.Fits := fun d hd => hfit d (List.mem_cons_of_mem c hd)
    rw [run, List.foldl_cons, ← run, succeeded, after]
    cases h : m.call c with
    | error e => exact ih hrest
    | ok m' =>
      simp only
      -- The calls after this one come first, and where none of them writes, this one decides.
      rw [ih hrest, byteAt_call h (hfit c List.mem_cons_self), List.reverse_cons,
        List.findSome?_append, List.findSome?_singleton]
      cases (m'.succeeded cs).reverse.findSome? (·.byte? i) <;> rfl

theorem succeeded_append (m : Memory) (cs ds : List Call) :
    m.succeeded (cs ++ ds) = m.succeeded cs ++ (m.run cs).succeeded ds := by
  induction cs generalizing m with
  | nil => rfl
  | cons c cs ih =>
    rw [List.cons_append, succeeded, succeeded, run, List.foldl_cons, ← run, after]
    cases m.call c with
    | error e => exact ih m
    | ok m' => exact congrArg (c :: ·) (ih m')

/-- A resize, made or refused, is not what an address was last written by. -/
theorem lastWritten_succeeded_resize {c : Call} (hc : c.isResize) (m : Memory) (cs : List Call) :
    lastWritten (m.succeeded (cs ++ [c])) = lastWritten (m.succeeded cs) := by
  funext i
  rw [succeeded_append, succeeded]
  split
  · rw [succeeded, lastWritten, List.reverse_append, List.findSome?_append, List.reverse_singleton,
      List.findSome?_singleton, c.byte?_resize hc, Option.none_or, lastWritten]
  · rw [succeeded, List.append_nil]

/-- **Memory is an array of bytes** that starts with zeros.  After calls in any order it
reads, at every address, what the last of them to succeed and to write there put there, or
zero.  A call that is to write succeeds just if it has no bytes or ends within 64 bits and
the limit; one that fails leaves the memory as it is; and one that resizes it does not
change what was written. -/
theorem get_eq_lastWritten (limit : Nat) (cs : List Call) (hfit : ∀ c ∈ cs, c.Fits) :
    let m := (empty limit).run cs
    let written := lastWritten ((empty limit).succeeded cs)
    (∀ offset len, m.get offset len = (List.range len).map fun k => written (offset + k)) ∧
    (∀ c, c.isResize = false →
      ((∃ m', m.call c = .ok m') ↔
        c.length = 0 ∨ c.start + c.length ≤ min Quantity.max limit)) ∧
    (∀ c e, m.call c = .error e → m.after c = m) ∧
    ∀ c, c.isResize → lastWritten ((empty limit).succeeded (cs ++ [c])) = written := by
  intro m written
  refine ⟨fun offset len => ?_, fun c hc => ?_, fun c e h => ?_, fun c hc => ?_⟩
  · exact List.map_congr_left fun k _ => byteAt_run hfit (offset + k)
  · have hlimit : m.limit = limit := limit_run (empty limit) cs
    rw [call_eq hc, hlimit]
    split
    · rename_i hfits
      exact iff_of_true ⟨_, rfl⟩ hfits
    · rename_i hfits
      exact iff_of_false (fun ⟨m', h⟩ => nomatch h) hfits
  · rw [after, h]
  · exact lastWritten_succeeded_resize hc (empty limit) cs

/-- Writes that fail and that read from far behind the data, in a memory that grows. -/
theorem get_eq_lastWritten_of_few :
    let cs : List Call := [.set 1 [1, 2, 3] none, .set 2 [9, 9, 9] none, .copy 0 1 2 [7],
      .copy 3 Word.max 1 [8], .resizeEnd 40]
    let m := (empty 4).run cs
    ((∀ c ∈ cs, c.Fits) ∧ m.call (.set 4 [9] none) = .error (.fatal .notSupported)) ∧
    m.get 0 6 = [0, 0, 2, 0, 0, 0] ∧ m.after (.set 4 [9] none) = m ∧
    lastWritten ((empty 4).succeeded (cs ++ [.resizeEnd 80])) =
      lastWritten ((empty 4).succeeded cs) := by
  intro cs m
  have hfit : ∀ c ∈ cs, c.Fits := by
    simp [cs, Call.Fits]
  have hfails : m.call (.set 4 [9] none) = .error (.fatal .notSupported) := by
    decide
  obtain ⟨hget, -, hfailed, hresize⟩ := get_eq_lastWritten 4 cs hfit
  refine ⟨⟨hfit, hfails⟩, ?_, hfailed _ _ hfails, hresize (.resizeEnd 80) rfl⟩
  rw [hget 0 6]
  decide

end Memory
end Ethereum
