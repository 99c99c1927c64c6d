/-
# Paths, as keys and as places

A key is walked by the nibbles of its bytes, and nothing is lost on the way
(`toBytes_ofBytes`, `ofBytes_toBytes`), so a map of byte strings is read as one of
paths (`Path.entries`), with nothing at paths that are not those of byte strings.

Entries below a node all start with the path of the node.  `Path.under` moves
entries behind a path.  A path follows another one to its end or parts from it at
one place (`follows_or_parts`), and what two paths have in common ends there
(`commonLength_of_parting`).
-/

import Mathlib
import Ethereum.Trie.Path

namespace Ethereum
namespace Path

/-! ## Bytes and nibbles -/

theorem byte_high_low (x : UInt8) : byte (high x) (low x) = x := by
  have hx := x.toNat_lt
  rw [← UInt8.toNat_inj, byte, UInt8.toNat_ofNat', high, low]
  simp only [Fin.ofNat]
  omega

theorem high_byte (m n : Nibble) : high (byte m n) = m := by
  ext
  simp only [high, byte, UInt8.toNat_ofNat', Fin.ofNat]
  omega

theorem low_byte (m n : Nibble) : low (byte m n) = n := by
  ext
  simp only [low, byte, UInt8.toNat_ofNat', Fin.ofNat]
  omega

@[simp] theorem ofBytes_cons (x : UInt8) (b : Bytes) :
    ofBytes (x :: b) = high x :: low x :: ofBytes b := rfl

@[simp] theorem toBytes_ofBytes (b : Bytes) : toBytes (ofBytes b) = b := by
  induction b with
  | nil => rfl
  | cons x b ih => rw [ofBytes_cons, toBytes, byte_high_low, ih]

theorem ofBytes_toBytes {path : Path} (h : path.length % 2 = 0) : ofBytes (toBytes path) = path := by
  fun_induction toBytes path with
  | case1 => rfl
  | case2 n => simp at h
  | case3 m n rest ih =>
    rw [ofBytes_cons, high_byte, low_byte, ih]
    simp only [List.length_cons] at h
    omega

theorem length_toBytes (path : Path) : (toBytes path).length = (path.length + 1) / 2 := by
  fun_induction toBytes path with
  | case1 => rfl
  | case2 => simp
  | case3 m n rest ih =>
    rw [List.length_cons, ih, List.length_cons, List.length_cons]
    omega

/-- A map of byte strings as one of paths. -/
def entries (m : Bytes → Option Bytes) (path : Path) : Option Bytes :=
  if path.length % 2 = 0 then m (toBytes path) else none

@[simp] theorem entries_ofBytes (m : Bytes → Option Bytes) (key : Bytes) :
    entries m (ofBytes key) = m key := by
  rw [entries, length_ofBytes, if_pos (Nat.mul_mod_right 2 _), toBytes_ofBytes]

theorem entries_update (m : Bytes → Option Bytes) (key : Bytes) (v : Option Bytes) :
    entries (Function.update m key v) = Function.update (entries m) (ofBytes key) v := by
  funext path
  by_cases hp : path = ofBytes key
  · rw [hp, entries_ofBytes, Function.update_self, Function.update_self]
  · rw [Function.update_of_ne hp, entries, entries]
    split
    · rename_i heven
      rw [Function.update_of_ne]
      rintro rfl
      exact hp (ofBytes_toBytes heven).symm
    · rfl

@[simp] theorem entries_none : entries (fun _ => none) = fun _ => none := by
  funext path
  rw [entries, ite_self]

/-! ## Places -/

theorem after?_append (p q : Path) : after? p (p ++ q) = some q :=
  after?_eq_some_iff.mpr rfl

theorem after?_eq_none_iff {p q : Path} : after? p q = none ↔ ¬ p <+: q := by
  rw [← Option.not_isSome_iff_eq_none, Option.isSome_iff_exists, not_iff_not]
  simp only [after?_eq_some_iff]
  exact exists_congr fun r => eq_comm

theorem after?_append_left (p q r : Path) :
    after? (p ++ q) r = (after? p r).bind (after? q) := by
  induction p generalizing r with
  | nil => rfl
  | cons m p ih =>
    rcases r with _ | ⟨n, r⟩
    · rfl
    · simp only [List.cons_append, after?]
      split
      · exact ih r
      · rfl

/-- The entries that `f` gives, all moved behind `p`. -/
def under (p : Path) (f : Path → Option Bytes) (path : Path) : Option Bytes :=
  (after? p path).bind f

@[simp] theorem under_append (p : Path) (f : Path → Option Bytes) (path : Path) :
    under p f (p ++ path) = f path := by
  rw [under, after?_append, Option.bind_some]

theorem under_eq_none {p path : Path} (f : Path → Option Bytes) (h : ¬ p <+: path) :
    under p f path = none := by
  rw [under, after?_eq_none_iff.mpr h, Option.bind_none]

@[simp] theorem under_nil (f : Path → Option Bytes) : under [] f = f := rfl

theorem under_under (p q : Path) (f : Path → Option Bytes) :
    under p (under q f) = under (p ++ q) f := by
  funext path
  rw [under, under, after?_append_left, Option.bind_assoc]
  rfl

/-- Behind `p` there is nothing if `f` gives nothing. -/
@[simp] theorem under_none (p : Path) : under p (fun _ => none) = fun _ => none := by
  funext path
  exact Option.bind_fun_none _

/-- Changing an entry and moving it are one. -/
theorem under_update (p path : Path) (f : Path → Option Bytes) (v : Option Bytes) :
    under p (Function.update f path v) = Function.update (under p f) (p ++ path) v := by
  funext q
  by_cases hq : p <+: q
  · obtain ⟨r, rfl⟩ := hq
    rw [under_append]
    by_cases hr : r = path
    · rw [hr, Function.update_self, Function.update_self]
    · rw [Function.update_of_ne hr, Function.update_of_ne (by simpa using hr), under_append]
  · rw [under_eq_none _ hq, Function.update_of_ne, under_eq_none _ hq]
    rintro rfl
    exact hq (List.prefix_append p path)

/-- If what follows `p` in two entries parts at the first step, nothing longer than
`p` is in front of both. -/
theorem length_le_of_fork {p q a b : Path} (hab : a.head? ≠ b.head?) (ha : q <+: p ++ a)
    (hb : q <+: p ++ b) : q.length ≤ p.length := by
  by_contra hlt
  obtain ⟨c, rfl⟩ := List.prefix_of_prefix_length_le (List.prefix_append p a) ha (by omega)
  rw [List.prefix_append_right_inj] at ha hb
  rcases c with _ | ⟨i, c⟩
  · simp at hlt
  · obtain ⟨a, rfl⟩ := ha
    obtain ⟨b, rfl⟩ := hb
    exact hab rfl

theorem commonLength_append (q a b : Path) :
    commonLength (q ++ a) (q ++ b) = q.length + commonLength a b := by
  induction q with
  | nil => simp
  | cons m q ih =>
    rw [List.cons_append, List.cons_append, commonLength, if_pos rfl, ih, List.length_cons]
    omega

/-- Paths that part after `q` share no more than `q`. -/
theorem commonLength_of_parting (q : Path) {a b : Path} (hab : a.head? ≠ b.head?) :
    commonLength (q ++ a) (q ++ b) = q.length := by
  rw [commonLength_append]
  rcases a with _ | ⟨m, a⟩
  · simp [commonLength]
  · rcases b with _ | ⟨n, b⟩
    · simp [commonLength]
    · simpa [commonLength] using hab

@[simp] theorem commonLength_append_self (p rest : Path) :
    commonLength p (p ++ rest) = p.length := by
  simpa [commonLength] using commonLength_append p [] rest

/-- Where two paths part: what follows the longest start they share. -/
theorem exists_split (p path : Path) :
    ∃ q a b, p = q ++ a ∧ path = q ++ b ∧ (a ≠ [] → a.head? ≠ b.head?) := by
  fun_induction commonLength p path with
  | case1 p m path ih =>
    obtain ⟨q, a, b, hp, hpath, hab⟩ := ih
    exact ⟨m :: q, a, b, congrArg (m :: ·) hp, congrArg (m :: ·) hpath, hab⟩
  | case2 m p n path hmn => exact ⟨[], m :: p, n :: path, rfl, rfl, fun _ => by simpa using hmn⟩
  | case3 p path hne =>
    refine ⟨[], p, path, rfl, rfl, ?_⟩
    intro hp
    rcases p with _ | ⟨m, p⟩
    · exact absurd rfl hp
    · rcases path with _ | ⟨n, path⟩
      · simp
      · exact (hne m p n path rfl rfl).elim

/-- Two paths that differ go on differently where they part. -/
theorem exists_split_of_ne {p path : Path} (h : p ≠ path) :
    ∃ q a b, p = q ++ a ∧ path = q ++ b ∧ a.head? ≠ b.head? := by
  obtain ⟨q, a, b, rfl, rfl, hab⟩ := exists_split p path
  refine ⟨q, a, b, rfl, rfl, ?_⟩
  cases a with
  | nil =>
    cases b with
    | nil => exact absurd rfl h
    | cons i b => simp
  | cons i a => exact hab (List.cons_ne_nil i a)

/-- A path follows another to its end, or it parts from it before. -/
theorem follows_or_parts (p path : Path) :
    (∃ rest, path = p ++ rest) ∨
      ∃ q i rest b, p = q ++ i :: rest ∧ path = q ++ b ∧ some i ≠ b.head? := by
  obtain ⟨q, a, b, rfl, rfl, hab⟩ := exists_split p path
  rcases a with _ | ⟨i, rest⟩
  · exact .inl ⟨b, by rw [List.append_nil]⟩
  · exact .inr ⟨q, i, rest, b, rfl, rfl, hab (List.cons_ne_nil i rest)⟩

end Path
end Ethereum
