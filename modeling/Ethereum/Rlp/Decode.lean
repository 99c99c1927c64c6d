/-
# Recursive length prefix, reading

An item is read from the front of a byte string.  A header gives the length of
what follows it, and the reader refuses headers that are longer than needed or
that promise more bytes than there are (`span`).

The items of a list (`items`) are read up to the first that fails, which ends
the list without an error.  The first has to lie within the length that the list
declares; those after it only within the bytes at hand, so bytes that follow a
list count as further items of it.

Scalars (`number`, `word`, `hash`) are read by a stricter rule: no leading
zeros, and no length that differs from the string it announces.
-/

import Ethereum.Word.Basic

namespace Ethereum

/-- Why bytes do not decode, as items or as what the items stand for. -/
inductive DecodeError where
  | tooBig
  | tooShort
  | expectedList
  | expectedData
  | incorrectListLength
  | lengthWithZeroPrefix
  | invalidIndirection
  | inconsistentLengthAndData
  | invalidLength
  | invalidPathFlag
  | nonzeroPathPadding
  | degenerateExtension
deriving DecidableEq, Repr

namespace DecodeError

/-- The text of a decoding error. -/
def message : DecodeError → String
  | tooBig => "RlpIsTooBig"
  | tooShort => "RlpIsTooShort"
  | expectedList => "RlpExpectedToBeList"
  | expectedData => "RlpExpectedToBeData"
  | incorrectListLength => "RlpIncorrectListLen"
  | lengthWithZeroPrefix => "RlpDataLenWithZeroPrefix"
  | invalidIndirection => "RlpInvalidIndirection"
  | inconsistentLengthAndData => "RlpInconsistentLengthAndData"
  | invalidLength => "RlpInvalidLength"
  | invalidPathFlag => "Custom(\"invalid hex prefix flag\")"
  | nonzeroPathPadding => "Custom(\"non-zero hex prefix padding\")"
  | degenerateExtension => "Custom(\"degenerate extension node\")"

end DecodeError

namespace Rlp

/-- Whether `b` starts like a list. -/
def isList : Bytes → Bool
  | [] => false
  | b :: _ => 0xc0 ≤ b

/-- Whether `b` starts like a string. -/
def isString : Bytes → Bool
  | [] => false
  | b :: _ => b < 0xc0

/-- Where the payload of an item starts and how long it is. -/
structure Span where
  start : Nat
  length : Nat
deriving DecidableEq, Repr

/-- The end of the payload. -/
def Span.stop (s : Span) : Nat := s.start + s.length

/-- The span of an item whose length is written in the `n` bytes after the
first; `rest` is what follows the first byte. -/
def longSpan (n : Nat) (rest : Bytes) : Except DecodeError Span :=
  match rest with
  | [] => .error .tooShort
  | b :: _ =>
    if b = 0 then .error .lengthWithZeroPrefix
    else if rest.length < n then .error .tooShort
    else
      let length := Bytes.toNat (rest.take n)
      if length ≤ 55 then .error .invalidIndirection else .ok ⟨1 + n, length⟩

/-- The span that the header at the front of `b` announces. -/
def announced (b : Bytes) : Except DecodeError Span :=
  match b with
  | [] => .error .tooShort
  | first :: rest =>
    let l := first.toNat
    if l ≤ 0x7f then .ok ⟨0, 1⟩
    else if l ≤ 0xb7 then .ok ⟨1, l - 0x80⟩
    else if l ≤ 0xbf then longSpan (l - 0xb7) rest
    else if l ≤ 0xf7 then .ok ⟨1, l - 0xc0⟩
    else longSpan (l - 0xf7) rest

/-- The span of the item at the front of `b`, which has to hold all of it. -/
def span (b : Bytes) : Except DecodeError Span := do
  let s ← announced b
  if s.stop ≤ b.length then .ok s else .error .tooShort

/-- The payload of the item at the front of `b`. -/
def payload (b : Bytes) : Except DecodeError Bytes := do
  let s ← span b
  return (b.drop s.start).take s.length

/-- The item at the front of `b`, with its header. -/
def item? (b : Bytes) : Option Bytes :=
  match span b with
  | .ok s => some (b.take s.stop)
  | .error _ => none

theorem start_pos_of_longSpan {n : Nat} {rest : Bytes} {s : Span} (h : longSpan n rest = .ok s) :
    0 < s.start := by
  unfold longSpan at h
  grind

theorem stop_pos_of_announced {b : Bytes} {s : Span} (h : announced b = .ok s) : 0 < s.stop := by
  have long {n : Nat} {rest : Bytes} (h : longSpan n rest = .ok s) : 0 < s.stop := by
    have := start_pos_of_longSpan h
    simp [Span.stop]
    omega
  unfold announced at h
  split at h
  · contradiction
  · simp only at h
    repeat' split at h
    · cases h; simp [Span.stop]
    · cases h; simp only [Span.stop]; omega
    · exact long h
    · cases h; simp only [Span.stop]; omega
    · exact long h

theorem length_item {b x : Bytes} (h : item? b = some x) : 0 < x.length ∧ x.length ≤ b.length := by
  unfold item? at h
  split at h
  · rename_i s hs
    cases h
    unfold span at hs
    cases ha : announced b with
    | error e => simp [ha, bind, Except.bind] at hs
    | ok t =>
      simp only [ha, bind, Except.bind] at hs
      split at hs
      · cases hs
        have := stop_pos_of_announced ha
        simp
        omega
      · contradiction
  · contradiction

/-- The items that follow each other from the front of `b`, up to the first that
cannot be read. -/
def run (b : Bytes) : List Bytes :=
  match _h : item? b with
  | some x => x :: run (b.drop x.length)
  | none => []
termination_by b.length
decreasing_by
  have := length_item _h
  simp
  omega

/-- The items of the list at the front of `b`: the first within its payload, the
others wherever the bytes go on. -/
def items (b : Bytes) : Except DecodeError (List Bytes) :=
  if isList b then
    match span b with
    | .error _ => .ok []
    | .ok s =>
      match item? ((b.drop s.start).take s.length) with
      | none => .ok []
      | some x => .ok (x :: run (b.drop (s.start + x.length)))
  else .error .expectedList

/-- The string of a scalar at the front of `b`. -/
def scalar (b : Bytes) : Except DecodeError Bytes :=
  match b with
  | [] => .error .tooShort
  | first :: rest =>
    let l := first.toNat
    if l ≤ 0x7f then .ok [first]
    else if l ≤ 0xb7 then
      let n := l - 0x80
      if rest.length < n then .error .inconsistentLengthAndData
      else match n, rest with
        | 1, d :: _ => if d < 0x80 then .error .invalidIndirection else .ok [d]
        | _, _ => .ok (rest.take n)
    else if l ≤ 0xbf then
      let n := l - 0xb7
      if rest.length < n then .error .inconsistentLengthAndData
      else if rest.head? = some 0 then .error .invalidIndirection
      else
        let length := Bytes.toNat (rest.take n)
        if Quantity.max < 1 + n + length then .error .invalidLength
        else if rest.length < n + length then .error .inconsistentLengthAndData
        else .ok ((rest.drop n).take length)
    else .error .expectedData

/-- The number that a string writes without leading zeros in at most `width`
bytes. -/
def minimalNumber (width : Nat) (b : Bytes) : Except DecodeError Nat :=
  if b.head? = some 0 then .error .invalidIndirection
  else if width < b.length then .error .tooBig
  else .ok b.toNat

/-- A quantity, as the item at the front of `b`. -/
def quantity (b : Bytes) : Except DecodeError Nat := do
  let d ← scalar b
  if 8 < d.length then .error .tooBig else minimalNumber 8 d

/-- A word, as the item at the front of `b`. -/
def word (b : Bytes) : Except DecodeError Word := do
  let n ← minimalNumber 32 (← scalar b)
  return BitVec.ofNat 256 n

/-- A hash, as the item at the front of `b`. -/
def hash (b : Bytes) : Except DecodeError Hash := do
  let d ← scalar b
  if d.length < 32 then .error .tooShort
  else if 32 < d.length then .error .tooBig
  else return Word.ofBytes d

end Rlp
end Ethereum
