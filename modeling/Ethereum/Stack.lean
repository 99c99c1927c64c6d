/-
# The operand stack

A stack of words with a limit on its length, kept as the room that is left.
Positions count from the top, so the list of items has the top first.  Every
operation that fails leaves the stack as it was.
-/

import Ethereum.Exit
import Ethereum.Word.Basic

namespace Ethereum

/-- An operand stack. -/
structure Stack where
  /-- The items, top first. -/
  items : List Word
  /-- How many more items fit. -/
  room : Nat
deriving DecidableEq, Repr

namespace Stack

/-- The stack without items. -/
def empty (limit : Nat) : Stack := ⟨[], limit⟩

/-- The number of items. -/
def length (s : Stack) : Nat := s.items.length

/-- The largest number of items. -/
def limit (s : Stack) : Nat := s.length + s.room

/-- Whether there are at least `n` items. -/
def holds (s : Stack) (n : Nat) : Bool := n = 0 || (s.items[n - 1]?).isSome

/-- Whether there is no item. -/
def isEmpty (s : Stack) : Bool := s.items.isEmpty

/-- Puts a word on top. -/
def push (s : Stack) (w : Word) : Except ExitError Stack :=
  match s.room with
  | 0 => .error .stackOverflow
  | room + 1 => .ok ⟨w :: s.items, room⟩

/-- Takes the top item off. -/
def pop (s : Stack) : Except ExitError (Word × Stack) :=
  match s.items with
  | [] => .error .stackUnderflow
  | w :: rest => .ok (w, ⟨rest, s.room + 1⟩)

/-- The item at position `i` from the top. -/
def peek (s : Stack) (i : Nat) : Except ExitError Word :=
  match s.items[i]? with
  | some w => .ok w
  | none => .error .stackUnderflow

/-- The item at position `i` from the top as a quantity; one that does not fit
could never be paid for. -/
def peekQuantity (s : Stack) (i : Nat) : Except ExitError Nat := do
  match (← s.peek i).toQuantity? with
  | some n => .ok n
  | none => .error .outOfGas

/-- Replaces the item at position `i` from the top. -/
def set (s : Stack) (i : Nat) (w : Word) : Except ExitError Stack :=
  if i < s.length then .ok { s with items := s.items.set i w } else .error .stackUnderflow

/-- Pushes a copy of the item at position `i` from the top. -/
def dup (s : Stack) (i : Nat) : Except ExitError Stack := do
  s.push (← s.peek i)

/-- Exchanges the top with the item at position `i` from the top. -/
def swap (s : Stack) (i : Nat) : Except ExitError Stack :=
  match s.items, s.items[i]? with
  | top :: _, some w => .ok { s with items := (s.items.set i top).set 0 w }
  | _, _ => .error .stackUnderflow

@[simp] theorem holds_eq (s : Stack) (n : Nat) : s.holds n = decide (n ≤ s.length) := by
  rcases n with _ | n
  · simp [holds]
  · rw [Bool.eq_iff_iff, decide_eq_true_iff, Nat.succ_le_iff]
    simp [holds, length]

theorem limit_push {s t : Stack} {w : Word} (h : s.push w = .ok t) : t.limit = s.limit := by
  unfold push at h
  split at h
  · contradiction
  · rename_i room hroom
    cases h
    simp only [limit, length, List.length_cons, hroom]
    omega

theorem limit_pop {s t : Stack} {w : Word} (h : s.pop = .ok (w, t)) : t.limit = s.limit := by
  unfold pop at h
  split at h
  · contradiction
  · rename_i hitems
    cases h
    simp only [limit, length, List.length_cons, hitems]
    omega

end Stack
end Ethereum
