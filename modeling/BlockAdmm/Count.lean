/-
  Counts: how large a size may be.

  The sizes of what is given are natural numbers.  A size that is computed from them must be a count
  of 64 bits, and the entries of a vector, eight bytes each, must fit in the memory that 63 bits
  address.  What goes beyond ends in a breach before anything is stored.
-/
import BlockAdmm.Fault

namespace BlockAdmm

/-- `countLimit`: the first number that is no count. -/
def countLimit : Nat := 18446744073709551616

/-- `capacity`: the most entries that a vector can have. -/
def capacity : Nat := 1152921504606846975

/-- `isCount n`: whether a size can be counted. -/
def isCount (n : Nat) : Bool := decide (n < countLimit)

/-- `count n`: a computed size, which must be a count. -/
def count (n : Nat) : Outcome Nat := do
  limit (isCount n)
  return n

/-- `room n`: goes on if `n` entries can be stored. -/
def room (n : Nat) : Outcome Unit := limit (decide (n ≤ capacity))

/-- `elementsOf s`: the number of elements of a matrix, as a count. -/
def elementsOf (s : Size) : Outcome Nat := count (s.1 * s.2)

@[simp] theorem count_of_lt {n : Nat} (h : n < countLimit) : count n = .ok n := by
  have hn : isCount n = true := decide_eq_true h
  rw [count, hn]
  rfl

@[simp] theorem room_of_le {n : Nat} (h : n ≤ capacity) : room n = .ok () := by
  simp [room, h]

@[simp] theorem room_of_lt {n : Nat} (h : capacity < n) : room n = .error .breach := by
  rw [room, decide_eq_false (Nat.not_le.2 h), limit_false]

/-- A vector that can be stored can be counted. -/
theorem isCount_of_le_capacity {n : Nat} (h : n ≤ capacity) : isCount n = true :=
  decide_eq_true (Nat.lt_of_le_of_lt h (by decide))

end BlockAdmm
