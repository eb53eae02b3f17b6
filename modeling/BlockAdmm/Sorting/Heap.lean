/-
  Heapsort: entries in order through a heap, the same work whatever order they come in.

  A heap is an array in which no entry is below one of its children; the children of place `i` are
  at `2 * i + 1` and `2 * i + 2`.  Everything is done by exchanges, so nothing is lost or made
  (`heap_perm`).  Entries that are equal in the order may change places.
-/

namespace BlockAdmm.Sorting

variable {α : Type}

/-- `lessAt lt a i j`: whether the entry at place `i` is below the one at `j`. -/
def lessAt (lt : α → α → Bool) (a : Array α) (i j : Nat) : Bool :=
  match a[i]?, a[j]? with
  | some x, some y => lt x y
  | _, _ => false

/-- `largerChild lt n a i`: the child of `i` that goes up, among the places below `n`; of two that
    are equal the first. -/
def largerChild (lt : α → α → Bool) (n : Nat) (a : Array α) (i : Nat) : Nat :=
  if 2 * i + 2 < n && lessAt lt a (2 * i + 1) (2 * i + 2) then 2 * i + 2 else 2 * i + 1

/-- `sink lt n levels i a`: the entry at `i` moved down until no child below `n` is above it, by
    `levels` exchanges at most. -/
def sink (lt : α → α → Bool) (n : Nat) : Nat → Nat → Array α → Array α
  | 0, _, a => a
  | levels + 1, i, a =>
    let c := largerChild lt n a i
    if c < n && lessAt lt a i c then sink lt n levels c (a.swapIfInBounds i c) else a

/-- `heapStep lt a i`: one step of heapsort.  From the size on, the steps make a heap; below it, step
    `i` moves the largest of the first entries to place `i`. -/
def heapStep (lt : α → α → Bool) (a : Array α) (i : Nat) : Array α :=
  if a.size ≤ i then sink lt a.size a.size (i - a.size) a
  else sink lt i a.size 0 (a.swapIfInBounds 0 i)

/-- `heap lt v`: the entries in order. -/
def heap (lt : α → α → Bool) (v : List α) : List α :=
  ((List.range (v.length + v.length / 2)).reverse.foldl (heapStep lt) v.toArray).toList

example : heap (fun a b : Nat => decide (a < b)) [3, 1, 4, 1, 5, 9, 2, 6] = [1, 1, 2, 3, 4, 5, 6, 9] := by
  decide

theorem swapIfInBounds_perm (a : Array α) (i j : Nat) : (a.swapIfInBounds i j).Perm a := by
  unfold Array.swapIfInBounds
  split
  · split
    · exact Array.swap_perm _ _
    · exact Array.Perm.refl a
  · exact Array.Perm.refl a

theorem sink_perm (lt : α → α → Bool) (n levels i : Nat) (a : Array α) :
    (sink lt n levels i a).Perm a := by
  induction levels generalizing i a with
  | zero => exact Array.Perm.refl a
  | succ levels ih =>
    rw [sink]
    split
    · exact (ih _ _).trans (swapIfInBounds_perm a _ _)
    · exact Array.Perm.refl a

theorem heapStep_perm (lt : α → α → Bool) (a : Array α) (i : Nat) : (heapStep lt a i).Perm a := by
  unfold heapStep
  split
  · exact sink_perm lt _ _ _ a
  · exact (sink_perm lt _ _ _ _).trans (swapIfInBounds_perm a _ _)

/-- Heapsort keeps the entries. -/
theorem heap_perm (lt : α → α → Bool) (v : List α) : (heap lt v).Perm v := by
  have steps : ∀ (is : List Nat) (a : Array α), (is.foldl (heapStep lt) a).Perm a := by
    intro is
    induction is with
    | nil => exact fun a => Array.Perm.refl a
    | cons i is ih => exact fun a => (ih _).trans (heapStep_perm lt a i)
  exact Array.perm_iff_toList_perm.1 (steps _ v.toArray)

end BlockAdmm.Sorting
