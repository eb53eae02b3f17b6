/-
  Quicksort down to short slices.

  `arrange` brings entries so far into order that only entries of one short slice may still be out
  of place; there they stand as they came.  Insertion then puts them in order with little work, and
  leaves equal entries as `arrange` put them.  So `arrange` decides in which order equal entries
  come; where that matters, as for sums that are rounded, it is part of the result.

  A slice is divided at a pivot, the median of three entries, or of three such medians if it is
  long.  Where a pivot is not above the entry that bounds its slice from below, the two are equal,
  and all that is equal to it is set aside at once.  A slice that is still long after as many
  divisions as there are levels goes to heapsort.  Nothing is lost or made (`arrange_perm`).
-/
import BlockAdmm.Sorting.Heap

namespace BlockAdmm.Sorting

variable {α : Type}

/-- `shortLength`: the most entries of a short slice. -/
def shortLength : Nat := 32

/-- `longLength`: the fewest entries of a slice whose pivot is a median of medians. -/
def longLength : Nat := 64

/-- `middle less a b c`: the place of the median of three, where `less` compares places; the first of
    two that are equal gives way. -/
def middle (less : Nat → Nat → Bool) (a b c : Nat) : Nat :=
  if less a b == less a c then (if less b c != less a b then c else b) else a

/-- `pivotPlace less n i`: the place of the pivot of the `n` entries from place `i` on. -/
def pivotPlace (less : Nat → Nat → Bool) (n i : Nat) : Nat :=
  let e := n / 8
  if h : n < longLength then middle less i (i + 4 * e) (i + 7 * e)
  else
    have : n / 8 < n := by unfold longLength at h; omega
    middle less (pivotPlace less e i) (pivotPlace less e (i + 4 * e)) (pivotPlace less e (i + 7 * e))
termination_by n

/-- `exchange x i xs`: entry `i` of `x :: xs`, and what is left with `x` in its place. -/
def exchange (x : α) : Nat → List α → α × List α
  | 0, xs => (x, xs)
  | _, [] => (x, [])
  | 1, y :: ys => (y, x :: ys)
  | i + 2, y :: ys => ((exchange x (i + 1) ys).1, y :: (exchange x (i + 1) ys).2)

/-- `turn xs`: the first entry moved to the end. -/
def turn : List α → List α
  | [] => []
  | x :: xs => xs ++ [x]

/-- `turnBack xs`: the last entry moved to the front. -/
def turnBack (xs : List α) : List α :=
  match xs.reverse with
  | [] => []
  | x :: rest => x :: rest.reverse

/-- The two parts of a slice. -/
structure Parts (α : Type) where
  lower : List α
  upper : List α

/-- `place isLower s x`: the parts with one more entry.  A lower one takes the first place of the
    upper part, whose first entry goes to its end; an upper one goes between the parts, in the place
    that the same move makes free. -/
def place (isLower : α → Bool) (s : Parts α) (x : α) : Parts α :=
  if isLower x then ⟨s.lower ++ [x], turn s.upper⟩ else ⟨s.lower, x :: turn s.upper⟩

/-- `divide isLower xs`: the two parts of a slice; the first entry comes last, and the last lower
    one goes to the front, where it makes way for the pivot. -/
def divide (isLower : α → Bool) (xs : List α) : Parts α :=
  let s := (turn xs).foldl (place isLower) ⟨[], []⟩
  ⟨turnBack s.lower, s.upper⟩

/-- `arrangeFrom lt levels floor v`: the slice `v`, whose entries are not below `floor` if there is
    one, arranged by divisions on so many levels. -/
def arrangeFrom (lt : α → α → Bool) : Nat → Option α → List α → List α
  | _, _, [] => []
  | 0, _, x :: xs => if xs.length < shortLength then x :: xs else heap lt (x :: xs)
  | levels + 1, floor, x :: xs =>
    if xs.length < shortLength then x :: xs
    else
      let v := (x :: xs).toArray
      let pr := exchange x (pivotPlace (lessAt lt v) v.size 0) xs
      if floor.any fun q => !lt q pr.1 then
        let s := divide (fun y => !lt pr.1 y) pr.2
        s.lower ++ pr.1 :: arrangeFrom lt levels none s.upper
      else
        let s := divide (fun y => lt y pr.1) pr.2
        arrangeFrom lt levels floor s.lower ++ pr.1 :: arrangeFrom lt levels (some pr.1) s.upper

/-- `isRising lt v`: whether no entry is below the one before it. -/
def isRising (lt : α → α → Bool) : List α → Bool
  | x :: y :: rest => !lt y x && isRising lt (y :: rest)
  | _ => true

/-- `arrange lt v`: the entries arranged; what is in order stays as it is. -/
def arrange (lt : α → α → Bool) (v : List α) : List α :=
  if isRising lt v then v else arrangeFrom lt (2 * Nat.log2 v.length) none v

/-- A short list stays as it is. -/
theorem arrange_of_short (lt : α → α → Bool) {v : List α} (h : v.length ≤ shortLength) :
    arrange lt v = v := by
  unfold arrange
  split
  · rfl
  · cases v with
    | nil => simp [arrangeFrom]
    | cons x xs =>
      have hx : xs.length < shortLength := h
      cases 2 * Nat.log2 (x :: xs).length with
      | zero => rw [arrangeFrom, if_pos hx]
      | succ levels => rw [arrangeFrom, if_pos hx]

theorem exchange_perm (x : α) (i : Nat) (xs : List α) :
    ((exchange x i xs).1 :: (exchange x i xs).2).Perm (x :: xs) := by
  fun_induction exchange x i xs with
  | case1 | case2 => exact List.Perm.refl _
  | case3 => exact List.Perm.swap _ _ _
  | case4 i y ys ih =>
    exact (List.Perm.swap _ _ _).trans ((ih.cons y).trans (List.Perm.swap _ _ _))

theorem turn_perm (xs : List α) : (turn xs).Perm xs := by
  cases xs with
  | nil => exact List.Perm.refl _
  | cons x xs => exact List.perm_append_comm

theorem turnBack_perm (xs : List α) : (turnBack xs).Perm xs := by
  unfold turnBack
  split
  · rename_i h
    rw [List.reverse_eq_nil_iff.1 h]
  · rename_i x rest h
    have hp : (x :: rest).Perm xs := h ▸ List.reverse_perm xs
    exact ((List.reverse_perm rest).cons x).trans hp

theorem place_perm (isLower : α → Bool) (s : Parts α) (x : α) :
    ((place isLower s x).lower ++ (place isLower s x).upper).Perm (x :: (s.lower ++ s.upper)) := by
  have hu : (x :: turn s.upper).Perm (x :: s.upper) := (turn_perm s.upper).cons x
  unfold place
  split
  · rw [List.append_assoc]
    exact (hu.append_left s.lower).trans List.perm_middle
  · exact (hu.append_left s.lower).trans List.perm_middle

theorem divide_perm (isLower : α → Bool) (xs : List α) :
    ((divide isLower xs).lower ++ (divide isLower xs).upper).Perm xs := by
  have fold : ∀ (ys : List α) (s : Parts α),
      ((ys.foldl (place isLower) s).lower ++ (ys.foldl (place isLower) s).upper).Perm
        (ys ++ (s.lower ++ s.upper)) := by
    intro ys
    induction ys with
    | nil => exact fun s => List.Perm.refl _
    | cons y ys ih =>
      intro s
      have h := (ih (place isLower s y)).trans ((place_perm isLower s y).append_left ys)
      exact h.trans List.perm_middle
  have h := fold (turn xs) ⟨[], []⟩
  rw [List.append_nil, List.append_nil] at h
  exact ((turnBack_perm _).append_right _).trans (h.trans (turn_perm xs))

theorem arrangeFrom_perm (lt : α → α → Bool) (levels : Nat) (floor : Option α) (v : List α) :
    (arrangeFrom lt levels floor v).Perm v := by
  induction levels generalizing floor v with
  | zero =>
    cases v with
    | nil => simp [arrangeFrom]
    | cons x xs =>
      rw [arrangeFrom]
      split
      · exact List.Perm.refl _
      · exact heap_perm lt _
  | succ levels ih =>
    cases v with
    | nil => simp [arrangeFrom]
    | cons x xs =>
      rw [arrangeFrom]
      split
      · exact List.Perm.refl _
      · have hx := exchange_perm x (pivotPlace (lessAt lt (x :: xs).toArray) (x :: xs).toArray.size 0) xs
        dsimp only
        split
        · exact (((ih none _).cons _).append_left _).trans
            (List.perm_middle.trans (((divide_perm _ _).cons _).trans hx))
        · exact ((ih floor _).append ((ih _ _).cons _)).trans
            (List.perm_middle.trans (((divide_perm _ _).cons _).trans hx))

/-- Arranging keeps the entries. -/
theorem arrange_perm (lt : α → α → Bool) (v : List α) : (arrange lt v).Perm v := by
  unfold arrange
  split
  · exact List.Perm.refl v
  · exact arrangeFrom_perm lt _ none v

end BlockAdmm.Sorting
