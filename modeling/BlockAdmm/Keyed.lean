/-
  Finite maps from names, kept in the order of the names.

  The entries are a list that rises strictly by name, compared character by character; that is part
  of the type, so a walk over a map meets each name once and in a fixed order.
-/

namespace BlockAdmm

/-- A finite map from names to values. -/
structure Keyed (α : Type) where
  entries : List (String × α)
  sorted : entries.Pairwise fun a b => a.1 < b.1

namespace Keyed

variable {α β : Type}

/-- `empty`: no entries. -/
def empty : Keyed α := ⟨[], List.Pairwise.nil⟩

instance : Inhabited (Keyed α) := ⟨empty⟩

/-- `find k xs`: the value of the first entry of the name. -/
def find (k : String) : List (String × α) → Option α
  | [] => none
  | (k', v) :: rest => if k' = k then some v else find k rest

/-- `m.get? k`: the value under a name. -/
def get? (m : Keyed α) (k : String) : Option α := find k m.entries

/-- `m.contains k`: whether there is a value under the name. -/
def contains (m : Keyed α) (k : String) : Bool := (m.get? k).isSome

/-- `m.keys`: the names, in order. -/
def keys (m : Keyed α) : List String := m.entries.map Prod.fst

/-- `m.values`: the values, in the order of their names. -/
def values (m : Keyed α) : List α := m.entries.map Prod.snd

/-- `m.sum`: the sum of the values. -/
def sum (m : Keyed Nat) : Nat := m.values.foldr (fun v s => v + s) 0

/-- `m.size`: the number of entries. -/
def size (m : Keyed α) : Nat := m.entries.length

/-- `m.isEmpty`: whether there is no entry. -/
def isEmpty (m : Keyed α) : Bool := m.entries.isEmpty

/-- `insertList k v xs`: the entry in its place, instead of one of the same name. -/
def insertList (k : String) (v : α) : List (String × α) → List (String × α)
  | [] => [(k, v)]
  | (k', v') :: rest =>
    if k < k' then (k, v) :: (k', v') :: rest
    else if k = k' then (k, v) :: rest
    else (k', v') :: insertList k v rest

theorem mem_insertList {k : String} {v : α} {y : String × α} {xs : List (String × α)}
    (h : y ∈ insertList k v xs) : y = (k, v) ∨ y ∈ xs := by
  induction xs with
  | nil => simpa [insertList] using h
  | cons x xs ih =>
    rw [insertList] at h
    split at h
    · simpa using h
    · split at h
      · rcases List.mem_cons.1 h with h | h
        · exact Or.inl h
        · exact Or.inr (List.mem_cons_of_mem _ h)
      · rcases List.mem_cons.1 h with h | h
        · exact Or.inr (h ▸ List.mem_cons_self)
        · exact (ih h).imp_right (List.mem_cons_of_mem _)

/-- An insertion keeps the order. -/
theorem sorted_insertList (k : String) (v : α) {xs : List (String × α)}
    (h : xs.Pairwise fun a b => a.1 < b.1) : (insertList k v xs).Pairwise fun a b => a.1 < b.1 := by
  induction xs with
  | nil => simp [insertList]
  | cons x xs ih =>
    obtain ⟨k', v'⟩ := x
    rw [List.pairwise_cons] at h
    rw [insertList]
    split
    · rename_i hk
      refine List.Pairwise.cons (fun y hy => ?_) (List.Pairwise.cons h.1 h.2)
      rcases List.mem_cons.1 hy with rfl | hy
      · exact hk
      · exact String.lt_trans hk (h.1 y hy)
    · split
      · rename_i hk; subst hk; exact List.Pairwise.cons h.1 h.2
      · rename_i hk hne
        refine List.Pairwise.cons (fun y hy => ?_) (ih h.2)
        rcases mem_insertList hy with rfl | hy
        · exact Std.lt_of_le_of_ne (String.not_lt.1 hk) (Ne.symm hne)
        · exact h.1 y hy

/-- `m.insert k v`: the value `v` under the name `k`, in place of a former one. -/
def insert (m : Keyed α) (k : String) (v : α) : Keyed α :=
  ⟨insertList k v m.entries, sorted_insertList k v m.sorted⟩

theorem find_insertList (k k' : String) (v : α) (xs : List (String × α)) :
    find k' (insertList k v xs) = if k = k' then some v else find k' xs := by
  induction xs with
  | nil => rfl
  | cons x xs ih =>
    obtain ⟨k₀, v₀⟩ := x
    rw [insertList]
    split
    · rfl
    · split
      · rename_i hk; subst hk
        by_cases h : k = k' <;> simp [find, h]
      · rename_i hne
        rw [find, find, ih]
        by_cases h : k₀ = k' <;> by_cases h' : k = k' <;> simp_all

/-- What a map holds after an insertion. -/
theorem get?_insert (m : Keyed α) (k k' : String) (v : α) :
    (m.insert k v).get? k' = if k = k' then some v else m.get? k' :=
  find_insertList k k' v m.entries

@[simp] theorem get?_empty (k : String) : (empty : Keyed α).get? k = none := rfl

/-- `ofList xs`: the entries of a list; of two under one name the later. -/
def ofList (xs : List (String × α)) : Keyed α := xs.foldl (fun m kv => m.insert kv.1 kv.2) empty

/-- `m.map f`: the values under the same names, each through `f`. -/
def map (f : α → β) (m : Keyed α) : Keyed β :=
  ⟨m.entries.map fun kv => (kv.1, f kv.2), by
    rw [List.pairwise_map]; exact m.sorted⟩

@[simp] theorem get?_map (f : α → β) (m : Keyed α) (k : String) :
    (m.map f).get? k = (m.get? k).map f := by
  simp only [get?, map]
  induction m.entries with
  | nil => rfl
  | cons x xs ih => by_cases h : x.1 = k <;> simp_all [find]

/-- `agree eq a b`: the same names, with values that `eq` relates. -/
def agree (eq : α → α → Bool) (a b : Keyed α) : Bool :=
  a.entries.length == b.entries.length
    && (a.entries.zip b.entries).all fun p => p.1.1 == p.2.1 && eq p.1.2 p.2.2

end Keyed

end BlockAdmm
