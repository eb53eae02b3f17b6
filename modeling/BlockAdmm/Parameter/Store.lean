/-
  Parameter stores: where a solver leaves the values of the variables.
-/
import BlockAdmm.Log
import BlockAdmm.Parameter.Id
import BlockAdmm.Vec

namespace BlockAdmm

/-- The values that were written, by id. -/
structure ParameterStore (R : Type) where
  entries : List (ParameterId × Array R)

namespace ParameterStore

variable {R : Type}

/-- `empty`: nothing was written. -/
def empty : ParameterStore R := ⟨[]⟩

/-- `find id xs`: the value of the first entry of the id. -/
def find (id : ParameterId) : List (ParameterId × Array R) → Option (Array R)
  | [] => none
  | (i, v) :: rest => if i = id then some v else find id rest

/-- `put id v xs`: the entries with the value `v` under the id, in place of a former one. -/
def put (id : ParameterId) (v : Array R) :
    List (ParameterId × Array R) → List (ParameterId × Array R)
  | [] => [(id, v)]
  | (i, w) :: rest => if i = id then (i, v) :: rest else (i, w) :: put id v rest

/-- `s.get? id`: the value under an id. -/
def get? (s : ParameterStore R) (id : ParameterId) : Option (Array R) := find id s.entries

/-- `s.fetch id`: the value under an id; nothing is written like a vector of no entries. -/
def fetch (s : ParameterStore R) (id : ParameterId) : Array R := (s.get? id).getD #[]

/-- `s.contains id`: whether something was written under the id. -/
def contains (s : ParameterStore R) (id : ParameterId) : Bool := (s.get? id).isSome

/-- `s.size`: the number of ids. -/
def size (s : ParameterStore R) : Nat := s.entries.length

/-- `s.update id v`: the value `v` under the id. -/
def update (s : ParameterStore R) (id : ParameterId) (v : Array R) : ParameterStore R :=
  ⟨put id v s.entries⟩

theorem find_put (id id' : ParameterId) (v : Array R) (xs : List (ParameterId × Array R)) :
    find id' (put id v xs) = if id = id' then some v else find id' xs := by
  induction xs with
  | nil => simp [put, find]
  | cons x xs ih =>
    obtain ⟨i, w⟩ := x
    by_cases hi : i = id <;> by_cases h : id = id' <;> simp_all [put, find]

/-- A value that was written is found until the next one is written under its id. -/
theorem get?_update (s : ParameterStore R) (id id' : ParameterId) (v : Array R) :
    (s.update id v).get? id' = if id = id' then some v else s.get? id' :=
  find_put id id' v s.entries

/-- `updateEvent id v`: the report of one write. -/
def updateEvent [Scalar R] (id : ParameterId) (v : Array R) : Event :=
  ⟨.trace, fun _ => "update " ++ id.hex ++ ": " ++ Vec.debug v⟩

end ParameterStore

end BlockAdmm
