/-
  Sums over finite maps.

  The names of a finite map rise strictly, so each occurs once; looking a name up and meeting it on a
  walk are the same thing (`find_eq_some_iff`), and maps with the same values under the same names are the
  same (`ext_get?`).  `sumOver f xs` adds up `f k v` over the entries, which is
  a sum over the names (`sumOver_eq_sum_keys`).
-/
import BlockAdmm.Proofs.Exact
import BlockAdmm.Keyed

namespace BlockAdmm.Keyed

variable {α β : Type}

/-! ## Looking up -/

theorem find_eq_none_of_not_mem {k : String} {xs : List (String × α)} (h : k ∉ xs.map Prod.fst) :
    find k xs = none := by
  induction xs with
  | nil => rfl
  | cons x xs ih =>
    rw [List.map_cons, List.mem_cons, not_or] at h
    rw [find, if_neg (Ne.symm h.1), ih h.2]

/-- In a sorted list a name is found exactly where it stands. -/
theorem find_eq_some_iff {k : String} {v : α} {xs : List (String × α)}
    (hs : xs.Pairwise fun a b => a.1 < b.1) : find k xs = some v ↔ (k, v) ∈ xs := by
  induction xs with
  | nil => simp [find]
  | cons x xs ih =>
    obtain ⟨k', v'⟩ := x
    rw [List.pairwise_cons] at hs
    rw [find, List.mem_cons, Prod.mk.injEq]
    by_cases hk : k' = k
    · subst hk
      rw [if_pos rfl, Option.some.injEq]
      constructor
      · rintro rfl; exact Or.inl ⟨rfl, rfl⟩
      · rintro (⟨-, rfl⟩ | hmem)
        · rfl
        · exact absurd (hs.1 _ hmem) (String.lt_irrefl k')
    · rw [if_neg hk, ih hs.2]
      constructor
      · exact Or.inr
      · rintro (⟨rfl, -⟩ | hmem)
        · exact absurd rfl hk
        · exact hmem

theorem get?_eq_some_iff {m : Keyed α} {k : String} {v : α} :
    m.get? k = some v ↔ (k, v) ∈ m.entries := find_eq_some_iff m.sorted

theorem get?_eq_none_iff {m : Keyed α} {k : String} : m.get? k = none ↔ k ∉ m.keys := by
  rw [keys, List.mem_map, Option.eq_none_iff_forall_ne_some]
  constructor
  · rintro h ⟨⟨k', v⟩, hmem, rfl⟩
    exact h v (get?_eq_some_iff.2 hmem)
  · intro h v hv
    exact h ⟨(k, v), get?_eq_some_iff.1 hv, rfl⟩

theorem contains_iff_mem_keys {m : Keyed α} {k : String} : m.contains k = true ↔ k ∈ m.keys := by
  rw [contains, Option.isSome_iff_ne_none, Ne, get?_eq_none_iff, not_not]

theorem mem_keys_iff {m : Keyed α} {k : String} : k ∈ m.keys ↔ ∃ v, m.get? k = some v := by
  rw [← contains_iff_mem_keys, contains, Option.isSome_iff_exists]

/-- No name occurs twice. -/
theorem nodup_keys (m : Keyed α) : m.keys.Nodup := by
  have h : m.keys.Pairwise fun a b => a < b := List.pairwise_map.2 m.sorted
  refine List.Pairwise.imp (fun {a b} (hab : a < b) => ?_) h
  rintro rfl
  exact String.lt_irrefl a hab

/-- A finite map is what it has under each name. -/
theorem ext_get? {m m' : Keyed α} (h : ∀ k, m.get? k = m'.get? k) : m = m' := by
  have hmem (kv : String × α) : kv ∈ m.entries ↔ kv ∈ m'.entries := by
    rw [← get?_eq_some_iff, ← get?_eq_some_iff, h]
  have hperm : m.entries.Perm m'.entries :=
    (List.perm_ext_iff_of_nodup (List.Nodup.of_map Prod.fst m.nodup_keys)
      (List.Nodup.of_map Prod.fst m'.nodup_keys)).2 hmem
  have hentries : m.entries = m'.entries := by
    refine hperm.eq_of_pairwise (fun a b _ _ hab hba => ?_) m.sorted m'.sorted
    exact absurd (String.lt_trans hab hba) (String.lt_irrefl a.1)
  cases m
  cases m'
  cases hentries
  rfl

/-- What is there already is put in place of itself. -/
theorem insert_of_get? {m : Keyed α} {k : String} {v : α} (h : m.get? k = some v) : m.insert k v = m := by
  refine ext_get? fun k' => ?_
  rw [get?_insert]
  split
  · rename_i hk
    rw [← hk, h]
  · rfl

/-- Of two insertions under one name the later counts. -/
theorem insert_insert (m : Keyed α) (k : String) (v w : α) : (m.insert k v).insert k w = m.insert k w := by
  refine ext_get? fun k' => ?_
  rw [get?_insert, get?_insert, get?_insert]
  split <;> rfl

theorem mem_keys_insert {m : Keyed α} {k k' : String} {v : α} :
    k' ∈ (m.insert k v).keys ↔ k' = k ∨ k' ∈ m.keys := by
  rw [mem_keys_iff, mem_keys_iff]
  by_cases h : k = k'
  · subst h
    simp [get?_insert]
  · simp [get?_insert, h, Ne.symm h]

/-- What a list of insertions leaves under a name that it does not mention. -/
theorem get?_foldl_insert_of_not_mem (xs : List (String × α)) (m : Keyed α) (k : String)
    (h : k ∉ xs.map Prod.fst) : (xs.foldl (fun m kv => m.insert kv.1 kv.2) m).get? k = m.get? k := by
  induction xs generalizing m with
  | nil => rfl
  | cons x xs ih =>
    rw [List.map_cons, List.mem_cons, not_or] at h
    rw [List.foldl_cons, ih _ h.2, get?_insert, if_neg (Ne.symm h.1)]

/-- What insertions leave under a name is one of the values inserted there, or was there before. -/
theorem mem_of_get?_foldl_insert {xs : List (String × α)} {m : Keyed α} {k : String} {v : α}
    (h : (xs.foldl (fun m kv => m.insert kv.1 kv.2) m).get? k = some v) :
    (k, v) ∈ xs ∨ m.get? k = some v := by
  induction xs generalizing m with
  | nil => exact Or.inr h
  | cons x xs ih =>
    rcases ih h with hmem | hget
    · exact Or.inl (List.mem_cons_of_mem _ hmem)
    · rw [get?_insert] at hget
      split at hget
      · rename_i hk
        exact Or.inl (hk ▸ Option.some.inj hget ▸ List.mem_cons_self)
      · exact Or.inr hget

/-- Insertions of which those under one name agree. -/
theorem get?_foldl_insert_iff {xs : List (String × α)}
    (hsame : ∀ k v v', (k, v) ∈ xs → (k, v') ∈ xs → v = v') (m : Keyed α) {k : String} {v : α} :
    (xs.foldl (fun m kv => m.insert kv.1 kv.2) m).get? k = some v ↔
      (k, v) ∈ xs ∨ (∀ v', (k, v') ∉ xs) ∧ m.get? k = some v := by
  induction xs generalizing m with
  | nil =>
    exact ⟨fun h => Or.inr ⟨fun _ => List.not_mem_nil, h⟩, fun h => h.elim nofun And.right⟩
  | cons x xs ih =>
    have ih := ih fun k v v' h h' =>
      hsame k v v' (List.mem_cons_of_mem _ h) (List.mem_cons_of_mem _ h')
    rw [List.foldl_cons, ih, get?_insert]
    by_cases hx : x.1 = k
    · subst hx
      rw [if_pos rfl, Option.some.injEq, List.mem_cons]
      constructor
      · rintro (h | ⟨-, rfl⟩)
        · exact Or.inl (Or.inr h)
        · exact Or.inl (Or.inl rfl)
      · rintro ((h | h) | ⟨h, -⟩)
        · by_cases hmem : ∃ v', (x.1, v') ∈ xs
          · obtain ⟨v', hv'⟩ := hmem
            have hvv : v = v' := hsame x.1 v v' (h ▸ List.mem_cons_self) (List.mem_cons_of_mem _ hv')
            exact Or.inl (hvv ▸ hv')
          · exact Or.inr ⟨fun v' hv' => hmem ⟨v', hv'⟩, (congrArg Prod.snd h).symm⟩
        · exact Or.inl h
        · exact absurd List.mem_cons_self (h x.2)
    · have hne (v' : α) : (k, v') ≠ x := by
        rintro rfl
        exact hx rfl
      rw [if_neg hx]
      simp only [List.mem_cons, hne, false_or]

/-- What a list of insertions under different names leaves under one of them. -/
theorem get?_foldl_insert_of_mem {xs : List (String × α)} (hd : (xs.map Prod.fst).Nodup) (m : Keyed α)
    {k : String} {v : α} (h : (k, v) ∈ xs) :
    (xs.foldl (fun m kv => m.insert kv.1 kv.2) m).get? k = some v := by
  induction xs generalizing m with
  | nil => cases h
  | cons x xs ih =>
    rw [List.map_cons, List.nodup_cons] at hd
    rw [List.foldl_cons]
    rcases List.mem_cons.1 h with rfl | h
    · rw [get?_foldl_insert_of_not_mem _ _ _ hd.1, get?_insert, if_pos rfl]
    · exact ih hd.2 _ h

/-- A map from a list in which no name occurs twice. -/
theorem get?_ofList_iff {xs : List (String × α)} (hd : (xs.map Prod.fst).Nodup) {k : String} {v : α} :
    (ofList xs).get? k = some v ↔ (k, v) ∈ xs := by
  have hempty : (empty : Keyed α).get? k ≠ some v := nofun
  rw [ofList, get?_foldl_insert_iff, or_iff_left fun h => hempty h.2]
  exact fun k v v' h h' => (Prod.mk.inj (List.inj_on_of_nodup_map hd h h' rfl)).2

/-! ## Sums -/

variable {M : Type} [AddCommGroup M]

/-- `sumOver f xs`: the sum of `f k v` over the entries. -/
def sumOver (f : String → α → M) (xs : List (String × α)) : M := (xs.map fun kv => f kv.1 kv.2).sum

theorem sumOver_cons (f : String → α → M) (k : String) (v : α) (xs : List (String × α)) :
    sumOver f ((k, v) :: xs) = f k v + sumOver f xs := by
  rw [sumOver, List.map_cons, List.sum_cons]; rfl

theorem sumOver_congr {f g : String → α → M} {xs : List (String × α)}
    (h : ∀ k v, (k, v) ∈ xs → f k v = g k v) : sumOver f xs = sumOver g xs := by
  rw [sumOver, sumOver, List.map_congr_left fun kv hkv => h kv.1 kv.2 hkv]

/-- `at? f k o`: what the entry under `k`, if there is one, adds to a sum. -/
def at? (f : String → α → M) (k : String) : Option α → M
  | some v => f k v
  | none => 0

/-- A sum over the entries is a sum over the names. -/
theorem sumOver_eq_sum_keys (f : String → α → M) (m : Keyed α) :
    sumOver f m.entries = ∑ k ∈ m.keys.toFinset, at? f k (m.get? k) := by
  rw [List.sum_toFinset _ m.nodup_keys, keys, List.map_map, sumOver]
  congr 1
  refine List.map_congr_left fun kv hkv => ?_
  show f kv.1 kv.2 = at? f kv.1 (m.get? kv.1)
  rw [get?_eq_some_iff.2 hkv]
  rfl

/-- A sum in which one name counts. -/
theorem sumOver_ite (m : Keyed α) (k : String) (f : α → M) :
    sumOver (fun k' v => if k' = k then f v else 0) m.entries = (m.get? k).elim 0 f := by
  rw [sumOver_eq_sum_keys]
  cases hm : m.get? k with
  | none =>
    refine Finset.sum_eq_zero fun k' hk' => ?_
    obtain ⟨v, hv⟩ := mem_keys_iff.1 (List.mem_toFinset.1 hk')
    have hne : ¬ k' = k := by rintro rfl; exact nomatch hm.symm.trans hv
    rw [hv]
    exact if_neg hne
  | some v =>
    rw [Finset.sum_eq_single k, hm]
    · exact if_pos rfl
    · intro k' _ hne
      cases m.get? k' with
      | none => rfl
      | some u => exact if_neg hne
    · intro hk
      exact absurd (List.mem_toFinset.2 (mem_keys_iff.2 ⟨v, hm⟩)) hk

/-- The sum of the values, from a list of the entries in any order. -/
theorem sum_eq_of_get?_iff {m : Keyed Nat} {xs : List (String × Nat)} (hd : xs.Nodup)
    (h : ∀ k n, m.get? k = some n ↔ (k, n) ∈ xs) : m.sum = (xs.map Prod.snd).sum := by
  have hperm : m.entries.Perm xs := by
    refine (List.perm_ext_iff_of_nodup (List.Nodup.of_map Prod.fst m.nodup_keys) hd).2 fun kn => ?_
    rw [← h, get?_eq_some_iff]
  exact (hperm.map Prod.snd).sum_eq

end BlockAdmm.Keyed
