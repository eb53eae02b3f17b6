/-
  How far parameter ids tell variables apart.

  UTF-8 never uses the byte between the two names of a pair, so the hashed bytes determine the pair
  (`ParameterId.bytes_inj`).  The hash itself cannot, but each of its steps can be undone: a step takes different
  hashes to different hashes, since the factor is odd and so has an inverse (`absorb_hash_inj`), and it takes
  different bytes to different hashes (`absorb_byte_inj`).  So bytes that two names end in neither make nor
  hide a collision, and bytes that differ in one place only have different hashes (`foldl_absorb_ne`).
-/
import BlockAdmm.Parameter.Id

namespace BlockAdmm.ParameterId

/-! ## The bytes of a pair -/

theorem toByteArray_utf8 (s : String) : (utf8 s).toByteArray = s.toByteArray := String.utf8Encode_toList

theorem utf8_append (s t : String) : utf8 (s ++ t) = utf8 s ++ utf8 t := by
  rw [utf8, String.toList_append, List.flatMap_append]
  rfl

theorem utf8_inj {s t : String} : utf8 s = utf8 t ↔ s = t := by
  rw [← List.toByteArray_inj, toByteArray_utf8, toByteArray_utf8, String.toByteArray_inj]

/-- The first byte of a character is at most `0xf7`, and the bytes behind it are at most `0xbf`. -/
theorem toNat_lt_of_mem_utf8EncodeChar {c : Char} {b : UInt8} (h : b ∈ String.utf8EncodeChar c) :
    b.toNat < 0xff := by
  have hle (n : Nat) : (UInt8.ofNat n).toNat ≤ n := by
    rw [UInt8.toNat_ofNat']
    exact Nat.mod_le n _
  rw [String.utf8EncodeChar] at h
  split at h
  · obtain rfl := List.mem_singleton.1 h
    exact Nat.lt_of_le_of_lt (hle _) (by omega)
  · split at h
    · simp only [List.mem_cons, List.not_mem_nil, or_false] at h
      rcases h with rfl | rfl <;> exact Nat.lt_of_le_of_lt (hle _) (by omega)
    · split at h
      · simp only [List.mem_cons, List.not_mem_nil, or_false] at h
        rcases h with rfl | rfl | rfl <;> exact Nat.lt_of_le_of_lt (hle _) (by omega)
      · simp only [List.mem_cons, List.not_mem_nil, or_false] at h
        rcases h with rfl | rfl | rfl | rfl <;> exact Nat.lt_of_le_of_lt (hle _) (by omega)

theorem separator_not_mem_utf8 (s : String) : separator ∉ utf8 s := by
  rw [utf8, List.mem_flatMap]
  rintro ⟨c, -, hc⟩
  exact Nat.lt_irrefl _ (toNat_lt_of_mem_utf8EncodeChar hc)

/-- What stands before the first separator, and what stands behind it. -/
theorem append_separator_inj {xs xs' ys ys' : List UInt8} (hxs : separator ∉ xs) (hxs' : separator ∉ xs')
    (h : xs ++ separator :: ys = xs' ++ separator :: ys') : xs = xs' ∧ ys = ys' := by
  induction xs generalizing xs' with
  | nil =>
    cases xs' with
    | nil => exact ⟨rfl, (List.cons.inj h).2⟩
    | cons x' xs' => exact absurd ((List.cons.inj h).1 ▸ List.mem_cons_self) hxs'
  | cons x xs ih =>
    cases xs' with
    | nil => exact absurd ((List.cons.inj h).1 ▸ List.mem_cons_self) hxs
    | cons x' xs' =>
      obtain ⟨rfl, htail⟩ := List.cons.inj h
      obtain ⟨rfl, hys⟩ := ih (fun hmem => hxs (List.mem_cons_of_mem _ hmem))
        (fun hmem => hxs' (List.mem_cons_of_mem _ hmem)) htail
      exact ⟨rfl, hys⟩

variable {p p' x x' t : String}

/-- The bytes determine the pair. -/
theorem bytes_inj : bytes p x = bytes p' x' ↔ p = p' ∧ x = x' := by
  constructor
  · intro h
    obtain ⟨hp, hx⟩ := append_separator_inj (separator_not_mem_utf8 p) (separator_not_mem_utf8 p') h
    exact ⟨utf8_inj.1 hp, utf8_inj.1 hx⟩
  · rintro ⟨rfl, rfl⟩
    rfl

theorem bytes_append (p x t : String) : bytes p (x ++ t) = bytes p x ++ utf8 t := by
  rw [bytes, bytes, utf8_append, List.append_assoc, List.cons_append]

/-! ## The steps of the hash -/

/-- `inverse`: what undoes a multiplication by the factor of the hash. -/
def inverse : UInt64 := 0xce965057aff6957b

theorem prime_mul_inverse : prime * inverse = 1 := by decide

theorem mul_prime_inj {g h : UInt64} : g * prime = h * prime ↔ g = h := by
  refine ⟨fun hgh => ?_, fun hgh => hgh ▸ rfl⟩
  have hundo (k : UInt64) : k * prime * inverse = k := by
    rw [UInt64.mul_assoc, prime_mul_inverse, UInt64.mul_one]
  rw [← hundo g, hgh, hundo]

theorem absorb_hash_inj {g h : UInt64} {b : UInt8} : absorb g b = absorb h b ↔ g = h := by
  rw [absorb, absorb, mul_prime_inj, UInt64.xor_left_inj]

theorem absorb_byte_inj {h : UInt64} {b c : UInt8} : absorb h b = absorb h c ↔ b = c := by
  rw [absorb, absorb, mul_prime_inj, UInt64.xor_right_inj, UInt8.toUInt64_inj]

/-- The same bytes behind two hashes. -/
theorem foldl_absorb_inj {g h : UInt64} (bs : List UInt8) :
    bs.foldl absorb g = bs.foldl absorb h ↔ g = h := by
  induction bs generalizing g h with
  | nil => rfl
  | cons b bs ih => rw [List.foldl_cons, List.foldl_cons, ih, absorb_hash_inj]

theorem of_append (p x t : String) : of p (x ++ t) = (utf8 t).foldl absorb (of p x) := by
  rw [of, bytes_append, hash_append]
  rfl

/-! ## Bytes that differ in one place -/

/-- `differences xs ys`: at how many places two lists of bytes differ, as far as both reach. -/
def differences (xs ys : List UInt8) : Nat := (xs.zip ys).countP fun p => p.1 != p.2

theorem differences_cons (x y : UInt8) (xs ys : List UInt8) :
    differences (x :: xs) (y :: ys) = differences xs ys + if x = y then 0 else 1 := by
  rw [differences, List.zip_cons_cons, List.countP_cons]
  by_cases h : x = y <;> simp [differences, h]

theorem eq_of_differences_eq_zero {xs ys : List UInt8} (hlength : xs.length = ys.length)
    (h : differences xs ys = 0) : xs = ys := by
  induction xs generalizing ys with
  | nil => exact (List.length_eq_zero_iff.1 hlength.symm).symm
  | cons x xs ih =>
    cases ys with
    | nil => cases hlength
    | cons y ys =>
      rw [differences_cons, Nat.add_eq_zero_iff] at h
      have hxy : x = y := Decidable.byContradiction fun hne => by
        rw [if_neg hne] at h
        exact Nat.one_ne_zero h.2
      rw [hxy, ih (Nat.succ.inj hlength) h.1]

/-- From the place where they differ on, the hashes differ. -/
theorem foldl_absorb_ne {xs ys : List UInt8} (hlength : xs.length = ys.length) (h : differences xs ys = 1)
    (g : UInt64) : xs.foldl absorb g ≠ ys.foldl absorb g := by
  induction xs generalizing ys g with
  | nil => exact absurd h (by simp [differences])
  | cons x xs ih =>
    cases ys with
    | nil => cases hlength
    | cons y ys =>
      have hlength : xs.length = ys.length := Nat.succ.inj hlength
      rw [differences_cons] at h
      rw [List.foldl_cons, List.foldl_cons]
      by_cases hxy : x = y
      · rw [if_pos hxy] at h
        rw [hxy]
        exact ih hlength h _
      · -- the place is here, so what follows is the same
        rw [if_neg hxy] at h
        rw [eq_of_differences_eq_zero hlength (Nat.succ.inj h), Ne, foldl_absorb_inj, absorb_byte_inj]
        exact hxy

/-- An id is the hash of the names in UTF-8 with a separator between them.  These bytes determine the pair of
    names; a common end of two variable names has no part in whether the ids are the same; and where the bytes
    are equally many and differ in one place only, the ids differ. -/
theorem of_separates :
    (∀ p x, of p x = hash (bytes p x) ∧
      (bytes p x).toByteArray = p.toByteArray ++ [0xff].toByteArray ++ x.toByteArray) ∧
    (∀ p x p' x', bytes p x = bytes p' x' ↔ p = p' ∧ x = x') ∧
    (∀ p x p' x' t, of p (x ++ t) = of p' (x' ++ t) ↔ of p x = of p' x') ∧
    ∀ p x p' x', (bytes p x).length = (bytes p' x').length → differences (bytes p x) (bytes p' x') = 1 →
      of p x ≠ of p' x' := by
  refine ⟨fun p x => ⟨rfl, ?_⟩, fun _ _ _ _ => bytes_inj, fun p x p' x' t => ?_,
    fun p x p' x' hlength h => foldl_absorb_ne hlength h basis⟩
  · rw [bytes, List.append_cons, List.toByteArray_append, List.toByteArray_append, toByteArray_utf8,
      toByteArray_utf8]
    rfl
  · rw [of_append, of_append, foldl_absorb_inj]

/-- Two letters of two bytes each, of which the first is the same. -/
theorem of_separates_accents :
    (bytes "p" "é").length = (bytes "p" "è").length ∧ differences (bytes "p" "é") (bytes "p" "è") = 1 ∧
      of "p" "é" ≠ of "p" "è" := by
  have hlength : (bytes "p" "é").length = (bytes "p" "è").length := by decide
  have hone : differences (bytes "p" "é") (bytes "p" "è") = 1 := by decide
  exact ⟨hlength, hone, of_separates.2.2.2 "p" "é" "p" "è" hlength hone⟩

end BlockAdmm.ParameterId
