/-
  When operations on block vectors have a value.

  Block vectors can be added if the blocks that both have are of one length (`BlockVector.exists_addScaled`).
  A plain matrix can be applied to a block vector whose blocks have the sizes of its columns just if there
  is room for what is stored on the way (`BlockMatrix.Represents.okIff_apply`).
-/
import BlockAdmm.Proofs.Block.Algebra
import BlockAdmm.Proofs.LinearMap.Plain

namespace BlockAdmm

open Scalar ExactScalar

variable {R : Type} [ExactScalar R]

theorem BlockVector.exists_addScaled {x y : BlockVector R} (a : R)
    (h : ∀ k m n, x.sizeAt? k = some m → y.sizeAt? k = some n → m = n) : ∃ z, x.addScaled a y = .ok z := by
  have hwalk (es : List (String × Array R)) (x : BlockVector R) (hnd : (es.map Prod.fst).Nodup)
      (h : ∀ kv ∈ es, ∀ m, x.sizeAt? kv.1 = some m → m = kv.2.size) :
      ∃ z, es.foldlM (increaseEach a) x = .ok z := by
    induction es generalizing x with
    | nil => exact ⟨x, rfl⟩
    | cons kv es ih =>
      rw [List.map_cons, List.nodup_cons] at hnd
      have hstep : x.increase kv.1 a kv.2 = .ok _ :=
        BlockVector.increase_eq_ok.2 ⟨h kv List.mem_cons_self, rfl⟩
      obtain ⟨z, hz⟩ := ih _ hnd.2 fun kv' hkv' m hm => by
        have hne : kv.1 ≠ kv'.1 := fun heq => hnd.1 (heq ▸ List.mem_map.2 ⟨kv', hkv', rfl⟩)
        rw [BlockVector.sizeAt?_increase hstep, if_neg hne] at hm
        exact h kv' (List.mem_cons_of_mem _ hkv') m hm
      exact ⟨z, foldlM_cons_eq_ok.2 ⟨_, hstep, hz⟩⟩
  refine hwalk _ x y.blocks.nodup_keys fun kv hkv m hm => h kv.1 m kv.2.size hm ?_
  exact BlockVector.sizeAt?_eq_some_iff.2 ⟨kv.2, Keyed.get?_eq_some_iff.2 hkv, rfl⟩

namespace BlockMatrix

variable {w : Marks R} {a : BlockMatrix R} {K : Coefs R} {x : BlockVector R}

/-- A plain matrix can be applied to a block vector of the right sizes just if there is room for every
    block that meets one of the vector. -/
theorem Represents.okIff_apply (h : a.Represents w K) (hplain : ∀ b ∈ a.toList, b.map.Plain)
    (hx : ∀ b ∈ a.toList, ∀ m, x.sizeAt? b.col = some m → m = b.map.n) :
    OkIff (a.apply x) (∀ b ∈ a.toList, x.get? b.col = none ∨ b.map.Fits) := by
  refine okIff_foldlM (fun y => ∀ r n, y.sizeAt? r = some n → a.rowDims.get? r = some n)
    (fun r n hn => nomatch hn) (fun y b hb hy => ?_) fun y b y' hb hy hy' r n hn => ?_
  · have hget := mem_toList.1 hb
    rw [applyBlock]
    cases hxb : x.get? b.col with
    | none => exact (okIff_ok y).congr (iff_true_intro (Or.inl rfl))
    | some u =>
      have hsize : u.size = b.map.n := hx b hb _ (BlockVector.sizeAt?_eq_some_iff.2 ⟨u, hxb, rfl⟩)
      dsimp only
      rw [if_neg (by rw [hsize, bne_self_eq_false]; exact Bool.false_ne_true)]
      have hincrease (z : Array R) (hz : z.size = b.map.m) : OkIff (y.insertOrAdd b.row z) True := by
        have hall (n : Nat) (hn : y.sizeAt? b.row = some n) : n = z.size :=
          (Option.some.inj ((hy _ n hn).symm.trans (h.rows hget))).trans hz.symm
        exact ⟨fun _ => ⟨_, BlockVector.increase_eq_ok.2 ⟨hall, rfl⟩⟩, fun h => absurd trivial h⟩
      refine (((hplain b hb).apply hsize).bind fun z hz => hincrease z ?_).congr ?_
      · exact ((h.denotes hget).apply u z hsize hz).1
      · exact (or_iff_right (Option.some_ne_none u)).trans (and_iff_left trivial).symm
  · rcases sizeAt?_applyBlock (h.denotes_of_mem hb).apply hy' hn with hn | ⟨rfl, rfl⟩
    · exact hy r n hn
    · exact h.rows (mem_toList.1 hb)

end BlockMatrix

end BlockAdmm
