import Mathlib.Data.Real.Basic
import Mathlib.LinearAlgebra.Matrix.NonsingularInverse

/-! Elimination downwards. Multiples of rows are subtracted from rows below them until every column has its pivot in a
row of its own and zeros below and above it, apart from the rows of earlier pivots. Every invertible matrix can be
eliminated so, column by column, with the topmost of the rows that are left as the next pivot. -/

namespace RowElimination

open Matrix Finset

variable {n : ℕ} {C X : Matrix (Fin n) (Fin n) ℝ}

/-! ### Ones on the diagonal -/

/-- Ones on the diagonal and nothing above it. -/
structure UnitLower (L : Matrix (Fin n) (Fin n) ℝ) : Prop where
  above : ∀ p q, p < q → L p q = 0
  diagonal : ∀ p, L p p = 1

theorem UnitLower.sum_row {L : Matrix (Fin n) (Fin n) ℝ} (hL : UnitLower L) (p : Fin n) (x : Fin n → ℝ) :
    ∑ q, L p q * x q = ∑ q ∈ Iio p, L p q * x q + x p := by
  rw [← sum_subset (subset_univ (Iic p)), ← Iio_insert, sum_insert notMem_Iio_self, hL.diagonal, one_mul, add_comm]
  intro q _ hq
  rw [hL.above p q (not_le.mp fun hle => hq (mem_Iic.mpr hle)), zero_mul]

theorem UnitLower.sum_col {L : Matrix (Fin n) (Fin n) ℝ} (hL : UnitLower L) (p : Fin n) (x : Fin n → ℝ) :
    ∑ t, x t * L t p = ∑ t ∈ Ioi p, x t * L t p + x p := by
  rw [← sum_subset (subset_univ (Ici p)), ← Ioi_insert, sum_insert notMem_Ioi_self, hL.diagonal, mul_one, add_comm]
  intro t _ ht
  rw [hL.above t p (not_le.mp fun hle => ht (mem_Ici.mpr hle)), mul_zero]

theorem UnitLower.one : UnitLower (1 : Matrix (Fin n) (Fin n) ℝ) :=
  ⟨fun _ _ hpq => one_apply_ne hpq.ne, one_apply_eq⟩

theorem UnitLower.mul {L M : Matrix (Fin n) (Fin n) ℝ} (hL : UnitLower L) (hM : UnitLower M) : UnitLower (L * M) := by
  refine ⟨fun p q hpq => ?_, fun p => ?_⟩
  · rw [mul_apply]
    apply sum_eq_zero
    intro r _
    rcases lt_or_ge p r with hpr | hrp
    · rw [hL.above p r hpr, zero_mul]
    · rw [hM.above r q (hrp.trans_lt hpq), mul_zero]
  · rw [mul_apply, hL.sum_row p fun r => M r p, hM.diagonal, sum_eq_zero, zero_add]
    intro r hr
    rw [hM.above r p (mem_Iio.mp hr), mul_zero]

/-! ### One pivot -/

/-- Subtracts `f i` times row `p` from each row `i`. -/
def clearing (p : Fin n) (f : Fin n → ℝ) : Matrix (Fin n) (Fin n) ℝ := 1 - vecMulVec f (Pi.single p 1)

theorem clearing_mul (p : Fin n) (f : Fin n → ℝ) (X : Matrix (Fin n) (Fin n) ℝ) (i c : Fin n) :
    (clearing p f * X) i c = X i c - f i * X p c := by
  rw [clearing, Matrix.sub_mul, Matrix.one_mul, Matrix.sub_apply, vecMulVec_mul, single_one_vecMul, vecMulVec_apply, row_apply]

theorem unitLower_clearing {p : Fin n} {f : Fin n → ℝ} (hf : ∀ i, i ≤ p → f i = 0) : UnitLower (clearing p f) := by
  refine ⟨fun i j hij => ?_, fun i => ?_⟩
  · rw [clearing, Matrix.sub_apply, one_apply_ne hij.ne, vecMulVec_apply, zero_sub, neg_eq_zero]
    by_cases hj : j = p
    · rw [hf i (hj ▸ hij.le), zero_mul]
    · rw [Pi.single_eq_of_ne hj, mul_zero]
  · rw [clearing, Matrix.sub_apply, one_apply_eq, vecMulVec_apply]
    by_cases hi : i = p
    · rw [hf i hi.le, zero_mul, sub_zero]
    · rw [Pi.single_eq_of_ne hi, mul_zero, sub_zero]

/-- Adding the multiples back. -/
theorem clearing_mul_clearing {p : Fin n} {f : Fin n → ℝ} (hf : f p = 0) : clearing p f * clearing p (-f) = 1 := by
  ext i c
  rw [clearing_mul]
  have hrow : clearing p (-f) p c = (1 : Matrix (Fin n) (Fin n) ℝ) p c := by
    rw [clearing, Matrix.sub_apply, vecMulVec_apply, Pi.neg_apply, hf, neg_zero, zero_mul, sub_zero]
  have hentry : clearing p (-f) i c = (1 : Matrix (Fin n) (Fin n) ℝ) i c + f i * (1 : Matrix (Fin n) (Fin n) ℝ) p c := by
    rw [clearing, Matrix.sub_apply, vecMulVec_apply, Pi.neg_apply, neg_mul, sub_neg_eq_add, one_apply (i := p), Pi.single_apply]
    simp only [eq_comm]
  rw [hrow, hentry, add_sub_cancel_right]

/-! ### Column by column -/

/-- The columns before `k` have their pivots in the rows `order`, and zeros in the rows that are left. -/
structure Staircase (X : Matrix (Fin n) (Fin n) ℝ) (k : ℕ) (order : Fin n → Fin n) : Prop where
  injective : ∀ a b, a.val < k → b.val < k → order a = order b → a = b
  zero : ∀ p c, c.val < k → (∀ a ≤ c, order a ≠ p) → X p c = 0

/-- Columns with entries in fewer rows only make the determinant zero. -/
theorem det_eq_zero_of_zeros (order : Fin n → Fin n) (k : Fin n)
    (hzero : ∀ p, (∀ a < k, order a ≠ p) → ∀ c ≤ k, X p c = 0) : X.det = 0 := by
  rw [det_apply]
  apply sum_eq_zero
  intro σ _
  have hcard : ((Iio k).image order).card < ((Iic k).image σ).card :=
    calc ((Iio k).image order).card ≤ (Iio k).card := card_image_le
      _ < (Iic k).card := by rw [Fin.card_Iio, Fin.card_Iic]; exact Nat.lt_succ_self _
      _ = ((Iic k).image σ).card := (card_image_of_injective _ σ.injective).symm
  obtain ⟨p, hp, hnew⟩ := exists_mem_notMem_of_card_lt_card hcard
  obtain ⟨c, hc, rfl⟩ := mem_image.mp hp
  have hentry : X (σ c) c = 0 :=
    hzero (σ c) (fun a ha heq => hnew (mem_image.mpr ⟨a, mem_Iio.mpr ha, heq⟩)) c (mem_Iic.mp hc)
  have hproduct : ∏ i, X (σ i) i = 0 := prod_eq_zero (mem_univ c) hentry
  rw [hproduct, smul_zero]

/-- The topmost entry of column `k` that is not zero, in the rows that are left. -/
theorem Staircase.exists_pivot {order : Fin n → Fin n} {k : Fin n} (h : Staircase X k order) (hX : X.det ≠ 0) :
    ∃ p, (∀ a < k, order a ≠ p) ∧ X p k ≠ 0 ∧ ∀ q < p, (∀ a < k, order a ≠ q) → X q k = 0 := by
  classical
  have hsome : ∃ p, (∀ a < k, order a ≠ p) ∧ X p k ≠ 0 := by
    by_contra hnone
    push Not at hnone
    apply hX
    refine det_eq_zero_of_zeros order k fun p hp c hc => ?_
    rcases hc.lt_or_eq with hlt | rfl
    · exact h.zero p c hlt fun a ha => hp a (ha.trans_lt hlt)
    · exact hnone p hp
  let left := univ.filter fun p => (∀ a < k, order a ≠ p) ∧ X p k ≠ 0
  have hleft : left.Nonempty := by
    obtain ⟨p, hp⟩ := hsome
    exact ⟨p, mem_filter.mpr ⟨mem_univ p, hp⟩⟩
  obtain ⟨hrow, hentry⟩ := (mem_filter.mp (left.min'_mem hleft)).2
  refine ⟨left.min' hleft, hrow, hentry, fun q hq hq' => ?_⟩
  by_contra hne
  exact absurd (left.min'_le q (mem_filter.mpr ⟨mem_univ q, hq', hne⟩)) (not_le.mpr hq)

/-- Clearing the rows below the pivot. -/
theorem Staircase.step {order : Fin n → Fin n} {k : Fin n} (h : Staircase X k order) (hX : X.det ≠ 0) :
    ∃ p f, (∀ i, i ≤ p → f i = 0) ∧ Staircase (clearing p f * X) (k + 1) (Function.update order k p) := by
  obtain ⟨p, hp, hentry, habove⟩ := h.exists_pivot hX
  refine ⟨p, fun i => if p < i then X i k / X p k else 0, fun i hi => if_neg (not_lt.mpr hi), ?_, ?_⟩
  · intro a b ha hb heq
    rcases (Nat.lt_succ_iff_lt_or_eq.mp ha), (Nat.lt_succ_iff_lt_or_eq.mp hb) with ⟨ha | ha, hb | hb⟩
    · rw [Function.update_of_ne (Fin.ne_of_lt ha), Function.update_of_ne (Fin.ne_of_lt hb)] at heq
      exact h.injective a b ha hb heq
    · obtain rfl := Fin.ext hb
      rw [Function.update_of_ne (Fin.ne_of_lt ha), Function.update_self] at heq
      exact absurd heq (hp a ha)
    · obtain rfl := Fin.ext ha
      rw [Function.update_self, Function.update_of_ne (Fin.ne_of_lt hb)] at heq
      exact absurd heq.symm (hp b hb)
    · exact Fin.ext (ha.trans hb.symm)
  · intro q c hc hq
    rw [clearing_mul]
    rcases Nat.lt_succ_iff_lt_or_eq.mp hc with hlt | heq
    · have hleft : ∀ a ≤ c, order a ≠ q := fun a ha => by
        have := hq a ha
        rwa [Function.update_of_ne (ha.trans_lt hlt).ne] at this
      rw [h.zero q c hlt hleft, h.zero p c hlt fun a ha => hp a (ha.trans_lt hlt), mul_zero, sub_zero]
    · obtain rfl := Fin.ext heq
      have hne : p ≠ q := by
        have := hq c le_rfl
        rwa [Function.update_self] at this
      rcases lt_or_gt_of_ne hne with hpq | hqp
      · rw [if_pos hpq]
        rw [div_mul_cancel₀ _ hentry, sub_self]
      · have hleft : ∀ a < c, order a ≠ q := fun a ha => by
          have := hq a ha.le
          rwa [Function.update_of_ne ha.ne] at this
        rw [if_neg hqp.not_gt, zero_mul, sub_zero, habove q hqp hleft]

/-- An elimination of the first `k` columns, and the way back. -/
theorem exists_staircase (hC : C.det ≠ 0) {k : ℕ} (hk : k ≤ n) : ∃ L M : Matrix (Fin n) (Fin n) ℝ,
    UnitLower L ∧ UnitLower M ∧ L * M = 1 ∧ ∃ order, Staircase (L * C) k order := by
  induction k with
  | zero => exact ⟨1, 1, .one, .one, Matrix.one_mul 1, id, fun a _ ha => absurd ha (Nat.not_lt_zero a),
      fun _ c hc => absurd hc (Nat.not_lt_zero c)⟩
  | succ k ih =>
      obtain ⟨L, M, hL, hM, hLM, order, hstairs⟩ := ih (by omega)
      have hdet : (L * C).det ≠ 0 := by
        have hone := congrArg det hLM
        rw [det_mul, det_one] at hone
        rw [det_mul]
        exact mul_ne_zero (left_ne_zero_of_mul_eq_one hone) hC
      obtain ⟨p, f, hf, hnext⟩ := Staircase.step (k := ⟨k, hk⟩) hstairs hdet
      refine ⟨clearing p f * L, M * clearing p (-f), (unitLower_clearing hf).mul hL,
        hM.mul (unitLower_clearing fun i hi => by rw [Pi.neg_apply, hf i hi, neg_zero]), ?_, _,
        Matrix.mul_assoc _ L C ▸ hnext⟩
      calc clearing p f * L * (M * clearing p (-f)) = clearing p f * (L * M) * clearing p (-f) := by
            simp only [Matrix.mul_assoc]
        _ = clearing p f * clearing p (-f) := by rw [hLM, Matrix.mul_one]
        _ = 1 := clearing_mul_clearing (hf p le_rfl)

/-- Every invertible matrix becomes upper triangular, up to the order of its rows. -/
theorem exists_elimination (hC : C.det ≠ 0) : ∃ L M : Matrix (Fin n) (Fin n) ℝ, UnitLower L ∧ UnitLower M ∧ L * M = 1 ∧
    ∃ order : Equiv.Perm (Fin n), ∀ j c, c < j → (L * C) (order j) c = 0 := by
  obtain ⟨L, M, hL, hM, hLM, order, hstairs⟩ := exists_staircase hC le_rfl
  have hinjective : Function.Injective order := fun a b => hstairs.injective a b a.isLt b.isLt
  refine ⟨L, M, hL, hM, hLM, Equiv.ofBijective order (Finite.injective_iff_bijective.mp hinjective), fun j c hcj => ?_⟩
  exact hstairs.zero _ c c.isLt fun a hac heq => (hac.trans_lt hcj).ne (hinjective heq)

end RowElimination
