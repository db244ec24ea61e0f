import CalSci.RowElimination
import Mathlib.Algebra.Order.BigOperators.Ring.Finset
import Mathlib.Data.Real.Basic
import Mathlib.LinearAlgebra.Eigenspace.Basic
import Mathlib.LinearAlgebra.Matrix.Block
import Mathlib.LinearAlgebra.Matrix.DotProduct
import Mathlib.LinearAlgebra.Matrix.NonsingularInverse

/-! The unshifted QR iteration. A turn factors a real matrix as `B = Q * R`, the columns of `Q` orthogonal and of
length one or zero, and goes on with `R * Q`. The product of the factors `Q` so far orthogonalises the columns of the
powers of the matrix from the left, so that for eigenvalues of different absolute values the diagonal comes close to
them, as fast as the powers of their quotients become small. -/

namespace OrthogonalIteration

open Matrix Finset RowElimination

variable {n k : ℕ} {A B P Q R U V : Matrix (Fin n) (Fin n) ℝ}

/-- Nothing below the diagonal. -/
def Upper (U : Matrix (Fin n) (Fin n) ℝ) : Prop := ∀ i j, j < i → U i j = 0

theorem upper_one : Upper (1 : Matrix (Fin n) (Fin n) ℝ) := fun _ _ hij => one_apply_ne hij.ne'

theorem Upper.mul (hU : Upper U) (hV : Upper V) : Upper (U * V) := by
  intro i j hij
  rw [mul_apply]
  apply sum_eq_zero
  intro t _
  rcases lt_or_ge t i with ht | ht
  · rw [hU i t ht, zero_mul]
  · rw [hV t j (hij.trans_le ht), mul_zero]

/-- What is multiplied to the identity by an upper triangular matrix is upper triangular. -/
theorem Upper.inverse (hU : Upper U) (hUV : U * V = 1) : Upper V := by
  have hV : V = U⁻¹ := (inv_eq_right_inv hUV).symm
  let hinv : Invertible U := invertibleOfRightInverse U V hUV
  have htriangular : U.BlockTriangular id := fun i j hij => hU i j hij
  intro i j hij
  rw [hV]
  exact blockTriangular_inv_of_blockTriangular htriangular hij

/-- The columns are orthogonal, each zero or of length one. -/
structure Orthogonal (Q : Matrix (Fin n) (Fin n) ℝ) : Prop where
  orthogonal : ∀ i j, i ≠ j → (Qᵀ * Q) i j = 0
  unit : ∀ i, (Qᵀ * Q) i i = 0 ∨ (Qᵀ * Q) i i = 1

/-- The factors of a turn: the columns of `Q` are combinations of those of the matrix from the left, and the rows of
`R` at the zero columns of `Q` are zero. -/
structure Factors (B Q R : Matrix (Fin n) (Fin n) ℝ) : Prop where
  product : Q * R = B
  upper : Upper R
  combines : ∃ U, Upper U ∧ B * U = Q
  orthogonal : Orthogonal Q
  kept : Qᵀ * Q * R = R

/-! ### Columns from the left -/

/-- Columns that are taken apart from the left: each part is a combination of the columns up to its own. -/
theorem exists_combination {q r : Fin n → Fin n → ℝ} {j : ℕ}
    (hcol : ∀ c : Fin n, c < j → A.col c = ∑ t, r t c • q t) (hupper : ∀ t c, c < t → r t c = 0)
    (hpaired : ∀ t : Fin n, t < j → q t = 0 ∨ r t t ≠ 0) (c : Fin n) (hc : c < j) :
    ∃ u : Fin n → ℝ, (∀ i, c < i → u i = 0) ∧ A *ᵥ u = q c := by
  induction c using WellFoundedLT.induction with
  | ind c ih =>
      rcases hpaired c hc with hzero | hne
      · exact ⟨0, fun _ _ => rfl, by rw [mulVec_zero, hzero]⟩
      · -- what is left of column `c` once the parts before it are taken out
        choose! u hu hAu using fun t ht => ih t ht (lt_trans ht hc)
        have hsum : A.col c = ∑ t ∈ Iio c, r t c • q t + r c c • q c := by
          rw [hcol c hc, ← sum_subset (subset_univ (Iic c)), ← Iio_insert, sum_insert notMem_Iio_self, add_comm]
          intro t _ ht
          rw [hupper t c (not_le.mp fun hle => ht (mem_Iic.mpr hle)), zero_smul]
        refine ⟨(r c c)⁻¹ • (Pi.single c 1 - ∑ t ∈ Iio c, r t c • u t), fun i hi => ?_, ?_⟩
        · have hbefore : ∀ t ∈ Iio c, (r t c • u t) i = 0 := by
            intro t ht
            have htc := mem_Iio.mp ht
            rw [Pi.smul_apply, hu t htc i (htc.trans hi), smul_zero]
          rw [Pi.smul_apply, Pi.sub_apply, Finset.sum_apply, sum_eq_zero hbefore, Pi.single_eq_of_ne hi.ne', sub_zero,
            smul_zero]
        · have hparts : ∑ t ∈ Iio c, A *ᵥ (r t c • u t) = ∑ t ∈ Iio c, r t c • q t :=
            sum_congr rfl fun t ht => by rw [mulVec_smul, hAu t (mem_Iio.mp ht)]
          rw [mulVec_smul, mulVec_sub, mulVec_single_one, mulVec_sum, hparts, hsum, add_sub_cancel_left, smul_smul,
            inv_mul_cancel₀ hne, one_smul]

/-- A product of orthogonal columns and an upper triangular matrix is a factorisation, when each zero column has a zero
row and each other column something on the diagonal. -/
theorem Factors.of_paired (hproduct : Q * R = B) (hupper : Upper R) (horthogonal : Orthogonal Q)
    (hpaired : ∀ t, (Q.col t = 0 ∧ ∀ c, R t c = 0) ∨ (R t t ≠ 0 ∧ (Qᵀ * Q) t t = 1)) : Factors B Q R := by
  have hcol : ∀ c, B.col c = ∑ t, R t c • Q.col t := by
    intro c
    funext i
    rw [← hproduct, Finset.sum_apply, col_apply, mul_apply]
    exact sum_congr rfl fun t _ => mul_comm (Q i t) (R t c)
  choose u hu hBu using fun c => exists_combination (fun c _ => hcol c) hupper
    (fun t _ => (hpaired t).imp And.left And.left) c c.isLt
  refine ⟨hproduct, hupper, ⟨of fun i c => u c i, fun i c hci => hu c i hci, ?_⟩, horthogonal, ?_⟩
  · ext i c
    exact congrFun (hBu c) i
  · ext t c
    rw [mul_apply, sum_eq_single t (fun s _ hst => by rw [horthogonal.orthogonal t s hst.symm, zero_mul])
      fun ht => absurd (mem_univ t) ht]
    rcases hpaired t with ⟨-, hrow⟩ | ⟨-, hone⟩
    · rw [hrow, mul_zero]
    · rw [hone, one_mul]

/-! ### The turns -/

/-- `B` is reached from `A` in `k` turns; `P` is the product of the factors `Q`. -/
structure Reached (A : Matrix (Fin n) (Fin n) ℝ) (k : ℕ) (P B : Matrix (Fin n) (Fin n) ℝ) : Prop where
  power : ∃ R, Upper R ∧ A ^ k = P * R
  span : ∃ U, Upper U ∧ P = A ^ k * U
  carries : P * B = A * P
  orthogonal : Orthogonal P
  kept : Pᵀ * P * B = B

theorem reached_start (A : Matrix (Fin n) (Fin n) ℝ) : Reached A 0 1 A where
  power := ⟨1, upper_one, by rw [pow_zero, Matrix.one_mul]⟩
  span := ⟨1, upper_one, by rw [pow_zero, Matrix.one_mul]⟩
  carries := by rw [Matrix.one_mul, Matrix.mul_one]
  orthogonal := ⟨fun i j hij => by rw [transpose_one, Matrix.one_mul, one_apply_ne hij],
    fun i => .inr (by rw [transpose_one, Matrix.one_mul, one_apply_eq])⟩
  kept := by rw [transpose_one, Matrix.one_mul, Matrix.one_mul]

theorem Reached.step (h : Reached A k P B) (hf : Factors B Q R) : Reached A (k + 1) (P * Q) (R * Q) := by
  obtain ⟨R₀, hR₀, hpower⟩ := h.power
  obtain ⟨U₀, hU₀, hspan⟩ := h.span
  obtain ⟨U, hU, hcombines⟩ := hf.combines
  -- on the columns of `Q` the product so far keeps lengths and angles
  have hgram : (P * Q)ᵀ * (P * Q) = Qᵀ * Q := by
    rw [transpose_mul, Matrix.mul_assoc, ← Matrix.mul_assoc Pᵀ, ← hcombines, ← Matrix.mul_assoc _ B, h.kept]
  refine ⟨⟨R * R₀, hf.upper.mul hR₀, ?_⟩, ⟨U₀ * U, hU₀.mul hU, ?_⟩, ?_, ?_, ?_⟩
  · calc A ^ (k + 1) = A * P * R₀ := by rw [pow_succ', hpower, Matrix.mul_assoc]
      _ = P * (Q * R) * R₀ := by rw [hf.product, h.carries]
      _ = P * Q * (R * R₀) := by simp only [Matrix.mul_assoc]
  · calc P * Q = P * B * U := by rw [← hcombines, Matrix.mul_assoc]
      _ = A * (A ^ k * U₀) * U := by rw [h.carries, ← hspan]
      _ = A ^ (k + 1) * (U₀ * U) := by rw [pow_succ']; simp only [Matrix.mul_assoc]
  · calc P * Q * (R * Q) = P * (Q * R) * Q := by simp only [Matrix.mul_assoc]
      _ = A * (P * Q) := by rw [hf.product, h.carries, Matrix.mul_assoc]
  · exact ⟨fun i j hij => by rw [hgram, hf.orthogonal.orthogonal i j hij],
      fun i => by rw [hgram]; exact hf.orthogonal.unit i⟩
  · rw [hgram, ← Matrix.mul_assoc, hf.kept]

/-- The iterate is the matrix, seen from the columns of `P`. -/
theorem Reached.eq_compressed (h : Reached A k P B) : B = Pᵀ * A * P := by
  rw [Matrix.mul_assoc, ← h.carries, ← Matrix.mul_assoc, h.kept]

/-! ### What a turn cannot shrink -/

theorem gram (P : Matrix (Fin n) (Fin n) ℝ) (w : Fin n → ℝ) : P *ᵥ w ⬝ᵥ P *ᵥ w = w ⬝ᵥ (Pᵀ * P) *ᵥ w := by
  rw [dotProduct_mulVec, vecMul_mulVec, ← dotProduct_mulVec]

theorem Reached.lengths (h : Reached A k P B) (u : Fin n → ℝ) :
    B *ᵥ u ⬝ᵥ B *ᵥ u = A *ᵥ (P *ᵥ u) ⬝ᵥ A *ᵥ (P *ᵥ u) := by
  have hcarried : A *ᵥ (P *ᵥ u) = P *ᵥ (B *ᵥ u) := by rw [mulVec_mulVec, ← h.carries, mulVec_mulVec]
  have hkept : (Pᵀ * P) *ᵥ (B *ᵥ u) = B *ᵥ u := by rw [mulVec_mulVec, h.kept]
  rw [hcarried, gram P, hkept]

theorem Orthogonal.lengths (h : Orthogonal P) (u : Fin n → ℝ) :
    P *ᵥ u ⬝ᵥ P *ᵥ u = ∑ i, (Pᵀ * P) i i * u i ^ 2 := by
  have hdiagonal : Pᵀ * P = diagonal fun i => (Pᵀ * P) i i := by
    ext i j
    by_cases hij : i = j
    · rw [hij, diagonal_apply_eq]
    · rw [diagonal_apply_ne _ hij, h.orthogonal i j hij]
  rw [gram, hdiagonal]
  simp only [dotProduct, mulVec_diagonal, diagonal_apply_eq]
  exact sum_congr rfl fun i _ => by ring

/-- A column of `P` that is zero belongs to a column of zeros. -/
theorem Reached.col_eq_zero (h : Reached A k P B) {l : Fin n} (hl : (Pᵀ * P) l l = 0) : B.col l = 0 := by
  have hcolumn : P.col l = 0 := dotProduct_self_eq_zero.mp hl
  have hzero : P *ᵥ Pi.single l 1 = 0 := by rw [mulVec_single_one, hcolumn]
  rw [← mulVec_single_one, h.eq_compressed, ← mulVec_mulVec, hzero, mulVec_zero]

/-! ### Eigenvectors -/

/-- Eigenvectors of a matrix for eigenvalues of different absolute values, the largest first. The inverse of the matrix
of the eigenvectors becomes upper triangular, up to the order of its rows, when multiples of rows are subtracted from
rows below them; one elimination is part of the structure. -/
structure Eigenbasis (A : Matrix (Fin n) (Fin n) ℝ) where
  values : Fin n → ℝ
  vectors : Matrix (Fin n) (Fin n) ℝ
  covectors : Matrix (Fin n) (Fin n) ℝ
  eliminate : Matrix (Fin n) (Fin n) ℝ
  restore : Matrix (Fin n) (Fin n) ℝ
  order : Equiv.Perm (Fin n)
  eigen : A * vectors = vectors * diagonal values
  inverse : covectors * vectors = 1
  apart : ∀ p q, q < p → |values p| < |values q|
  eliminate_lower : UnitLower eliminate
  restore_lower : UnitLower restore
  restored : eliminate * restore = 1
  staircase : ∀ j c, c < j → (eliminate * covectors) (order j) c = 0

namespace Eigenbasis

variable (E : Eigenbasis A)

theorem value_ne_zero {p q : Fin n} (hqp : q < p) : E.values q ≠ 0 :=
  abs_pos.mp ((abs_nonneg _).trans_lt (E.apart p q hqp))

theorem pow_mul_vectors (k : ℕ) : A ^ k * E.vectors = E.vectors * diagonal fun p => E.values p ^ k := by
  induction k with
  | zero => simp
  | succ k ih =>
      rw [pow_succ', Matrix.mul_assoc, ih, ← Matrix.mul_assoc, E.eigen, Matrix.mul_assoc, diagonal_mul_diagonal]
      simp only [pow_succ']

theorem covectors_mul_pow (k : ℕ) : E.covectors * A ^ k = (diagonal fun p => E.values p ^ k) * E.covectors := by
  have hinverse : E.vectors * E.covectors = 1 := mul_eq_one_comm.mp E.inverse
  calc E.covectors * A ^ k = E.covectors * (A ^ k * E.vectors) * E.covectors := by
        simp only [Matrix.mul_assoc, hinverse, Matrix.mul_one]
    _ = (diagonal fun p => E.values p ^ k) * E.covectors := by
        rw [E.pow_mul_vectors, ← Matrix.mul_assoc, E.inverse, Matrix.one_mul]

/-- The matrix that takes the staircase back has one as well. -/
theorem restored_staircase {i j : Fin n} (hji : j < i) : (E.vectors * E.restore) i (E.order j) = 0 := by
  have hinverse : E.eliminate * E.covectors * (E.vectors * E.restore) = 1 := by
    rw [Matrix.mul_assoc, ← Matrix.mul_assoc E.covectors, E.inverse, Matrix.one_mul, E.restored]
  have hupper : Upper ((E.eliminate * E.covectors).submatrix E.order id) := fun i j hij => E.staircase i j hij
  refine hupper.inverse (V := (E.vectors * E.restore).submatrix id E.order) ?_ i j hji
  rw [← submatrix_mul _ _ E.order id E.order Function.bijective_id, hinverse]
  exact submatrix_one_equiv E.order

variable {E}

/-- The coordinates of the columns of `P` in the eigenvectors. -/
theorem exists_coordinates (h : Reached A k P B) (E : Eigenbasis A) :
    ∃ U : Matrix (Fin n) (Fin n) ℝ, Upper U ∧ ∀ q l, (E.covectors * P) q l = E.values q ^ k * (E.covectors * U) q l := by
  obtain ⟨U, hU, hP⟩ := h.span
  refine ⟨U, hU, fun q l => ?_⟩
  rw [hP, ← Matrix.mul_assoc, E.covectors_mul_pow, Matrix.mul_assoc, diagonal_mul]

/-- Those in the eigenvectors that come late in the order. -/
theorem late_coordinate (h : Reached A k P B) {j l : Fin n} (hlj : l < j) :
    (E.covectors * P) (E.order j) l = -∑ q ∈ Iio (E.order j),
      E.eliminate (E.order j) q * (E.values (E.order j) / E.values q) ^ k * (E.covectors * P) q l := by
  obtain ⟨U, hU, hcoordinate⟩ := exists_coordinates h E
  generalize hp : E.order j = p
  have hzero : ∑ q, E.eliminate p q * (E.covectors * U) q l = 0 := by
    rw [← mul_apply, ← Matrix.mul_assoc, mul_apply]
    apply sum_eq_zero
    intro c _
    rcases lt_or_ge l c with hc | hc
    · rw [hU c l hc, mul_zero]
    · rw [← hp, E.staircase j c (hc.trans_lt hlj), zero_mul]
  rw [E.eliminate_lower.sum_row] at hzero
  rw [hcoordinate p l, eq_neg_of_add_eq_zero_right hzero, mul_neg, mul_sum]
  congr 1
  apply sum_congr rfl
  intro q hq
  have hne := pow_ne_zero k (E.value_ne_zero (mem_Iio.mp hq))
  rw [hcoordinate q l, div_pow]
  field_simp

/-- The parts along the columns of `P` of the eigenvectors that come early in the order. -/
theorem early_coordinate (h : Reached A k P B) {j l : Fin n} (hjl : j < l) (hne : E.values (E.order j) ≠ 0) :
    (Pᵀ * E.vectors) l (E.order j) = -∑ t ∈ Ioi (E.order j),
      (Pᵀ * E.vectors) l t * (E.values t / E.values (E.order j)) ^ k * E.restore t (E.order j) := by
  obtain ⟨R, hR, hpower⟩ := h.power
  generalize hp : E.order j = p
  rw [hp] at hne
  have hzero : ∑ t, (Pᵀ * E.vectors) l t * E.values t ^ k * E.restore t p = 0 := by
    have hproduct : Pᵀ * E.vectors * (diagonal fun t => E.values t ^ k) * E.restore =
        Pᵀ * P * (R * (E.vectors * E.restore)) := by
      rw [Matrix.mul_assoc Pᵀ, ← E.pow_mul_vectors, hpower]
      simp only [Matrix.mul_assoc]
    have hentry := congrFun (congrFun hproduct l) p
    rw [mul_apply] at hentry
    simp only [mul_diagonal] at hentry
    rw [hentry, mul_apply]
    apply sum_eq_zero
    intro m _
    by_cases hm : m = l
    · have hlow : (R * (E.vectors * E.restore)) m p = 0 := by
        rw [mul_apply]
        apply sum_eq_zero
        intro i _
        rcases lt_or_ge i m with hi | hi
        · rw [hR m i hi, zero_mul]
        · rw [← hp, E.restored_staircase (lt_of_lt_of_le (hm ▸ hjl) hi), mul_zero]
      rw [hlow, mul_zero]
    · rw [h.orthogonal.orthogonal l m (Ne.symm hm), zero_mul]
  rw [E.restore_lower.sum_col] at hzero
  have hpow := pow_ne_zero k hne
  rw [← mul_right_inj' hpow, mul_comm (E.values p ^ k), eq_neg_of_add_eq_zero_right hzero, mul_neg, mul_sum]
  congr 1
  apply sum_congr rfl
  intro t _
  rw [div_pow]
  field_simp

/-! ### Sizes -/

/-- Every matrix with as many eigenvalues as columns, of different absolute values, has one. -/
theorem exists_of_eigenvectors {A : Matrix (Fin n) (Fin n) ℝ} {values : Fin n → ℝ}
    (heigen : ∀ p, ∃ v : Fin n → ℝ, v ≠ 0 ∧ A *ᵥ v = values p • v)
    (hapart : ∀ p q, q < p → |values p| < |values q|) : ∃ E : Eigenbasis A, E.values = values := by
  choose v hv hAv using heigen
  have hinjective : Function.Injective values := by
    intro p q heq
    rcases lt_trichotomy p q with hlt | rfl | hgt
    · exact absurd (congrArg abs heq) (hapart q p hlt).ne'
    · rfl
    · exact absurd (congrArg abs heq) (hapart p q hgt).ne
  have hindependent : LinearIndependent ℝ v := by
    apply Module.End.eigenvectors_linearIndependent' (Matrix.mulVecLin A) values hinjective
    intro p
    exact ⟨Module.End.mem_eigenspace_iff.mpr (hAv p), hv p⟩
  let X : Matrix (Fin n) (Fin n) ℝ := Matrix.of fun i p => v p i
  have hunit : IsUnit X := linearIndependent_cols_iff_isUnit.mp hindependent
  have hdet : IsUnit X.det := (isUnit_iff_isUnit_det X).mp hunit
  have hinverse : (X⁻¹).det ≠ 0 := ((isUnit_nonsing_inv_det_iff).mpr hdet).ne_zero
  obtain ⟨L, M, hL, hM, hLM, order, hstairs⟩ := exists_elimination hinverse
  refine ⟨⟨values, X, X⁻¹, L, M, order, ?_, nonsing_inv_mul X hdet, hapart, hL, hM, hLM, hstairs⟩, rfl⟩
  ext i p
  rw [mul_diagonal, mul_comm]
  exact congrFun (hAv p) i

/-- Bounds for what decides how far the iteration comes: `spread` for the differences of the eigenvalues, `growth` for
the entries of the elimination, `long` for the lengths of the eigenvectors, `dual` for those of the rows of their
inverse, and `ratio` for the quotients of the eigenvalues. -/
structure Within (E : Eigenbasis A) (spread growth long dual ratio : ℝ) : Prop where
  values : ∀ p q, |E.values p - E.values q| ≤ spread
  eliminate : ∀ p q, |E.eliminate p q| ≤ growth
  restore : ∀ p q, |E.restore p q| ≤ growth
  vectors : ∀ p, ∑ i, E.vectors i p ^ 2 ≤ long ^ 2
  covectors : ∀ p, ∑ i, E.covectors p i ^ 2 ≤ dual ^ 2
  long_nonneg : 0 ≤ long
  dual_nonneg : 0 ≤ dual
  ratio_nonneg : 0 ≤ ratio
  ratio : ∀ p q, q < p → |E.values p| ≤ ratio * |E.values q|

variable {spread growth long dual ratio : ℝ}

theorem abs_sum_mul_le {u v : Fin n → ℝ} {bound : ℝ} (hu : ∑ i, u i ^ 2 = 1) (hv : ∑ i, v i ^ 2 ≤ bound ^ 2)
    (hbound : 0 ≤ bound) : |∑ i, u i * v i| ≤ bound := by
  refine abs_le_of_sq_le_sq ?_ hbound
  calc (∑ i, u i * v i) ^ 2 ≤ (∑ i, u i ^ 2) * ∑ i, v i ^ 2 := sum_mul_sq_le_sq_mul_sq univ u v
    _ ≤ bound ^ 2 := by rwa [hu, one_mul]

theorem abs_sum_le {s : Finset (Fin n)} {x : Fin n → ℝ} {bound : ℝ} (hs : s.card ≤ n - 1) (hbound : 0 ≤ bound)
    (hx : ∀ i ∈ s, |x i| ≤ bound) : |∑ i ∈ s, x i| ≤ (n - 1 : ℕ) * bound := by
  calc |∑ i ∈ s, x i| ≤ ∑ i ∈ s, |x i| := abs_sum_le_sum_abs x s
    _ ≤ s.card • bound := sum_le_card_nsmul s _ bound hx
    _ ≤ (n - 1 : ℕ) * bound := by
        rw [nsmul_eq_mul]
        gcongr

/-- The parts along one column of length one. -/
theorem Within.abs_part_le (hE : E.Within spread growth long dual ratio) {l : Fin n} (hl : (Pᵀ * P) l l = 1)
    (p : Fin n) : |(Pᵀ * E.vectors) l p| ≤ long ∧ |(E.covectors * P) p l| ≤ dual := by
  have hunit : ∑ i, P i l ^ 2 = 1 := by
    rw [← hl, mul_apply]
    exact sum_congr rfl fun i _ => pow_two (P i l)
  constructor
  · exact abs_sum_mul_le hunit (hE.vectors p) hE.long_nonneg
  · rw [mul_apply]
    simp only [mul_comm (E.covectors p _)]
    exact abs_sum_mul_le hunit (hE.covectors p) hE.dual_nonneg

theorem Within.abs_pow_le (hE : E.Within spread growth long dual ratio) {p q : Fin n} (hqp : q < p) (k : ℕ) :
    |(E.values p / E.values q) ^ k| ≤ ratio ^ k := by
  have hpos := abs_pos.mpr (E.value_ne_zero hqp)
  rw [abs_pow, abs_div]
  gcongr
  exact (div_le_iff₀ hpos).mpr (hE.ratio p q hqp)

/-- A part and a coordinate at one eigenvector: one of the two has become small, unless it is the eigenvector of the
column. -/
theorem Within.abs_part_mul_le (hE : E.Within spread growth long dual ratio) (h : Reached A (k + 1) P B) {j l : Fin n}
    (hl : (Pᵀ * P) l l = 1) (hjl : j ≠ l) :
    |(Pᵀ * E.vectors) l (E.order j) * (E.covectors * P) (E.order j) l| ≤
      (n - 1 : ℕ) * (growth * ratio ^ (k + 1) * (long * dual)) := by
  have hlong := hE.long_nonneg
  have hdual := hE.dual_nonneg
  have hratio := hE.ratio_nonneg
  have hgrowth : 0 ≤ growth := (abs_nonneg _).trans (hE.eliminate l l)
  obtain ⟨hpart, hcoordinate⟩ := hE.abs_part_le hl (E.order j)
  rw [abs_mul]
  rcases lt_or_gt_of_ne hjl with hlt | hgt
  · by_cases hzero : E.values (E.order j) = 0
    · obtain ⟨U, -, hU⟩ := exists_coordinates h E
      rw [hU, hzero, zero_pow (Nat.succ_ne_zero k), zero_mul, abs_zero, mul_zero]
      positivity
    · have hsmall : |(Pᵀ * E.vectors) l (E.order j)| ≤ (n - 1 : ℕ) * (long * ratio ^ (k + 1) * growth) := by
        rw [early_coordinate h hlt hzero, abs_neg]
        refine abs_sum_le ?_ (by positivity) fun t ht => ?_
        · rw [Fin.card_Ioi]
          omega
        · rw [abs_mul, abs_mul]
          exact mul_le_mul (mul_le_mul (hE.abs_part_le hl t).1 (hE.abs_pow_le (mem_Ioi.mp ht) _) (abs_nonneg _) hlong)
            (hE.restore _ _) (abs_nonneg _) (by positivity)
      calc _ ≤ (n - 1 : ℕ) * (long * ratio ^ (k + 1) * growth) * dual :=
            mul_le_mul hsmall hcoordinate (abs_nonneg _) (by positivity)
        _ = (n - 1 : ℕ) * (growth * ratio ^ (k + 1) * (long * dual)) := by ring
  · have hsmall : |(E.covectors * P) (E.order j) l| ≤ (n - 1 : ℕ) * (growth * ratio ^ (k + 1) * dual) := by
      rw [late_coordinate h hgt, abs_neg]
      refine abs_sum_le ?_ (by positivity) fun q hq => ?_
      · rw [Fin.card_Iio]
        omega
      · rw [abs_mul, abs_mul]
        exact mul_le_mul (mul_le_mul (hE.eliminate _ _) (hE.abs_pow_le (mem_Iio.mp hq) _) (abs_nonneg _) hgrowth)
          (hE.abs_part_le hl q).2 (abs_nonneg _) (by positivity)
    calc _ ≤ long * ((n - 1 : ℕ) * (growth * ratio ^ (k + 1) * dual)) :=
          mul_le_mul hpart hsmall (abs_nonneg _) hlong
      _ = (n - 1 : ℕ) * (growth * ratio ^ (k + 1) * (long * dual)) := by ring

/-- After `k + 1` turns a diagonal entry that belongs to a column of length one is close to an eigenvalue. -/
theorem Within.diagonal_close (hE : E.Within spread growth long dual ratio) (h : Reached A (k + 1) P B) {l : Fin n}
    (hl : (Pᵀ * P) l l = 1) : |B l l - E.values (E.order l)| ≤
      (n - 1 : ℕ) * (spread * ((n - 1 : ℕ) * (growth * ratio ^ (k + 1) * (long * dual)))) := by
  have hinverse : E.vectors * E.covectors = 1 := mul_eq_one_comm.mp E.inverse
  have hentry : B l l = ∑ p, E.values p * ((Pᵀ * E.vectors) l p * (E.covectors * P) p l) := by
    have hB : B = Pᵀ * E.vectors * diagonal E.values * (E.covectors * P) := by
      calc B = Pᵀ * (A * (E.vectors * E.covectors)) * P := by rw [hinverse, Matrix.mul_one, h.eq_compressed]
        _ = Pᵀ * E.vectors * diagonal E.values * (E.covectors * P) := by
          rw [← Matrix.mul_assoc A, E.eigen]
          simp only [Matrix.mul_assoc]
    nth_rewrite 1 [hB]
    rw [mul_apply]
    apply sum_congr rfl
    intro p _
    rw [mul_diagonal]
    ring
  have hone : ∑ p, (Pᵀ * E.vectors) l p * (E.covectors * P) p l = 1 := by
    rw [← mul_apply, Matrix.mul_assoc, ← Matrix.mul_assoc E.vectors, hinverse, Matrix.one_mul, hl]
  have hdifference : B l l - E.values (E.order l) = ∑ p ∈ univ.erase (E.order l),
      (E.values p - E.values (E.order l)) * ((Pᵀ * E.vectors) l p * (E.covectors * P) p l) := by
    have hall : B l l - E.values (E.order l) = ∑ p,
        (E.values p - E.values (E.order l)) * ((Pᵀ * E.vectors) l p * (E.covectors * P) p l) := by
      simp only [sub_mul, sum_sub_distrib]
      rw [← hentry, ← mul_sum, hone, mul_one]
    rw [hall, sum_erase]
    rw [sub_self, zero_mul]
  have hspread : 0 ≤ spread := (abs_nonneg _).trans (hE.values l l)
  have hgrowth : 0 ≤ growth := (abs_nonneg _).trans (hE.eliminate l l)
  have hlong := hE.long_nonneg
  have hdual := hE.dual_nonneg
  have hratio := hE.ratio_nonneg
  rw [hdifference]
  refine abs_sum_le ?_ (by positivity) fun p hp => ?_
  · rw [card_erase_of_mem (mem_univ _), card_univ, Fintype.card_fin]
  · obtain ⟨j, rfl⟩ := E.order.surjective p
    have hjl : j ≠ l := fun heq => (mem_erase.mp hp).1 (congrArg E.order heq)
    rw [abs_mul]
    exact mul_le_mul (hE.values _ _) (hE.abs_part_mul_le h hl hjl) (abs_nonneg _) hspread

end Eigenbasis

end OrthogonalIteration
