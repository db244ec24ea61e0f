import CalSci.GridMatrix
import CalSci.MatrixModel
import Mathlib.LinearAlgebra.Matrix.Adjugate
import Mathlib.LinearAlgebra.Matrix.Determinant.Basic

/-! The determinant app (`det_cal` of `determinant.py`), the inverse app (`determinant`, `cofactor`,
`get_minor`, `transpose` and `inverse` of `matrix_inverse.py`) and the loops of `matrix_mul_2.py`, on matrices
of integers. Both recursions expand along the first row and have cases of their own at the orders one and two;
neither has one at the order zero, which the inverse of a matrix of order one reaches. -/

namespace CalSci.Determinants

open GridRows Matrix

/-! ### The three apps -/

def detCal : Grid Int → Nat → Int
  | _, 0 => 0
  | matrix, 1 => entry matrix 0 0
  | matrix, 2 => entry matrix 0 0 * entry matrix 1 1 - entry matrix 0 1 * entry matrix 1 0
  | matrix, n + 3 =>
      (List.range (n + 3)).foldl (fun det j =>
        let submatrix :=
          subgrid (List.range' 1 (n + 2)) ((List.range (n + 3)).filter fun k => k ≠ j) matrix
        det + (-1) ^ j * entry matrix 0 j * detCal submatrix (n + 2)) 0

/-- `get_minor`: all rows but `i`, all columns but `j`. -/
def getMinor (matrix : Grid Int) (i j : Nat) : Grid Int :=
  subgrid ((List.range matrix.length).filter fun r => r ≠ i)
    ((List.range matrix.length).filter fun c => c ≠ j) matrix

/-- `determinant` of a matrix of `n` rows, with `cofactor` written out; the recursion is on `n`. -/
def determinantOf : Nat → Grid Int → Int
  | 0, _ => 0
  | 1, matrix => entry matrix 0 0
  | 2, matrix => entry matrix 0 0 * entry matrix 1 1 - entry matrix 0 1 * entry matrix 1 0
  | n + 3, matrix =>
      (List.range (n + 3)).foldl (fun det j =>
        det + entry matrix 0 j * ((-1) ^ (0 + j) * determinantOf (n + 2) (getMinor matrix 0 j))) 0

def determinant (matrix : Grid Int) : Int := determinantOf matrix.length matrix

def cofactor (matrix : Grid Int) (i j : Nat) : Int :=
  (-1) ^ (i + j) * determinant (getMinor matrix i j)

def transpose (matrix : Grid Int) : Grid Int :=
  tabulate (matrix.getD 0 []).length matrix.length fun i j => entry matrix j i

/-- `inverse`, with exact division. -/
def inverse (matrix : Grid Int) (det : Int) : Grid ℚ :=
  let n := matrix.length
  let cofactorMatrix := tabulate n n (cofactor matrix)
  let adjugate := transpose cofactorMatrix
  tabulate n n fun i j => ((entry adjugate i j : Int) : ℚ) / det

def matrixMul2 (r1 c1 c2 : Nat) (matrix1 matrix2 : Grid Int) : Grid Int :=
  productLoops r1 c1 c2 matrix1 matrix2

/-! ### Minors -/

theorem Rect.getMinor {matrix : Grid Int} {n : Nat} (h : Rect matrix (n + 1) (n + 1)) {i j : Nat}
    (hi : i ≤ n) (hj : j ≤ n) : Rect (getMinor matrix i j) n n := by
  have hlength : ∀ {p : Nat}, p ≤ n → ((List.range (n + 1)).filter fun x => x ≠ p).length = n := by
    intro p hp
    rw [filter_range_ne hp, List.length_append, List.length_range, List.length_range']
    omega
  have hrect := Rect.subgrid ((List.range (n + 1)).filter fun x => x ≠ i)
    ((List.range (n + 1)).filter fun x => x ≠ j) matrix
  rw [hlength hi, hlength hj] at hrect
  rwa [Determinants.getMinor, h.length]

theorem toMatrix_getMinor {matrix : Grid Int} {n : Nat} (h : Rect matrix (n + 1) (n + 1))
    (i j : Fin (n + 1)) : toMatrix n n (getMinor matrix i j) =
      (toMatrix (n + 1) (n + 1) matrix).submatrix i.succAbove j.succAbove := by
  rw [getMinor, h.length, toMatrix_subgrid_ne]

/-! ### Expansions along the first row -/

/-- The loop over the first row, once the smaller determinants are known. -/
theorem foldl_expansion {n : Nat} {matrix : Grid Int} {f : Nat → Int}
    (hf : ∀ j : Fin (n + 1), f j = (-1) ^ (j : Nat) * entry matrix 0 j *
      ((toMatrix (n + 1) (n + 1) matrix).submatrix Fin.succ j.succAbove).det) :
    (List.range (n + 1)).foldl (fun det j => det + f j) 0 = (toMatrix (n + 1) (n + 1) matrix).det := by
  rw [foldl_range_add, zero_add, Finset.sum_range, det_succ_row_zero]
  exact Finset.sum_congr rfl fun j _ => hf j

theorem detCal_eq_det (matrix : Grid Int) (n : Nat) :
    detCal matrix (n + 1) = (toMatrix (n + 1) (n + 1) matrix).det := by
  induction n generalizing matrix with
  | zero =>
      rw [det_fin_one]
      rfl
  | succ n ih =>
      cases n with
      | zero =>
          rw [det_fin_two]
          rfl
      | succ n =>
          apply foldl_expansion
          intro j
          have hrows : List.range' 1 (n + 2) =
              (List.range (n + 3)).filter fun x => x ≠ ((0 : Fin (n + 3)) : Nat) :=
            (filter_range_ne (Nat.zero_le (n + 2))).symm
          rw [ih, hrows, toMatrix_subgrid_ne, Fin.succAbove_zero]

theorem determinantOf_eq_det {matrix : Grid Int} {n : Nat} (h : Rect matrix (n + 1) (n + 1)) :
    determinantOf (n + 1) matrix = (toMatrix (n + 1) (n + 1) matrix).det := by
  induction n generalizing matrix with
  | zero =>
      rw [det_fin_one]
      rfl
  | succ n ih =>
      cases n with
      | zero =>
          rw [det_fin_two]
          rfl
      | succ n =>
          apply foldl_expansion
          intro j
          have hminor := toMatrix_getMinor h 0 j
          rw [Fin.val_zero, Fin.succAbove_zero] at hminor
          rw [ih (Rect.getMinor h (Nat.zero_le _) (by omega)), hminor, Nat.zero_add]
          ring

theorem determinant_eq_det {matrix : Grid Int} {n : Nat} (hn : 1 ≤ n) (h : Rect matrix n n) :
    determinant matrix = (toMatrix n n matrix).det := by
  obtain ⟨k, rfl⟩ := Nat.exists_eq_add_of_le' hn
  rw [determinant, h.length, determinantOf_eq_det h]

/-- The determinant as it is defined: the signed sum over the permutations. -/
def signedSum (n : Nat) (matrix : Grid Int) : Int :=
  ∑ σ : Equiv.Perm (Fin n), (Equiv.Perm.sign σ : Int) * ∏ i, entry matrix (σ i) i

theorem signedSum_eq_det (n : Nat) (matrix : Grid Int) : signedSum n matrix = (toMatrix n n matrix).det := by
  rw [det_apply']
  rfl

/-- Both recursions give the determinant, which is multiplicative for the product of `matrix_mul_2.py`. -/
theorem determinants_agree {n : Nat} {a b : Grid Int} (hn : 1 ≤ n) (ha : Rect a n n) (hb : Rect b n n) :
    (detCal a n = signedSum n a ∧ determinant a = signedSum n a) ∧ detCal a n = determinant a ∧
      detCal (matrixMul2 n n n a b) n = detCal a n * detCal b n ∧
      determinant (matrixMul2 n n n a b) = determinant a * determinant b := by
  have hcal : ∀ m : Grid Int, detCal m n = (toMatrix n n m).det := by
    obtain ⟨k, rfl⟩ := Nat.exists_eq_add_of_le' hn
    exact fun m => detCal_eq_det m k
  have hproduct : (toMatrix n n (matrixMul2 n n n a b)).det = (toMatrix n n a).det * (toMatrix n n b).det := by
    rw [matrixMul2, toMatrix_productLoops, det_mul]
  have hrect : Rect (matrixMul2 n n n a b) n n := (productLoops_spec n n n a b).1
  rw [hcal, hcal, hcal, signedSum_eq_det, determinant_eq_det hn ha, determinant_eq_det hn hb,
    determinant_eq_det hn hrect]
  exact ⟨⟨rfl, rfl⟩, rfl, hproduct, hproduct⟩

theorem determinants_agree_three :
    determinant [[2, 0, 1], [1, 3, 0], [0, 1, 4]] = 25 ∧
      detCal (matrixMul2 3 3 3 [[2, 0, 1], [1, 3, 0], [0, 1, 4]] [[1, 2, 0], [0, 1, 1], [1, 0, 1]]) 3 =
        detCal [[2, 0, 1], [1, 3, 0], [0, 1, 4]] 3 * detCal [[1, 2, 0], [0, 1, 1], [1, 0, 1]] 3 :=
  ⟨by decide, (determinants_agree (by decide) ⟨by decide, by decide⟩ ⟨by decide, by decide⟩).2.2.1⟩

/-! ### The inverse -/

section Inverse

variable {matrix : Grid Int} {n : Nat}

theorem Rect.inverse (h : Rect matrix n n) (det : Int) : Rect (inverse matrix det) n n := by
  rw [Determinants.inverse, h.length]
  exact Rect.tabulate n n _

theorem entry_inverse (h : Rect matrix n n) (det : Int) {i j : Nat} (hi : i < n) (hj : j < n) :
    entry (inverse matrix det) i j = (cofactor matrix j i : ℚ) / det := by
  have hrect : Rect (tabulate n n (cofactor matrix)) n n := Rect.tabulate n n _
  have hcols : ((tabulate n n (cofactor matrix)).getD 0 []).length = n := hrect.getD_length (by omega)
  rw [inverse, h.length]
  simp only [transpose]
  rw [hcols, hrect.length, entry_tabulate _ hi hj, entry_tabulate _ hi hj, entry_tabulate _ hj hi]

/-- From the order two on a cofactor is an entry of the adjugate. -/
theorem cofactor_eq_adjugate (h : Rect matrix (n + 2) (n + 2)) (i j : Fin (n + 2)) :
    cofactor matrix i j = (toMatrix (n + 2) (n + 2) matrix).adjugate j i := by
  have hrect := Rect.getMinor h (by omega : (i : Nat) ≤ n + 1) (by omega : (j : Nat) ≤ n + 1)
  rw [cofactor, determinant_eq_det (by omega) hrect, toMatrix_getMinor h, adjugate_fin_succ_eq_det_submatrix]

theorem toMatrix_ofInts (rows cols : Nat) (matrix : Grid Int) :
    toMatrix rows cols (Echelon.ofInts matrix) = (toMatrix rows cols matrix).map (Int.castRingHom ℚ) := by
  ext i j
  exact entry_map (fun x : Int => (x : ℚ)) Int.cast_zero matrix i j

/-- The determinant of the matrix in rational arithmetic. -/
theorem det_ofInts (n : Nat) (matrix : Grid Int) :
    (toMatrix n n (Echelon.ofInts matrix)).det = ((toMatrix n n matrix).det : ℚ) := by
  rw [toMatrix_ofInts]
  exact (RingHom.map_det (Int.castRingHom ℚ) _).symm

/-- From the order two on `inverse` is the adjugate over the determinant. -/
theorem toMatrix_inverse (h : Rect matrix (n + 2) (n + 2)) (det : Int) :
    toMatrix (n + 2) (n + 2) (inverse matrix det) =
      (det : ℚ)⁻¹ • (toMatrix (n + 2) (n + 2) (Echelon.ofInts matrix)).adjugate := by
  have hcast : (toMatrix (n + 2) (n + 2) (Echelon.ofInts matrix)).adjugate =
      (toMatrix (n + 2) (n + 2) matrix).adjugate.map (Int.castRingHom ℚ) := by
    rw [toMatrix_ofInts]
    exact (RingHom.map_adjugate (Int.castRingHom ℚ) _).symm
  ext i j
  rw [toMatrix_apply, entry_inverse h det i.isLt j.isLt, cofactor_eq_adjugate h, hcast, Matrix.smul_apply,
    map_apply, smul_eq_mul, div_eq_inv_mul]
  rfl

/-- The inverse is one on both sides, of every order but one: there the only cofactor is that of an empty
minor, which `determinant` takes for zero. -/
theorem inverse_correct_iff (hn : 1 ≤ n) (h : Rect matrix n n) (hdet : determinant matrix ≠ 0) :
    (Rect (inverse matrix (determinant matrix)) n n ∧
      toMatrix n n (inverse matrix (determinant matrix)) * toMatrix n n (Echelon.ofInts matrix) = 1 ∧
      toMatrix n n (Echelon.ofInts matrix) * toMatrix n n (inverse matrix (determinant matrix)) = 1) ↔
      2 ≤ n := by
  constructor
  · rintro ⟨-, hleft, -⟩
    by_contra hlt
    obtain rfl : n = 1 := by omega
    have hentry := congrFun (congrFun hleft 0) 0
    have hzero : cofactor matrix 0 0 = 0 := by
      rw [cofactor, determinant, (Rect.getMinor h (Nat.le_refl 0) (Nat.le_refl 0)).length]
      rfl
    rw [mul_apply, Fin.sum_univ_one, toMatrix_apply, one_apply_eq, Fin.val_zero,
      entry_inverse h _ Nat.one_pos Nat.one_pos, hzero, Int.cast_zero, zero_div, zero_mul] at hentry
    exact zero_ne_one hentry
  · intro hle
    obtain ⟨k, rfl⟩ := Nat.exists_eq_add_of_le' hle
    obtain ⟨m, hm⟩ : ∃ m, toMatrix (k + 2) (k + 2) (Echelon.ofInts matrix) = m := ⟨_, rfl⟩
    have hcast : (determinant matrix : ℚ) = m.det := by
      rw [determinant_eq_det hn h, ← det_ofInts, hm]
    have hne : m.det ≠ 0 := by
      rw [← hcast]
      exact Int.cast_ne_zero.mpr hdet
    rw [toMatrix_inverse h, hm, hcast, smul_mul, Matrix.mul_smul, adjugate_mul, mul_adjugate, smul_smul,
      inv_mul_cancel₀ hne, one_smul]
    exact ⟨Rect.inverse h _, rfl, rfl⟩

theorem inverse_correct_two :
    determinant [[2, 1], [1, 1]] = 1 ∧
      toMatrix 2 2 (inverse [[2, 1], [1, 1]] (determinant [[2, 1], [1, 1]])) *
        toMatrix 2 2 (Echelon.ofInts [[2, 1], [1, 1]]) = 1 :=
  ⟨by decide, ((inverse_correct_iff (by decide) ⟨by decide, by decide⟩ (by decide)).mpr (by decide)).2.1⟩

/-- The matrix `[[2]]` has the determinant 2; its inverse is computed as `[[0.0]]`. -/
theorem inverse_order_one :
    determinant [[2]] = 2 ∧ inverse [[2]] (determinant [[2]]) = [[0]] ∧
      toMatrix 1 1 (inverse [[2]] (determinant [[2]])) * toMatrix 1 1 (Echelon.ofInts [[2]]) ≠ 1 := by
  have hinverse : inverse [[2]] (determinant [[2]]) = [[0]] := by decide +kernel
  refine ⟨by decide, hinverse, fun h => ?_⟩
  have hentry := congrFun (congrFun h 0) 0
  rw [hinverse, mul_apply, Fin.sum_univ_one, toMatrix_apply, one_apply_eq] at hentry
  exact absurd ((zero_mul _).symm.trans hentry) zero_ne_one

end Inverse

end CalSci.Determinants
