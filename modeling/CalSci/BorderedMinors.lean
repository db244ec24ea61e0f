import Mathlib.Data.Rat.Cast.Defs
import Mathlib.LinearAlgebra.Finsupp.LinearCombination
import Mathlib.LinearAlgebra.Matrix.Determinant.Basic
import Mathlib.Logic.Equiv.Fin.Basic

/-! Minors of an array of numbers, bordered by one more row and column. If a row differs from the new row by
a combination of the rows of the minor and is zero in its columns, as it is after an elimination, the
bordered minor is the minor times the entry of that row in the new column. -/

namespace BorderedMinors

variable {R : Type} [CommRing R] {k : Nat}

/-- The minor of the array `a` in the rows `r` and the columns `c`. -/
def minor (a : Nat → Nat → R) (r c : Fin k → Nat) : R := (Matrix.of fun x y => a (r x) (c y)).det

/-- The matrix of a minor bordered by row `i` and column `j`. -/
def bordered (a : Nat → Nat → R) (r c : Fin k → Nat) (i j : Nat) :
    Matrix (Fin k ⊕ Fin 1) (Fin k ⊕ Fin 1) R :=
  Matrix.fromBlocks (Matrix.of fun x y => a (r x) (c y)) (Matrix.of fun x _ => a (r x) j)
    (Matrix.of fun _ y => a i (c y)) (Matrix.of fun _ _ => a i j)

theorem minor_append_eq_det (a : Nat → Nat → R) (r c : Fin k → Nat) (i j : Nat) :
    minor a (Fin.append r ![i]) (Fin.append c ![j]) = (bordered a r c i j).det := by
  rw [minor, ← Matrix.det_submatrix_equiv_self finSumFinEquiv]
  congr 1
  ext x y
  rcases x with x | x
  · rcases y with y | y
    · simp [bordered]
    · simp [bordered]
  · rcases y with y | y
    · simp [bordered]
    · simp [bordered]

/-- The rows of the minor are added to the last row. -/
theorem bordered_eliminated (a : Nat → Nat → R) (r c : Fin k → Nat) (i j : Nat) (u : Fin k → R)
    (hzero : ∀ l, a i (c l) + ∑ x, u x * a (r x) (c l) = 0) :
    Matrix.fromBlocks 1 0 (Matrix.of fun (_ : Fin 1) x => u x) 1 * bordered a r c i j =
      Matrix.fromBlocks (Matrix.of fun x y => a (r x) (c y)) (Matrix.of fun x _ => a (r x) j) 0
        (Matrix.of fun _ _ => a i j + ∑ x, u x * a (r x) j) := by
  rw [bordered, Matrix.fromBlocks_multiply]
  congr 1
  · simp
  · simp
  · ext _ y
    rw [Matrix.one_mul, Matrix.add_apply, Matrix.mul_apply, Matrix.zero_apply, ← hzero y, add_comm]
    rfl
  · ext _ y
    rw [Matrix.one_mul, Matrix.add_apply, Matrix.mul_apply, Matrix.of_apply, add_comm]
    rfl

theorem det_bordered (a : Nat → Nat → R) (r c : Fin k → Nat) (i j : Nat) (u : Fin k → R)
    (hzero : ∀ l, a i (c l) + ∑ x, u x * a (r x) (c l) = 0) :
    (bordered a r c i j).det = minor a r c * (a i j + ∑ x, u x * a (r x) j) := by
  have hdet := congrArg Matrix.det (bordered_eliminated a r c i j u hzero)
  rw [Matrix.det_mul, Matrix.det_fromBlocks_zero₁₂, Matrix.det_fromBlocks_zero₂₁, Matrix.det_one,
    Matrix.det_one, one_mul, one_mul, Matrix.det_fin_one] at hdet
  exact hdet

/-- The bordered minor, from a row that differs from row `i` by rows of the minor and is zero in its
columns. -/
theorem minor_append (a : Nat → Nat → R) (r c : Fin k → Nat) (i j : Nat) {row : Nat → R}
    (hspan : row - a i ∈ Submodule.span R (Set.range fun l => a (r l))) (hzero : ∀ l, row (c l) = 0) :
    minor a (Fin.append r ![i]) (Fin.append c ![j]) = minor a r c * row j := by
  obtain ⟨u, hu⟩ := (Submodule.mem_span_range_iff_exists_fun R).mp hspan
  have hrow : ∀ y, a i y + ∑ l, u l * a (r l) y = row y := by
    intro y
    have hy := congrFun hu y
    simp only [Finset.sum_apply, Pi.smul_apply, smul_eq_mul, Pi.sub_apply] at hy
    rw [hy, add_sub_cancel]
  rw [minor_append_eq_det, det_bordered a r c i j u fun l => (hrow (c l)).trans (hzero l), hrow]

/-- The combinations of the rows of a minor are combinations of the rows of the bordered one. -/
theorem span_le_append (a : Nat → Nat → R) (r : Fin k → Nat) (i : Nat) :
    Submodule.span R (Set.range fun l => a (r l)) ≤
      Submodule.span R (Set.range fun l => a (Fin.append r ![i] l)) := by
  apply Submodule.span_mono
  rintro _ ⟨l, rfl⟩
  exact ⟨Fin.castAdd 1 l, by dsimp only; rw [Fin.append_left]⟩

/-- So is the new row. -/
theorem mem_span_append (a : Nat → Nat → R) (r : Fin k → Nat) (i : Nat) :
    a i ∈ Submodule.span R (Set.range fun l => a (Fin.append r ![i] l)) :=
  Submodule.subset_span ⟨Fin.natAdd k 0, by dsimp only; rw [Fin.append_right]; rfl⟩

theorem minor_intCast (a : Nat → Nat → Int) (r c : Fin k → Nat) :
    minor (fun i j => (a i j : R)) r c = ((minor a r c : Int) : R) := by
  rw [minor, minor, Int.cast_det]
  rfl

end BorderedMinors
