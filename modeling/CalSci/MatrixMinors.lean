import CalSci.BorderedMinors
import CalSci.MatrixAgree
import Mathlib.Data.Fintype.Pigeonhole
import Mathlib.LinearAlgebra.Matrix.AbsoluteValue
import Mathlib.Tactic.Linarith

/-! When the tolerance of `reduced_row_echelon_form_finder` is not needed. In an elimination of a matrix of
integers each entry from the pivot row on is the quotient of two minors of the matrix, of which the lower
one belongs to the pivots; so with all minors below `10 ^ 10` an entry that is not zero is larger than the
tolerance. -/

namespace CalSci.Echelon

open GridRows BorderedMinors

variable {rows cols : Nat}

/-- Every minor of the matrix is below `10 ^ 10`; a minor with a row or column twice, or outside the matrix,
is zero. -/
def MinorsBelow (matrix : Grid Int) : Prop :=
  ∀ (k : Nat) (r c : Fin k → Nat), |minor (entry matrix) r c| < 10 ^ 10

/-- The rows from `k` on come from rows of the array `a` by subtracting rows of a minor that is not zero;
its columns are before `col`. -/
def Descends (a : Nat → Nat → Int) (rows k col : Nat) (matrix : Grid ℚ) : Prop :=
  ∃ (r c : Fin k → Nat) (source : Nat → Nat), (∀ l, c l < col) ∧ minor a r c ≠ 0 ∧
    ∀ i, k ≤ i → i < rows → entry matrix i - (fun j => (a (source i) j : ℚ)) ∈
      Submodule.span ℚ (Set.range fun l j => (a (r l) j : ℚ))

/-- An entry from the pivot row on is the bordered minor over the minor. -/
theorem clear_of_descends {a : Nat → Nat → Int} (hbound : ∀ k (r c : Fin k → Nat), |minor a r c| < 10 ^ 10)
    {t : EchelonState} (h : Reduced rows cols t) (hd : Descends a rows t.pivotRow t.pivotCol t.matrix) :
    t.Clear rows := by
  obtain ⟨r, c, source, hcols, hminor, hrows⟩ := hd
  intro i hi hlt
  by_cases hzero : entry t.matrix i t.pivotCol = 0
  · exact .inl hzero
  · have hquotient := minor_append (fun i j => (a i j : ℚ)) r c (source i) t.pivotCol (hrows i hi hlt)
      fun l => h.rest i (c l) hi (hcols l)
    rw [minor_intCast, minor_intCast] at hquotient
    refine .inr ?_
    obtain ⟨d, hd⟩ : ∃ d, minor a r c = d := ⟨_, rfl⟩
    obtain ⟨n, hn⟩ : ∃ n, minor a (Fin.append r ![source i]) (Fin.append c ![t.pivotCol]) = n := ⟨_, rfl⟩
    have hbound' := hbound _ r c
    rw [hd] at hminor hquotient hbound'
    rw [hn] at hquotient
    generalize entry t.matrix i t.pivotCol = x at hzero hquotient ⊢
    have hne : n ≠ 0 := by
      rintro rfl
      rw [Int.cast_zero] at hquotient
      exact mul_ne_zero (Int.cast_ne_zero.mpr hminor) hzero hquotient.symm
    have hone : (1 : ℚ) ≤ |(d : ℚ)| * |x| := by
      rw [← abs_mul, ← hquotient]
      exact_mod_cast Int.one_le_abs hne
    have hless : |(d : ℚ)| < 10 ^ 10 := by exact_mod_cast hbound'
    have hpos : 0 < |x| := abs_pos.mpr hzero
    have hmul : |(d : ℚ)| * |x| < 10 ^ 10 * |x| := mul_lt_mul_of_pos_right hless hpos
    rw [tolerance, div_lt_iff₀ (by norm_num)]
    linarith

/-- A turn that finds a pivot borders the minor. -/
theorem Descends.step {a : Nat → Nat → Int} {t : EchelonState} (h : Reduced rows cols t)
    (hclear : t.Clear rows) (hd : Descends a rows t.pivotRow t.pivotCol t.matrix) :
    Descends a rows (t.step rows).pivotRow (t.step rows).pivotCol (t.step rows).matrix := by
  obtain ⟨r, c, source, hcols, hminor, hrows⟩ := hd
  cases hfirst : firstRow exceeds t.matrix t.pivotCol t.pivotRow rows with
  | none =>
      rw [EchelonState.step_none hfirst]
      exact ⟨r, c, source, fun l => (hcols l).trans (Nat.lt_succ_self _), hminor, hrows⟩
  | some i =>
      obtain ⟨⟨hk, hi⟩, htest⟩ := firstRow_some hfirst
      have hne : entry t.matrix i t.pivotCol ≠ 0 := ne_zero_of_exceeds htest
      obtain ⟨-, -, -, hbelow⟩ := EchelonState.entry_step h.pivoted.rect hclear hfirst
      have hquotient := minor_append (fun i j => (a i j : ℚ)) r c (source i) t.pivotCol (hrows i hk hi)
        fun l => h.rest i (c l) hk (hcols l)
      rw [minor_intCast, minor_intCast] at hquotient
      have hmono := span_le_append (fun i j => (a i j : ℚ)) r (source i)
      have hnew := mem_span_append (fun i j => (a i j : ℚ)) r (source i)
      rw [EchelonState.step_some h.pivoted.rect hfirst] at hbelow ⊢
      refine ⟨Fin.append r ![source i], Fin.append c ![t.pivotCol],
        fun b => source (Equiv.swap t.pivotRow i b), fun l => ?_, fun hzero => ?_, fun b hb hlt => ?_⟩
      · refine Fin.addCases (fun l => ?_) (fun l => ?_) l
        · rw [Fin.append_left]
          exact (hcols l).trans (Nat.lt_succ_self _)
        · rw [Fin.append_right, Matrix.cons_val_fin_one]
          exact Nat.lt_succ_self _
      · rw [hzero, Int.cast_zero] at hquotient
        exact mul_ne_zero (Int.cast_ne_zero.mpr hminor) hne hquotient.symm
      · have hb' : t.pivotRow < b := hb
        have hswap := hmono (hrows _ (le_swap hk hb'.le) (swap_lt (by omega) hi hlt))
        have hpivot := add_mem (hmono (hrows i hk hi)) hnew
        have hsub := sub_mem hswap (Submodule.smul_mem _
          (entry t.matrix (Equiv.swap t.pivotRow i b) t.pivotCol / entry t.matrix i t.pivotCol) hpivot)
        convert hsub using 1
        funext j
        simp only [Pi.sub_apply, Pi.smul_apply, smul_eq_mul, sub_add_cancel]
        rw [hbelow b j hb']
        ring

theorem entry_ofInts (matrix : Grid Int) (i j : Nat) :
    entry (ofInts matrix) i j = ((entry matrix i j : Int) : ℚ) :=
  entry_map (fun x : Int => (x : ℚ)) Int.cast_zero matrix i j

/-- With all minors below `10 ^ 10` the tolerance is not needed. -/
theorem toleranceUnused_of_minors {matrix : Grid Int} (h : Rect matrix rows cols)
    (hbound : MinorsBelow matrix) : ToleranceUnused (ofInts matrix) rows cols := by
  have hreduced : Reduced rows cols ⟨ofInts matrix, 0, 0, []⟩ :=
    ⟨⟨h.map _, rfl, nofun, nofun⟩, nofun, nofun⟩
  have hdescends : Descends (entry matrix) rows 0 0 (ofInts matrix) := by
    refine ⟨nofun, nofun, id, nofun, ?_, fun i _ _ => ?_⟩
    · rw [minor, Matrix.det_fin_zero]
      exact one_ne_zero
    · have hrow : entry (ofInts matrix) i - (fun j => ((entry matrix (id i) j : Int) : ℚ)) = 0 :=
        funext fun j => sub_eq_zero.mpr (entry_ofInts matrix i j)
      rw [hrow]
      exact zero_mem _
  have hstep : ∀ t : EchelonState,
      Reduced rows cols t ∧ Descends (entry matrix) rows t.pivotRow t.pivotCol t.matrix →
        t.guard rows cols = true → Reduced rows cols (t.step rows) ∧
          Descends (entry matrix) rows (t.step rows).pivotRow (t.step rows).pivotCol (t.step rows).matrix := by
    rintro t ⟨hr, hd⟩ -
    have hclear := clear_of_descends hbound hr hd
    exact ⟨hr.step hclear, hd.step hr hclear⟩
  intro n _
  obtain ⟨hr, hd⟩ := Runs.loop_invariant hstep ⟨hreduced, hdescends⟩ n
  exact clear_of_descends hbound hr hd

/-- A minor of more rows than there are repeats one of them or leaves the matrix. -/
theorem minor_eq_zero {matrix : Grid Int} (h : Rect matrix rows cols) {k : Nat} (hk : rows < k)
    (r c : Fin k → Nat) : minor (entry matrix) r c = 0 := by
  by_cases hout : ∃ x, rows ≤ r x
  · obtain ⟨x, hx⟩ := hout
    exact Matrix.det_eq_zero_of_row_eq_zero x fun y => entry_of_row_le h hx _
  · push Not at hout
    obtain ⟨x, y, hxy, hrows⟩ := Fintype.exists_ne_map_eq_of_card_lt (fun x => (⟨r x, hout x⟩ : Fin rows))
      (by rwa [Fintype.card_fin, Fintype.card_fin])
    have hsame : r x = r y := congrArg Fin.val hrows
    refine Matrix.det_zero_of_row_eq hxy (funext fun z => ?_)
    rw [Matrix.of_apply, Matrix.of_apply, hsame]

theorem abs_entry_le {matrix : Grid Int} {b : Nat} (h : ∀ row ∈ matrix, ∀ x ∈ row, |x| ≤ b) (i j : Nat) :
    |entry matrix i j| ≤ b := by
  rw [entry]
  cases hrow : matrix[i]? with
  | none => simp [hrow]
  | some row =>
      cases hx : row[j]? with
      | none => simp [hrow, hx]
      | some x => simpa [hrow, hx] using h row (List.mem_of_getElem? hrow) x (List.mem_of_getElem? hx)

/-- Small entries make small minors. -/
theorem minorsBelow_of_entries {matrix : Grid Int} (h : Rect matrix rows cols) {b : Nat}
    (hbound : ∀ row ∈ matrix, ∀ x ∈ row, |x| ≤ b)
    (hsmall : ∀ k ≤ rows, k.factorial * b ^ k < 10 ^ 10) : MinorsBelow matrix := by
  intro k r c
  rcases Nat.lt_or_ge rows k with hk | hk
  · rw [minor_eq_zero h hk, abs_zero]
    decide
  · have hentries : ∀ x y, AbsoluteValue.abs (Matrix.of (fun x y => entry matrix (r x) (c y)) x y) ≤ (b : Int) :=
      fun x y => abs_entry_le hbound (r x) (c y)
    have hdet := Matrix.det_le hentries
    rw [Fintype.card_fin, nsmul_eq_mul] at hdet
    exact hdet.trans_lt (by exact_mod_cast hsmall k hk)

/-- The rank and the number of rows of the echelon form that are not zero, for every rectangular matrix of
integers: they agree if the first loop of the echelon form compares nothing with its tolerance that is
within it and not zero, and that is so if every minor of the matrix is below `10 ^ 10`. -/
theorem rank_agrees_with_echelon (matrix : Grid Int) {rows cols : Nat} (h : Rect matrix rows cols)
    (hrows : 0 < rows) (hcols : 0 < cols) :
    (ToleranceUnused (ofInts matrix) rows cols →
      ∃ result, reducedRowEchelonFormFinder (ofInts matrix) rows cols = some result ∧
        matrixRank (ofInts matrix) = nonzeroRows result) ∧
    (MinorsBelow matrix → ToleranceUnused (ofInts matrix) rows cols) :=
  ⟨rank_eq_nonzeroRows (h.map _) hrows hcols, toleranceUnused_of_minors h⟩

theorem rank_agrees_with_echelon_wide :
    MinorsBelow [[2, 4, 1], [1, 2, 3]] ∧
      ∃ result, reducedRowEchelonFormFinder (ofInts [[2, 4, 1], [1, 2, 3]]) 2 3 = some result ∧
        matrixRank (ofInts [[2, 4, 1], [1, 2, 3]]) = nonzeroRows result := by
  have hrect : Rect [[2, 4, 1], [1, 2, (3 : Int)]] 2 3 := ⟨rfl, by decide⟩
  have hminors : MinorsBelow [[2, 4, 1], [1, 2, 3]] :=
    minorsBelow_of_entries hrect (b := 4) (by decide) (by decide)
  obtain ⟨hagrees, hunused⟩ := rank_agrees_with_echelon [[2, 4, 1], [1, 2, 3]] hrect (by decide) (by decide)
  exact ⟨hminors, hagrees (hunused hminors)⟩

/-- Two rows with the determinant 1, of which the elimination leaves `10 ^ -11`. -/
theorem rank_differs_from_echelon :
    let matrix : Grid Int := [[10 ^ 11, 10 ^ 11 - 1], [10 ^ 11 + 1, 10 ^ 11]]
    Rect matrix 2 2 ∧ ¬ ∃ result, reducedRowEchelonFormFinder (ofInts matrix) 2 2 = some result ∧
      matrixRank (ofInts matrix) = nonzeroRows result := by
  intro matrix
  refine ⟨⟨rfl, by decide⟩, ?_⟩
  rintro ⟨result, hresult, hagree⟩
  have hrank : matrixRank (ofInts matrix) = 2 := by decide +kernel
  have hrows : (reducedRowEchelonFormFinder (ofInts matrix) 2 2).map nonzeroRows = some 1 := by
    decide +kernel
  rw [hresult, Option.map_some, Option.some.injEq] at hrows
  omega

end CalSci.Echelon
