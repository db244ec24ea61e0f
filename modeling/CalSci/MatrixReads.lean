import CalSci.Determinants
import CalSci.RaggedRows

/-! `det_cal` of `determinant.py` and the loops of `matrix_mul_2.py` with every index checked. Both read each row
up to the announced number of columns: rows that are longer give what their first entries give, and a row that is
shorter raises. -/

namespace CalSci.Determinants

open GridRows RowObjects

/-! ### det_cal -/

/-- `[[matrix[i][k] for k in range(n) if k != j] for i in range(1, n)]`. -/
def submatrix (matrix : Grid Int) (n j : Nat) : Except Fault (Grid Int) :=
  (List.range' 1 (n - 1)).mapM fun i => ((List.range n).filter fun k => k ≠ j).mapM fun k => item matrix i k

def detCalChecked : Grid Int → Nat → Except Fault Int
  | _, 0 => pure 0
  | matrix, 1 => item matrix 0 0
  | matrix, 2 => do
      return (← item matrix 0 0) * (← item matrix 1 1) - (← item matrix 0 1) * (← item matrix 1 0)
  | matrix, n + 3 =>
      (List.range (n + 3)).foldlM (fun det j => do
        let minor ← submatrix matrix (n + 3) j
        return det + (-1) ^ j * (← item matrix 0 j) * (← detCalChecked minor (n + 2))) 0

variable {matrix : Grid Int} {n : Nat}

theorem submatrix_of_trim_rect (h : Rect (trim n matrix) n n) (j : Nat) : submatrix matrix n j =
    .ok (subgrid (List.range' 1 (n - 1)) ((List.range n).filter fun k => k ≠ j) (trim n matrix)) := by
  refine Runs.mapM_ok fun i hi => Runs.mapM_ok fun k hk => item_of_trim_rect h ?_ ?_
  · have hmem := List.mem_range'_1.mp hi
    omega
  · exact List.mem_range.mp (List.mem_of_mem_filter hk)

/-- Without its first row and one column the rows are of one length. -/
theorem firstMinor_rect (h : Rect (trim (n + 3) matrix) (n + 3) (n + 3)) {j : Nat} (hj : j < n + 3) :
    Rect (subgrid (List.range' 1 (n + 2)) ((List.range (n + 3)).filter fun k => k ≠ j) (trim (n + 3) matrix))
      (n + 2) (n + 2) := by
  have hminor := Rect.getMinor h (Nat.zero_le _) (by omega : j ≤ n + 2)
  rwa [getMinor, h.length, filter_range_ne (Nat.zero_le (n + 2))] at hminor

/-- On rows that are long enough `det_cal` returns the determinant of their first entries. -/
theorem detCalChecked_of_trim_rect (h : Rect (trim n matrix) n n) :
    detCalChecked matrix n = .ok (detCal (trim n matrix) n) := by
  induction matrix, n using detCalChecked.induct with
  | case1 matrix => rfl
  | case2 matrix => exact item_of_trim_rect h Nat.one_pos Nat.one_pos
  | case3 matrix =>
      simp only [detCalChecked, item_of_trim_rect h (by decide : 0 < 2) (by decide : 0 < 2),
        item_of_trim_rect h (by decide : 0 < 2) (by decide : 1 < 2),
        item_of_trim_rect h (by decide : 1 < 2) (by decide : 0 < 2),
        item_of_trim_rect h (by decide : 1 < 2) (by decide : 1 < 2), Runs.ok_bind]
      rfl
  | case4 matrix n ih =>
      refine Runs.foldlM_ok (fun det j hj => ?_) 0
      have hlt : j < n + 3 := List.mem_range.mp hj
      have hminor := firstMinor_rect h hlt
      have hih := ih _ (by rwa [trim_of_rect hminor])
      rw [trim_of_rect hminor] at hih
      rw [submatrix_of_trim_rect h j, Runs.ok_bind, item_of_trim_rect h (by omega) hlt, Runs.ok_bind]
      exact congrArg (· >>= fun d => pure (det + (-1) ^ j * entry (trim (n + 3) matrix) 0 j * d)) hih

/-- Where `det_cal` has returned, it has read every entry. -/
theorem detCalChecked_reaches {det : Int} (h : detCalChecked matrix (n + 3) = .ok det) {i k : Nat} (hi : i < n + 3)
    (hk : k < n + 3) : Reaches (matrix.map List.length) i k := by
  -- an entry below the first row is read in a turn other than its own column's
  obtain ⟨j, hj, hkj⟩ : ∃ j, j < n + 3 ∧ (i ≠ 0 → k ≠ j) ∧ (i = 0 → j = k) := by
    rcases Nat.eq_zero_or_pos i with rfl | hpos
    · exact ⟨k, hk, by omega, by omega⟩
    · rcases Nat.eq_zero_or_pos k with rfl | hkpos
      · exact ⟨1, by omega, by omega, by omega⟩
      · exact ⟨0, by omega, by omega, by omega⟩
  obtain ⟨_, _, hturn⟩ := Runs.foldlM_turn h (List.mem_range.mpr hj)
  obtain ⟨minor, hminor, hrest⟩ := Runs.ok_of_bind hturn
  obtain ⟨x, hx, -⟩ := Runs.ok_of_bind hrest
  rcases Nat.eq_zero_or_pos i with rfl | hpos
  · rw [hkj.2 rfl] at hx
    exact item_reaches hx
  · obtain ⟨row, hrow⟩ := Runs.mapM_element hminor (List.mem_range'_1.mpr (by omega : 1 ≤ i ∧ i < 1 + (n + 3 - 1)))
    have hmem : k ∈ (List.range (n + 3)).filter fun k => k ≠ j :=
      List.mem_filter.mpr ⟨List.mem_range.mpr hk, decide_eq_true (hkj.1 (by omega))⟩
    obtain ⟨y, hy⟩ := Runs.mapM_element hrow hmem
    exact item_reaches hy

/-! ### matrix_mul_2.py -/

def matrixMul2Checked (r1 c1 c2 : Nat) (matrix1 matrix2 : Grid Int) : Except Fault (Grid Int) :=
  (List.range r1).foldlM (fun result i =>
    (List.range c2).foldlM (fun result j =>
      (List.range c1).foldlM (fun result k => do
        let x ← item matrix1 i k
        let y ← item matrix2 k j
        return setEntry result i j (entry result i j + x * y)) result) result)
    (tabulate r1 c2 fun _ _ => 0)

variable {r1 c1 c2 : Nat} {matrix1 matrix2 : Grid Int}

/-- On rows that are long enough the loops return the product of their first entries. -/
theorem matrixMul2Checked_of_trim_rect (h1 : Rect (trim c1 matrix1) r1 c1) (h2 : Rect (trim c2 matrix2) c1 c2) :
    matrixMul2Checked r1 c1 c2 matrix1 matrix2 =
      .ok (matrixMul2 r1 c1 c2 (trim c1 matrix1) (trim c2 matrix2)) := by
  refine Runs.foldlM_ok (fun _ i hi => Runs.foldlM_ok (fun _ j hj => Runs.foldlM_ok (fun _ k hk => ?_) _) _) _
  rw [List.mem_range] at hi hj hk
  beta_reduce
  rw [item_of_trim_rect h1 hi hk, Runs.ok_bind, item_of_trim_rect h2 hk hj, Runs.ok_bind]
  rfl

/-- Where the loops have returned, they have read every entry of both matrices. -/
theorem matrixMul2Checked_reaches {result : Grid Int} (h : matrixMul2Checked r1 c1 c2 matrix1 matrix2 = .ok result)
    {i j k : Nat} (hi : i < r1) (hj : j < c2) (hk : k < c1) :
    Reaches (matrix1.map List.length) i k ∧ Reaches (matrix2.map List.length) k j := by
  obtain ⟨_, _, hrow⟩ := Runs.foldlM_turn h (List.mem_range.mpr hi)
  obtain ⟨_, _, hcolumn⟩ := Runs.foldlM_turn hrow (List.mem_range.mpr hj)
  obtain ⟨_, _, hturn⟩ := Runs.foldlM_turn hcolumn (List.mem_range.mpr hk)
  obtain ⟨x, hx, hrest⟩ := Runs.ok_of_bind hturn
  obtain ⟨y, hy, -⟩ := Runs.ok_of_bind hrest
  exact ⟨item_reaches hx, item_reaches hy⟩

end CalSci.Determinants
