import CalSci.GridMatrix
import Mathlib.LinearAlgebra.Matrix.Echelon.Pivot

/-! The row space of a grid, which the row operations keep, and grids in echelon form up to a column. An
elimination moves from column to column: without a pivot the form only grows by the column, and with one by a
row as well. At the end the grid is an echelon matrix whose rank is the number of its pivots. -/

namespace GridRows

open Matrix

variable {K : Type} [Field K] {rows cols : Nat}

/-! ### The row space -/

/-- Row `i` as a vector; rows outside the grid are zero. -/
def rowVec (cols : Nat) (m : Grid K) (i : Nat) : Fin cols → K := fun j => entry m i j

def rowSpan (cols : Nat) (m : Grid K) : Submodule K (Fin cols → K) :=
  Submodule.span K (Set.range (rowVec cols m))

theorem rowVec_mem (cols : Nat) (m : Grid K) (i : Nat) : rowVec cols m i ∈ rowSpan cols m :=
  Submodule.subset_span ⟨i, rfl⟩

theorem rowSpan_le {m m' : Grid K} (h : ∀ i, rowVec cols m i ∈ rowSpan cols m') :
    rowSpan cols m ≤ rowSpan cols m' := by
  apply Submodule.span_le.mpr
  rintro _ ⟨i, rfl⟩
  exact h i

theorem rowSpan_eq_span_row {m : Grid K} (h : Rect m rows cols) :
    rowSpan cols m = Submodule.span K (Set.range (toMatrix rows cols m).row) := by
  apply le_antisymm
  · apply Submodule.span_le.mpr
    rintro _ ⟨i, rfl⟩
    rcases Nat.lt_or_ge i rows with hi | hi
    · exact Submodule.subset_span ⟨⟨i, hi⟩, rfl⟩
    · have hzero : rowVec cols m i = 0 := funext fun j => entry_of_row_le h hi j
      rw [hzero]
      exact Submodule.zero_mem _
  · apply Submodule.span_le.mpr
    rintro _ ⟨i, rfl⟩
    exact rowVec_mem cols m i

theorem rowSpan_liftRow {m : Grid K} (h : Rect m rows cols) {k i : Nat} (hk : k ≤ i) (hi : i < rows) :
    rowSpan cols (liftRow m k i) = rowSpan cols m := by
  have hrow : rowVec cols (liftRow m k i) = rowVec cols m ∘ Equiv.swap k i :=
    funext fun a => funext fun j => (liftRow_spec h hk hi).2 a j
  rw [rowSpan, hrow, (Equiv.swap k i).surjective.range_comp, rowSpan]

theorem rowSpan_scaleRow {m : Grid K} (h : Rect m rows cols) {i : Nat} (hi : i < rows) {p : K} (hp : p ≠ 0) :
    rowSpan cols (scaleRow m i p) = rowSpan cols m := by
  have hrow : ∀ a, rowVec cols (scaleRow m i p) a = if a = i then p⁻¹ • rowVec cols m a else rowVec cols m a := by
    intro a
    funext j
    rw [rowVec, entry_scaleRow h hi, apply_ite (fun v : Fin cols → K => v j)]
    rw [Pi.smul_apply, smul_eq_mul, rowVec, div_eq_inv_mul]
  apply le_antisymm
  · apply rowSpan_le
    intro a
    rw [hrow]
    split
    · exact Submodule.smul_mem _ _ (rowVec_mem cols m a)
    · exact rowVec_mem cols m a
  · apply rowSpan_le
    intro a
    have hmem := rowVec_mem cols (scaleRow m i p) a
    rw [hrow] at hmem
    split at hmem
    · have hback := Submodule.smul_mem _ p hmem
      rwa [smul_smul, mul_inv_cancel₀ hp, one_smul] at hback
    · exact hmem

theorem rowSpan_subRow {m : Grid K} (h : Rect m rows cols) {i k : Nat} (hi : i < rows) (hk : k < rows)
    (hik : i ≠ k) (factor : K) : rowSpan cols (subRow m i k factor) = rowSpan cols m := by
  have hrow : ∀ a, rowVec cols (subRow m i k factor) a =
      if a = i then rowVec cols m a - factor • rowVec cols m k else rowVec cols m a := by
    intro a
    funext j
    rw [rowVec, entry_subRow h hi hk, apply_ite (fun v : Fin cols → K => v j)]
    rfl
  apply le_antisymm
  · apply rowSpan_le
    intro a
    rw [hrow]
    split
    · exact Submodule.sub_mem _ (rowVec_mem cols m a) (Submodule.smul_mem _ _ (rowVec_mem cols m k))
    · exact rowVec_mem cols m a
  · have hpivot := rowVec_mem cols (subRow m i k factor) k
    rw [hrow, if_neg (Ne.symm hik)] at hpivot
    apply rowSpan_le
    intro a
    have hmem := rowVec_mem cols (subRow m i k factor) a
    rw [hrow] at hmem
    split at hmem
    · have hback := Submodule.add_mem _ hmem (Submodule.smul_mem _ factor hpivot)
      rwa [sub_add_cancel] at hback
    · exact hmem

theorem rowSpan_clearRows (test : K → Bool) {k : Nat} (hk : k < rows) (col : Nat) {indices : List Nat}
    (hlt : ∀ i ∈ indices, i < rows ∧ i ≠ k) {m : Grid K} (h : Rect m rows cols) :
    rowSpan cols (clearRows test k col indices m) = rowSpan cols m := by
  induction indices generalizing m with
  | nil => rfl
  | cons i indices ih =>
      obtain ⟨⟨hi, hik⟩, hrest⟩ := List.forall_mem_cons.mp hlt
      rw [clearRows, List.foldl_cons]
      split
      · apply (ih hrest (h.subRow hk i _)).trans
        rw [rowSpan_subRow h hi hk hik]
      · exact ih hrest h

theorem rowSpan_raiseRow {m : Grid K} (h : Rect m rows cols) {k i col : Nat} (hk : k ≤ i) (hi : i < rows)
    (hne : entry m i col ≠ 0) : rowSpan cols (raiseRow m k i col) = rowSpan cols m := by
  rw [raiseRow, rowSpan_scaleRow (liftRow_spec h hk hi).1 (by omega), rowSpan_liftRow h hk hi]
  rwa [entry_liftRow_self h hk hi]

/-! ### Echelon form up to a column -/

/-- The first rows lead with a one in the columns `pivots`, further to the right from row to row; the other
rows are zero up to column `col`. -/
structure Staircase (m : Grid K) (pivots : List Nat) (col : Nat) : Prop where
  sorted : pivots.Pairwise (· < ·)
  searched : ∀ c ∈ pivots, c < col
  one : ∀ i c, pivots[i]? = some c → entry m i c = 1
  left : ∀ i c, pivots[i]? = some c → ∀ j, j < c → entry m i j = 0
  rest : ∀ i j, pivots.length ≤ i → j < col → entry m i j = 0

section Staircase

variable {m : Grid K} {pivots : List Nat} {col : Nat}

theorem Staircase.start (m : Grid K) : Staircase m [] 0 :=
  ⟨List.Pairwise.nil, nofun, nofun, nofun, nofun⟩

theorem Staircase.lt_cols (h : Staircase m pivots col) (hrect : Rect m rows cols) {i c : Nat}
    (hic : pivots[i]? = some c) : i < rows ∧ c < cols := by
  have hone := h.one i c hic
  constructor
  · by_contra hle
    rw [entry_of_row_le hrect (Nat.le_of_not_lt hle)] at hone
    exact zero_ne_one hone
  · by_contra hle
    rw [entry_of_col_le hrect i (Nat.le_of_not_lt hle)] at hone
    exact zero_ne_one hone

/-- A column without a pivot. -/
theorem Staircase.skip (h : Staircase m pivots col)
    (hzero : ∀ i, pivots.length ≤ i → entry m i col = 0) : Staircase m pivots (col + 1) := by
  refine ⟨h.sorted, fun c hc => (h.searched c hc).trans (Nat.lt_succ_self _), h.one, h.left, fun i j hi hj => ?_⟩
  rcases Nat.lt_succ_iff_lt_or_eq.mp hj with hlt | rfl
  · exact h.rest i j hi hlt
  · exact hzero i hi

theorem getElem?_snoc {c d i : Nat} (hic : (pivots ++ [d])[i]? = some c) :
    i < pivots.length ∧ pivots[i]? = some c ∨ i = pivots.length ∧ c = d := by
  rw [List.getElem?_append] at hic
  split at hic
  · next hi => exact .inl ⟨hi, hic⟩
  · next hi =>
      obtain ⟨hlast, heq⟩ := List.getElem?_eq_some_iff.mp hic
      rw [List.length_singleton] at hlast
      refine .inr ⟨by omega, ?_⟩
      rw [← heq, List.getElem_singleton]

/-- The next row of the form: it leads with a one in column `col`, the rows above it are as they were up to that
column, and the rows below it are zero there too. -/
theorem Staircase.snoc (h : Staircase m pivots col) {m' : Grid K}
    (hkeep : ∀ i j, i < pivots.length → j < col → entry m' i j = entry m i j)
    (hone : entry m' pivots.length col = 1) (hleft : ∀ j, j < col → entry m' pivots.length j = 0)
    (hrest : ∀ i j, pivots.length < i → j < col + 1 → entry m' i j = 0) :
    Staircase m' (pivots ++ [col]) (col + 1) := by
  refine ⟨?_, fun c hc => ?_, fun i c hic => ?_, fun i c hic j hj => ?_, fun i j hi hj => ?_⟩
  · refine List.pairwise_append.mpr ⟨h.sorted, List.pairwise_singleton _ _, fun c hc c' hc' => ?_⟩
    rw [List.mem_singleton.mp hc']
    exact h.searched c hc
  · rcases List.mem_append.mp hc with hold | hnew
    · exact (h.searched c hold).trans (Nat.lt_succ_self _)
    · rw [List.mem_singleton.mp hnew]
      exact Nat.lt_succ_self _
  · rcases getElem?_snoc hic with ⟨hi, hold⟩ | ⟨rfl, rfl⟩
    · rw [hkeep i c hi (h.searched c (List.mem_of_getElem? hold)), h.one i c hold]
    · exact hone
  · rcases getElem?_snoc hic with ⟨hi, hold⟩ | ⟨rfl, rfl⟩
    · rw [hkeep i j hi (hj.trans (h.searched c (List.mem_of_getElem? hold))), h.left i c hold j hj]
    · exact hleft j hj
  · rw [List.length_append, List.length_singleton] at hi
    exact hrest i j (by omega) hj

/-- A column with a pivot in row `i`: it becomes the next row of the form, and at least the rows below it are
cleared. -/
theorem Staircase.pivot (h : Staircase m pivots col) (hrect : Rect m rows cols) {i : Nat}
    (hk : pivots.length ≤ i) (hi : i < rows) (hne : entry m i col ≠ 0) (test : K → Bool) {indices : List Nat}
    (hlt : ∀ a ∈ indices, a < rows ∧ a ≠ pivots.length) (hnodup : indices.Nodup)
    (hbelow : ∀ a, pivots.length < a → a < rows → a ∈ indices)
    (htest : ∀ a ∈ indices, test (entry m (Equiv.swap pivots.length i a) col) = false →
      entry m (Equiv.swap pivots.length i a) col = 0) :
    Staircase (clearRows test pivots.length col indices (raiseRow m pivots.length i col)) (pivots ++ [col])
      (col + 1) := by
  obtain ⟨hrect', hpivot, hcleared, hother⟩ := clearRows_raiseRow test col hrect hk hi hlt hnodup htest
  apply h.snoc
  · -- up to the pivot's column the rows above it stay as they are, as its own row is zero there
    intro a j ha hj
    have hswap : Equiv.swap pivots.length i a = a := Equiv.swap_apply_of_ne_of_ne (by omega) (by omega)
    by_cases hmem : a ∈ indices
    · rw [hcleared a j hmem, hswap, h.rest i j hk hj]
      ring
    · rw [hother a j (by omega) hmem, hswap]
  · rw [hpivot, div_self hne]
  · intro j hj
    rw [hpivot, h.rest i j hk hj, zero_div]
  · intro a j ha hj
    rcases Nat.lt_or_ge a rows with hrow | hrow
    · rw [hcleared a j (hbelow a ha hrow)]
      rcases Nat.lt_succ_iff_lt_or_eq.mp hj with hlt | rfl
      · have hswap : pivots.length ≤ Equiv.swap pivots.length i a := by
          rw [Equiv.swap_apply_def]
          split_ifs <;> omega
        rw [h.rest _ j hswap hlt, h.rest i j hk hlt]
        ring
      · rw [div_self hne]
        ring
    · exact entry_of_row_le hrect' hrow j

/-- Clearing above a pivot: a row changes from the column of that pivot on only, and never below. -/
theorem Staircase.entry_clearRows (h : Staircase m pivots col) (hrect : Rect m rows cols) {r c : Nat}
    (hrc : pivots[r]? = some c) (test : K → Bool) :
    Rect (clearRows test r c (List.range r) m) rows cols ∧
      (∀ a j, (a < r → j < c) → entry (clearRows test r c (List.range r) m) a j = entry m a j) ∧
      ∀ a j, a < r → entry (clearRows test r c (List.range r) m) a j =
        if test (entry m a c) = true then entry m a j - entry m a c * entry m r j else entry m a j := by
  have hr : r < rows := (h.lt_cols hrect hrc).1
  have hlt : ∀ a ∈ List.range r, a < rows ∧ a ≠ r := by
    intro a ha
    have := List.mem_range.mp ha
    omega
  obtain ⟨hrect', hentry⟩ := clearRows_spec test hr c hlt List.nodup_range hrect
  refine ⟨hrect', fun a j haj => ?_, fun a j ha => ?_⟩
  · rw [hentry]
    split
    · next hmem => rw [h.left r c hrc j (haj (List.mem_range.mp hmem.1)), mul_zero, sub_zero]
    · rfl
  · rw [hentry]
    simp only [List.mem_range, ha, true_and]

theorem Staircase.clearRows (h : Staircase m pivots col) (hrect : Rect m rows cols) {r c : Nat}
    (hrc : pivots[r]? = some c) (test : K → Bool) :
    Staircase (clearRows test r c (List.range r) m) pivots col := by
  obtain ⟨-, hkeep, -⟩ := h.entry_clearRows hrect hrc test
  obtain ⟨hr, hc⟩ := List.getElem?_eq_some_iff.mp hrc
  -- the pivots above are further to the left
  have hbefore : ∀ a c', pivots[a]? = some c' → a < r → c' < c := by
    intro a c' hac har
    obtain ⟨ha, rfl⟩ := List.getElem?_eq_some_iff.mp hac
    rw [← hc]
    exact List.pairwise_iff_getElem.mp h.sorted a r ha hr har
  refine ⟨h.sorted, h.searched, fun a c' hac => ?_, fun a c' hac j hj => ?_, fun a j ha hj => ?_⟩
  · rw [hkeep a c' (hbefore a c' hac), h.one a c' hac]
  · rw [hkeep a j fun har => hj.trans (hbefore a c' hac har), h.left a c' hac j hj]
  · rw [hkeep a j fun har => by omega, h.rest a j ha hj]

/-- At the end of the rows or of the columns all other rows are zero. -/
theorem Staircase.rest_eq_zero (h : Staircase m pivots col) (hrect : Rect m rows cols)
    (hend : rows ≤ pivots.length ∨ cols ≤ col) {i : Nat} (hi : pivots.length ≤ i) (j : Nat) :
    entry m i j = 0 := by
  rcases hend with hrows | hcols
  · exact entry_of_row_le hrect (hrows.trans hi) j
  · rcases Nat.lt_or_ge j cols with hj | hj
    · exact h.rest i j hi (hj.trans_le hcols)
    · exact entry_of_col_le hrect i hj

/-! ### As a matrix -/

/-- The leading entries are the pivots. -/
theorem Staircase.isLeadingEntry_iff (h : Staircase m pivots col)
    (hrest : ∀ i j, pivots.length ≤ i → entry m i j = 0) (i : Fin rows) (c : Fin cols) :
    (toMatrix rows cols m).IsLeadingEntry i c ↔ pivots[(i : Nat)]? = some (c : Nat) := by
  constructor
  · rintro ⟨hleft, hne⟩
    rw [toMatrix_apply] at hne
    rcases Nat.lt_or_ge (i : Nat) pivots.length with hi | hi
    · have hpivot := List.getElem?_eq_getElem hi
      rw [hpivot]
      rcases Nat.lt_trichotomy pivots[(i : Nat)] c with hlt | heq | hgt
      · have hzero := hleft ⟨pivots[(i : Nat)], hlt.trans c.isLt⟩ hlt
        rw [toMatrix_apply] at hzero
        exact absurd ((h.one i _ hpivot).symm.trans hzero) one_ne_zero
      · rw [heq]
      · exact absurd (h.left i _ hpivot c hgt) hne
    · exact absurd (hrest i c hi) hne
  · intro hic
    refine ⟨fun j hj => h.left i c hic j hj, ?_⟩
    rw [toMatrix_apply, h.one i c hic]
    exact one_ne_zero

theorem Staircase.isRowEchelon (h : Staircase m pivots col)
    (hrest : ∀ i j, pivots.length ≤ i → entry m i j = 0) : (toMatrix rows cols m).IsRowEchelon := by
  intro i₁ i₂ hlt j₂ hzero
  rcases Nat.lt_or_ge (i₂ : Nat) pivots.length with hi | hi
  · have hlt' : (i₁ : Nat) < i₂ := hlt
    have hstep := List.pairwise_iff_getElem.mp h.sorted i₁ i₂ (by omega) hi hlt'
    refine h.left i₂ _ (List.getElem?_eq_getElem hi) j₂ (lt_of_le_of_lt ?_ hstep)
    by_contra hgt
    have hone := h.one i₁ _ (List.getElem?_eq_getElem (by omega))
    have hpivot := hzero ⟨pivots[(i₁ : Nat)], (Nat.lt_of_not_le hgt).trans j₂.isLt⟩ (Nat.lt_of_not_le hgt)
    rw [toMatrix_apply] at hpivot
    exact one_ne_zero (hone.symm.trans hpivot)
  · exact hrest i₂ j₂ hi

/-- The number of pivots is the rank. -/
theorem Staircase.rank_eq (h : Staircase m pivots col) (hrect : Rect m rows cols)
    (hrest : ∀ i j, pivots.length ≤ i → entry m i j = 0) :
    (toMatrix rows cols m).rank = pivots.length := by
  have hlt : ∀ i : Nat, (hi : i < pivots.length) → i < rows ∧ pivots[i] < cols :=
    fun i hi => h.lt_cols hrect (List.getElem?_eq_getElem hi)
  have hpivoted : (toMatrix rows cols m).IsPivotedBy fun i =>
      if hi : (i : Nat) < pivots.length then ((⟨pivots[(i : Nat)], (hlt i hi).2⟩ : Fin cols) : WithTop (Fin cols))
      else ⊤ := by
    refine ⟨h.isRowEchelon hrest, fun i => ?_⟩
    by_cases hi : (i : Nat) < pivots.length
    · simp only [dif_pos hi, WithTop.coe_lt_coe, WithTop.coe_inj]
      have hlead := (h.isLeadingEntry_iff hrest i ⟨pivots[(i : Nat)], (hlt i hi).2⟩).mpr
        (List.getElem?_eq_getElem hi)
      refine ⟨hlead.1, ?_⟩
      rintro c rfl
      exact hlead.2
    · simp only [dif_neg hi]
      exact ⟨fun j _ => hrest i j (Nat.le_of_not_lt hi), fun c hc => absurd hc.symm WithTop.coe_ne_top⟩
  have hle : pivots.length ≤ rows := by
    by_contra hgt
    exact absurd (hlt rows (Nat.lt_of_not_le hgt)).1 (lt_irrefl rows)
  rw [hpivoted.rank_eq]
  have hfilter : (Finset.univ.filter fun i : Fin rows => (i : Nat) < pivots.length).card = pivots.length := by
    rw [Fin.card_filter_val_lt, Nat.min_eq_right hle]
  refine (congrArg Finset.card (Finset.filter_congr fun i _ => ?_)).trans hfilter
  by_cases hi : (i : Nat) < pivots.length
  · rw [dif_pos hi]
    exact iff_of_true WithTop.coe_ne_top hi
  · rw [dif_neg hi]
    exact iff_of_false (not_not.mpr rfl) hi

/-- With zeros above the pivots as well the form is the reduced one. -/
theorem Staircase.isReducedRowEchelon (h : Staircase m pivots col)
    (hrest : ∀ i j, pivots.length ≤ i → entry m i j = 0)
    (habove : ∀ i c, pivots[i]? = some c → ∀ a, a < i → entry m a c = 0) :
    (toMatrix rows cols m).IsReducedRowEchelon := by
  refine ⟨h.isRowEchelon hrest, fun i c hic => ?_, fun i₁ i₂ c hlt hic => ?_⟩
  · exact h.one i c ((h.isLeadingEntry_iff hrest i c).mp hic)
  · exact habove i₂ c ((h.isLeadingEntry_iff hrest i₂ c).mp hic) i₁ hlt

end Staircase

end GridRows
