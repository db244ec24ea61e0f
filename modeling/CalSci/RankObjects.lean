import CalSci.GridEchelon
import CalSci.MatrixAgree
import CalSci.RowObjects

/-! `matrix_rank` of `apps/scientific_calculator/rank.py` on list objects, as the source has it: it copies the
caller's matrix and works on the rows of the copy in place. On the copy it does what the loop over grids does,
which counts the pivots of an echelon form with the row space of the matrix. -/

namespace CalSci.Echelon

open GridRows RowObjects

variable {rows cols : Nat}

/-! ### The number of pivots -/

/-- What holds at the head of the loop: the form has come to the column, and the row space is the same. -/
structure Eliminated (rows cols : Nat) (space : Submodule ℚ (Fin cols → ℚ)) (s : RankState) : Prop where
  rect : Rect s.matrix rows cols
  form : ∃ pivots, pivots.length = s.rank ∧ Staircase s.matrix pivots s.pivotCol
  span : rowSpan cols s.matrix = space

/-- The rows that a turn clears. -/
theorem mem_others {rank a : Nat} :
    a ∈ (List.range rows).filter (fun i => i ≠ rank) ↔ a < rows ∧ a ≠ rank := by
  rw [List.mem_filter, List.mem_range, decide_eq_true_iff]

theorem RankState.rect_step {s : RankState} (h : Rect s.matrix rows cols) :
    Rect (s.step rows).matrix rows cols := by
  cases hfirst : firstRow (fun x => decide (x ≠ 0)) s.matrix s.pivotCol s.rank rows with
  | none =>
      rw [step_none hfirst]
      exact h
  | some i =>
      obtain ⟨⟨hk, hi⟩, -⟩ := firstRow_some hfirst
      rw [step_some h hfirst]
      exact (clearRows_spec (fun x => decide (x ≠ 0)) (by omega) s.pivotCol (fun a ha => mem_others.mp ha)
        (List.nodup_range.filter _) (raiseRow_spec h hk hi).1).1

theorem Eliminated.step {space : Submodule ℚ (Fin cols → ℚ)} {s : RankState}
    (h : Eliminated rows cols space s) : Eliminated rows cols space (s.step rows) := by
  obtain ⟨pivots, hrank, hform⟩ := h.form
  cases hfirst : firstRow (fun x => decide (x ≠ 0)) s.matrix s.pivotCol s.rank rows with
  | none =>
      rw [RankState.step_none hfirst]
      refine ⟨h.rect, ⟨pivots, hrank, hform.skip fun i hi => ?_⟩, h.span⟩
      rcases Nat.lt_or_ge i rows with hlt | hge
      · have hzero := firstRow_none hfirst (by omega : s.rank ≤ i) hlt
        exact not_not.mp (of_decide_eq_false hzero)
      · exact entry_of_row_le h.rect hge _
  | some i =>
      obtain ⟨⟨hk, hi⟩, htest⟩ := firstRow_some hfirst
      have hne : entry s.matrix i s.pivotCol ≠ 0 := of_decide_eq_true htest
      have hrect := RankState.rect_step h.rect
      rw [RankState.step_some h.rect hfirst] at hrect ⊢
      refine ⟨hrect, ⟨pivots ++ [s.pivotCol], ?_, ?_⟩, ?_⟩
      · rw [List.length_append, hrank, List.length_singleton]
      · simp only [← hrank] at hk ⊢
        exact hform.pivot h.rect hk hi hne _ (fun a ha => mem_others.mp ha) (List.nodup_range.filter _)
          (fun a ha hlt => mem_others.mpr ⟨hlt, by omega⟩)
          fun a _ hfalse => not_not.mp (of_decide_eq_false hfalse)
      · rw [rowSpan_clearRows _ (by omega) _ (fun a ha => mem_others.mp ha) (raiseRow_spec h.rect hk hi).1,
          rowSpan_raiseRow h.rect hk hi hne, h.span]

/-- Each turn moves on by a column. -/
theorem RankState.loop_ends (rows cols : Nat) (matrix : Grid ℚ) :
    (Runs.loop (RankState.guard rows cols) (RankState.step rows) cols ⟨matrix, 0, 0⟩).guard rows cols = false := by
  have hless : ∀ s : RankState, s.guard rows cols = true → cols - (s.step rows).pivotCol < cols - s.pivotCol := by
    intro s hs
    have hlt : s.pivotCol < cols := by
      rw [guard, Bool.and_eq_true, decide_eq_true_iff, decide_eq_true_iff] at hs
      exact hs.1
    have hcol : (s.step rows).pivotCol = s.pivotCol + 1 := by
      rw [step]
      split
      · rfl
      · rfl
    omega
  exact Runs.loop_exits (fun s : RankState => cols - s.pivotCol) hless (Nat.sub_le _ _)

/-- The loop counts up to the rank. -/
theorem loop_rank {matrix : Grid ℚ} (h : Rect matrix rows cols) :
    (Runs.loop (RankState.guard rows cols) (RankState.step rows) cols ⟨matrix, 0, 0⟩).rank =
      (toMatrix rows cols matrix).rank := by
  have hinv : Eliminated rows cols (rowSpan cols matrix)
      (Runs.loop (RankState.guard rows cols) (RankState.step rows) cols ⟨matrix, 0, 0⟩) :=
    Runs.loop_invariant (fun s hs _ => hs.step) ⟨h, ⟨[], rfl, Staircase.start matrix⟩, rfl⟩ cols
  have hends := RankState.loop_ends rows cols matrix
  obtain ⟨s, hs⟩ : ∃ s, Runs.loop (RankState.guard rows cols) (RankState.step rows) cols ⟨matrix, 0, 0⟩ = s :=
    ⟨_, rfl⟩
  rw [hs] at hinv hends ⊢
  obtain ⟨pivots, hrank, hform⟩ := hinv.form
  have hend : rows ≤ pivots.length ∨ cols ≤ s.pivotCol := by
    rw [RankState.guard, Bool.and_eq_false_iff, decide_eq_false_iff_not, decide_eq_false_iff_not] at hends
    omega
  have hspan := hinv.span
  rw [rowSpan_eq_span_row hinv.rect, rowSpan_eq_span_row h] at hspan
  calc s.rank = pivots.length := hrank.symm
    _ = (toMatrix rows cols s.matrix).rank :=
        (hform.rank_eq hinv.rect fun i j hi => hform.rest_eq_zero hinv.rect hend hi j).symm
    _ = (toMatrix rows cols matrix).rank := by
        rw [Matrix.rank_eq_finrank_span_row, Matrix.rank_eq_finrank_span_row, hspan]

/-! ### On list objects -/

/-- `while pivot_row < rows and matrix[pivot_row][pivot_col] == 0`, from `rank` on. -/
def seekPivot (matrix rows rank pivotCol : Nat) : Program ℚ Nat :=
  whileLoop
    (fun pivotRow =>
      if pivotRow < rows then do return decide ((← getItem matrix pivotRow pivotCol) = 0) else pure false)
    (fun pivotRow => pure (pivotRow + 1)) rows rank

/-- `for j in range(cols): matrix[rank][j] /= pivot`. -/
def divideRow (matrix cols rank : Nat) (pivot : ℚ) : Program ℚ Unit :=
  forEach (fun _ j => do setItem matrix rank j (← divide (← getItem matrix rank j) pivot)) (List.range cols) ()

/-- `for j in range(cols): matrix[i][j] -= factor * matrix[rank][j]`. -/
def subtractRow (matrix cols i rank : Nat) (factor : ℚ) : Program ℚ Unit :=
  forEach (fun _ j => do
    let x ← getItem matrix i j
    let y ← getItem matrix rank j
    setItem matrix i j (x - factor * y)) (List.range cols) ()

def clearColumn (matrix rows cols rank pivotCol : Nat) : Program ℚ Unit :=
  forEach (fun _ i =>
    onlyIf (i ≠ rank) do
      let factor ← getItem matrix i pivotCol
      onlyIf (factor ≠ 0) (subtractRow matrix cols i rank factor)) (List.range rows) ()

/-- The body of the loop, with `rank` and `pivot_col`. -/
def rankTurn (matrix rows cols : Nat) (s : Nat × Nat) : Program ℚ (Nat × Nat) := do
  let pivotRow ← seekPivot matrix rows s.1 s.2
  if pivotRow = rows then pure (s.1, s.2 + 1)
  else do
    onlyIf (pivotRow ≠ s.1) (swapItems matrix s.1 pivotRow)
    let pivot ← getItem matrix s.1 s.2
    onlyIf (pivot ≠ 0) (divideRow matrix cols s.1 pivot)
    clearColumn matrix rows cols s.1 s.2
    pure (s.1 + 1, s.2 + 1)

def matrixRankObject (matrix : Nat) : Program ℚ Nat := do
  let rows ← rowCount matrix
  if rows = 0 then pure 0
  else do
    let cols ← rowLength matrix 0
    if cols = 0 then pure 0
    else do
      let copy ← copyRows matrix
      let s ← whileLoop (fun s : Nat × Nat => pure (decide (s.2 < cols) && decide (s.1 < rows)))
        (rankTurn copy rows cols) cols (0, 0)
      pure s.1

/-! ### The copy as a grid -/

/-- The search moves on to the first row with an entry, or past the last row. -/
theorem loop_seek (m : Grid ℚ) (col : Nat) {n start : Nat} (hn : rows - start ≤ n) (hstart : start ≤ rows) :
    Runs.loop (fun i => decide (i < rows) && decide (entry m i col = 0)) (· + 1) n start =
      (firstRow (fun x => decide (x ≠ 0)) m col start rows).getD rows := by
  induction n generalizing start with
  | zero =>
      obtain rfl : start = rows := by omega
      rw [firstRow, Nat.sub_self]
      rfl
  | succ n ih =>
      rcases Nat.lt_or_ge start rows with hlt | hge
      · rw [firstRow, show rows - start = rows - (start + 1) + 1 by omega, List.range'_succ]
        by_cases hzero : entry m start col = 0
        · rw [Runs.loop_succ_of_guard (by rw [decide_eq_true hlt, decide_eq_true hzero]; rfl),
            ih (by omega) hlt, List.find?_cons_of_neg (by simpa using hzero)]
          rfl
        · rw [Runs.loop_of_not_guard (by rw [decide_eq_false hzero, Bool.and_false]),
            List.find?_cons_of_pos (by simpa using hzero), Option.getD_some]
      · obtain rfl : start = rows := by omega
        rw [Runs.loop_of_not_guard (by rw [decide_eq_false (lt_irrefl start), Bool.false_and]), firstRow,
          Nat.sub_self]
        rfl

section Copy

variable {base : Heap ℚ} {matrix : Nat} {m : Grid ℚ}

theorem seekPivot_does (h : Rect m rows cols) {rank pivotCol : Nat} (hrank : rank ≤ rows)
    (hcol : pivotCol < cols) : Does base matrix m (seekPivot matrix rows rank pivotCol)
      ((firstRow (fun x => decide (x ≠ 0)) m pivotCol rank rows).getD rows) m := by
  have hless : ∀ i, (decide (i < rows) && decide (entry m i pivotCol = 0)) = true →
      rows - (i + 1) < rows - i := by
    intro i hi
    have hlt := (Bool.and_eq_true_iff.mp hi).1
    rw [decide_eq_true_iff] at hlt
    omega
  have hends := Runs.loop_exits (fun i => rows - i) hless (show rows - rank ≤ rows by omega)
  have hguard : ∀ t s m', t = s ∧ m' = m → Does base matrix m' (if s < rows then do
      return decide ((← getItem matrix s pivotCol) = 0) else pure false)
      (decide (t < rows) && decide (entry m t pivotCol = 0)) m' := by
    rintro t s m' ⟨rfl, rfl⟩
    by_cases hlt : t < rows
    · rw [if_pos hlt, decide_eq_true hlt, Bool.true_and]
      exact (Does.getItem h hlt hcol).bind (.pure _)
    · rw [if_neg hlt, decide_eq_false hlt, Bool.false_and]
      exact .pure false
  obtain ⟨i, m', hdoes, hi, hm⟩ := Does.whileLoop (fun i => decide (i < rows) && decide (entry m i pivotCol = 0))
    (· + 1) (fun t s m' => t = s ∧ m' = m) hguard 
    (fun t s m' hrel _ => ⟨s + 1, m', .pure _, by rw [hrel.1], hrel.2⟩) ⟨rfl, rfl⟩ hends
  rw [← loop_seek m pivotCol (show rows - rank ≤ rows by omega) hrank, hi, ← hm]
  exact hm ▸ hdoes

theorem divideRow_does (h : Rect m rows cols) {rank : Nat} (hrank : rank < rows) {pivot : ℚ}
    (hpivot : pivot ≠ 0) :
    Does base matrix m (divideRow matrix cols rank pivot) () (scaleRow m rank pivot) := by
  rw [← foldl_scaleRow h hrank]
  refine Does.forEach_grid (fun m => Rect m rows cols) (fun m j hj hrect => ⟨?_, Rect.setEntry hrect _ _ _⟩) h
  have hlt := List.mem_range.mp hj
  exact (Does.getItem hrect hrank hlt).bind ((Does.divide _ hpivot).bind (Does.setItem hrect hrank hlt _))

theorem subtractRow_does (h : Rect m rows cols) {i rank : Nat} (hi : i < rows) (hrank : rank < rows)
    (hne : i ≠ rank) (factor : ℚ) :
    Does base matrix m (subtractRow matrix cols i rank factor) () (subRow m i rank factor) := by
  rw [← foldl_subRow h hi hrank hne]
  refine Does.forEach_grid (fun m => Rect m rows cols) (fun m j hj hrect => ⟨?_, Rect.setEntry hrect _ _ _⟩) h
  have hlt := List.mem_range.mp hj
  exact (Does.getItem hrect hi hlt).bind
    ((Does.getItem hrect hrank hlt).bind (Does.setItem hrect hi hlt _))

theorem clearColumn_does (h : Rect m rows cols) {rank pivotCol : Nat} (hrank : rank < rows)
    (hcol : pivotCol < cols) :
    Does base matrix m (clearColumn matrix rows cols rank pivotCol) ()
      (clearRows (fun x => decide (x ≠ 0)) rank pivotCol ((List.range rows).filter fun i => i ≠ rank) m) := by
  rw [clearRows, List.foldl_filter]
  refine Does.forEach_grid (fun m => Rect m rows cols) (fun m i hi hrect => ?_) h
  have hlt := List.mem_range.mp hi
  simp only [decide_eq_true_eq]
  constructor
  · exact Does.onlyIf fun hne => (Does.getItem hrect hlt hcol).bind
      (Does.onlyIf fun _ => subtractRow_does hrect hlt hrank hne _)
  · split_ifs
    · exact hrect.subRow hrank i _
    · exact hrect
    · exact hrect

/-- A turn does to the copy and the two counters what the turn over grids does. -/
theorem rankTurn_does {s : RankState} (h : Rect s.matrix rows cols) (hguard : s.guard rows cols = true) :
    Does base matrix s.matrix (rankTurn matrix rows cols (s.rank, s.pivotCol))
      ((s.step rows).rank, (s.step rows).pivotCol) (s.step rows).matrix := by
  rw [RankState.guard, Bool.and_eq_true, decide_eq_true_iff, decide_eq_true_iff] at hguard
  obtain ⟨hcol, hrank⟩ := hguard
  have hseek : Does base matrix s.matrix (seekPivot matrix rows s.rank s.pivotCol) _ s.matrix :=
    seekPivot_does h hrank.le hcol
  cases hfirst : firstRow (fun x => decide (x ≠ 0)) s.matrix s.pivotCol s.rank rows with
  | none =>
      rw [hfirst] at hseek
      rw [RankState.step_none hfirst]
      apply hseek.bind
      rw [Option.getD_none, if_pos rfl]
      exact .pure _
  | some i =>
      obtain ⟨⟨hk, hi⟩, htest⟩ := firstRow_some hfirst
      obtain ⟨hlift, -⟩ := liftRow_spec h hk hi
      have hne : entry (liftRow s.matrix s.rank i) s.rank s.pivotCol ≠ 0 := by
        rw [entry_liftRow_self h hk hi]
        exact of_decide_eq_true htest
      rw [hfirst] at hseek
      rw [RankState.step_some h hfirst]
      apply hseek.bind
      rw [Option.getD_some, if_neg hi.ne]
      apply (Does.onlyIf fun _ => Does.swapItems h hrank hi).bind
      apply (Does.getItem hlift hrank hcol).bind
      apply Does.bind (Does.onlyIf fun _ => divideRow_does hlift hrank hne)
      rw [if_pos hne]
      exact (clearColumn_does (raiseRow_spec h hk hi).1 hrank hcol).bind (.pure _)

/-- The whole loop, on the copy. -/
theorem rankLoop_does (base : Heap ℚ) (matrix : Nat) (h : Rect m rows cols) :
    ∃ s m', s.1 = (toMatrix rows cols m).rank ∧
    Does base matrix m (whileLoop (fun s : Nat × Nat => pure (decide (s.2 < cols) && decide (s.1 < rows)))
      (rankTurn matrix rows cols) cols (0, 0)) s m' := by
  have hguard : ∀ (t : RankState) (s : Nat × Nat) (m' : Grid ℚ),
      t.matrix = m' ∧ s = (t.rank, t.pivotCol) ∧ Rect m' rows cols →
        Does base matrix m' (pure (decide (s.2 < cols) && decide (s.1 < rows))) (t.guard rows cols) m' := by
    rintro t s m' ⟨rfl, rfl, -⟩
    exact .pure _
  have hbody : ∀ (t : RankState) (s : Nat × Nat) (m' : Grid ℚ),
      t.matrix = m' ∧ s = (t.rank, t.pivotCol) ∧ Rect m' rows cols → t.guard rows cols = true →
        ∃ s' m'', Does base matrix m' (rankTurn matrix rows cols s) s' m'' ∧ (t.step rows).matrix = m'' ∧
          s' = ((t.step rows).rank, (t.step rows).pivotCol) ∧ Rect m'' rows cols := by
    rintro t s m' ⟨rfl, rfl, hrect⟩ hturn
    exact ⟨_, _, rankTurn_does hrect hturn, rfl, rfl, RankState.rect_step hrect⟩
  obtain ⟨s, m', hdoes, -, hs, -⟩ := Does.whileLoop (RankState.guard rows cols) (RankState.step rows)
    (fun t s m' => t.matrix = m' ∧ s = (t.rank, t.pivotCol) ∧ Rect m' rows cols) hguard hbody
    (t := ⟨m, 0, 0⟩) ⟨rfl, rfl, h⟩ (RankState.loop_ends rows cols m)
  refine ⟨s, m', ?_, hdoes⟩
  rw [hs, loop_rank h]

/-- `matrix_rank` returns the rank, without an exception, and the objects there were are as before. -/
theorem matrixRankObject_run {h : Heap ℚ} (hshows : h.Shows matrix m) (hrect : Rect m rows cols) :
    ∃ h', exec (matrixRankObject matrix) h = (.ok (toMatrix rows cols m).rank, h') ∧
      h.rows <+: h'.rows ∧ h.matrices <+: h'.matrices := by
  have hcount := exec_rowCount hshows
  rw [hrect.length] at hcount
  rw [matrixRankObject, exec_bind_ok hcount]
  by_cases hrows : rows = 0
  · have hrank : (toMatrix rows cols m).rank = 0 := by
      have hle := (toMatrix rows cols m).rank_le_height
      omega
    rw [if_pos hrows, hrank]
    exact ⟨h, rfl, List.prefix_refl _, List.prefix_refl _⟩
  · have hlt : 0 < m.length := by
      rw [hrect.length]
      omega
    have hlength := exec_rowLength hshows (List.getElem?_eq_getElem hlt)
    rw [hrect.row_length _ (List.getElem_mem hlt)] at hlength
    rw [if_neg hrows, exec_bind_ok hlength]
    by_cases hcols : cols = 0
    · have hrank : (toMatrix rows cols m).rank = 0 := by
        have hle := (toMatrix rows cols m).rank_le_width
        omega
      rw [if_pos hcols, hrank]
      exact ⟨h, rfl, List.prefix_refl _, List.prefix_refl _⟩
    · obtain ⟨h', hcopy, hold⟩ := exec_copyRows hshows
      obtain ⟨s, m', hs, hloop⟩ := rankLoop_does h h.matrices.length hrect
      obtain ⟨h'', hrun, hold'⟩ := hloop h' hold
      refine ⟨h'', ?_, hold'.oldRows, hold'.oldMatrices⟩
      rw [if_neg hcols, exec_bind_ok hcopy, exec_bind_ok hrun, ← hs]
      rfl

end Copy

/-- The same for the function over grids. -/
theorem matrixRank_eq_rank {matrix : Grid ℚ} (h : Rect matrix rows cols) :
    matrixRank matrix = (toMatrix rows cols matrix).rank := by
  rcases Nat.eq_zero_or_pos rows with rfl | hrows
  · obtain rfl := List.length_eq_zero_iff.mp h.length
    have hle := (toMatrix 0 cols ([] : Grid ℚ)).rank_le_height
    rw [Nat.le_zero.mp hle]
    rfl
  · rcases Nat.eq_zero_or_pos cols with rfl | hcols
    · have hle := (toMatrix rows 0 matrix).rank_le_width
      rw [Nat.le_zero.mp hle]
      match matrix, h with
      | [], _ => rfl
      | [] :: _, _ => rfl
      | (x :: row) :: _, h => exact absurd (h.row_length (x :: row) List.mem_cons_self) nofun
    · rw [matrixRank_of_rect h hrows hcols, loop_rank h]

/-- For every matrix of integers, of any shape, `matrix_rank` returns its rank over the rational numbers, never
dividing by zero; the caller's matrix, like every other object there was, stays as it is. -/
theorem matrix_rank_correct {h : Heap ℚ} {ref : Nat} {matrix : Grid Int}
    (hshows : h.Shows ref (ofInts matrix)) (hrect : Rect matrix rows cols) :
    ∃ h', exec (matrixRankObject ref) h = (.ok (matrixRank (ofInts matrix)), h') ∧
      matrixRank (ofInts matrix) = (toMatrix rows cols (ofInts matrix)).rank ∧
      h'.Shows ref (ofInts matrix) ∧ h.rows <+: h'.rows ∧ h.matrices <+: h'.matrices := by
  have hrect' : Rect (ofInts matrix) rows cols := hrect.map _
  obtain ⟨h', hrun, hrows, hmatrices⟩ := matrixRankObject_run hshows hrect'
  rw [matrixRank_eq_rank hrect']
  exact ⟨h', hrun, rfl, hshows.mono hrows hmatrices, hrows, hmatrices⟩

/-- Two rows in the same direction, held as two row objects. -/
theorem matrix_rank_correct_two_rows :
    ∃ h', exec (matrixRankObject 0) ⟨[[1, 2], [2, 4]], [[0, 1]]⟩ = (.ok 1, h') ∧
      h'.Shows 0 (ofInts [[1, 2], [2, 4]]) := by
  have hshows : (⟨[[1, 2], [2, 4]], [[0, 1]]⟩ : Heap ℚ).Shows 0 (ofInts [[1, 2], [2, 4]]) := ⟨[0, 1], rfl, rfl⟩
  have hrect : Rect ([[1, 2], [2, 4]] : Grid Int) 2 2 := ⟨rfl, by decide⟩
  obtain ⟨h', hrun, -, hsame, -⟩ := matrix_rank_correct hshows hrect
  have hvalue : matrixRank (ofInts [[1, 2], [2, 4]]) = 1 := by decide +kernel
  rw [hvalue] at hrun
  exact ⟨h', hrun, hsame⟩

end CalSci.Echelon
