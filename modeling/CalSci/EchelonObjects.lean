import CalSci.EchelonForms
import CalSci.RankObjects

/-! `row_echelon_form_finder` and `reduced_row_echelon_form_finder` on list objects. Every index and every division
is checked; on a matrix of the announced shape both return, and what they return is what the functions over grids
compute. -/

namespace CalSci.Echelon

open GridRows RowObjects

variable {rows cols : Nat} {base : Heap ℚ} {matrix : Nat} {m : Grid ℚ}

/-! ### The search for a pivot -/

/-- One turn of the search; the state says that it has come to its `break`. -/
def bringTurn (matrix pivotRow pivotCol : Nat) (found : Bool) (i : Nat) : Program ℚ Bool :=
  if found then pure true
  else do
    let x ← getItem matrix i pivotCol
    if exceeds x then do
      onlyIf (i ≠ pivotRow) (swapItems matrix pivotRow i)
      pure true
    else pure false

/-- `for i in range(pivot_row, rows)`: the first row with an entry is exchanged with the pivot row. -/
def bringPivot (matrix rows pivotRow pivotCol : Nat) : Program ℚ Bool :=
  forEach (bringTurn matrix pivotRow pivotCol) (List.range' pivotRow (rows - pivotRow)) false

/-- After its `break` the loop does nothing. -/
theorem bringTurns_found (pivotRow pivotCol : Nat) (indices : List Nat) :
    Does base matrix m (forEach (bringTurn matrix pivotRow pivotCol) indices true) true m := by
  induction indices with
  | nil => exact .pure true
  | cons i indices ih => exact Does.bind (.pure true) ih

theorem bringTurns_does (h : Rect m rows cols) {pivotRow pivotCol : Nat} (hrow : pivotRow < rows)
    (hcol : pivotCol < cols) {indices : List Nat} (hindices : ∀ i ∈ indices, i < rows) :
    Does base matrix m (forEach (bringTurn matrix pivotRow pivotCol) indices false)
      (indices.find? fun i => exceeds (entry m i pivotCol)).isSome
      (match indices.find? fun i => exceeds (entry m i pivotCol) with
        | none => m
        | some i => liftRow m pivotRow i) := by
  induction indices with
  | nil => exact .pure false
  | cons i indices ih =>
      obtain ⟨hi, hrest⟩ := List.forall_mem_cons.mp hindices
      have hread : Does base matrix m (getItem matrix i pivotCol) (entry m i pivotCol) m := Does.getItem h hi hcol
      cases htest : exceeds (entry m i pivotCol) with
      | true =>
          rw [List.find?_cons_of_pos (by simpa using htest)]
          have hturn : Does base matrix m (bringTurn matrix pivotRow pivotCol false i) true
              (liftRow m pivotRow i) := by
            apply hread.bind
            rw [if_pos htest]
            exact (Does.onlyIf fun _ => Does.swapItems h hrow hi).bind (.pure true)
          exact hturn.bind (bringTurns_found pivotRow pivotCol indices)
      | false =>
          rw [List.find?_cons_of_neg (by simp [htest])]
          have hturn : Does base matrix m (bringTurn matrix pivotRow pivotCol false i) false m := by
            apply hread.bind
            rw [if_neg (by simp [htest])]
            exact .pure false
          exact hturn.bind (ih hrest)

theorem bringPivot_does (h : Rect m rows cols) {pivotRow pivotCol : Nat} (hrow : pivotRow < rows)
    (hcol : pivotCol < cols) :
    Does base matrix m (bringPivot matrix rows pivotRow pivotCol)
      (firstRow exceeds m pivotCol pivotRow rows).isSome
      (match firstRow exceeds m pivotCol pivotRow rows with
        | none => m
        | some i => liftRow m pivotRow i) :=
  bringTurns_does h hrow hcol fun _ hi => (mem_range'_sub.mp hi).2

/-! ### row_echelon_form.py -/

/-- `for j in range(pivot_col, cols): matrix[i][j] = matrix[i][j] / pivot`. -/
def divideFromObject (matrix cols i pivotCol : Nat) (pivot : ℚ) : Program ℚ Unit :=
  forEach (fun _ j => do setItem matrix i j (← divide (← getItem matrix i j) pivot))
    (List.range' pivotCol (cols - pivotCol)) ()

/-- `for j in range(pivot_col, cols): matrix[i][j] = matrix[i][j] - factor * matrix[pivot_row][j]`. -/
def subtractFromObject (matrix cols i pivotRow pivotCol : Nat) (factor : ℚ) : Program ℚ Unit :=
  forEach (fun _ j => do
    let x ← getItem matrix i j
    let y ← getItem matrix pivotRow j
    setItem matrix i j (x - factor * y)) (List.range' pivotCol (cols - pivotCol)) ()

def clearBelowObject (matrix rows cols pivotRow pivotCol : Nat) : Program ℚ Unit :=
  forEach (fun _ i => do
    let x ← getItem matrix i pivotCol
    onlyIf (exceeds x = true) do
      let factor ← divide (← getItem matrix i pivotCol) (← getItem matrix pivotRow pivotCol)
      subtractFromObject matrix cols i pivotRow pivotCol factor)
    (List.range' (pivotRow + 1) (rows - (pivotRow + 1))) ()

/-- The body of the loop, with `pivot_row` and `pivot_col`. -/
def rowEchelonTurn (matrix rows cols : Nat) (s : Nat × Nat) : Program ℚ (Nat × Nat) := do
  let pivotFound ← bringPivot matrix rows s.1 s.2
  if pivotFound then do
    let pivot ← getItem matrix s.1 s.2
    onlyIf (exceeds pivot = true) (divideFromObject matrix cols s.1 s.2 pivot)
    clearBelowObject matrix rows cols s.1 s.2
    pure (s.1 + 1, s.2 + 1)
  else pure (s.1, s.2 + 1)

theorem divideFrom_spec (h : Rect m rows cols) {i : Nat} (hi : i < rows) (pivotCol : Nat) (pivot : ℚ) :
    Rect (divideFrom cols i pivotCol pivot m) rows cols ∧ ∀ a b, entry (divideFrom cols i pivotCol pivot m) a b =
      if a = i ∧ b ∈ List.range' pivotCol (cols - pivotCol) then entry m i b / pivot else entry m a b :=
  foldl_fillRow (fun j => entry m i j / pivot) (fun m j => setEntry m i j (entry m i j / pivot)) h hi
    (fun _ hj => (mem_range'_sub.mp hj).2) List.nodup_range' fun _ _ _ _ _ hsame => by rw [hsame]

theorem subtractFrom_spec (h : Rect m rows cols) {i pivotRow : Nat} (hi : i < rows) (hne : i ≠ pivotRow)
    (pivotCol : Nat) (factor : ℚ) : Rect (subtractFrom cols i pivotRow pivotCol factor m) rows cols ∧
      ∀ b, entry (subtractFrom cols i pivotRow pivotCol factor m) pivotRow b = entry m pivotRow b := by
  obtain ⟨hrect, hentry⟩ := foldl_fillRow (fun j => entry m i j - factor * entry m pivotRow j)
    (fun m j => setEntry m i j (entry m i j - factor * entry m pivotRow j)) h hi
    (fun _ hj => (mem_range'_sub.mp hj).2) (List.nodup_range' (s := pivotCol) (n := cols - pivotCol))
    fun m' j _ _ hother hsame => by rw [hsame, hother pivotRow j (Ne.symm hne)]
  refine ⟨hrect, fun b => (hentry pivotRow b).trans ?_⟩
  rw [if_neg fun hab => hne hab.1.symm]

theorem divideFromObject_does (h : Rect m rows cols) {i pivotCol : Nat} (hi : i < rows) {pivot : ℚ}
    (hpivot : pivot ≠ 0) :
    Does base matrix m (divideFromObject matrix cols i pivotCol pivot) () (divideFrom cols i pivotCol pivot m) := by
  refine Does.forEach_grid (fun m => Rect m rows cols) (fun m j hj hrect => ⟨?_, Rect.setEntry hrect _ _ _⟩) h
  have hlt := (mem_range'_sub.mp hj).2
  exact (Does.getItem hrect hi hlt).bind ((Does.divide _ hpivot).bind (Does.setItem hrect hi hlt _))

theorem subtractFromObject_does (h : Rect m rows cols) {i pivotRow pivotCol : Nat} (hi : i < rows)
    (hrow : pivotRow < rows) (factor : ℚ) :
    Does base matrix m (subtractFromObject matrix cols i pivotRow pivotCol factor) ()
      (subtractFrom cols i pivotRow pivotCol factor m) := by
  refine Does.forEach_grid (fun m => Rect m rows cols) (fun m j hj hrect => ⟨?_, Rect.setEntry hrect _ _ _⟩) h
  have hlt := (mem_range'_sub.mp hj).2
  exact (Does.getItem hrect hi hlt).bind ((Does.getItem hrect hrow hlt).bind (Does.setItem hrect hi hlt _))

/-- The pivot stays what it is, so that no division is by zero. -/
theorem clearBelowObject_does (h : Rect m rows cols) {pivotRow pivotCol : Nat} (hrow : pivotRow < rows)
    (hcol : pivotCol < cols) (hpivot : entry m pivotRow pivotCol ≠ 0) :
    Does base matrix m (clearBelowObject matrix rows cols pivotRow pivotCol) ()
      (clearBelow rows cols pivotRow pivotCol m) := by
  refine Does.forEach_grid (fun m => Rect m rows cols ∧ entry m pivotRow pivotCol ≠ 0)
    (fun m i hi hinv => ?_) ⟨h, hpivot⟩
  obtain ⟨hrect, hne⟩ := hinv
  have hlt : pivotRow + 1 ≤ i ∧ i < rows := mem_range'_sub.mp hi
  have hread : Does base matrix m (getItem matrix i pivotCol) (entry m i pivotCol) m :=
    Does.getItem hrect hlt.2 hcol
  constructor
  · exact hread.bind (Does.onlyIf fun _ => hread.bind ((Does.getItem hrect hrow hcol).bind
      ((Does.divide _ hne).bind (subtractFromObject_does hrect hlt.2 hrow _))))
  · obtain ⟨hrect', hsame⟩ := subtractFrom_spec hrect hlt.2 (show i ≠ pivotRow by omega) pivotCol
      (entry m i pivotCol / entry m pivotRow pivotCol)
    split
    · exact ⟨hrect', by rw [hsame]; exact hne⟩
    · exact ⟨hrect, hne⟩

theorem clearBelow_rect (h : Rect m rows cols) (pivotRow pivotCol : Nat) :
    Rect (clearBelow rows cols pivotRow pivotCol m) rows cols := by
  have hindices : ∀ i ∈ List.range' (pivotRow + 1) (rows - (pivotRow + 1)), i < rows ∧ i ≠ pivotRow := by
    intro i hi
    have hlt : pivotRow + 1 ≤ i ∧ i < rows := mem_range'_sub.mp hi
    omega
  rw [clearBelow]
  generalize List.range' (pivotRow + 1) (rows - (pivotRow + 1)) = indices at hindices
  induction indices generalizing m with
  | nil => exact h
  | cons i indices ih =>
      obtain ⟨⟨hi, hne⟩, hrest⟩ := List.forall_mem_cons.mp hindices
      rw [List.foldl_cons]
      refine ih ?_ hrest
      split
      · exact (subtractFrom_spec h hi hne pivotCol _).1
      · exact h

/-- The row that is brought up has an entry in its new place. -/
theorem exceeds_liftRow (h : Rect m rows cols) {col k i : Nat} (hfirst : firstRow exceeds m col k rows = some i) :
    Rect (liftRow m k i) rows cols ∧ exceeds (entry (liftRow m k i) k col) = true := by
  obtain ⟨⟨hk, hi⟩, htest⟩ := firstRow_some hfirst
  rw [entry_liftRow_self h hk hi]
  exact ⟨(liftRow_spec h hk hi).1, htest⟩

/-- A turn does to the copy and the two counters what the turn over grids does. -/
theorem rowEchelonTurn_does {s : RowEchelonState} (h : Rect s.matrix rows cols) (hguard : s.guard rows cols = true) :
    Does base matrix s.matrix (rowEchelonTurn matrix rows cols (s.pivotRow, s.pivotCol))
      ((s.step rows cols).pivotRow, (s.step rows cols).pivotCol) (s.step rows cols).matrix ∧
      Rect (s.step rows cols).matrix rows cols := by
  rw [RowEchelonState.guard, Bool.and_eq_true, decide_eq_true_iff, decide_eq_true_iff] at hguard
  obtain ⟨hrow, hcol⟩ := hguard
  have hbring : Does base matrix s.matrix (bringPivot matrix rows s.pivotRow s.pivotCol) _ _ :=
    bringPivot_does h hrow hcol
  cases hfirst : firstRow exceeds s.matrix s.pivotCol s.pivotRow rows with
  | none =>
      rw [hfirst] at hbring
      simp only [RowEchelonState.step, hfirst]
      exact ⟨hbring.bind (.pure _), h⟩
  | some i =>
      obtain ⟨hlift, hpivot⟩ := exceeds_liftRow h hfirst
      have hne := ne_zero_of_exceeds hpivot
      obtain ⟨hdivided, hentry⟩ := divideFrom_spec hlift hrow s.pivotCol
        (entry (liftRow s.matrix s.pivotRow i) s.pivotRow s.pivotCol)
      have hone : entry (divideFrom cols s.pivotRow s.pivotCol
          (entry (liftRow s.matrix s.pivotRow i) s.pivotRow s.pivotCol) (liftRow s.matrix s.pivotRow i))
          s.pivotRow s.pivotCol ≠ 0 := by
        rw [hentry, if_pos ⟨rfl, mem_range'_sub.mpr ⟨le_refl _, hcol⟩⟩, div_self hne]
        exact one_ne_zero
      have hstep : s.step rows cols = ⟨clearBelow rows cols s.pivotRow s.pivotCol (divideFrom cols s.pivotRow
          s.pivotCol (entry (liftRow s.matrix s.pivotRow i) s.pivotRow s.pivotCol) (liftRow s.matrix s.pivotRow i)),
          s.pivotRow + 1, s.pivotCol + 1⟩ := by
        rw [liftRow] at hpivot
        simp only [RowEchelonState.step, hfirst, if_pos hpivot]
        rfl
      rw [hfirst] at hbring
      rw [hstep]
      refine ⟨hbring.bind ?_, clearBelow_rect hdivided _ _⟩
      rw [Option.isSome_some, if_pos rfl]
      apply (Does.getItem hlift hrow hcol).bind
      apply Does.bind (Does.onlyIf fun _ => divideFromObject_does hlift hrow hne)
      rw [if_pos hpivot]
      exact (clearBelowObject_does hdivided hrow hcol hone).bind (.pure _)

/-- `row_echelon_form_finder` on a valid matrix object: a new matrix object. -/
def rowEchelonFormObject (matrix rows cols : Nat) : Program ℚ Nat := do
  let copy ← copyRows matrix
  let _ ← whileLoop (fun s : Nat × Nat => pure (decide (s.1 < rows) && decide (s.2 < cols)))
    (rowEchelonTurn copy rows cols) cols (0, 0)
  pure copy

/-- Each turn moves on by a column. -/
theorem RowEchelonState.run_exits (rows cols : Nat) (m : Grid ℚ) :
    (RowEchelonState.run rows cols m cols).guard rows cols = false := by
  have hless : ∀ s : RowEchelonState, s.guard rows cols = true →
      cols - (s.step rows cols).pivotCol < cols - s.pivotCol := by
    intro s hs
    rw [guard, Bool.and_eq_true, decide_eq_true_iff, decide_eq_true_iff] at hs
    have hcol : (s.step rows cols).pivotCol = s.pivotCol + 1 := by
      rw [step]
      split
      · rfl
      · rfl
    omega
  exact Runs.loop_exits (fun s : RowEchelonState => cols - s.pivotCol) hless (Nat.sub_le _ _)

theorem rowEchelonLoop_does (base : Heap ℚ) (matrix : Nat) (h : Rect m rows cols) :
    ∃ s, Rect (RowEchelonState.run rows cols m cols).matrix rows cols ∧
      Does base matrix m (whileLoop (fun s : Nat × Nat => pure (decide (s.1 < rows) && decide (s.2 < cols)))
        (rowEchelonTurn matrix rows cols) cols (0, 0)) s (RowEchelonState.run rows cols m cols).matrix := by
  have hguard : ∀ (t : RowEchelonState) (s : Nat × Nat) (m' : Grid ℚ),
      t.matrix = m' ∧ s = (t.pivotRow, t.pivotCol) ∧ Rect m' rows cols →
        Does base matrix m' (pure (decide (s.1 < rows) && decide (s.2 < cols))) (t.guard rows cols) m' := by
    rintro t s m' ⟨rfl, rfl, -⟩
    exact .pure _
  have hbody : ∀ (t : RowEchelonState) (s : Nat × Nat) (m' : Grid ℚ),
      t.matrix = m' ∧ s = (t.pivotRow, t.pivotCol) ∧ Rect m' rows cols → t.guard rows cols = true →
        ∃ s' m'', Does base matrix m' (rowEchelonTurn matrix rows cols s) s' m'' ∧ (t.step rows cols).matrix = m'' ∧
          s' = ((t.step rows cols).pivotRow, (t.step rows cols).pivotCol) ∧ Rect m'' rows cols := by
    rintro t s m' ⟨rfl, rfl, hrect⟩ hturn
    obtain ⟨hdoes, hrect'⟩ : Does base matrix t.matrix _ _ _ ∧ _ := rowEchelonTurn_does hrect hturn
    exact ⟨_, _, hdoes, rfl, rfl, hrect'⟩
  obtain ⟨s, m', hdoes, rfl, -, hrect⟩ := Does.whileLoop (RowEchelonState.guard rows cols)
    (RowEchelonState.step rows cols)
    (fun t s m' => t.matrix = m' ∧ s = (t.pivotRow, t.pivotCol) ∧ Rect m' rows cols) hguard hbody
    (t := ⟨m, 0, 0⟩) ⟨rfl, rfl, h⟩ (RowEchelonState.run_exits rows cols m)
  exact ⟨s, hrect, hdoes⟩

/-! ### reduced_row_echelon.py -/

/-- The loops over rows of `reduced_row_echelon_form_finder`: where the entry in a column is over the tolerance, a
multiple of row `k` is subtracted. -/
def clearRowsObject (matrix cols k col : Nat) (indices : List Nat) : Program ℚ Unit :=
  forEach (fun _ i => do
    let x ← getItem matrix i col
    onlyIf (exceeds x = true) do
      let factor ← getItem matrix i col
      subtractRow matrix cols i k factor) indices ()

/-- The body of the first loop, with `pivot_row`, `pivot_col` and `pivot_positions`. -/
def reducedTurn (matrix rows cols : Nat) (s : Nat × Nat × List (Nat × Nat)) :
    Program ℚ (Nat × Nat × List (Nat × Nat)) := do
  let pivotFound ← bringPivot matrix rows s.1 s.2.1
  if pivotFound then do
    let pivot ← getItem matrix s.1 s.2.1
    onlyIf (exceeds pivot = true) (divideRow matrix cols s.1 pivot)
    let pivotPositions := if exceeds pivot then s.2.2 ++ [(s.1, s.2.1)] else s.2.2
    clearRowsObject matrix cols s.1 s.2.1 (List.range' (s.1 + 1) (rows - (s.1 + 1)))
    pure (s.1 + 1, s.2.1 + 1, pivotPositions)
  else pure (s.1, s.2.1 + 1, s.2.2)

/-- `for pivot_row, pivot_col in reversed(pivot_positions)`. -/
def clearAboveObject (matrix cols : Nat) (pivotPositions : List (Nat × Nat)) : Program ℚ Unit :=
  forEach (fun _ pivot => clearRowsObject matrix cols pivot.1 pivot.2 (List.range pivot.1)) pivotPositions.reverse ()

/-- The loop that writes `0.0` for what is below the tolerance, along row `i`. -/
def cleanRowObject (matrix cols i : Nat) : Program ℚ Unit :=
  forEach (fun _ j => do
    let x ← getItem matrix i j
    onlyIf (|x| < tolerance) (setItem matrix i j 0)) (List.range cols) ()

def cleanUpObject (matrix rows cols : Nat) : Program ℚ Unit :=
  forEach (fun _ i => cleanRowObject matrix cols i) (List.range rows) ()

theorem clearRowsObject_does (h : Rect m rows cols) {k col : Nat} (hk : k < rows) (hcol : col < cols)
    {indices : List Nat} (hindices : ∀ i ∈ indices, i < rows ∧ i ≠ k) :
    Does base matrix m (clearRowsObject matrix cols k col indices) () (clearRows exceeds k col indices m) ∧
      Rect (clearRows exceeds k col indices m) rows cols := by
  have hstep : ∀ m i, i ∈ indices → Rect m rows cols →
      Does base matrix m (do
        let x ← getItem matrix i col
        onlyIf (exceeds x = true) do
          let factor ← getItem matrix i col
          subtractRow matrix cols i k factor) ()
        (if exceeds (entry m i col) then subRow m i k (entry m i col) else m) ∧
      Rect (if exceeds (entry m i col) then subRow m i k (entry m i col) else m) rows cols := by
    intro m i hi hrect
    obtain ⟨hlt, hne⟩ := hindices i hi
    have hread : Does base matrix m (getItem matrix i col) (entry m i col) m := Does.getItem hrect hlt hcol
    refine ⟨hread.bind (Does.onlyIf fun _ => hread.bind (subtractRow_does hrect hlt hk hne _)), ?_⟩
    split
    · exact hrect.subRow hk i _
    · exact hrect
  refine ⟨Does.forEach_grid (fun m => Rect m rows cols) hstep h, ?_⟩
  have hrects : ∀ (is : List Nat) (m : Grid ℚ), (∀ i ∈ is, i ∈ indices) → Rect m rows cols →
      Rect (clearRows exceeds k col is m) rows cols := by
    intro is
    induction is with
    | nil => exact fun m _ hrect => hrect
    | cons i is ih =>
        intro m his hrect
        obtain ⟨hi, hrest⟩ := List.forall_mem_cons.mp his
        exact ih _ hrest (hstep m i hi hrect).2
  exact hrects indices m (fun _ hi => hi) h

theorem reducedTurn_does {t : EchelonState} (h : Rect t.matrix rows cols) (hguard : t.guard rows cols = true) :
    Does base matrix t.matrix (reducedTurn matrix rows cols (t.pivotRow, t.pivotCol, t.pivotPositions))
      ((t.step rows).pivotRow, (t.step rows).pivotCol, (t.step rows).pivotPositions) (t.step rows).matrix ∧
      Rect (t.step rows).matrix rows cols ∧
      ((∀ p ∈ t.pivotPositions, p.1 < rows ∧ p.2 < cols) →
        ∀ p ∈ (t.step rows).pivotPositions, p.1 < rows ∧ p.2 < cols) := by
  rw [EchelonState.guard, Bool.and_eq_true, decide_eq_true_iff, decide_eq_true_iff] at hguard
  obtain ⟨hrow, hcol⟩ := hguard
  have hbring : Does base matrix t.matrix (bringPivot matrix rows t.pivotRow t.pivotCol) _ _ :=
    bringPivot_does h hrow hcol
  cases hfirst : firstRow exceeds t.matrix t.pivotCol t.pivotRow rows with
  | none =>
      rw [hfirst] at hbring
      rw [EchelonState.step_none hfirst]
      exact ⟨hbring.bind (.pure _), h, id⟩
  | some i =>
      obtain ⟨⟨hk, hi⟩, -⟩ := firstRow_some hfirst
      obtain ⟨hlift, hpivot⟩ := exceeds_liftRow h hfirst
      have hbelow : ∀ a ∈ List.range' (t.pivotRow + 1) (rows - (t.pivotRow + 1)),
          a < rows ∧ a ≠ t.pivotRow := by
        intro a ha
        have hlt : t.pivotRow + 1 ≤ a ∧ a < rows := mem_range'_sub.mp ha
        omega
      obtain ⟨hclear, hrect⟩ : Does base matrix (raiseRow t.matrix t.pivotRow i t.pivotCol) _ _ _ ∧ _ :=
        clearRowsObject_does (raiseRow_spec h hk hi).1 hrow hcol hbelow
      rw [hfirst] at hbring
      rw [EchelonState.step_some h hfirst]
      refine ⟨hbring.bind ?_, hrect, fun hpositions p hp => ?_⟩
      · rw [Option.isSome_some, if_pos rfl]
        apply (Does.getItem hlift hrow hcol).bind
        apply Does.bind (Does.onlyIf fun _ => divideRow_does hlift hrow (ne_zero_of_exceeds hpivot))
        rw [if_pos hpivot, if_pos hpivot]
        exact hclear.bind (.pure _)
      · rcases List.mem_append.mp hp with hold | hnew
        · exact hpositions p hold
        · rw [List.mem_singleton.mp hnew]
          exact ⟨hrow, hcol⟩

theorem reducedLoop_does (base : Heap ℚ) (matrix : Nat) (h : Rect m rows cols) :
    ∃ s, (s.2.2 = (EchelonState.forward rows cols m cols).pivotPositions ∧
        (∀ p ∈ s.2.2, p.1 < rows ∧ p.2 < cols) ∧ Rect (EchelonState.forward rows cols m cols).matrix rows cols) ∧
      Does base matrix m
        (whileLoop (fun s : Nat × Nat × List (Nat × Nat) => pure (decide (s.1 < rows) && decide (s.2.1 < cols)))
          (reducedTurn matrix rows cols) cols (0, 0, [])) s (EchelonState.forward rows cols m cols).matrix := by
  have hguard : ∀ (t : EchelonState) (s : Nat × Nat × List (Nat × Nat)) (m' : Grid ℚ),
      t.matrix = m' ∧ s = (t.pivotRow, t.pivotCol, t.pivotPositions) ∧ Rect m' rows cols ∧
        (∀ p ∈ t.pivotPositions, p.1 < rows ∧ p.2 < cols) →
        Does base matrix m' (pure (decide (s.1 < rows) && decide (s.2.1 < cols))) (t.guard rows cols) m' := by
    rintro t s m' ⟨rfl, rfl, -⟩
    exact .pure _
  have hbody : ∀ (t : EchelonState) (s : Nat × Nat × List (Nat × Nat)) (m' : Grid ℚ),
      t.matrix = m' ∧ s = (t.pivotRow, t.pivotCol, t.pivotPositions) ∧ Rect m' rows cols ∧
        (∀ p ∈ t.pivotPositions, p.1 < rows ∧ p.2 < cols) → t.guard rows cols = true →
        ∃ s' m'', Does base matrix m' (reducedTurn matrix rows cols s) s' m'' ∧ (t.step rows).matrix = m'' ∧
          s' = ((t.step rows).pivotRow, (t.step rows).pivotCol, (t.step rows).pivotPositions) ∧ Rect m'' rows cols ∧
          ∀ p ∈ (t.step rows).pivotPositions, p.1 < rows ∧ p.2 < cols := by
    rintro t s m' ⟨rfl, rfl, hrect, hpositions⟩ hturn
    obtain ⟨hdoes, hrect', hkeep⟩ : Does base matrix t.matrix _ _ _ ∧ _ := reducedTurn_does hrect hturn
    exact ⟨_, _, hdoes, rfl, rfl, hrect', hkeep hpositions⟩
  obtain ⟨s, m', hdoes, rfl, rfl, hrect, hpositions⟩ := Does.whileLoop (EchelonState.guard rows cols)
    (EchelonState.step rows)
    (fun t s m' => t.matrix = m' ∧ s = (t.pivotRow, t.pivotCol, t.pivotPositions) ∧ Rect m' rows cols ∧
      ∀ p ∈ t.pivotPositions, p.1 < rows ∧ p.2 < cols) hguard hbody
    (t := ⟨m, 0, 0, []⟩) ⟨rfl, rfl, h, nofun⟩ (EchelonState.forward_exits rows cols m)
  exact ⟨_, ⟨rfl, hpositions, hrect⟩, hdoes⟩

theorem clearAboveObject_does (h : Rect m rows cols) {positions : List (Nat × Nat)}
    (hpositions : ∀ p ∈ positions, p.1 < rows ∧ p.2 < cols) :
    Does base matrix m (clearAboveObject matrix cols positions) () (clearAbove positions m) ∧
      Rect (clearAbove positions m) rows cols := by
  have hstep : ∀ m p, p ∈ positions → Rect m rows cols →
      Does base matrix m (clearRowsObject matrix cols p.1 p.2 (List.range p.1)) ()
        (clearRows exceeds p.1 p.2 (List.range p.1) m) ∧
      Rect (clearRows exceeds p.1 p.2 (List.range p.1) m) rows cols := by
    intro m p hp hrect
    apply clearRowsObject_does hrect (hpositions p hp).1 (hpositions p hp).2
    intro i hi
    have hlt := List.mem_range.mp hi
    have hrow := (hpositions p hp).1
    omega
  have hrects : ∀ (ps : List (Nat × Nat)) (m : Grid ℚ), (∀ p ∈ ps, p ∈ positions) → Rect m rows cols →
      Rect (ps.foldl (fun m p => clearRows exceeds p.1 p.2 (List.range p.1) m) m) rows cols := by
    intro ps
    induction ps with
    | nil => exact fun m _ hrect => hrect
    | cons p ps ih =>
        intro m hps hrect
        obtain ⟨hp, hrest⟩ := List.forall_mem_cons.mp hps
        exact ih _ hrest (hstep m p hp hrect).2
  exact ⟨Does.forEach_grid (fun m => Rect m rows cols)
      (fun m p hp hrect => hstep m p (List.mem_reverse.mp hp) hrect) h,
    hrects positions.reverse m (fun _ hp => List.mem_reverse.mp hp) h⟩

/-- An entry of a grid without what is below the tolerance. -/
def flushed (x : ℚ) : ℚ := if |x| < tolerance then 0 else x

theorem setEntry_self (h : Rect m rows cols) {i j : Nat} (hi : i < rows) (hj : j < cols) :
    setEntry m i j (entry m i j) = m := by
  apply (h.setEntry i j _).ext h
  intro a b _ _
  rw [entry_setEntry h hi hj]
  split
  · next hab => rw [hab.1, hab.2]
  · rfl

def cleanRow (cols i : Nat) (m : Grid ℚ) : Grid ℚ :=
  (List.range cols).foldl (fun m j => if |entry m i j| < tolerance then setEntry m i j 0 else m) m

theorem cleanRow_spec (h : Rect m rows cols) {i : Nat} (hi : i < rows) :
    Rect (cleanRow cols i m) rows cols ∧ ∀ a b, entry (cleanRow cols i m) a b =
      if a = i ∧ b ∈ List.range cols then flushed (entry m i b) else entry m a b := by
  refine foldl_fillRow (fun j => flushed (entry m i j)) _ h hi (fun _ hj => List.mem_range.mp hj)
    List.nodup_range fun m' j hj hrect _ hsame => ?_
  rw [flushed, ← hsame]
  split
  · rfl
  · exact (setEntry_self hrect hi (List.mem_range.mp hj)).symm

theorem cleanRowObject_does (h : Rect m rows cols) {i : Nat} (hi : i < rows) :
    Does base matrix m (cleanRowObject matrix cols i) () (cleanRow cols i m) := by
  refine Does.forEach_grid (fun m => Rect m rows cols) (fun m j hj hrect => ?_) h
  have hlt := List.mem_range.mp hj
  refine ⟨(Does.getItem hrect hi hlt).bind (Does.onlyIf fun _ => Does.setItem hrect hi hlt 0), ?_⟩
  split
  · exact hrect.setEntry _ _ _
  · exact hrect

theorem cleanUpObject_does (h : Rect m rows cols) :
    Does base matrix m (cleanUpObject matrix rows cols) () (cleanUp m) := by
  have hrows : ∀ n ≤ rows, Rect ((List.range n).foldl (fun m i => cleanRow cols i m) m) rows cols ∧
      ∀ a b, b < cols → entry ((List.range n).foldl (fun m i => cleanRow cols i m) m) a b =
        if a < n then flushed (entry m a b) else entry m a b := by
    intro n
    induction n with
    | zero => exact fun _ => ⟨h, fun a b _ => rfl⟩
    | succ n ih =>
        intro hn
        obtain ⟨hrect, hentry⟩ := ih (by omega)
        obtain ⟨hrect', hentry'⟩ := cleanRow_spec hrect (show n < rows by omega)
        rw [List.range_succ, List.foldl_append, List.foldl_cons, List.foldl_nil]
        refine ⟨hrect', fun a b hb => ?_⟩
        rw [hentry']
        by_cases ha : a = n
        · subst ha
          rw [if_pos ⟨rfl, List.mem_range.mpr hb⟩, hentry a b hb, if_neg (by omega), if_pos (by omega)]
        · rw [if_neg fun hab => ha hab.1, hentry a b hb]
          exact if_congr (by omega) rfl rfl
  have hclean : (List.range rows).foldl (fun m i => cleanRow cols i m) m = cleanUp m := by
    apply (hrows rows (le_refl _)).1.ext (h.map flushed)
    intro a b ha hb
    have hzero : flushed 0 = 0 := by
      rw [flushed]
      split <;> rfl
    rw [(hrows rows (le_refl _)).2 a b hb, if_pos ha]
    exact (entry_map flushed hzero m a b).symm
  rw [← hclean]
  refine Does.forEach_grid (fun m => Rect m rows cols) (fun m i hi hrect => ?_) h
  have hlt := List.mem_range.mp hi
  exact ⟨cleanRowObject_does hrect hlt, (cleanRow_spec hrect hlt).1⟩

/-- `reduced_row_echelon_form_finder` on a valid matrix object: a new matrix object. -/
def reducedRowEchelonFormObject (matrix rows cols : Nat) : Program ℚ Nat := do
  let copy ← copyRows matrix
  let s ← whileLoop (fun s : Nat × Nat × List (Nat × Nat) => pure (decide (s.1 < rows) && decide (s.2.1 < cols)))
    (reducedTurn copy rows cols) cols (0, 0, [])
  clearAboveObject copy cols s.2.2
  cleanUpObject copy rows cols
  pure copy

/-! ### The finders -/

def readMatrix (h : Heap ℚ) (ref : Nat) : Grid ℚ := (h.matrices.getD ref []).map fun r => h.rows.getD r []

theorem readMatrix_of_holds {h : Heap ℚ} (hold : Holds base matrix m h) : readMatrix h matrix = m := by
  obtain ⟨refs, hrefs, -, -, hrows⟩ := hold.own
  have hget := congrArg (List.map fun row : Option (List ℚ) => row.getD []) hrows
  rw [List.map_map, List.map_map] at hget
  rw [readMatrix, List.getD_eq_getElem?_getD, hrefs, Option.getD_some]
  simpa [Function.comp_def, List.getD_eq_getElem?_getD] using hget

/-- On a matrix of the announced shape the first finder returns what the function over grids computes. -/
theorem rowEchelonFormObject_run {h : Heap ℚ} {ref : Nat} (hshows : h.Shows ref m) (hrect : Rect m rows cols) :
    ∃ result h', exec (rowEchelonFormObject ref rows cols) h = (.ok result, h') ∧
      readMatrix h' result = (RowEchelonState.run rows cols m cols).matrix ∧
      Rect (readMatrix h' result) rows cols := by
  obtain ⟨h', hcopy, hold⟩ := exec_copyRows hshows
  obtain ⟨s, hrect', hloop⟩ := rowEchelonLoop_does h h.matrices.length hrect
  obtain ⟨h'', hrun, hold'⟩ := hloop h' hold
  have hread := readMatrix_of_holds hold'
  refine ⟨h.matrices.length, h'', ?_, hread, hread ▸ hrect'⟩
  rw [rowEchelonFormObject, exec_bind_ok hcopy, exec_bind_ok hrun]
  rfl

/-- And so does the second one. -/
theorem reducedRowEchelonFormObject_run {h : Heap ℚ} {ref : Nat} (hshows : h.Shows ref m)
    (hrect : Rect m rows cols) :
    ∃ result h', exec (reducedRowEchelonFormObject ref rows cols) h = (.ok result, h') ∧
      readMatrix h' result = cleanUp (clearAbove (EchelonState.forward rows cols m cols).pivotPositions
        (EchelonState.forward rows cols m cols).matrix) ∧ Rect (readMatrix h' result) rows cols := by
  obtain ⟨h', hcopy, hold⟩ := exec_copyRows hshows
  obtain ⟨s, ⟨hpositions, hinside, hrect'⟩, hloop⟩ := reducedLoop_does h h.matrices.length hrect
  obtain ⟨habove, hrect''⟩ : Does h h.matrices.length _ _ _ _ ∧ _ := clearAboveObject_does hrect' hinside
  obtain ⟨h₁, hrun₁, hold₁⟩ := hloop h' hold
  obtain ⟨h₂, hrun₂, hold₂⟩ := habove h₁ hold₁
  obtain ⟨h₃, hrun₃, hold₃⟩ := cleanUpObject_does hrect'' h₂ hold₂
  have hread := readMatrix_of_holds hold₃
  refine ⟨h.matrices.length, h₃, ?_, by rw [← hpositions, hread], hread ▸ hrect''.map flushed⟩
  rw [reducedRowEchelonFormObject, exec_bind_ok hcopy, exec_bind_ok hrun₁, exec_bind_ok hrun₂, exec_bind_ok hrun₃]
  rfl

end CalSci.Echelon
