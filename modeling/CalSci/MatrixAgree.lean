import CalSci.MatrixModel

/-! The two eliminations compared. As long as each entry that is compared with the tolerance is zero or
larger, the first loop of `reduced_row_echelon_form_finder` and the loop of `matrix_rank` go through the
same columns and hold the same rows from the pivot row on; the other two loops leave a one in each pivot
row and zeros below them, so that the rows that are not zero are the pivot rows. -/

namespace CalSci.Echelon

open GridRows

variable {rows cols : Nat}

/-- No entry of the column to be searched is within the tolerance without being zero. -/
def EchelonState.Clear (rows : Nat) (t : EchelonState) : Prop :=
  ∀ i, t.pivotRow ≤ i → i < rows → entry t.matrix i t.pivotCol = 0 ∨ tolerance < |entry t.matrix i t.pivotCol|

/-- The tolerance is never needed: whenever the first loop goes on, what it compares is zero or larger. -/
def ToleranceUnused (matrix : Grid ℚ) (rows cols : Nat) : Prop :=
  ∀ n, (EchelonState.forward rows cols matrix n).guard rows cols = true →
    (EchelonState.forward rows cols matrix n).Clear rows

theorem tolerance_pos : 0 < tolerance := by decide +kernel

theorem exceeds_eq_false_iff {x : ℚ} (h : x = 0 ∨ tolerance < |x|) : exceeds x = false ↔ x = 0 := by
  rw [exceeds, decide_eq_false_iff_not]
  constructor
  · intro hnot
    exact h.resolve_right hnot
  · rintro rfl
    rw [abs_zero]
    exact not_lt.mpr tolerance_pos.le

theorem ne_zero_of_exceeds {x : ℚ} (h : exceeds x = true) : x ≠ 0 := by
  rintro rfl
  exact absurd h (by decide +kernel)

/-! ### One turn of the loops -/

theorem RankState.step_none {s : RankState}
    (hfirst : firstRow (fun x => decide (x ≠ 0)) s.matrix s.pivotCol s.rank rows = none) :
    s.step rows = { s with pivotCol := s.pivotCol + 1 } := by
  rw [step, hfirst]

theorem RankState.step_some {s : RankState} (h : Rect s.matrix rows cols) {i : Nat}
    (hfirst : firstRow (fun x => decide (x ≠ 0)) s.matrix s.pivotCol s.rank rows = some i) :
    s.step rows =
      { matrix := clearRows (fun x => decide (x ≠ 0)) s.rank s.pivotCol
          ((List.range rows).filter fun i => i ≠ s.rank) (raiseRow s.matrix s.rank i s.pivotCol)
        rank := s.rank + 1
        pivotCol := s.pivotCol + 1 } := by
  obtain ⟨⟨hk, hi⟩, htest⟩ := firstRow_some hfirst
  have hpivot : entry (liftRow s.matrix s.rank i) s.rank s.pivotCol ≠ 0 := by
    rw [entry_liftRow_self h hk hi]
    exact of_decide_eq_true htest
  rw [liftRow] at hpivot
  rw [step, hfirst]
  change RankState.mk (clearRows _ _ _ _ (if _ then _ else _)) _ _ = _
  rw [if_pos hpivot]
  rfl

theorem EchelonState.step_none {t : EchelonState}
    (hfirst : firstRow exceeds t.matrix t.pivotCol t.pivotRow rows = none) :
    t.step rows = { t with pivotCol := t.pivotCol + 1 } := by
  rw [step, hfirst]

theorem EchelonState.step_some {t : EchelonState} (h : Rect t.matrix rows cols) {i : Nat}
    (hfirst : firstRow exceeds t.matrix t.pivotCol t.pivotRow rows = some i) :
    t.step rows =
      { matrix := clearRows exceeds t.pivotRow t.pivotCol
          (List.range' (t.pivotRow + 1) (rows - (t.pivotRow + 1)))
          (raiseRow t.matrix t.pivotRow i t.pivotCol)
        pivotRow := t.pivotRow + 1
        pivotCol := t.pivotCol + 1
        pivotPositions := t.pivotPositions ++ [(t.pivotRow, t.pivotCol)] } := by
  obtain ⟨⟨hk, hi⟩, htest⟩ := firstRow_some hfirst
  have hpivot : exceeds (entry (liftRow t.matrix t.pivotRow i) t.pivotRow t.pivotCol) = true := by
    rw [entry_liftRow_self h hk hi]
    exact htest
  rw [liftRow] at hpivot
  rw [step, hfirst]
  change EchelonState.mk (clearRows _ _ _ _ (if _ then _ else _)) _ _ (if _ then _ else _) = _
  rw [if_pos hpivot, if_pos hpivot]
  rfl

/-! ### The invariant of the first loop -/

/-- The rows of the pivots are the first `k`, each has a one in its column, and there are zeros below it. -/
structure Pivoted (rows cols k : Nat) (pivotPositions : List (Nat × Nat)) (matrix : Grid ℚ) : Prop where
  rect : Rect matrix rows cols
  rows_eq : pivotPositions.map Prod.fst = List.range k
  one : ∀ p ∈ pivotPositions, entry matrix p.1 p.2 = 1
  below : ∀ p ∈ pivotPositions, ∀ i, p.1 < i → entry matrix i p.2 = 0

/-- What holds at the head of the first loop: the columns searched so far are zero from the pivot row on. -/
structure Reduced (rows cols : Nat) (t : EchelonState) : Prop where
  pivoted : Pivoted rows cols t.pivotRow t.pivotPositions t.matrix
  searched : ∀ p ∈ t.pivotPositions, p.2 < t.pivotCol
  rest : ∀ i j, t.pivotRow ≤ i → j < t.pivotCol → entry t.matrix i j = 0

theorem Pivoted.row_lt {k : Nat} {positions : List (Nat × Nat)} {matrix : Grid ℚ}
    (h : Pivoted rows cols k positions matrix) {p : Nat × Nat} (hp : p ∈ positions) : p.1 < k := by
  have hmem := List.mem_map_of_mem (f := Prod.fst) hp
  rw [h.rows_eq] at hmem
  exact List.mem_range.mp hmem

/-- Each of the first `k` rows has its pivot. -/
theorem Pivoted.exists_pivot {k : Nat} {positions : List (Nat × Nat)} {matrix : Grid ℚ}
    (h : Pivoted rows cols k positions matrix) {i : Nat} (hi : i < k) :
    ∃ j, (i, j) ∈ positions ∧ entry matrix i j = 1 := by
  have hmem : i ∈ positions.map Prod.fst := by
    rw [h.rows_eq]
    exact List.mem_range.mpr hi
  obtain ⟨⟨_, j⟩, hp, rfl⟩ := List.mem_map.mp hmem
  exact ⟨j, hp, h.one _ hp⟩

theorem Pivoted.le_rows {k : Nat} {positions : List (Nat × Nat)} {matrix : Grid ℚ}
    (h : Pivoted rows cols k positions matrix) : k ≤ rows := by
  by_contra hlt
  obtain ⟨j, -, hone⟩ := h.exists_pivot (show rows < k by omega)
  rw [entry_of_row_le h.rect (le_refl rows)] at hone
  exact zero_ne_one hone

/-- A row at or below the pivot row comes from such a row. -/
theorem le_swap {k i a : Nat} (hk : k ≤ i) (ha : k ≤ a) : k ≤ Equiv.swap k i a := by
  rw [Equiv.swap_apply_def]
  split_ifs <;> omega

theorem swap_lt {k i a : Nat} (hk : k < rows) (hi : i < rows) (ha : a < rows) : Equiv.swap k i a < rows := by
  rw [Equiv.swap_apply_def]
  split_ifs <;> omega

/-- What a turn that finds a pivot makes of the matrix. -/
theorem EchelonState.entry_step {t : EchelonState} (h : Rect t.matrix rows cols) (hclear : t.Clear rows)
    {i : Nat} (hfirst : firstRow exceeds t.matrix t.pivotCol t.pivotRow rows = some i) :
    Rect (t.step rows).matrix rows cols ∧
      (∀ a j, a < t.pivotRow → entry (t.step rows).matrix a j = entry t.matrix a j) ∧
      (∀ j, entry (t.step rows).matrix t.pivotRow j = entry t.matrix i j / entry t.matrix i t.pivotCol) ∧
      ∀ a j, t.pivotRow < a → entry (t.step rows).matrix a j =
        entry t.matrix (Equiv.swap t.pivotRow i a) j - entry t.matrix (Equiv.swap t.pivotRow i a) t.pivotCol *
          (entry t.matrix i j / entry t.matrix i t.pivotCol) := by
  obtain ⟨⟨hk, hi⟩, -⟩ := firstRow_some hfirst
  have hlt : ∀ a ∈ List.range' (t.pivotRow + 1) (rows - (t.pivotRow + 1)), a < rows ∧ a ≠ t.pivotRow := by
    intro a ha
    have := List.mem_range'_1.mp ha
    omega
  have htest : ∀ a ∈ List.range' (t.pivotRow + 1) (rows - (t.pivotRow + 1)),
      exceeds (entry t.matrix (Equiv.swap t.pivotRow i a) t.pivotCol) = false →
        entry t.matrix (Equiv.swap t.pivotRow i a) t.pivotCol = 0 := by
    intro a ha hfalse
    have hmem := List.mem_range'_1.mp ha
    have hcase := hclear _ (le_swap hk (show t.pivotRow ≤ a by omega)) (swap_lt (by omega) hi (hlt a ha).1)
    exact (exceeds_eq_false_iff hcase).mp hfalse
  obtain ⟨hrect, hpivot, hcleared, hother⟩ :=
    clearRows_raiseRow exceeds t.pivotCol h hk hi hlt List.nodup_range' htest
  rw [step_some h hfirst]
  refine ⟨hrect, fun a j ha => ?_, hpivot, fun a j ha => ?_⟩
  · have hnot : a ∉ List.range' (t.pivotRow + 1) (rows - (t.pivotRow + 1)) := by
      intro hmem
      have := List.mem_range'_1.mp hmem
      omega
    rw [hother a j (by omega) hnot, Equiv.swap_apply_of_ne_of_ne (by omega) (by omega)]
  · rcases Nat.lt_or_ge a rows with hrow | hrow
    · exact hcleared a j (List.mem_range'_1.mpr (by omega))
    · rw [entry_of_row_le hrect hrow, Equiv.swap_apply_of_ne_of_ne (by omega) (by omega),
        entry_of_row_le h hrow, entry_of_row_le h hrow]
      ring

/-- A column in which the rows from the pivot row on are zero stays so. -/
theorem EchelonState.entry_step_eq_zero {t : EchelonState} (h : Rect t.matrix rows cols)
    (hclear : t.Clear rows) {i : Nat}
    (hfirst : firstRow exceeds t.matrix t.pivotCol t.pivotRow rows = some i) {a j : Nat}
    (ha : t.pivotRow ≤ a) (hcol : ∀ b, t.pivotRow ≤ b → entry t.matrix b j = 0) :
    entry (t.step rows).matrix a j = 0 := by
  obtain ⟨⟨hk, -⟩, -⟩ := firstRow_some hfirst
  obtain ⟨-, -, hpivot, hbelow⟩ := entry_step h hclear hfirst
  rcases Nat.eq_or_lt_of_le ha with rfl | hlt
  · rw [hpivot, hcol i hk, zero_div]
  · rw [hbelow a j hlt, hcol _ (le_swap hk ha), hcol i hk]
    ring

/-- The column of the pivot: a one in the pivot row and zeros below. -/
theorem EchelonState.entry_step_pivotCol {t : EchelonState} (h : Rect t.matrix rows cols)
    (hclear : t.Clear rows) {i : Nat}
    (hfirst : firstRow exceeds t.matrix t.pivotCol t.pivotRow rows = some i) :
    entry (t.step rows).matrix t.pivotRow t.pivotCol = 1 ∧
      ∀ a, t.pivotRow < a → entry (t.step rows).matrix a t.pivotCol = 0 := by
  obtain ⟨-, htest⟩ := firstRow_some hfirst
  obtain ⟨-, -, hpivot, hbelow⟩ := entry_step h hclear hfirst
  rw [hpivot, div_self (ne_zero_of_exceeds htest)]
  refine ⟨rfl, fun a ha => ?_⟩
  rw [hbelow a _ ha, div_self (ne_zero_of_exceeds htest)]
  ring

/-- A turn of the first loop that does not need the tolerance. -/
theorem Reduced.step {t : EchelonState} (h : Reduced rows cols t) (hclear : t.Clear rows) :
    Reduced rows cols (t.step rows) := by
  cases hfirst : firstRow exceeds t.matrix t.pivotCol t.pivotRow rows with
  | none =>
      rw [EchelonState.step_none hfirst]
      refine ⟨h.pivoted, fun p hp => (h.searched p hp).trans (Nat.lt_succ_self _), fun i j hi hj => ?_⟩
      rcases Nat.lt_or_ge j t.pivotCol with hj' | hj'
      · exact h.rest i j hi hj'
      · obtain rfl : j = t.pivotCol := by
          have : j < t.pivotCol + 1 := hj
          omega
        rcases Nat.lt_or_ge i rows with hrow | hrow
        · exact (exceeds_eq_false_iff (hclear i hi hrow)).mp (firstRow_none hfirst hi hrow)
        · exact entry_of_row_le h.pivoted.rect hrow _
  | some i =>
      obtain ⟨hrect, habove, -, -⟩ := EchelonState.entry_step h.pivoted.rect hclear hfirst
      obtain ⟨hone, hcleared⟩ := EchelonState.entry_step_pivotCol h.pivoted.rect hclear hfirst
      have hzero : ∀ a j, t.pivotRow ≤ a → (∀ b, t.pivotRow ≤ b → entry t.matrix b j = 0) →
          entry (t.step rows).matrix a j = 0 := fun a j ha hcol =>
        EchelonState.entry_step_eq_zero h.pivoted.rect hclear hfirst ha hcol
      rw [EchelonState.step_some h.pivoted.rect hfirst] at hrect habove hone hzero hcleared ⊢
      refine ⟨⟨hrect, ?_, fun p hp => ?_, fun p hp a ha => ?_⟩, fun p hp => ?_, fun a j ha hj => ?_⟩
      · rw [List.map_append, h.pivoted.rows_eq, List.range_succ]
        rfl
      · rcases List.mem_append.mp hp with hold | hnew
        · rw [habove _ _ (h.pivoted.row_lt hold), h.pivoted.one p hold]
        · obtain rfl := List.mem_singleton.mp hnew
          exact hone
      · rcases List.mem_append.mp hp with hold | hnew
        · rcases Nat.lt_or_ge a t.pivotRow with hlt | hge
          · rw [habove _ _ hlt, h.pivoted.below p hold a ha]
          · exact hzero a p.2 hge fun b hb =>
              h.pivoted.below p hold b ((h.pivoted.row_lt hold).trans_le hb)
        · obtain rfl := List.mem_singleton.mp hnew
          exact hcleared a ha
      · rcases List.mem_append.mp hp with hold | hnew
        · exact (h.searched p hold).trans (Nat.lt_succ_self _)
        · obtain rfl := List.mem_singleton.mp hnew
          exact Nat.lt_succ_self _
      · have ha' : t.pivotRow < a := ha
        rcases Nat.lt_or_ge j t.pivotCol with hj' | hj'
        · exact hzero a j ha'.le fun b hb => h.rest b j hb hj'
        · obtain rfl : j = t.pivotCol := by
            have : j < t.pivotCol + 1 := hj
            omega
          exact hcleared a ha'

/-! ### Both loops -/

/-- The two loops are at the same column and pivot row, with the same rows from there on. -/
structure Together (rows cols : Nat) (s : RankState) (t : EchelonState) : Prop where
  reduced : Reduced rows cols t
  rect : Rect s.matrix rows cols
  rank : s.rank = t.pivotRow
  col : s.pivotCol = t.pivotCol
  same : ∀ a j, t.pivotRow ≤ a → entry s.matrix a j = entry t.matrix a j

theorem Together.firstRow_eq {s : RankState} {t : EchelonState} (h : Together rows cols s t)
    (hclear : t.Clear rows) : firstRow (fun x => decide (x ≠ 0)) s.matrix s.pivotCol s.rank rows =
      firstRow exceeds t.matrix t.pivotCol t.pivotRow rows := by
  rw [h.rank, h.col]
  apply firstRow_congr
  intro i hi hlt
  rw [h.same i _ hi]
  have hiff := exceeds_eq_false_iff (hclear i hi hlt)
  by_cases hzero : entry t.matrix i t.pivotCol = 0
  · rw [hiff.mpr hzero, decide_eq_false (not_not.mpr hzero)]
  · rw [decide_eq_true hzero, Bool.of_not_eq_false fun hfalse => hzero (hiff.mp hfalse)]

/-- A turn of both loops. -/
theorem Together.step {s : RankState} {t : EchelonState} (h : Together rows cols s t)
    (hclear : t.Clear rows) : Together rows cols (s.step rows) (t.step rows) := by
  have hfirst := h.firstRow_eq hclear
  cases hpivot : firstRow exceeds t.matrix t.pivotCol t.pivotRow rows with
  | none =>
      have hreduced := h.reduced.step hclear
      rw [EchelonState.step_none hpivot] at hreduced ⊢
      rw [RankState.step_none (hfirst.trans hpivot)]
      exact ⟨hreduced, h.rect, h.rank, congrArg (· + 1) h.col, h.same⟩
  | some i =>
      obtain ⟨⟨hk, hi⟩, -⟩ := firstRow_some hpivot
      obtain ⟨hrect, -, -, hbelow⟩ := EchelonState.entry_step h.reduced.pivoted.rect hclear hpivot
      have hothers : ∀ a, a ∈ (List.range rows).filter (fun i => i ≠ s.rank) ↔ a < rows ∧ a ≠ s.rank := by
        intro a
        rw [List.mem_filter, List.mem_range, decide_eq_true_iff]
      obtain ⟨hrect', -, hcleared, -⟩ := clearRows_raiseRow (fun x => decide (x ≠ 0)) s.pivotCol
        (k := s.rank) h.rect (by rw [h.rank]; exact hk) hi (fun a ha => (hothers a).mp ha)
        (List.nodup_range.filter _) fun a _ hfalse => not_not.mp (of_decide_eq_false hfalse)
      have hsame : ∀ a j, t.pivotRow < a → entry (s.step rows).matrix a j = entry (t.step rows).matrix a j := by
        intro a j ha
        rw [RankState.step_some h.rect (hfirst.trans hpivot)]
        rcases Nat.lt_or_ge a rows with hlt | hge
        · have hmem := (hothers a).mpr ⟨hlt, by rw [h.rank]; omega⟩
          rw [hbelow a j ha]
          apply (hcleared a j hmem).trans
          rw [h.rank, h.col, h.same _ _ (le_swap hk ha.le), h.same _ _ (le_swap hk ha.le), h.same _ _ hk,
            h.same _ _ hk]
        · rw [entry_of_row_le hrect hge]
          exact entry_of_row_le hrect' hge j
      have hreduced := h.reduced.step hclear
      rw [EchelonState.step_some h.reduced.pivoted.rect hpivot] at hreduced hsame ⊢
      rw [RankState.step_some h.rect (hfirst.trans hpivot)] at hsame ⊢
      exact ⟨hreduced, hrect', congrArg (· + 1) h.rank, congrArg (· + 1) h.col, fun a j ha => hsame a j ha⟩

/-- Each turn moves on by a column, so that the first loop comes to its end. -/
theorem EchelonState.forward_exits (rows cols : Nat) (matrix : Grid ℚ) :
    (forward rows cols matrix cols).guard rows cols = false := by
  have hless : ∀ t : EchelonState, t.guard rows cols = true →
      cols - (t.step rows).pivotCol < cols - t.pivotCol := by
    intro t ht
    have hlt : t.pivotCol < cols := by
      rw [guard, Bool.and_eq_true, decide_eq_true_iff, decide_eq_true_iff] at ht
      exact ht.2
    have hcol : (t.step rows).pivotCol = t.pivotCol + 1 := by
      rw [step]
      split
      · rfl
      · rfl
    omega
  exact Runs.loop_exits (fun t : EchelonState => cols - t.pivotCol) hless (Nat.sub_le _ _)

/-- At the end of both loops: the rank is the number of pivots, and the rows after them are zero. -/
theorem loops_end {matrix : Grid ℚ} (h : Rect matrix rows cols) (hunused : ToleranceUnused matrix rows cols) :
    let t := EchelonState.forward rows cols matrix cols
    (Runs.loop (RankState.guard rows cols) (RankState.step rows) cols ⟨matrix, 0, 0⟩).rank = t.pivotRow ∧
      Pivoted rows cols t.pivotRow t.pivotPositions t.matrix ∧
      ∀ i j, t.pivotRow ≤ i → entry t.matrix i j = 0 := by
  have hstart : Together rows cols ⟨matrix, 0, 0⟩ ⟨matrix, 0, 0, []⟩ :=
    ⟨⟨⟨h, rfl, nofun, nofun⟩, nofun, nofun⟩, h, rfl, rfl, fun _ _ _ => rfl⟩
  have hguard : ∀ s t, Together rows cols s t → s.guard rows cols = t.guard rows cols := by
    intro s t hst
    rw [RankState.guard, EchelonState.guard, hst.rank, hst.col, Bool.and_comm]
  have htogether := Runs.loop_simulates hguard (fun _ _ hst _ hclear => hst.step hclear) hstart hunused cols
  change Together rows cols _ (EchelonState.forward rows cols matrix cols) at htogether
  have hexit := EchelonState.forward_exits rows cols matrix
  intro t
  refine ⟨htogether.rank, htogether.reduced.pivoted, fun i j hi => ?_⟩
  have hrect := htogether.reduced.pivoted.rect
  rcases Nat.lt_or_ge i rows with hrow | hrow
  · rcases Nat.lt_or_ge j cols with hcol | hcol
    · -- the loop has come to its last column
      have hlast : cols ≤ t.pivotCol := by
        by_contra hlt
        have htrue : t.guard rows cols = true := by
          rw [EchelonState.guard, decide_eq_true (show t.pivotRow < rows by omega),
            decide_eq_true (show t.pivotCol < cols by omega)]
          rfl
        exact Bool.false_ne_true (hexit.symm.trans htrue)
      exact htogether.reduced.rest i j hi (hcol.trans_le hlast)
    · exact entry_of_col_le hrect i hcol
  · exact entry_of_row_le hrect hrow j

/-! ### The other two loops -/

/-- Clearing above one pivot. -/
theorem Pivoted.clear {k : Nat} {positions : List (Nat × Nat)} {matrix : Grid ℚ}
    (h : Pivoted rows cols k positions matrix) {p : Nat × Nat} (hp : p ∈ positions) :
    Pivoted rows cols k positions (clearRows exceeds p.1 p.2 (List.range p.1) matrix) ∧
      ∀ i j, k ≤ i → entry (clearRows exceeds p.1 p.2 (List.range p.1) matrix) i j = entry matrix i j := by
  have hlt := (h.row_lt hp).trans_le h.le_rows
  have hindices : ∀ a ∈ List.range p.1, a < rows ∧ a ≠ p.1 := by
    intro a ha
    have := List.mem_range.mp ha
    omega
  obtain ⟨hrect, hentry⟩ := clearRows_spec exceeds hlt p.2 hindices List.nodup_range h.rect
  -- the pivot row is zero in the columns of the pivots above it, so these columns stay as they are
  have hkeep : ∀ q ∈ positions, ∀ a, q.1 ≤ a →
      entry (clearRows exceeds p.1 p.2 (List.range p.1) matrix) a q.2 = entry matrix a q.2 := by
    intro q hq a ha
    rw [hentry]
    split
    · next hmem =>
        have hbelow : q.1 < p.1 := ha.trans_lt (List.mem_range.mp hmem.1)
        rw [h.below q hq p.1 hbelow, mul_zero, sub_zero]
    · rfl
  refine ⟨⟨hrect, h.rows_eq, fun q hq => ?_, fun q hq a ha => ?_⟩, fun i j hi => ?_⟩
  · rw [hkeep q hq q.1 (le_refl _), h.one q hq]
  · rw [hkeep q hq a ha.le, h.below q hq a ha]
  · rw [hentry, if_neg]
    rintro ⟨hmem, -⟩
    have := List.mem_range.mp hmem
    have := h.row_lt hp
    omega

/-- The second loop. -/
theorem Pivoted.clearAbove {k : Nat} {positions : List (Nat × Nat)} {matrix : Grid ℚ}
    (h : Pivoted rows cols k positions matrix) :
    Pivoted rows cols k positions (clearAbove positions matrix) ∧
      ∀ i j, k ≤ i → entry (clearAbove positions matrix) i j = entry matrix i j := by
  have hfold : ∀ pivots : List (Nat × Nat), (∀ p ∈ pivots, p ∈ positions) → ∀ m,
      Pivoted rows cols k positions m → (∀ i j, k ≤ i → entry m i j = entry matrix i j) →
      Pivoted rows cols k positions (pivots.foldl
        (fun matrix pivot => clearRows exceeds pivot.1 pivot.2 (List.range pivot.1) matrix) m) ∧
        ∀ i j, k ≤ i → entry (pivots.foldl
          (fun matrix pivot => clearRows exceeds pivot.1 pivot.2 (List.range pivot.1) matrix) m) i j =
            entry matrix i j := by
    intro pivots
    induction pivots with
    | nil => exact fun _ m hm hsame => ⟨hm, hsame⟩
    | cons p pivots ih =>
        intro hmem m hm hsame
        obtain ⟨hp, hrest⟩ := List.forall_mem_cons.mp hmem
        obtain ⟨hcleared, hkept⟩ := hm.clear hp
        exact ih hrest _ hcleared fun i j hi => (hkept i j hi).trans (hsame i j hi)
  exact hfold _ (fun p hp => List.mem_reverse.mp hp) matrix h fun _ _ _ => rfl

/-- The third loop. -/
theorem entry_cleanUp (matrix : Grid ℚ) (i j : Nat) :
    entry (cleanUp matrix) i j = if |entry matrix i j| < tolerance then 0 else entry matrix i j :=
  entry_map (fun x => if |x| < tolerance then 0 else x) (ite_self 0) matrix i j

theorem rect_cleanUp {matrix : Grid ℚ} (h : Rect matrix rows cols) : Rect (cleanUp matrix) rows cols :=
  h.map _

/-! ### Counting rows -/

/-- A row counts when it has an entry that is not zero. -/
theorem any_ne_zero_iff (row : List ℚ) :
    (row.any fun x => decide (x ≠ 0)) = true ↔ ∃ j, row.getD j 0 ≠ 0 := by
  rw [List.any_eq_true]
  constructor
  · rintro ⟨x, hx, hne⟩
    obtain ⟨j, hj, rfl⟩ := List.getElem_of_mem hx
    refine ⟨j, ?_⟩
    rw [List.getD_eq_getElem _ _ hj]
    exact of_decide_eq_true hne
  · rintro ⟨j, hne⟩
    rcases Nat.lt_or_ge j row.length with hj | hj
    · rw [List.getD_eq_getElem _ _ hj] at hne
      exact ⟨_, List.getElem_mem hj, decide_eq_true hne⟩
    · exact absurd (List.getD_eq_default _ _ hj) hne

/-- With the first `k` rows not zero and the others zero, there are `k` rows that are not zero. -/
theorem nonzeroRows_eq {matrix : Grid ℚ} (h : Rect matrix rows cols) {k : Nat} (hk : k ≤ rows)
    (hfirst : ∀ i, i < k → ∃ j, entry matrix i j ≠ 0) (hrest : ∀ i j, k ≤ i → entry matrix i j = 0) :
    nonzeroRows matrix = k := by
  have hlen := h.length
  have htake : (matrix.take k).length = k := by rw [List.length_take]; omega
  rw [nonzeroRows, ← List.take_append_drop k matrix, List.countP_append, List.countP_eq_length.mpr,
    List.countP_eq_zero.mpr, htake, add_zero]
  · intro row hrow
    obtain ⟨i, hi, rfl⟩ := List.getElem_of_mem hrow
    rw [List.length_drop] at hi
    rw [any_ne_zero_iff, List.getElem_drop]
    rintro ⟨j, hne⟩
    rw [← List.getD_eq_getElem _ [] (by omega)] at hne
    exact hne (hrest (k + i) j (by omega))
  · intro row hrow
    obtain ⟨i, hi, rfl⟩ := List.getElem_of_mem hrow
    obtain ⟨j, hne⟩ := hfirst i (by omega)
    rw [any_ne_zero_iff, List.getElem_take]
    refine ⟨j, ?_⟩
    rw [← List.getD_eq_getElem _ [] (by omega)]
    exact hne

/-! ### The two functions -/

theorem isValidMatrix_of_rect {matrix : Grid ℚ} (h : Rect matrix rows cols) (hrows : 0 < rows)
    (hcols : 0 < cols) : isValidMatrix matrix rows cols = true := by
  have hall : (matrix.all fun row => decide (row.length = cols)) = true :=
    List.all_eq_true.mpr fun row hrow => decide_eq_true (h.row_length row hrow)
  match matrix, h, hall with
  | [], h, _ => exact absurd h.length (by rw [List.length_nil]; omega)
  | [] :: _, h, _ => exact absurd (h.row_length [] List.mem_cons_self) (by rw [List.length_nil]; omega)
  | (x :: row) :: others, h, hall =>
      rw [isValidMatrix, hall, decide_eq_true h.length]
      · rfl
      · exact nofun
      · exact nofun

theorem matrixRank_of_rect {matrix : Grid ℚ} (h : Rect matrix rows cols) (hrows : 0 < rows)
    (hcols : 0 < cols) : matrixRank matrix =
      (Runs.loop (RankState.guard rows cols) (RankState.step rows) cols ⟨matrix, 0, 0⟩).rank := by
  match matrix, h with
  | [], h => exact absurd h.length (by rw [List.length_nil]; omega)
  | [] :: _, h => exact absurd (h.row_length [] List.mem_cons_self) (by rw [List.length_nil]; omega)
  | (x :: row) :: others, h =>
      rw [matrixRank, h.length, h.row_length (x :: row) List.mem_cons_self]
      exact nofun

/-- For a rectangular matrix on which the tolerance is not needed. -/
theorem rank_eq_nonzeroRows {matrix : Grid ℚ} (h : Rect matrix rows cols) (hrows : 0 < rows)
    (hcols : 0 < cols) (hunused : ToleranceUnused matrix rows cols) :
    ∃ result, reducedRowEchelonFormFinder matrix rows cols = some result ∧
      matrixRank matrix = nonzeroRows result := by
  obtain ⟨hrank, hpivoted, hzero⟩ := loops_end h hunused
  obtain ⟨hcleared, hkept⟩ := hpivoted.clearAbove
  refine ⟨_, if_pos (isValidMatrix_of_rect h hrows hcols), ?_⟩
  rw [matrixRank_of_rect h hrows hcols, hrank]
  refine (nonzeroRows_eq (rect_cleanUp hcleared.rect) hcleared.le_rows (fun i hi => ?_) fun i j hi => ?_).symm
  · obtain ⟨j, -, hone⟩ := hcleared.exists_pivot hi
    refine ⟨j, ?_⟩
    rw [entry_cleanUp, hone, abs_one, if_neg (by decide +kernel)]
    exact one_ne_zero
  · rw [entry_cleanUp, hkept i j hi, hzero i j hi, ite_self]

end CalSci.Echelon
