import CalSci.GridEchelon
import CalSci.GridMatrix
import CalSci.MatrixAgree

/-! The echelon forms themselves: `reduced_row_echelon_form_finder` of `reduced_row_echelon.py` returns the
reduced row echelon form and `row_echelon_form_finder` of `row_echelon_form.py` an echelon form with the same
pivots, as long as each entry that is compared with the tolerance is zero or larger. The second function works
on the columns from the pivot on only, which is enough since the rows it works on are zero before. -/

namespace CalSci.Echelon

open GridRows Matrix

variable {rows cols : Nat}

/-- The comparison with the tolerance tells zero from the rest. -/
def Apart (x : ℚ) : Prop := x = 0 ∨ tolerance < |x|

instance (x : ℚ) : Decidable (Apart x) := inferInstanceAs (Decidable (x = 0 ∨ tolerance < |x|))

/-! ### The first loop of the reduced form -/

/-- What holds at the head of the first loop. -/
structure Forward (rows cols : Nat) (space : Submodule ℚ (Fin cols → ℚ)) (t : EchelonState) : Prop where
  rect : Rect t.matrix rows cols
  rows_eq : t.pivotPositions.map Prod.fst = List.range t.pivotRow
  form : Staircase t.matrix (t.pivotPositions.map Prod.snd) t.pivotCol
  span : rowSpan cols t.matrix = space

section Forward

variable {space : Submodule ℚ (Fin cols → ℚ)} {t : EchelonState}

theorem Forward.length (h : Forward rows cols space t) : (t.pivotPositions.map Prod.snd).length = t.pivotRow := by
  rw [List.length_map, ← List.length_map (f := Prod.fst), h.rows_eq, List.length_range]

/-- The pivot positions are the rows in order, each with its column. -/
theorem Forward.getElem?_cols (h : Forward rows cols space t) {p : Nat × Nat} {i : Nat}
    (hi : t.pivotPositions[i]? = some p) : p.1 = i ∧ (t.pivotPositions.map Prod.snd)[p.1]? = some p.2 := by
  have hrow : (t.pivotPositions.map Prod.fst)[i]? = some p.1 := by
    rw [List.getElem?_map, hi, Option.map_some]
  obtain ⟨hlt, heq⟩ := List.getElem?_eq_some_iff.mp (h.rows_eq ▸ hrow)
  rw [List.getElem_range] at heq
  refine ⟨heq.symm, ?_⟩
  rw [← heq, List.getElem?_map, hi, Option.map_some]

theorem Forward.getElem?_split (h : Forward rows cols space t) {earlier later : List (Nat × Nat)} {p : Nat × Nat}
    (hsplit : t.pivotPositions = earlier ++ p :: later) :
    p.1 = earlier.length ∧ (t.pivotPositions.map Prod.snd)[p.1]? = some p.2 := by
  refine h.getElem?_cols ?_
  rw [hsplit, List.getElem?_append_right (le_refl _), Nat.sub_self]
  rfl

theorem Forward.step (h : Forward rows cols space t) (hclear : t.Clear rows) :
    Forward rows cols space (t.step rows) := by
  have hlength := h.length
  cases hfirst : firstRow exceeds t.matrix t.pivotCol t.pivotRow rows with
  | none =>
      rw [EchelonState.step_none hfirst]
      refine ⟨h.rect, h.rows_eq, h.form.skip fun i hi => ?_, h.span⟩
      rw [hlength] at hi
      rcases Nat.lt_or_ge i rows with hlt | hge
      · exact (exceeds_eq_false_iff (hclear i hi hlt)).mp (firstRow_none hfirst hi hlt)
      · exact entry_of_row_le h.rect hge _
  | some i =>
      obtain ⟨⟨hk, hi⟩, htest⟩ := firstRow_some hfirst
      have hne := ne_zero_of_exceeds htest
      have hbelow : ∀ a, a ∈ List.range' (t.pivotRow + 1) (rows - (t.pivotRow + 1)) ↔
          t.pivotRow < a ∧ a < rows := fun a => mem_range'_sub
      have hlt : ∀ a ∈ List.range' (t.pivotRow + 1) (rows - (t.pivotRow + 1)), a < rows ∧ a ≠ t.pivotRow := by
        intro a ha
        have := (hbelow a).mp ha
        omega
      have hrect := (EchelonState.entry_step h.rect hclear hfirst).1
      rw [EchelonState.step_some h.rect hfirst] at hrect ⊢
      refine ⟨hrect, ?_, ?_, ?_⟩
      · rw [List.map_append, h.rows_eq, List.range_succ]
        rfl
      · have htest' : ∀ a ∈ List.range' (t.pivotRow + 1) (rows - (t.pivotRow + 1)),
            exceeds (entry t.matrix (Equiv.swap t.pivotRow i a) t.pivotCol) = false →
              entry t.matrix (Equiv.swap t.pivotRow i a) t.pivotCol = 0 := by
          intro a ha hfalse
          have ha' := (hbelow a).mp ha
          exact (exceeds_eq_false_iff (hclear _ (le_swap hk ha'.1.le) (swap_lt (by omega) hi ha'.2))).mp hfalse
        simp only [List.map_append, List.map_singleton, ← hlength] at hk hlt hbelow htest' ⊢
        exact h.form.pivot h.rect hk hi hne exceeds hlt List.nodup_range'
          (fun a ha hrow => (hbelow a).mpr ⟨ha, hrow⟩) htest'
      · rw [rowSpan_clearRows exceeds (by omega) _ hlt (raiseRow_spec h.rect hk hi).1,
          rowSpan_raiseRow h.rect hk hi hne, h.span]

/-- At the end of the first loop the rows after the pivots are zero. -/
theorem Forward.rest (h : Forward rows cols space t) (hends : t.guard rows cols = false) (i j : Nat)
    (hi : (t.pivotPositions.map Prod.snd).length ≤ i) : entry t.matrix i j = 0 := by
  refine h.form.rest_eq_zero h.rect ?_ hi j
  rw [h.length]
  rw [EchelonState.guard, Bool.and_eq_false_iff, decide_eq_false_iff_not, decide_eq_false_iff_not] at hends
  omega

end Forward

theorem forward_of_unused {matrix : Grid ℚ} (h : Rect matrix rows cols)
    (hunused : ToleranceUnused matrix rows cols) (n : Nat) :
    Forward rows cols (rowSpan cols matrix) (EchelonState.forward rows cols matrix n) :=
  Runs.loop_invariant_of (fun _ ht _ hclear => ht.step hclear) ⟨h, rfl, Staircase.start matrix, rfl⟩ hunused n

/-! ### The second and the third loop -/

/-- The second loop takes the pivots from the last one on. -/
theorem clearAbove_eq_foldr (positions : List (Nat × Nat)) (matrix : Grid ℚ) :
    clearAbove positions matrix =
      positions.foldr (fun pivot matrix => clearRows exceeds pivot.1 pivot.2 (List.range pivot.1) matrix) matrix := by
  rw [clearAbove, List.foldl_reverse]

/-- Every entry that one of the three loops compares with the tolerance is zero or larger. -/
structure RunsApart (matrix : Grid ℚ) (rows cols : Nat) : Prop where
  first : ToleranceUnused matrix rows cols
  second : ∀ done pivot rest,
    (EchelonState.forward rows cols matrix cols).pivotPositions.reverse = done ++ pivot :: rest →
      ∀ i, i < pivot.1 → Apart (entry (done.foldl
        (fun matrix pivot => clearRows exceeds pivot.1 pivot.2 (List.range pivot.1) matrix)
        (EchelonState.forward rows cols matrix cols).matrix) i pivot.2)
  third : ∀ i j, i < rows → j < cols →
    Apart (entry (clearAbove (EchelonState.forward rows cols matrix cols).pivotPositions
      (EchelonState.forward rows cols matrix cols).matrix) i j)

/-- What the second loop keeps, whatever it clears: the pivots, the rows after them, and the row space. -/
structure Kept (rows cols : Nat) (t : EchelonState) (matrix : Grid ℚ) : Prop where
  rect : Rect matrix rows cols
  form : Staircase matrix (t.pivotPositions.map Prod.snd) t.pivotCol
  rest : ∀ i j, (t.pivotPositions.map Prod.snd).length ≤ i → entry matrix i j = entry t.matrix i j
  span : rowSpan cols matrix = rowSpan cols t.matrix

section BackSubstitution

variable {space : Submodule ℚ (Fin cols → ℚ)} {t : EchelonState}

theorem Kept.clearRows {matrix : Grid ℚ} (h : Kept rows cols t matrix) {r c : Nat}
    (hrc : (t.pivotPositions.map Prod.snd)[r]? = some c) :
    Kept rows cols t (clearRows exceeds r c (List.range r) matrix) := by
  obtain ⟨hrect, hkeep, -⟩ := h.form.entry_clearRows h.rect hrc exceeds
  have hr := (List.getElem?_eq_some_iff.mp hrc).1
  refine ⟨hrect, h.form.clearRows h.rect hrc exceeds, fun i j hi => ?_, ?_⟩
  · rw [hkeep i j (by omega), h.rest i j hi]
  · rw [rowSpan_clearRows exceeds (h.form.lt_cols h.rect hrc).1 c (fun a ha => ?_) h.rect, h.span]
    have hlt := List.mem_range.mp ha
    have hrow := (h.form.lt_cols h.rect hrc).1
    omega

/-- The second loop up to a point: the pivots `later` are done. -/
theorem Forward.kept (h : Forward rows cols space t) {earlier later : List (Nat × Nat)}
    (hsplit : t.pivotPositions = earlier ++ later) : Kept rows cols t (later.foldr
      (fun pivot matrix => clearRows exceeds pivot.1 pivot.2 (List.range pivot.1) matrix) t.matrix) := by
  induction later generalizing earlier with
  | nil => exact ⟨h.rect, h.form, fun _ _ _ => rfl, rfl⟩
  | cons p later ih =>
      have hsplit' : t.pivotPositions = (earlier ++ [p]) ++ later := by
        rw [hsplit, List.append_assoc]
        rfl
      exact (ih hsplit').clearRows (h.getElem?_split hsplit).2

/-- With nothing within the tolerance the columns of the pivots that are done are zero above them. -/
theorem Forward.above (h : Forward rows cols space t)
    (hapart : ∀ earlier p later, t.pivotPositions = earlier ++ p :: later → ∀ i, i < p.1 →
      Apart (entry (later.foldr
        (fun pivot matrix => clearRows exceeds pivot.1 pivot.2 (List.range pivot.1) matrix) t.matrix) i p.2))
    {earlier later : List (Nat × Nat)} (hsplit : t.pivotPositions = earlier ++ later) :
    ∀ q ∈ later, ∀ a, a < q.1 → entry (later.foldr
      (fun pivot matrix => clearRows exceeds pivot.1 pivot.2 (List.range pivot.1) matrix) t.matrix) a q.2 = 0 := by
  induction later generalizing earlier with
  | nil => exact nofun
  | cons p later ih =>
      have hsplit' : t.pivotPositions = (earlier ++ [p]) ++ later := by
        rw [hsplit, List.append_assoc]
        rfl
      obtain ⟨hrow, hcol⟩ := h.getElem?_split hsplit
      have hkept := h.kept hsplit'
      have hdone := ih hsplit'
      have hcase := hapart earlier p later hsplit
      obtain ⟨-, hkeep, hclear⟩ := hkept.form.entry_clearRows hkept.rect hcol exceeds
      rw [List.foldr_cons]
      generalize later.foldr
        (fun pivot matrix => clearRows exceeds pivot.1 pivot.2 (List.range pivot.1) matrix) t.matrix = m at *
      intro q hq a ha
      rcases List.mem_cons.mp hq with rfl | hlater
      · rw [hclear a q.2 ha, hkept.form.one q.1 q.2 hcol, mul_one, sub_self]
        split
        · rfl
        · next hfalse => exact (exceeds_eq_false_iff (hcase a ha)).mp (Bool.of_not_eq_true hfalse)
      · rcases Nat.lt_or_ge a p.1 with hlt | hge
        · -- the row of this pivot is already zero in the column of a later one
          obtain ⟨k, hk⟩ := List.getElem?_of_mem hlater
          have hpos : t.pivotPositions[(earlier ++ [p]).length + k]? = some q := by
            rw [hsplit', List.getElem?_append_right (Nat.le_add_right _ _), Nat.add_sub_cancel_left, hk]
          have hlater' := (h.getElem?_cols hpos).1
          rw [List.length_append, List.length_singleton] at hlater'
          rw [hclear a q.2 hlt, hdone q hlater p.1 (by omega), hdone q hlater a ha, mul_zero, sub_zero, ite_self]
        · rw [hkeep a q.2 (by omega), hdone q hlater a ha]

end BackSubstitution

theorem cleanUp_eq_self {matrix : Grid ℚ} (h : Rect matrix rows cols)
    (hapart : ∀ i j, i < rows → j < cols → Apart (entry matrix i j)) : cleanUp matrix = matrix := by
  apply (rect_cleanUp h).ext h
  intro i j hi hj
  rw [entry_cleanUp]
  split
  · next hlt =>
      rcases hapart i j hi hj with hzero | hgt
      · exact hzero.symm
      · exact absurd hlt (not_lt.mpr hgt.le)
  · rfl

/-- The reduced row echelon form: the rows span the same space; each row that is not zero leads with a one,
further to the right than the row above and alone in its column; the zero rows are at the bottom. -/
theorem reduced_row_echelon_form_correct {matrix : Grid Int} (h : Rect matrix rows cols) (hrows : 0 < rows)
    (hcols : 0 < cols) (hrun : RunsApart (ofInts matrix) rows cols) :
    ∃ result, reducedRowEchelonFormFinder (ofInts matrix) rows cols = some result ∧ Rect result rows cols ∧
      Submodule.span ℚ (Set.range (toMatrix rows cols result).row) =
        Submodule.span ℚ (Set.range (toMatrix rows cols (ofInts matrix)).row) ∧
      (toMatrix rows cols result).IsReducedRowEchelon := by
  have hrect : Rect (ofInts matrix) rows cols := h.map _
  have hforward := forward_of_unused hrect hrun.first cols
  have hends := EchelonState.forward_exits rows cols (ofInts matrix)
  refine ⟨_, if_pos (isValidMatrix_of_rect hrect hrows hcols), ?_⟩
  have hsecond := hrun.second
  have hthird := hrun.third
  generalize EchelonState.forward rows cols (ofInts matrix) cols = t at *
  have hkept : Kept rows cols t (clearAbove t.pivotPositions t.matrix) := by
    rw [clearAbove_eq_foldr]
    exact hforward.kept (List.nil_append t.pivotPositions).symm
  rw [cleanUp_eq_self hkept.rect hthird]
  have habove := hforward.above (fun earlier p later hsplit i hi => by
    have hdone := hsecond later.reverse p earlier.reverse (by simp [hsplit]) i hi
    rwa [List.foldl_reverse] at hdone) (List.nil_append t.pivotPositions).symm
  rw [← clearAbove_eq_foldr] at habove
  have hrest : ∀ i j, (t.pivotPositions.map Prod.snd).length ≤ i →
      entry (clearAbove t.pivotPositions t.matrix) i j = 0 := fun i j hi => by
    rw [hkept.rest i j hi, hforward.rest hends i j hi]
  refine ⟨hkept.rect, ?_, hkept.form.isReducedRowEchelon hrest fun i c hic a ha => ?_⟩
  · rw [← rowSpan_eq_span_row hkept.rect, ← rowSpan_eq_span_row hrect, hkept.span, hforward.span]
  · rw [List.getElem?_map, Option.map_eq_some_iff] at hic
    obtain ⟨p, hp, rfl⟩ := hic
    have hrow := (hforward.getElem?_cols hp).1
    exact habove p (List.mem_of_getElem? hp) a (by omega)

theorem runsApart_two : RunsApart (ofInts [[2, 4], [1, 3]]) 2 2 := by
  have hpositions :
      (EchelonState.forward 2 2 (ofInts [[2, 4], [1, 3]]) 2).pivotPositions.reverse = [(1, 1), (0, 0)] := by
    decide +kernel
  refine ⟨fun n hguard i _ hi => ?_, fun done pivot rest hsplit i hi => ?_, fun i j hi hj => ?_⟩
  · match n with
    | 0 =>
        have hall : ∀ i, i < 2 →
            Apart (entry (EchelonState.forward 2 2 (ofInts [[2, 4], [1, 3]]) 0).matrix i 0) := by decide +kernel
        exact hall i hi
    | 1 =>
        have hcol : (EchelonState.forward 2 2 (ofInts [[2, 4], [1, 3]]) 1).pivotCol = 1 := by decide +kernel
        have hall : ∀ i, i < 2 →
            Apart (entry (EchelonState.forward 2 2 (ofInts [[2, 4], [1, 3]]) 1).matrix i 1) := by decide +kernel
        rw [hcol]
        exact hall i hi
    | n + 2 =>
        rw [EchelonState.forward, Runs.loop_succ_of_guard (by decide +kernel),
          Runs.loop_succ_of_guard (by decide +kernel), Runs.loop_of_not_guard (by decide +kernel)] at hguard
        exact absurd hguard (by decide +kernel)
  · rw [hpositions] at hsplit
    match done, hsplit with
    | [], hsplit =>
        obtain ⟨rfl, -⟩ := List.cons.inj hsplit
        have hall : ∀ i, i < 1 →
            Apart (entry (EchelonState.forward 2 2 (ofInts [[2, 4], [1, 3]]) 2).matrix i 1) := by decide +kernel
        exact hall i hi
    | [_], hsplit =>
        obtain ⟨rfl, -⟩ := List.cons.inj (List.cons.inj hsplit).2
        exact absurd hi (Nat.not_lt_zero i)
    | _ :: _ :: done, hsplit => exact absurd (congrArg List.length hsplit) (by simp)
  · have hall : ∀ i, i < 2 → ∀ j, j < 2 → Apart (entry
        (clearAbove (EchelonState.forward 2 2 (ofInts [[2, 4], [1, 3]]) 2).pivotPositions
          (EchelonState.forward 2 2 (ofInts [[2, 4], [1, 3]]) 2).matrix) i j) := by
      decide +kernel
    exact hall i hi j hj

theorem reduced_row_echelon_form_correct_two :
    ∃ result, reducedRowEchelonFormFinder (ofInts [[2, 4], [1, 3]]) 2 2 = some result ∧
      (toMatrix 2 2 result).IsReducedRowEchelon := by
  obtain ⟨result, hresult, -, -, hform⟩ :=
    reduced_row_echelon_form_correct ⟨rfl, by decide⟩ (by decide) (by decide) runsApart_two
  exact ⟨result, hresult, hform⟩

/-! ### row_echelon_form.py -/

/-- `for j in range(pivot_col, cols): matrix[i][j] = matrix[i][j] / pivot`. -/
def divideFrom (cols i pivotCol : Nat) (pivot : ℚ) (matrix : Grid ℚ) : Grid ℚ :=
  (List.range' pivotCol (cols - pivotCol)).foldl
    (fun matrix j => setEntry matrix i j (entry matrix i j / pivot)) matrix

/-- `for j in range(pivot_col, cols): matrix[i][j] = matrix[i][j] - factor * matrix[pivot_row][j]`. -/
def subtractFrom (cols i pivotRow pivotCol : Nat) (factor : ℚ) (matrix : Grid ℚ) : Grid ℚ :=
  (List.range' pivotCol (cols - pivotCol)).foldl
    (fun matrix j => setEntry matrix i j (entry matrix i j - factor * entry matrix pivotRow j)) matrix

def clearBelow (rows cols pivotRow pivotCol : Nat) (matrix : Grid ℚ) : Grid ℚ :=
  (List.range' (pivotRow + 1) (rows - (pivotRow + 1))).foldl
    (fun matrix i =>
      if exceeds (entry matrix i pivotCol) then
        let factor := entry matrix i pivotCol / entry matrix pivotRow pivotCol
        subtractFrom cols i pivotRow pivotCol factor matrix
      else matrix) matrix

/-- The variables of the loop of `row_echelon_form_finder`. -/
structure RowEchelonState where
  matrix : Grid ℚ
  pivotRow : Nat
  pivotCol : Nat

namespace RowEchelonState

def step (rows cols : Nat) (s : RowEchelonState) : RowEchelonState :=
  match firstRow exceeds s.matrix s.pivotCol s.pivotRow rows with
  | none => { s with pivotCol := s.pivotCol + 1 }
  | some i =>
      let matrix := if i ≠ s.pivotRow then swapRows s.matrix s.pivotRow i else s.matrix
      let pivot := entry matrix s.pivotRow s.pivotCol
      let matrix' := if exceeds pivot then divideFrom cols s.pivotRow s.pivotCol pivot matrix else matrix
      { matrix := clearBelow rows cols s.pivotRow s.pivotCol matrix'
        pivotRow := s.pivotRow + 1
        pivotCol := s.pivotCol + 1 }

/-- `while pivot_row < rows and pivot_col < cols`. -/
def guard (rows cols : Nat) (s : RowEchelonState) : Bool :=
  decide (s.pivotRow < rows) && decide (s.pivotCol < cols)

def run (rows cols : Nat) (matrix : Grid ℚ) (n : Nat) : RowEchelonState :=
  Runs.loop (guard rows cols) (step rows cols) n ⟨matrix, 0, 0⟩

/-- A turn compares the entries of the pivot column from the pivot row on. -/
def Clear (rows : Nat) (s : RowEchelonState) : Prop :=
  ∀ i, s.pivotRow ≤ i → i < rows → Apart (entry s.matrix i s.pivotCol)

end RowEchelonState

/-- `row_echelon_form_finder`; nothing for a matrix that is not valid. Entries are integers by their type, which
`is_valid_matrix` checks here. -/
def rowEchelonFormFinder (matrix : Grid Int) (rows cols : Nat) : Option (Grid ℚ) :=
  if isValidMatrix (ofInts matrix) rows cols then
    some (RowEchelonState.run rows cols (ofInts matrix) cols).matrix
  else none

/-- The same state without the pivot positions. -/
def EchelonState.toRowEchelon (t : EchelonState) : RowEchelonState := ⟨t.matrix, t.pivotRow, t.pivotCol⟩

/-- Below a pivot row that is zero before its pivot, a one, the rest of the columns is all there is to do. -/
theorem clearBelow_eq {matrix : Grid ℚ} (h : Rect matrix rows cols) {pivotRow pivotCol : Nat}
    (hrow : pivotRow < rows) (hleft : ∀ j, j < pivotCol → entry matrix pivotRow j = 0)
    (hone : entry matrix pivotRow pivotCol = 1) :
    clearBelow rows cols pivotRow pivotCol matrix =
      clearRows exceeds pivotRow pivotCol (List.range' (pivotRow + 1) (rows - (pivotRow + 1))) matrix := by
  have hindices : ∀ i ∈ List.range' (pivotRow + 1) (rows - (pivotRow + 1)), i < rows ∧ i ≠ pivotRow := by
    intro i hi
    have := List.mem_range'_1.mp hi
    omega
  rw [clearBelow, clearRows]
  generalize List.range' (pivotRow + 1) (rows - (pivotRow + 1)) = indices at hindices
  induction indices generalizing matrix with
  | nil => rfl
  | cons i indices ih =>
      obtain ⟨⟨hi, hne⟩, hrest⟩ := List.forall_mem_cons.mp hindices
      rw [List.foldl_cons, List.foldl_cons]
      split
      · next htest =>
          have hsub : subtractFrom cols i pivotRow pivotCol (entry matrix i pivotCol / 1) matrix =
              subRow matrix i pivotRow (entry matrix i pivotCol) := by
            rw [div_one]
            exact foldl_subRow_from h hi hrow hne hleft _
          dsimp only
          rw [hone, hsub]
          have hpivot : ∀ j, entry (subRow matrix i pivotRow (entry matrix i pivotCol)) pivotRow j =
              entry matrix pivotRow j := fun j => by
            rw [entry_subRow h hi hrow, if_neg (Ne.symm hne)]
          refine ih (h.subRow hrow i _) (fun j hj => ?_) ?_ hrest
          · rw [hpivot, hleft j hj]
          · rw [hpivot, hone]
      · exact ih h hleft hone hrest

/-- A turn of both loops gives the same matrix. -/
theorem toRowEchelon_step {space : Submodule ℚ (Fin cols → ℚ)} {t : EchelonState}
    (h : Forward rows cols space t) : t.toRowEchelon.step rows cols = (t.step rows).toRowEchelon := by
  have hlength := h.length
  cases hfirst : firstRow exceeds t.matrix t.pivotCol t.pivotRow rows with
  | none =>
      rw [EchelonState.step_none hfirst, RowEchelonState.step]
      simp only [EchelonState.toRowEchelon, hfirst]
  | some i =>
      obtain ⟨⟨hk, hi⟩, htest⟩ := firstRow_some hfirst
      obtain ⟨hlift, -⟩ := liftRow_spec h.rect hk hi
      have hself : ∀ j, entry (liftRow t.matrix t.pivotRow i) t.pivotRow j = entry t.matrix i j :=
        entry_liftRow_self h.rect hk hi
      have hraise : Rect (raiseRow t.matrix t.pivotRow i t.pivotCol) rows cols := (raiseRow_spec h.rect hk hi).1
      have hpivot : ∀ j, entry (raiseRow t.matrix t.pivotRow i t.pivotCol) t.pivotRow j =
          entry t.matrix i j / entry t.matrix i t.pivotCol := (raiseRow_spec h.rect hk hi).2.1
      have hleft : ∀ j, j < t.pivotCol → entry t.matrix i j = 0 := fun j hj => h.form.rest i j (by omega) hj
      have hdivide : divideFrom cols t.pivotRow t.pivotCol (entry t.matrix i t.pivotCol)
          (liftRow t.matrix t.pivotRow i) = raiseRow t.matrix t.pivotRow i t.pivotCol := by
        rw [raiseRow, hself]
        exact foldl_scaleRow_from hlift (by omega) (fun j hj => (hself j).trans (hleft j hj)) _
      rw [EchelonState.step_some h.rect hfirst, RowEchelonState.step]
      simp only [EchelonState.toRowEchelon, hfirst]
      change RowEchelonState.mk (clearBelow rows cols t.pivotRow t.pivotCol
        (if exceeds (entry (liftRow t.matrix t.pivotRow i) t.pivotRow t.pivotCol) = true then
          divideFrom cols t.pivotRow t.pivotCol (entry (liftRow t.matrix t.pivotRow i) t.pivotRow t.pivotCol)
            (liftRow t.matrix t.pivotRow i) else liftRow t.matrix t.pivotRow i)) _ _ = _
      rw [hself, if_pos htest, hdivide, clearBelow_eq hraise (by omega)]
      · intro j hj
        rw [hpivot, hleft j hj, zero_div]
      · rw [hpivot, div_self (ne_zero_of_exceeds htest)]

/-- The loop never compares an entry within the tolerance but zero. -/
def RowEchelonUnused (matrix : Grid ℚ) (rows cols : Nat) : Prop :=
  ∀ n, (RowEchelonState.run rows cols matrix n).guard rows cols = true →
    (RowEchelonState.run rows cols matrix n).Clear rows

/-- Both first loops go through the same matrices. -/
theorem run_eq_forward {matrix : Grid ℚ} (h : Rect matrix rows cols)
    (hunused : RowEchelonUnused matrix rows cols) (n : Nat) :
    (EchelonState.forward rows cols matrix n).toRowEchelon = RowEchelonState.run rows cols matrix n ∧
      Forward rows cols (rowSpan cols matrix) (EchelonState.forward rows cols matrix n) := by
  have hguard : ∀ (t : EchelonState) (s : RowEchelonState),
      t.toRowEchelon = s ∧ Forward rows cols (rowSpan cols matrix) t → t.guard rows cols = s.guard rows cols := by
    rintro t s ⟨rfl, -⟩
    rfl
  have hstep : ∀ (t : EchelonState) (s : RowEchelonState),
      t.toRowEchelon = s ∧ Forward rows cols (rowSpan cols matrix) t → s.guard rows cols = true → s.Clear rows →
        (t.step rows).toRowEchelon = s.step rows cols ∧ Forward rows cols (rowSpan cols matrix) (t.step rows) := by
    rintro t s ⟨rfl, hforward⟩ - hclear
    exact ⟨(toRowEchelon_step hforward).symm, hforward.step hclear⟩
  have hstart : (⟨matrix, 0, 0, []⟩ : EchelonState).toRowEchelon = ⟨matrix, 0, 0⟩ ∧
      Forward rows cols (rowSpan cols matrix) ⟨matrix, 0, 0, []⟩ :=
    ⟨rfl, h, rfl, Staircase.start matrix, rfl⟩
  exact Runs.loop_simulates (C := RowEchelonState.Clear rows) hguard hstep hstart hunused n

/-- What is below the tolerance is neither a pivot nor before one. -/
theorem staircase_cleanUp {matrix : Grid ℚ} {pivots : List Nat} {col : Nat} (h : Staircase matrix pivots col) :
    Staircase (cleanUp matrix) pivots col := by
  refine ⟨h.sorted, h.searched, fun i c hic => ?_, fun i c hic j hj => ?_, fun i j hi hj => ?_⟩
  · rw [entry_cleanUp, h.one i c hic, abs_one, if_neg (by decide +kernel)]
  · rw [entry_cleanUp, h.left i c hic j hj, ite_self]
  · rw [entry_cleanUp, h.rest i j hi hj, ite_self]

/-- The row echelon form: the rows span the same space, those that are not zero lead with a one, further to the
right from row to row, and their columns are those of the reduced form. -/
theorem row_echelon_form_correct {matrix : Grid Int} (h : Rect matrix rows cols) (hrows : 0 < rows)
    (hcols : 0 < cols) (hunused : RowEchelonUnused (ofInts matrix) rows cols) :
    ∃ result reduced, rowEchelonFormFinder matrix rows cols = some result ∧
      reducedRowEchelonFormFinder (ofInts matrix) rows cols = some reduced ∧ Rect result rows cols ∧
      Submodule.span ℚ (Set.range (toMatrix rows cols result).row) =
        Submodule.span ℚ (Set.range (toMatrix rows cols (ofInts matrix)).row) ∧
      (toMatrix rows cols result).IsRowEchelon ∧
      (∀ i c, (toMatrix rows cols result).IsLeadingEntry i c → toMatrix rows cols result i c = 1) ∧
      ∀ i c, (toMatrix rows cols result).IsLeadingEntry i c ↔ (toMatrix rows cols reduced).IsLeadingEntry i c := by
  have hrect : Rect (ofInts matrix) rows cols := h.map _
  have hvalid := isValidMatrix_of_rect hrect hrows hcols
  obtain ⟨hsame, hforward⟩ := run_eq_forward hrect hunused cols
  have hends := EchelonState.forward_exits rows cols (ofInts matrix)
  refine ⟨_, _, if_pos hvalid, if_pos hvalid, ?_⟩
  rw [← hsame]
  generalize EchelonState.forward rows cols (ofInts matrix) cols = t at *
  have hrest := hforward.rest hends
  have hkept : Kept rows cols t (clearAbove t.pivotPositions t.matrix) := by
    rw [clearAbove_eq_foldr]
    exact hforward.kept (List.nil_append t.pivotPositions).symm
  have hrest' : ∀ i j, (t.pivotPositions.map Prod.snd).length ≤ i →
      entry (cleanUp (clearAbove t.pivotPositions t.matrix)) i j = 0 := fun i j hi => by
    rw [entry_cleanUp, hkept.rest i j hi, hrest i j hi, ite_self]
  refine ⟨hforward.rect, ?_, hforward.form.isRowEchelon hrest, fun i c hic => ?_, fun i c => ?_⟩
  · rw [← rowSpan_eq_span_row hrect, ← hforward.span]
    exact (rowSpan_eq_span_row hforward.rect).symm
  · exact hforward.form.one i c ((hforward.form.isLeadingEntry_iff hrest i c).mp hic)
  · exact (hforward.form.isLeadingEntry_iff hrest i c).trans
      ((staircase_cleanUp hkept.form).isLeadingEntry_iff hrest' i c).symm

theorem rowEchelonUnused_two : RowEchelonUnused (ofInts [[2, 4], [1, 3]]) 2 2 := by
  intro n hguard i _ hi
  match n with
  | 0 =>
      have hall : ∀ i, i < 2 →
          Apart (entry (RowEchelonState.run 2 2 (ofInts [[2, 4], [1, 3]]) 0).matrix i 0) := by decide +kernel
      exact hall i hi
  | 1 =>
      have hcol : (RowEchelonState.run 2 2 (ofInts [[2, 4], [1, 3]]) 1).pivotCol = 1 := by decide +kernel
      have hall : ∀ i, i < 2 →
          Apart (entry (RowEchelonState.run 2 2 (ofInts [[2, 4], [1, 3]]) 1).matrix i 1) := by decide +kernel
      rw [hcol]
      exact hall i hi
  | n + 2 =>
      rw [RowEchelonState.run, Runs.loop_succ_of_guard (by decide +kernel),
        Runs.loop_succ_of_guard (by decide +kernel), Runs.loop_of_not_guard (by decide +kernel)] at hguard
      exact absurd hguard (by decide +kernel)

theorem row_echelon_form_correct_two :
    ∃ result, rowEchelonFormFinder [[2, 4], [1, 3]] 2 2 = some result ∧ (toMatrix 2 2 result).IsRowEchelon := by
  obtain ⟨result, -, hresult, -, -, -, hform, -⟩ :=
    row_echelon_form_correct ⟨rfl, by decide⟩ (by decide) (by decide) rowEchelonUnused_two
  exact ⟨result, hresult, hform⟩

end CalSci.Echelon
