import CalSci.GridRows
import CalSci.Runs
import Mathlib.Algebra.Order.Ring.Abs
import Mathlib.Algebra.Order.Ring.Rat

/-! `matrix_rank` of `apps/scientific_calculator/rank.py` and `reduced_row_echelon_form_finder` of
`reduced_row_echelon.py`, over the rational numbers. Both look for a pivot column by column; the first one
compares entries with zero and clears a column above and below its pivot, the second one compares with a
tolerance, clears below, and goes back over the pivots at the end. A matrix is a list of rows; with rows of
one length every index of the loops is inside. -/

namespace CalSci.Echelon

open GridRows

/-! ### rank.py -/

structure RankState where
  matrix : Grid ℚ
  rank : Nat
  pivotCol : Nat

namespace RankState

def step (rows : Nat) (s : RankState) : RankState :=
  match firstRow (fun x => x ≠ 0) s.matrix s.pivotCol s.rank rows with
  | none => { s with pivotCol := s.pivotCol + 1 }
  | some pivotRow =>
      let matrix := if pivotRow ≠ s.rank then swapRows s.matrix s.rank pivotRow else s.matrix
      let pivot := entry matrix s.rank s.pivotCol
      let matrix := if pivot ≠ 0 then scaleRow matrix s.rank pivot else matrix
      let others := (List.range rows).filter fun i => i ≠ s.rank
      { matrix := clearRows (fun x => x ≠ 0) s.rank s.pivotCol others matrix
        rank := s.rank + 1
        pivotCol := s.pivotCol + 1 }

/-- `while pivot_col < cols and rank < rows`. -/
def guard (rows cols : Nat) (s : RankState) : Bool := decide (s.pivotCol < cols) && decide (s.rank < rows)

end RankState

/-- `matrix_rank`. Each turn of the loop moves on by a column, so that `cols` turns are enough. -/
def matrixRank (matrix : Grid ℚ) : Nat :=
  match matrix with
  | [] => 0
  | [] :: _ => 0
  | row :: _ =>
      (Runs.loop (RankState.guard matrix.length row.length) (RankState.step matrix.length) row.length
        ⟨matrix, 0, 0⟩).rank

/-! ### reduced_row_echelon.py -/

/-- `1e-10`. -/
def tolerance : ℚ := 1 / 10 ^ 10

/-- `abs(x) > 1e-10`. -/
def exceeds (x : ℚ) : Bool := decide (tolerance < |x|)

/-- `is_valid_matrix`, as it is used: whether what it returns is true. -/
def isValidMatrix (matrix : Grid ℚ) (rows cols : Nat) : Bool :=
  match matrix with
  | [] => false
  | [] :: _ => false
  | _ => decide (matrix.length = rows) && matrix.all fun row => decide (row.length = cols)

structure EchelonState where
  matrix : Grid ℚ
  pivotRow : Nat
  pivotCol : Nat
  pivotPositions : List (Nat × Nat)

namespace EchelonState

def step (rows : Nat) (s : EchelonState) : EchelonState :=
  match firstRow exceeds s.matrix s.pivotCol s.pivotRow rows with
  | none => { s with pivotCol := s.pivotCol + 1 }
  | some i =>
      let matrix := if i ≠ s.pivotRow then swapRows s.matrix s.pivotRow i else s.matrix
      let pivot := entry matrix s.pivotRow s.pivotCol
      let matrix' := if exceeds pivot then scaleRow matrix s.pivotRow pivot else matrix
      let pivotPositions :=
        if exceeds pivot then s.pivotPositions ++ [(s.pivotRow, s.pivotCol)] else s.pivotPositions
      let below := List.range' (s.pivotRow + 1) (rows - (s.pivotRow + 1))
      { matrix := clearRows exceeds s.pivotRow s.pivotCol below matrix'
        pivotRow := s.pivotRow + 1
        pivotCol := s.pivotCol + 1
        pivotPositions }

/-- `while pivot_row < rows and pivot_col < cols`. -/
def guard (rows cols : Nat) (s : EchelonState) : Bool :=
  decide (s.pivotRow < rows) && decide (s.pivotCol < cols)

def forward (rows cols : Nat) (matrix : Grid ℚ) (n : Nat) : EchelonState :=
  Runs.loop (guard rows cols) (step rows) n ⟨matrix, 0, 0, []⟩

end EchelonState

/-- The second loop: above each pivot, from the last one on. -/
def clearAbove (pivotPositions : List (Nat × Nat)) (matrix : Grid ℚ) : Grid ℚ :=
  pivotPositions.reverse.foldl
    (fun matrix pivot => clearRows exceeds pivot.1 pivot.2 (List.range pivot.1) matrix) matrix

/-- The third loop: what is below the tolerance becomes zero. -/
def cleanUp (matrix : Grid ℚ) : Grid ℚ :=
  matrix.map fun row => row.map fun x => if |x| < tolerance then 0 else x

/-- `reduced_row_echelon_form_finder`; nothing for a matrix that is not valid. -/
def reducedRowEchelonFormFinder (matrix : Grid ℚ) (rows cols : Nat) : Option (Grid ℚ) :=
  if isValidMatrix matrix rows cols then
    let s := EchelonState.forward rows cols matrix cols
    some (cleanUp (clearAbove s.pivotPositions s.matrix))
  else none

/-- The number of rows that have an entry other than zero. -/
def nonzeroRows (matrix : Grid ℚ) : Nat := matrix.countP fun row => row.any fun x => x ≠ 0

/-- A matrix of integers, in rational arithmetic. -/
def ofInts (matrix : Grid Int) : Grid ℚ := matrix.map (List.map fun x : Int => (x : ℚ))

end CalSci.Echelon
