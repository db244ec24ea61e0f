import CalSci.PySequence
import Mathlib.Data.List.GetD
import Mathlib.Logic.Function.Basic

/-! A screen of rows of cells that is written row by row: what is written covers the row from its first
cell on, and the cells beyond it stay. A screen kept by writing some of its rows is compared with one
that is wiped and written in full. -/

namespace RowScreen

variable {γ ε : Type}

/-- A row after `cells` are written from its start. -/
def paint (cells : List γ) (row : Nat → γ) : Nat → γ := fun j => cells.getD j (row j)

/-- A screen, row by row and cell by cell. -/
abbrev Screen (γ : Type) := Int → Nat → γ

def paintRow (draw : Int → Except ε (List γ)) (screen : Screen γ) (i : Int) : Except ε (Screen γ) := do
  let cells ← draw i
  pure (Function.update screen i (paint cells (screen i)))

/-- `for i in range(start, stop)`, row `i` is drawn and written. -/
def paintRows (draw : Int → Except ε (List γ)) (start stop : Int) (screen : Screen γ) :
    Except ε (Screen γ) :=
  (Py.rangeFrom start (stop - start).toNat).foldlM (paintRow draw) screen

theorem paint_of_lt {cells : List γ} {j : Nat} (h : j < cells.length) (row row' : Nat → γ) :
    paint cells row j = paint cells row' j := by
  simp only [paint, List.getD_eq_getElem _ _ h]

theorem paint_of_le {cells : List γ} {j : Nat} (h : cells.length ≤ j) (row : Nat → γ) :
    paint cells row j = row j := by
  simp only [paint, List.getD_eq_default _ _ h]

/-- Writing over an old row is as good as writing on a wiped one exactly when the old row is blank
beyond the new cells. -/
theorem paint_eq_iff {new : List γ} {old blank : Nat → γ} :
    paint new old = paint new blank ↔ ∀ j, new.length ≤ j → old j = blank j := by
  constructor
  · intro h j hj
    have hj' := congrFun h j
    rwa [paint_of_le hj, paint_of_le hj] at hj'
  · intro h
    funext j
    rcases Nat.lt_or_ge j new.length with hj | hj
    · exact paint_of_lt hj _ _
    · rw [paint_of_le hj, paint_of_le hj, h j hj]

@[simp] theorem paint_paint (cells : List γ) (row : Nat → γ) :
    paint cells (paint cells row) = paint cells row :=
  paint_eq_iff.mpr fun _ hj => paint_of_le hj row

theorem paintRow_ok {draw : Int → Except ε (List γ)} {i : Int} {cells : List γ}
    (h : draw i = .ok cells) (screen : Screen γ) :
    paintRow draw screen i = .ok (Function.update screen i (paint cells (screen i))) := by
  rw [paintRow, h]
  rfl

/-- The first rows of a range are written, the others stay. -/
theorem foldlM_paintRow {draw : Int → Except ε (List γ)} {cells : Int → List γ} {start : Int}
    (screen : Screen γ) (count : Nat)
    (hdraw : ∀ i, start ≤ i → i < start + count → draw i = .ok (cells i)) :
    (Py.rangeFrom start count).foldlM (paintRow draw) screen = .ok fun i =>
      if start ≤ i ∧ i < start + count then paint (cells i) (screen i) else screen i := by
  induction count with
  | zero =>
      refine congrArg Except.ok (funext fun i => ?_)
      rw [if_neg (by omega)]
  | succ count ih =>
      have hsplit : Py.rangeFrom start (count + 1) = Py.rangeFrom start count ++ [start + count] := by
        simp [Py.rangeFrom, List.range_succ]
      rw [hsplit, List.foldlM_append, ih fun i h0 h1 => hdraw i h0 (by omega)]
      change paintRow draw _ (start + count) >>= pure = _
      rw [paintRow_ok (hdraw _ (by omega) (by omega)), bind_pure]
      refine congrArg Except.ok (funext fun i => ?_)
      by_cases hi : i = start + count
      · subst hi
        rw [Function.update_self, if_neg (by omega), if_pos (by omega)]
      · rw [Function.update_of_ne hi]
        by_cases hin : start ≤ i ∧ i < start + count
        · rw [if_pos hin, if_pos (by omega)]
        · rw [if_neg hin, if_neg (by omega)]

/-- The rows in the range are written, the others stay. -/
theorem paintRows_eq {draw : Int → Except ε (List γ)} {cells : Int → List γ} {start stop : Int}
    (hdraw : ∀ i, start ≤ i → i < stop → draw i = .ok (cells i)) (screen : Screen γ) :
    paintRows draw start stop screen = .ok fun i =>
      if start ≤ i ∧ i < stop then paint (cells i) (screen i) else screen i := by
  rw [paintRows, foldlM_paintRow screen _ fun i h0 h1 => hdraw i h0 (by omega)]
  refine congrArg Except.ok (funext fun i => ?_)
  by_cases hin : start ≤ i ∧ i < stop
  · rw [if_pos hin, if_pos (by omega)]
  · rw [if_neg hin, if_neg (by omega)]

end RowScreen
