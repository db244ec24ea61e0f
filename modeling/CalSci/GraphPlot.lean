import CalSci.FrameBuffer
import Mathlib.Algebra.Order.Field.Rat
import Mathlib.Algebra.Order.Floor.Ring
import Mathlib.Data.Int.ConditionallyCompleteOrder
import Mathlib.Data.Rat.Floor
import Mathlib.Order.Monotone.Basic
import Mathlib.Tactic.FieldSimp
import Mathlib.Tactic.Linarith
import Mathlib.Tactic.Ring

/-! `plot_function` of the graph app, in whatever arithmetic the numbers have. The calls that do not depend on the
function (axes and labels) come first; the curve is then drawn column by column, each column on what the columns
before it left in `x_past` and `y_past`. An exception in the loop keeps what has been drawn so far. The rows of sample
values are worked out for exact arithmetic. -/

namespace CalSci.Graph

open CalSci.FrameBuffer

/-! ### Axes and labels -/

def getChar : Char → List Nat
  | 'x' => [0x05, 0x02, 0x05]
  | 'm' => [0x07, 0x06, 0x07]
  | 'i' => [0x00, 0x17, 0x00]
  | 'n' => [0x07, 0x04, 0x07]
  | 'a' => [0x17, 0x15, 0x1F]
  | '_' => [0x01, 0x01, 0x01]
  | ' ' => [0x00, 0x00, 0x00]
  | 'y' => [0x1D, 0x05, 0x1F]
  | _ => [0x1F, 0x1F, 0x1F]

/-- One column of a small character: five rows, the highest bit at the top. -/
def drawSmallColumn (x y : Int) (byte : Nat) : List Command :=
  ((List.range 5).filter fun row => byte.testBit (4 - row)).map fun row => .pixel x (y + row)

def drawSmallText : List Char → Int → Int → List Command
  | [], _, _ => []
  | char :: text, x, y =>
      ((getChar char).zipIdx.flatMap fun column => drawSmallColumn (x + column.2) y column.1) ++
        drawSmallText text (x + 4) y

def axisRow : Int := 31

/-- What `plot_function` draws before its loop. -/
def axes : List Command :=
  [.line 0 axisRow 127 axisRow, .line 63 0 63 57] ++ drawSmallText "x_min".toList 0 33 ++
    drawSmallText "x_max".toList 108 33 ++ drawSmallText "y_min".toList 65 50 ++ drawSmallText "y_max".toList 65 0 ++
    [.text "x= ".toList 0 56, .text "y= ".toList 64 56]

/-! ### The rows of sample values -/

/-- The arithmetic of a plot. A division by some numbers raises, and so does `int` of those that are not finite. -/
class Arithmetic (V : Type) extends Add V, Sub V, Mul V, Div V, NatCast V where
  less : V → V → Bool
  isZero : V → Bool
  finite : V → Bool
  toInt : V → Int

structure Window (V : Type) where
  xMin : V
  xMax : V
  yMin : V
  yMax : V
  deriving DecidableEq

section Pixels

variable {V : Type} [Arithmetic V]

/-- `x_scale`, for the width 128 of every call. -/
def Window.xScale (w : Window V) : V := (w.xMax - w.xMin) / (128 : Nat)

/-- `y_scale`, for the height 64 of every call, taken before `height -= 8`. -/
def Window.yScale (w : Window V) : V := (w.yMax - w.yMin) / (64 : Nat)

/-- The value scaled to the display height and inverted; the height is 56 by then. -/
def Window.inverted (w : Window V) (y : V) : V := (56 : Nat) - (y - w.yMin) / w.yScale

/-- The division by `y_scale` raises, or `int`. -/
def Window.Raises (w : Window V) (y : V) : Prop :=
  Arithmetic.isZero w.yScale = true ∨ Arithmetic.finite (w.inverted y) = false

instance (w : Window V) : DecidablePred w.Raises := fun _ => inferInstanceAs (Decidable (_ ∨ _))

def Window.yPixel (w : Window V) (y : V) : Int := Arithmetic.toInt (w.inverted y)

/-- The test `0 <= y_pixel < height`. -/
def Window.Accepts (w : Window V) (y : V) : Prop := 0 ≤ w.yPixel y ∧ w.yPixel y < 56

instance (w : Window V) : DecidablePred w.Accepts := fun y =>
  inferInstanceAs (Decidable (0 ≤ w.yPixel y ∧ w.yPixel y < 56))

/-- The row on which an accepted sample is drawn. -/
def Window.drawnRow (w : Window V) (y : V) : Int := w.yPixel y - 1

end Pixels

/-! ### Exact arithmetic -/

/-- `int` of a number: truncation toward zero. -/
def int (q : ℚ) : Int := if 0 ≤ q then ⌊q⌋ else ⌈q⌉

instance : Arithmetic ℚ where
  less a b := decide (a < b)
  isZero a := decide (a = 0)
  finite _ := true
  toInt := int

theorem Window.yScale_eq (w : Window ℚ) : w.yScale = (w.yMax - w.yMin) / 64 := rfl

theorem Window.yPixel_eq (w : Window ℚ) (y : ℚ) : w.yPixel y = int (56 - (y - w.yMin) / w.yScale) := rfl

theorem Window.raises_iff (w : Window ℚ) (y : ℚ) : w.Raises y ↔ w.yScale = 0 := by
  constructor
  · rintro (hzero | hfinite)
    · exact of_decide_eq_true hzero
    · cases hfinite
  · intro hzero
    exact Or.inl (decide_eq_true hzero)

theorem int_nonneg_iff {q : ℚ} : 0 ≤ int q ↔ -1 < q := by
  unfold int
  split
  next hq =>
    constructor
    · intro _
      linarith
    · intro _
      exact Int.floor_nonneg.mpr hq
  next hq =>
    rw [← Int.sub_one_lt_iff, Int.lt_ceil]
    simp

theorem int_lt_iff {q : ℚ} {n : Nat} (hn : 0 < n) : int q < n ↔ q < n := by
  unfold int
  split
  next hq =>
    rw [Int.floor_lt]
    simp
  next hq =>
    have hneg : q < 0 := not_le.mp hq
    have hceil : ⌈q⌉ ≤ 0 := by
      rw [Int.ceil_le]
      simpa using hneg.le
    have hnat : (0 : ℚ) < n := by exact_mod_cast hn
    constructor
    · intro _
      linarith
    · intro _
      omega

theorem int_natCast (n : Nat) : int n = n := by
  rw [int, if_pos (Nat.cast_nonneg n), Int.floor_natCast]

theorem int_mono {p q : ℚ} (hpq : p ≤ q) : int p ≤ int q := by
  unfold int
  split
  next hp =>
    rw [if_pos (hp.trans hpq)]
    exact Int.floor_le_floor hpq
  next hp =>
    split
    next hq =>
      have hceil : ⌈p⌉ ≤ 0 := by
        rw [Int.ceil_le]
        simpa using (not_le.mp hp).le
      exact hceil.trans (Int.floor_nonneg.mpr hq)
    next => exact Int.ceil_le_ceil hpq

section Rows

variable {w : Window ℚ}

theorem Window.yScale_pos (hw : w.yMin < w.yMax) : 0 < w.yScale := by
  rw [Window.yScale_eq]
  linarith

/-- The samples that are drawn: the lower bound itself and the top seven of the sixty-four steps are not. -/
theorem Window.accepts_iff (hw : w.yMin < w.yMax) (y : ℚ) :
    w.Accepts y ↔ w.yMin < y ∧ y < w.yMin + 57 / 64 * (w.yMax - w.yMin) := by
  have hscale := Window.yScale_pos hw
  have hlow : w.yPixel y < 56 ↔ w.yMin < y :=
    calc w.yPixel y < 56 ↔ 56 - (y - w.yMin) / w.yScale < ((56 : Nat) : ℚ) := int_lt_iff (n := 56) (by decide)
      _ ↔ 0 < (y - w.yMin) / w.yScale := by push_cast; constructor <;> intro h <;> linarith
      _ ↔ w.yMin < y := by rw [div_pos_iff_of_pos_right hscale, sub_pos]
  have hhigh : 0 ≤ w.yPixel y ↔ y < w.yMin + 57 / 64 * (w.yMax - w.yMin) :=
    calc 0 ≤ w.yPixel y ↔ -1 < 56 - (y - w.yMin) / w.yScale := int_nonneg_iff
      _ ↔ (y - w.yMin) / w.yScale < 57 := by constructor <;> intro h <;> linarith
      _ ↔ y - w.yMin < 57 * w.yScale := div_lt_iff₀ hscale
      _ ↔ y < w.yMin + 57 / 64 * (w.yMax - w.yMin) := by
        rw [Window.yScale_eq]
        constructor <;> intro h <;> linarith
  rw [Window.Accepts, hlow, hhigh, and_comm]

theorem Window.yPixel_antitone (hw : w.yMin < w.yMax) : Antitone w.yPixel := by
  intro y z hyz
  rw [Window.yPixel_eq, Window.yPixel_eq]
  apply int_mono
  have hdiv : (y - w.yMin) / w.yScale ≤ (z - w.yMin) / w.yScale :=
    div_le_div_of_nonneg_right (by linarith) (Window.yScale_pos hw).le
  linarith

theorem Window.yPixel_middle (hw : w.yMin < w.yMax) : w.yPixel ((w.yMin + w.yMax) / 2) = 24 := by
  have hne : w.yMax - w.yMin ≠ 0 := by linarith
  have hrow : 56 - ((w.yMin + w.yMax) / 2 - w.yMin) / w.yScale = ((24 : Nat) : ℚ) := by
    rw [Window.yScale_eq]
    field_simp
    push_cast
    ring
  rw [Window.yPixel_eq, hrow, int_natCast]
  rfl

end Rows

/-- The window fills the plot area: every value inside is drawn, higher values are never drawn lower, and the middle
value is on the axis line. -/
def FillsWindow (w : Window ℚ) : Prop :=
  (∀ y, w.yMin ≤ y → y ≤ w.yMax → w.Accepts y) ∧ Antitone w.yPixel ∧
    w.drawnRow ((w.yMin + w.yMax) / 2) = axisRow

/-- Higher values are never drawn lower; but of the values in a window only those above the lower bound and below
57/64 of the height are drawn, and the middle value is drawn eight rows above the axis line. So no window fills the
plot area. -/
theorem plot_rows (w : Window ℚ) (hw : w.yMin < w.yMax) :
    (∀ y, w.yMin ≤ y → y ≤ w.yMax →
      (w.Accepts y ↔ w.yMin < y ∧ y < w.yMin + 57 / 64 * (w.yMax - w.yMin))) ∧
    Antitone w.yPixel ∧ w.drawnRow ((w.yMin + w.yMax) / 2) = axisRow - 8 ∧ ¬ FillsWindow w := by
  have hmiddle : w.drawnRow ((w.yMin + w.yMax) / 2) = axisRow - 8 := by
    rw [Window.drawnRow, Window.yPixel_middle hw]
    rfl
  refine ⟨fun y _ _ => Window.accepts_iff hw y, Window.yPixel_antitone hw, hmiddle, ?_⟩
  rintro ⟨-, -, haxis⟩
  rw [hmiddle] at haxis
  omega

/-- The window the app starts with. -/
def startWindow : Window ℚ := { xMin := -20, xMax := 20, yMin := -10, yMax := 10 }

theorem plot_rows_start : startWindow.yMin < startWindow.yMax ∧ ¬ FillsWindow startWindow :=
  ⟨by norm_num [startWindow], (plot_rows startWindow (by norm_num [startWindow])).2.2.2⟩

/-- In the window the app starts with the value 10 has row -8 and is not drawn, the value 0 is drawn on row 23. -/
theorem start_window_not_filled :
    startWindow.yMin < startWindow.yMax ∧ startWindow.yPixel 10 = -8 ∧ ¬ startWindow.Accepts 10 ∧
      startWindow.drawnRow 0 = 23 ∧ axisRow = 31 ∧ ¬ FillsWindow startWindow := by
  have hten : startWindow.yPixel 10 = -8 := by
    norm_num [Window.yPixel_eq, int, startWindow, Window.yScale_eq]
  have hzero : startWindow.drawnRow 0 = 23 := by
    norm_num [Window.drawnRow, Window.yPixel_eq, int, startWindow, Window.yScale_eq]
  have hrejected : ¬ startWindow.Accepts 10 := by
    rintro ⟨hlow, -⟩
    omega
  refine ⟨by norm_num [startWindow], hten, hrejected, hzero, rfl, ?_⟩
  rintro ⟨hall, -⟩
  exact hrejected (hall 10 (by norm_num [startWindow]) (by norm_num [startWindow]))

/-! ### The curve -/

/-- The app is left by an exception. -/
inductive Left
  | raised

variable {V : Type} [Arithmetic V]

/-- `func(exp=exp_str, x=x_value)` at a column; `none` where evaluating the expression raises. -/
def sample (f : V → Option V) (w : Window V) (x : Nat) : Option V := f (w.xMin + x * w.xScale)

/-- The variables of the loop, with the calls it has made and whether it has raised. -/
structure Pen where
  curve : List Command := []
  xPast : Int := 0
  yPast : Int := 0
  raised : Bool := false
  deriving DecidableEq

/-- `x_past = 0; y_past = 0`. -/
def Pen.lift (pen : Pen) : Pen := { pen with xPast := 0, yPast := 0 }

/-- The body of the test `0 <= y_pixel < height`: the pixel, the line from the past point if there is one, and the
new past point. -/
def Pen.mark (pen : Pen) (x y : Int) : Pen :=
  { pen with
    curve := pen.curve ++ .pixel x y ::
      (if pen.xPast * pen.yPast ≠ 0 then [.line pen.xPast pen.yPast x y] else [])
    xPast := x
    yPast := y }

/-- The value lies between the bounds: it is neither above `y_max` nor below `y_min`. -/
def Window.Inside (w : Window V) (y : V) : Prop :=
  Arithmetic.less w.yMax y = false ∧ Arithmetic.less y w.yMin = false

instance (w : Window V) : DecidablePred w.Inside := fun _ => inferInstanceAs (Decidable (_ ∧ _))

/-- The loop body for one column. -/
def column (f : V → Option V) (w : Window V) (pen : Pen) (x : Nat) : Pen :=
  if pen.raised then pen
  else
    match sample f w x with
    | none => { pen with raised := true }
    | some y =>
        if w.Raises y then { pen with raised := true }
        else
          let pen := if w.Inside y then pen else pen.lift
          if w.Accepts y then pen.mark (x - 1) (w.drawnRow y) else pen

def columns (f : V → Option V) (w : Window V) (n : Nat) : Pen := (List.range n).foldl (column f w) {}

/-- `plot_function`: the calls it makes and whether it raises. -/
def plotFunction (f : V → Option V) (w : Window V) : List Command × Bool :=
  let pen := columns f w 128
  (axes ++ pen.curve, pen.raised)

theorem plotFunction_calls (f : V → Option V) (w : Window V) :
    (plotFunction f w).1 = axes ++ (columns f w 128).curve := by
  rw [plotFunction]

theorem plotFunction_raised (f : V → Option V) (w : Window V) : (plotFunction f w).2 = (columns f w 128).raised := by
  rw [plotFunction]

theorem columns_succ (f : V → Option V) (w : Window V) (n : Nat) :
    columns f w (n + 1) = column f w (columns f w n) n := by
  rw [columns, List.range_succ, List.foldl_append]
  rfl

end CalSci.Graph
