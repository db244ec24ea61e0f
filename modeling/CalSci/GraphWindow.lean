import CalSci.GraphPlot
import CalSci.PyDecimals
import CalSci.Runs

/-! Zooming and panning over a plot. A key reads the four bounds from the texts of the form, computes new ones and
writes them back as texts, rounded to a multiple of pi or to a hundredth, while the plot itself is drawn from the
numbers before rounding. What the texts hold is a window again exactly when rounding keeps the two bounds apart. -/

namespace CalSci.Graph

/-- `math.pi`, as MicroPython's source writes it. -/
def pi : ℚ := 314159265358979323846 / 100000000000000000000

theorem pi_pos : 0 < pi := by norm_num [pi]

/-! ### The texts of the bounds -/

def multiple (v : ℚ) : Int := Py.round (v / pi)

/-- The test of `format_number`. -/
def NearMultiple (v : ℚ) : Prop := |v / pi - multiple v| < 1 / 1000

instance : DecidablePred NearMultiple := fun v => inferInstanceAs (Decidable (|v / pi - multiple v| < 1 / 1000))

def formatNumber (v : ℚ) : List Char :=
  if NearMultiple v then
    if multiple v = 0 then "0 ".toList
    else if multiple v = 1 then "pi ".toList
    else if multiple v = -1 then "-pi ".toList
    else Py.str (multiple v) ++ "*pi ".toList
  else Py.fixed v ++ [' ']

/-- What `eval` makes of the texts that `format_number` writes; the first argument is the value of `x`. -/
structure ReadsNumbers (eval : ℚ → List Char → Option ℚ) : Prop where
  ofZero : ∀ x, eval x "0 ".toList = some 0
  ofPi : ∀ x, eval x "pi ".toList = some pi
  ofNegPi : ∀ x, eval x "-pi ".toList = some (-pi)
  ofTimesPi : ∀ x (k : Int), eval x (Py.str k ++ "*pi ".toList) = some (k * pi)
  ofFixed : ∀ x negative (n : Nat),
    eval x (Py.fixedText negative n ++ [' ']) = some ((if negative then -(n : ℚ) else n) / 100)

/-- The number that a bound becomes by being written and read. -/
def rounded (v : ℚ) : ℚ := if NearMultiple v then multiple v * pi else Py.hundredths v / 100

theorem signed_hundredths (v : ℚ) :
    (if decide (v < 0) = true then -((Py.hundredths v).natAbs : ℚ) else ((Py.hundredths v).natAbs : ℚ)) =
      Py.hundredths v := by
  simp only [decide_eq_true_eq]
  split
  next hneg =>
    have hle : Py.hundredths v ≤ 0 := Py.hundredths_nonpos (by linarith)
    have habs : (((Py.hundredths v).natAbs : Int) : ℚ) = ((-Py.hundredths v : Int) : ℚ) := by
      rw [Int.ofNat_natAbs_of_nonpos hle]
    rw [Int.cast_natCast] at habs
    rw [habs]
    push_cast
    ring
  next hpos =>
    have hge : 0 ≤ Py.hundredths v := Py.hundredths_nonneg (by linarith)
    have habs : (((Py.hundredths v).natAbs : Int) : ℚ) = (Py.hundredths v : ℚ) := by rw [Int.natAbs_of_nonneg hge]
    rw [Int.cast_natCast] at habs
    exact habs

theorem eval_formatNumber {eval : ℚ → List Char → Option ℚ} (heval : ReadsNumbers eval) (x v : ℚ) :
    eval x (formatNumber v) = some (rounded v) := by
  unfold formatNumber rounded
  split
  next hnear =>
    split_ifs with hzero hone hminus
    · rw [heval.ofZero, hzero]
      simp
    · rw [heval.ofPi, hone]
      simp
    · rw [heval.ofNegPi, hminus]
      simp
    · exact heval.ofTimesPi x _
  next hfar => rw [Py.fixed, heval.ofFixed, signed_hundredths]

/-! ### Bounds that stay apart -/

/-- Two bounds are not rounded to the same number, nor past each other when one of them is taken for a multiple of pi
and the other is not. -/
def Apart (low high : ℚ) : Prop :=
  if NearMultiple low then
    if NearMultiple high then multiple low ≠ multiple high else multiple low * pi < Py.hundredths high / 100
  else if NearMultiple high then Py.hundredths low / 100 < multiple high * pi
  else Py.hundredths low ≠ Py.hundredths high

theorem multiple_mono {p q : ℚ} (hpq : p ≤ q) : multiple p ≤ multiple q :=
  Py.round_mono (div_le_div_of_nonneg_right hpq pi_pos.le)

/-- Bounds in order stay in order exactly when they stay apart: bounds rounded in the same way cannot swap. -/
theorem rounded_lt_iff {low high : ℚ} (hlt : low < high) : rounded low < rounded high ↔ Apart low high := by
  unfold rounded Apart
  by_cases hlow : NearMultiple low
  · rw [if_pos hlow, if_pos hlow]
    by_cases hhigh : NearMultiple high
    · rw [if_pos hhigh, if_pos hhigh, mul_lt_mul_iff_left₀ pi_pos, Int.cast_lt]
      exact (multiple_mono hlt.le).lt_iff_ne
    · rw [if_neg hhigh, if_neg hhigh]
  · rw [if_neg hlow, if_neg hlow]
    by_cases hhigh : NearMultiple high
    · rw [if_pos hhigh, if_pos hhigh]
    · rw [if_neg hhigh, if_neg hhigh, div_lt_div_iff_of_pos_right (by norm_num), Int.cast_lt]
      exact (Py.hundredths_mono hlt.le).lt_iff_ne

/-- Rounding moves a bound by half a hundredth at most. -/
theorem abs_rounded_sub_le (v : ℚ) : |rounded v - v| ≤ 1 / 200 := by
  unfold rounded
  split
  next hnear =>
    have hdiv : v / pi * pi = v := div_mul_cancel₀ v pi_pos.ne'
    have hscaled : |multiple v * pi - v| = |v / pi - multiple v| * pi := by
      rw [← abs_of_pos pi_pos, ← abs_mul, abs_of_pos pi_pos, sub_mul, hdiv, abs_sub_comm]
    rw [hscaled]
    have hpi : pi < 5 := by norm_num [pi]
    have := mul_lt_mul_of_pos_right hnear pi_pos
    linarith
  next hfar =>
    obtain ⟨hlow, hhigh⟩ := Py.hundredths_near v
    rw [abs_le]
    constructor <;> linarith

/-- Bounds more than a hundredth apart stay apart. -/
theorem apart_of_wide {low high : ℚ} (hwide : low + 1 / 100 < high) : Apart low high := by
  rw [← rounded_lt_iff (by linarith)]
  have hlow := (abs_le.mp (abs_rounded_sub_le low)).2
  have hhigh := (abs_le.mp (abs_rounded_sub_le high)).1
  linarith

/-! ### The keys -/

inductive Move
  | plus
  | minus
  | navU
  | navD
  | navL
  | navR

/-- The window around the same centre with its sides multiplied by `factor`. -/
def Window.zoom (w : Window ℚ) (factor : ℚ) : Window ℚ :=
  let xCenter := (w.xMin + w.xMax) / 2
  let yCenter := (w.yMin + w.yMax) / 2
  let xRange := (w.xMax - w.xMin) * factor
  let yRange := (w.yMax - w.yMin) * factor
  { xMin := xCenter - xRange / 2
    xMax := xCenter + xRange / 2
    yMin := yCenter - yRange / 2
    yMax := yCenter + yRange / 2 }

def Window.moved (w : Window ℚ) : Move → Window ℚ
  | .plus => w.zoom (3 / 4)
  | .minus => w.zoom (5 / 4)
  | .navU => { w with yMin := w.yMin + (w.yMax - w.yMin) / 5, yMax := w.yMax + (w.yMax - w.yMin) / 5 }
  | .navD => { w with yMin := w.yMin - (w.yMax - w.yMin) / 5, yMax := w.yMax - (w.yMax - w.yMin) / 5 }
  | .navL => { w with xMin := w.xMin - (w.xMax - w.xMin) / 5, xMax := w.xMax - (w.xMax - w.xMin) / 5 }
  | .navR => { w with xMin := w.xMin + (w.xMax - w.xMin) / 5, xMax := w.xMax + (w.xMax - w.xMin) / 5 }

/-- The texts `inp_1` to `inp_4` of the form, and the value of `x` in `eval_globals`. -/
structure Fields where
  xMin : List Char
  xMax : List Char
  yMin : List Char
  yMax : List Char
  x : ℚ

def Fields.window (eval : ℚ → List Char → Option ℚ) (d : Fields) : Option (Window ℚ) := do
  let xMin ← eval d.x d.xMin
  let xMax ← eval d.x d.xMax
  let yMin ← eval d.x d.yMin
  let yMax ← eval d.x d.yMax
  pure { xMin, xMax, yMin, yMax }

/-- The texts a key writes; a pan leaves those of the other direction. -/
def Fields.write (d : Fields) (w : Window ℚ) : Move → Fields
  | .plus | .minus =>
      { d with
        xMin := formatNumber w.xMin
        xMax := formatNumber w.xMax
        yMin := formatNumber w.yMin
        yMax := formatNumber w.yMax }
  | .navU | .navD => { d with yMin := formatNumber w.yMin, yMax := formatNumber w.yMax }
  | .navL | .navR => { d with xMin := formatNumber w.xMin, xMax := formatNumber w.xMax }

/-- Where the last column is sampled: `polynom1` leaves this value in `eval_globals`. -/
def Window.lastX (w : Window ℚ) : ℚ := w.xMin + 127 * w.xScale

/-- One key over the plot. -/
def move (eval : ℚ → List Char → Option ℚ) (f : ℚ → Option ℚ) (d : Fields) (key : Move) : Except Left Fields :=
  match d.window eval with
  | none => .error .raised
  | some w =>
      let new := w.moved key
      if (plotFunction f new).2 then .error .raised else .ok { d.write new key with x := new.lastX }

/-- Two bounds that evaluate, the first below the second. -/
def InOrder (low high : Option ℚ) : Prop := ∃ a b, low = some a ∧ high = some b ∧ a < b

def Ordered (eval : ℚ → List Char → Option ℚ) (d : Fields) : Prop :=
  InOrder (eval d.x d.xMin) (eval d.x d.xMax) ∧ InOrder (eval d.x d.yMin) (eval d.x d.yMax)

/-- The plot of the key divides by no zero, and the texts hold a window after it. -/
def KeepsWindow (eval : ℚ → List Char → Option ℚ) (f : ℚ → Option ℚ) (d : Fields) (key : Move) : Prop :=
  (∀ w, d.window eval = some w → (w.moved key).yScale ≠ 0) ∧ ∀ d', move eval f d key = .ok d' → Ordered eval d'

/-- The new bounds are written apart, and the texts that a pan leaves alone still evaluate to bounds in order. -/
def WritesApart (eval : ℚ → List Char → Option ℚ) (d : Fields) (w : Window ℚ) : Move → Prop
  | .plus | .minus => Apart w.xMin w.xMax ∧ Apart w.yMin w.yMax
  | .navU | .navD => InOrder (eval w.lastX d.xMin) (eval w.lastX d.xMax) ∧ Apart w.yMin w.yMax
  | .navL | .navR => Apart w.xMin w.xMax ∧ InOrder (eval w.lastX d.yMin) (eval w.lastX d.yMax)

/-- The condition on a key, unless the function raises in the new window and ends the app. -/
def RoundsApart (eval : ℚ → List Char → Option ℚ) (f : ℚ → Option ℚ) (d : Fields) (key : Move) : Prop :=
  ∀ w, d.window eval = some w → (plotFunction f (w.moved key)).2 = false → WritesApart eval d (w.moved key) key

section Keys

variable {eval : ℚ → List Char → Option ℚ} {f : ℚ → Option ℚ}

theorem Ordered.window {d : Fields} (h : Ordered eval d) :
    ∃ w, d.window eval = some w ∧ w.xMin < w.xMax ∧ w.yMin < w.yMax := by
  obtain ⟨⟨a, b, ha, hb, hab⟩, ⟨c, e, hc, he, hce⟩⟩ := h
  refine ⟨{ xMin := a, xMax := b, yMin := c, yMax := e }, ?_, hab, hce⟩
  unfold Fields.window
  rw [ha, hb, hc, he]
  rfl

/-- Before rounding, no key loses the window. -/
theorem Window.moved_ordered {w : Window ℚ} (hx : w.xMin < w.xMax) (hy : w.yMin < w.yMax) (key : Move) :
    (w.moved key).xMin < (w.moved key).xMax ∧ (w.moved key).yMin < (w.moved key).yMax := by
  cases key <;> simp only [Window.moved, Window.zoom] <;> constructor <;> linarith

theorem inOrder_formatNumber (heval : ReadsNumbers eval) {low high : ℚ} (hlt : low < high) (x : ℚ) :
    InOrder (eval x (formatNumber low)) (eval x (formatNumber high)) ↔ Apart low high := by
  rw [eval_formatNumber heval, eval_formatNumber heval, ← rounded_lt_iff hlt]
  constructor
  · rintro ⟨a, b, ha, hb, hab⟩
    cases ha
    cases hb
    exact hab
  · intro hab
    exact ⟨_, _, rfl, rfl, hab⟩

theorem ordered_write_iff (heval : ReadsNumbers eval) (d : Fields) {w : Window ℚ} (hx : w.xMin < w.xMax)
    (hy : w.yMin < w.yMax) (key : Move) :
    Ordered eval { d.write w key with x := w.lastX } ↔ WritesApart eval d w key := by
  have hxs := inOrder_formatNumber heval hx w.lastX
  have hys := inOrder_formatNumber heval hy w.lastX
  cases key with
  | plus => exact and_congr hxs hys
  | minus => exact and_congr hxs hys
  | navU => exact and_congr_right' hys
  | navD => exact and_congr_right' hys
  | navL => exact and_congr_left' hxs
  | navR => exact and_congr_left' hxs

theorem move_eq_ok_iff {d d' : Fields} {w : Window ℚ} {key : Move} (hw : d.window eval = some w) :
    move eval f d key = .ok d' ↔
      (plotFunction f (w.moved key)).2 = false ∧
      d' = { d.write (w.moved key) key with x := (w.moved key).lastX } := by
  simp only [move, hw]
  cases (plotFunction f (w.moved key)).2 <;> simp [eq_comm]

theorem keepsWindow_iff (heval : ReadsNumbers eval) (d : Fields) (key : Move) (h : Ordered eval d) :
    KeepsWindow eval f d key ↔ RoundsApart eval f d key := by
  obtain ⟨w, hw, hx, hy⟩ := h.window
  obtain ⟨hx', hy'⟩ := Window.moved_ordered hx hy key
  constructor
  · rintro ⟨-, hordered⟩ w' hw' hplot
    obtain rfl : w = w' := Option.some.inj (hw.symm.trans hw')
    exact (ordered_write_iff heval d hx' hy' key).mp (hordered _ ((move_eq_ok_iff hw).mpr ⟨hplot, rfl⟩))
  · intro hapart
    refine ⟨fun w' hw' => ?_, fun d' hmove => ?_⟩
    · obtain rfl : w = w' := Option.some.inj (hw.symm.trans hw')
      exact (Window.yScale_pos hy').ne'
    · obtain ⟨hplot, rfl⟩ := (move_eq_ok_iff hw).mp hmove
      exact (ordered_write_iff heval d hx' hy' key).mpr (hapart w hw hplot)

/-- A zoom in leaves three quarters of a side and the other keys no less. -/
theorem moved_apart {w : Window ℚ} (hx : w.xMin + 1 / 50 < w.xMax) (hy : w.yMin + 1 / 50 < w.yMax) (key : Move) :
    Apart (w.moved key).xMin (w.moved key).xMax ∧ Apart (w.moved key).yMin (w.moved key).yMax := by
  cases key <;> simp only [Window.moved, Window.zoom] <;> constructor <;> apply apart_of_wide <;> linarith

/-- Over a window of more than a fiftieth each way, whose texts do not mention `x`, every key writes its bounds apart. -/
theorem roundsApart_of_wide {d : Fields} {w : Window ℚ} (hd : Ordered eval d) (hw : d.window eval = some w)
    (hx : w.xMin + 1 / 50 < w.xMax) (hy : w.yMin + 1 / 50 < w.yMax)
    (hsame : ∀ x text, eval x text = eval d.x text) (key : Move) : RoundsApart eval f d key := by
  intro w' hw' _
  obtain rfl : w = w' := Option.some.inj (hw.symm.trans hw')
  obtain ⟨hxs, hys⟩ := moved_apart hx hy key
  obtain ⟨hxOrder, hyOrder⟩ := hd
  rw [← hsame (w.moved key).lastX, ← hsame (w.moved key).lastX d.xMax] at hxOrder
  rw [← hsame (w.moved key).lastX, ← hsame (w.moved key).lastX d.yMax] at hyOrder
  cases key with
  | plus => exact ⟨hxs, hys⟩
  | minus => exact ⟨hxs, hys⟩
  | navU => exact ⟨hxOrder, hys⟩
  | navD => exact ⟨hxOrder, hys⟩
  | navL => exact ⟨hxs, hyOrder⟩
  | navR => exact ⟨hxs, hyOrder⟩

/-- From a window in order, along every sequence of keys the plots divide by no zero and the texts hold a window after
each key, exactly when each key's new bounds are written apart. -/
theorem window_kept_iff (heval : ReadsNumbers eval) (f : ℚ → Option ℚ) {d : Fields} (hd : Ordered eval d)
    (keys : List Move) :
    Runs.StepsMeet (move eval f) (KeepsWindow eval f) d keys ↔
      Runs.StepsMeet (move eval f) (RoundsApart eval f) d keys := by
  refine Runs.stepsMeet_iff (fun d key h => keepsWindow_iff heval d key h) ?_ hd keys
  intro d key d' h hapart hmove
  exact ((keepsWindow_iff heval d key h).mpr hapart).2 d' hmove

end Keys

/-! ### Texts of numbers -/

/-- The number of a text: digits with at most one point, or a multiple of pi. -/
def readNumber (text : List Char) : Option ℚ :=
  match text.splitOn '*' with
  | [k, unit] => if unit = "pi ".toList then (Py.int k).map fun k : Int => k * pi else none
  | _ =>
      if text = "pi ".toList then some pi
      else if text = "-pi ".toList then some (-pi)
      else Py.decimal text

def evalNumber (_ : ℚ) (text : List Char) : Option ℚ := readNumber text

theorem evalNumber_reads : ReadsNumbers evalNumber where
  ofZero := fun x => by
    rw [evalNumber]
    decide +kernel
  ofPi := fun x => by
    rw [evalNumber]
    decide +kernel
  ofNegPi := fun x => by
    rw [evalNumber]
    decide +kernel
  ofTimesPi := fun x k => by
    have hsplit : (Py.str k ++ "*pi ".toList).splitOn '*' = [Py.str k, "pi ".toList] := by
      have hstar : '*' ∉ Py.str k := Py.not_mem_str (by decide) (by decide) k
      have hpi : '*' ∉ "pi ".toList := by decide
      have htext : "*pi ".toList = '*' :: "pi ".toList := rfl
      rw [htext, List.splitOn_append_cons_self_of_not_mem hstar, List.splitOn_eq_singleton hpi]
    have hint := Py.int_str k (show ∀ c ∈ ([] : List Char), c = ' ' from nofun)
    rw [List.append_nil] at hint
    rw [evalNumber, readNumber, hsplit]
    dsimp only
    rw [if_pos rfl, hint, Option.map_some]
  ofFixed := fun x negative n => by
    have hstar : '*' ∉ Py.fixedText negative n ++ [' '] := by
      rw [List.mem_append]
      rintro (hmem | hmem)
      · exact Py.not_mem_fixedText (by decide) (by decide) (by decide) negative n hmem
      · exact absurd (List.mem_singleton.mp hmem) (by decide)
    have hpoint : '.' ∈ Py.fixedText negative n ++ [' '] :=
      List.mem_append_left _ (Py.point_mem_fixedText negative n)
    have hpi : Py.fixedText negative n ++ [' '] ≠ "pi ".toList := by
      intro heq
      exact absurd (heq ▸ hpoint) (by decide)
    have hnegPi : Py.fixedText negative n ++ [' '] ≠ "-pi ".toList := by
      intro heq
      exact absurd (heq ▸ hpoint) (by decide)
    rw [evalNumber, readNumber, List.splitOn_eq_singleton hstar]
    dsimp only
    rw [if_neg hpi, if_neg hnegPi, Py.decimal_fixedText]

/-- The texts of a window twenty units high, and its bounds. -/
def wide : Fields :=
  { xMin := "-20 ".toList, xMax := "20 ".toList, yMin := "-10 ".toList, yMax := "10 ".toList, x := 20 }

def wideWindow : Window ℚ := { xMin := -20, xMax := 20, yMin := -10, yMax := 10 }

/-- A zoom into the wide window and a pan after it keep the window. -/
theorem window_kept_iff_wide :
    ReadsNumbers evalNumber ∧ Ordered evalNumber wide ∧
      Runs.StepsMeet (move evalNumber some) (KeepsWindow evalNumber some) wide [.plus, .navL] := by
  have hordered : Ordered evalNumber wide :=
    ⟨⟨-20, 20, by decide +kernel, by decide +kernel, by norm_num⟩,
      ⟨-10, 10, by decide +kernel, by decide +kernel, by norm_num⟩⟩
  refine ⟨evalNumber_reads, hordered, (window_kept_iff evalNumber_reads some hordered _).mpr ?_⟩
  have hwindow : wide.window evalNumber = some wideWindow := by decide +kernel
  have hzoomed : Fields.window evalNumber
      { wide.write (wideWindow.moved .plus) .plus with x := (wideWindow.moved .plus).lastX } =
      some { xMin := -15, xMax := 15, yMin := -15 / 2, yMax := 15 / 2 } := by decide +kernel
  have hplus : RoundsApart evalNumber some wide .plus :=
    roundsApart_of_wide hordered hwindow (by norm_num [wideWindow]) (by norm_num [wideWindow]) (fun _ _ => rfl) _
  refine Runs.stepsMeet_cons hplus fun d hmove => Runs.stepsMeet_cons ?_ fun _ _ => Runs.stepsMeet_nil _ _
  have hordered' := ((keepsWindow_iff evalNumber_reads wide .plus hordered).mpr hplus).2 d hmove
  obtain ⟨-, rfl⟩ := (move_eq_ok_iff hwindow).mp hmove
  exact roundsApart_of_wide hordered' hzoomed (by norm_num) (by norm_num) (fun _ _ => rfl) _

/-- The texts of a narrow window, as they may be typed. -/
def narrow : Fields :=
  { xMin := "-20 ".toList, xMax := "20 ".toList, yMin := "1.001 ".toList, yMax := "1.002 ".toList, x := 20 }

/-- Zooming into the window from 1.001 to 1.002 writes `1.00` for both bounds. -/
theorem narrow_window_lost :
    Ordered evalNumber narrow ∧
      ¬ Runs.StepsMeet (move evalNumber some) (KeepsWindow evalNumber some) narrow [.plus] := by
  refine ⟨⟨⟨-20, 20, by decide +kernel, by decide +kernel, by norm_num⟩,
    ⟨1001 / 1000, 1002 / 1000, by decide +kernel, by decide +kernel, by norm_num⟩⟩, ?_⟩
  intro h
  have hwindow : narrow.window evalNumber
      = some { xMin := -20, xMax := 20, yMin := 1001 / 1000, yMax := 1002 / 1000 } := by decide +kernel
  have hplot : (plotFunction some (Window.moved
      { xMin := -20, xMax := 20, yMin := 1001 / 1000, yMax := 1002 / 1000 } .plus)).2 = false := by decide +kernel
  obtain ⟨-, a, b, ha, hb, hab⟩ :=
    (h [] .plus (List.prefix_refl _) narrow rfl).2 _ ((move_eq_ok_iff hwindow).mpr ⟨hplot, rfl⟩)
  have hsame : formatNumber (Window.moved
      { xMin := -20, xMax := 20, yMin := 1001 / 1000, yMax := 1002 / 1000 } .plus).yMin = formatNumber (Window.moved
      { xMin := -20, xMax := 20, yMin := 1001 / 1000, yMax := 1002 / 1000 } .plus).yMax := by decide +kernel
  simp only [Fields.write] at ha hb
  rw [hsame, hb] at ha
  obtain rfl : b = a := Option.some.inj ha
  exact lt_irrefl b hab

end CalSci.Graph
