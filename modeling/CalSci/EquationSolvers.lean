import CalSci.PyNumbers
import Mathlib.Algebra.QuadraticDiscriminant
import Mathlib.Analysis.Complex.Basic
import Mathlib.Analysis.Real.Sqrt

/-! The two solvers of `apps/scientific_calculator`: what `ok` does in `simultanious_eqn_sol.py` and in
`quad_eqn_sol.py`. Both have a message for the coefficients that leave nothing to divide by, and neither stops
there: the first one calls the list it means to assign, the second one goes on to the division. With other
coefficients what they show solves the equations. -/

namespace CalSci.Equations

inductive Raised where
  | valueError
  | typeError
  | zeroDivisionError
  deriving DecidableEq, Repr

/-- A piece of an f-string: a text, or a number with so many digits after the point. -/
inductive Piece (K : Type) where
  | text (chars : List Char)
  | fixed (digits : Nat) (value : K)

/-- `form.form_list` as it is shown after `ok`. -/
abbrev FormList (K : Type) := List (List (Piece K))

/-- `a, b, c = list(map(int, text.split("+")))`. -/
def triple (text : List Char) : Except Raised (Int × Int × Int) :=
  match Py.intRow text with
  | some [a, b, c] => .ok (a, b, c)
  | _ => .error .valueError

theorem triple_eq {text : List Char} {a b c : Int} (h : Py.intRow text = some [a, b, c]) :
    triple text = .ok (a, b, c) := by
  rw [triple, h]

section Model

variable {K : Type} [DivisionRing K] [DecidableEq K]

def divide (x y : K) : Except Raised K := if y = 0 then .error .zeroDivisionError else .ok (x / y)

theorem divide_of_ne (x : K) {y : K} (h : y ≠ 0) : divide x y = .ok (x / y) := if_neg h

theorem divide_zero (x : K) {y : K} (h : y = 0) : divide x y = .error .zeroDivisionError := if_pos h

/-! ### simultanious_eqn_sol.py -/

def solutionRows (x y : K) : FormList K :=
  [[.text "Solution:".toList], [.text "x = ".toList, .fixed 5 x], [.text "y = ".toList, .fixed 5 y]]

/-- `simultanious_eqn_sol`, on `ok`. -/
def simultaniousEqnSol (inp0 inp1 : List Char) : Except Raised (FormList ℚ) := do
  let (a1, b1, c1) ← triple inp0
  let (a2, b2, c2) ← triple inp1
  let determinant := a1 * b2 - a2 * b1
  -- `form.form_list("No unique solution")`: a list is not callable
  if determinant = 0 then throw .typeError
  let x ← divide ((c1 * b2 - c2 * b1 : Int) : ℚ) determinant
  let y ← divide ((c2 * a1 - c1 * a2 : Int) : ℚ) determinant
  pure (solutionRows x y)

/-! ### quad_eqn_sol.py -/

def realRows (root1 root2 : K) : FormList K :=
  [[.text "Real Roots:".toList], [.text "Root1=".toList, .fixed 5 root1], [.text "Root2=".toList, .fixed 5 root2]]

def singleRows (root : K) : FormList K :=
  [[.text "Only 1 root".toList], [.text "Root1=".toList, .fixed 5 root]]

def imaginaryRows (realPart imagPart : K) : FormList K :=
  [[.text "Imaginary Roots:".toList],
    [.text "Root1=".toList, .fixed 2 realPart, .text ['+'], .fixed 2 imagPart, .text ['i']],
    [.text "Root2=".toList, .fixed 2 realPart, .text ['-'], .fixed 2 imagPart, .text ['i']]]

/-- `quad_eqn_sol`, on `ok`, with the square root `root`. The message for `a = 0` is assigned to `form_list` and
then assigned over, or lost with the app. -/
def quadEqnSol (root : K → K) (inp0 : List Char) : Except Raised (FormList K) := do
  let (a, b, c) ← triple inp0
  let discriminant : Int := b ^ 2 - 4 * a * c
  if discriminant > 0 then
    let root1 ← divide (-(b : K) + root (discriminant : K)) ((2 * a : Int) : K)
    let root2 ← divide (-(b : K) - root (discriminant : K)) ((2 * a : Int) : K)
    pure (realRows root1 root2)
  else if discriminant = 0 then
    let root ← divide (-(b : K)) ((2 * a : Int) : K)
    pure (singleRows root)
  else
    let realPart ← divide (-(b : K)) ((2 * a : Int) : K)
    let imagPart ← divide (root ((-discriminant : Int) : K)) ((2 * a : Int) : K)
    pure (imaginaryRows realPart imagPart)

end Model

/-! ### simultanious_eqn_sol.py: the solution -/

/-- `ok` returns, shows the message when the determinant is zero, and a solution otherwise. -/
def SimultaneousRight (a1 b1 c1 a2 b2 c2 : Int) (shown : Except Raised (FormList ℚ)) : Prop :=
  ∃ form, shown = .ok form ∧
    (a1 * b2 - a2 * b1 = 0 → form = [[.text "No unique solution".toList]]) ∧
    (a1 * b2 - a2 * b1 ≠ 0 → ∃ x y : ℚ, form = solutionRows x y ∧
      a1 * x + b1 * y = c1 ∧ a2 * x + b2 * y = c2)

theorem simultaneous_solved {a1 b1 a2 b2 : ℚ} (h : a1 * b2 - a2 * b1 ≠ 0) (c1 c2 : ℚ) :
    a1 * ((c1 * b2 - c2 * b1) / (a1 * b2 - a2 * b1)) + b1 * ((c2 * a1 - c1 * a2) / (a1 * b2 - a2 * b1)) = c1 ∧
      a2 * ((c1 * b2 - c2 * b1) / (a1 * b2 - a2 * b1)) + b2 * ((c2 * a1 - c1 * a2) / (a1 * b2 - a2 * b1)) =
        c2 := by
  constructor
  · rw [mul_div_assoc', mul_div_assoc', ← add_div, div_eq_iff h]
    ring
  · rw [mul_div_assoc', mul_div_assoc', ← add_div, div_eq_iff h]
    ring

theorem simultaniousEqnSol_singular {inp0 inp1 : List Char} {a1 b1 c1 a2 b2 c2 : Int}
    (h0 : Py.intRow inp0 = some [a1, b1, c1]) (h1 : Py.intRow inp1 = some [a2, b2, c2])
    (hzero : a1 * b2 - a2 * b1 = 0) : simultaniousEqnSol inp0 inp1 = .error .typeError := by
  rw [simultaniousEqnSol, triple_eq h0, triple_eq h1]
  exact if_pos hzero

theorem simultaniousEqnSol_regular {inp0 inp1 : List Char} {a1 b1 c1 a2 b2 c2 : Int}
    (h0 : Py.intRow inp0 = some [a1, b1, c1]) (h1 : Py.intRow inp1 = some [a2, b2, c2])
    (hne : a1 * b2 - a2 * b1 ≠ 0) : simultaniousEqnSol inp0 inp1 =
      .ok (solutionRows (((c1 * b2 - c2 * b1 : Int) : ℚ) / ((a1 * b2 - a2 * b1 : Int) : ℚ))
        (((c2 * a1 - c1 * a2 : Int) : ℚ) / ((a1 * b2 - a2 * b1 : Int) : ℚ))) := by
  have hcast : ((a1 * b2 - a2 * b1 : Int) : ℚ) ≠ 0 := Int.cast_ne_zero.mpr hne
  rw [simultaniousEqnSol, triple_eq h0, triple_eq h1]
  change (if a1 * b2 - a2 * b1 = 0 then _ else _) = _
  rw [if_neg hne, divide_of_ne _ hcast, divide_of_ne _ hcast]
  rfl

theorem simultaneousRight_iff {inp0 inp1 : List Char} {a1 b1 c1 a2 b2 c2 : Int}
    (h0 : Py.intRow inp0 = some [a1, b1, c1]) (h1 : Py.intRow inp1 = some [a2, b2, c2]) :
    SimultaneousRight a1 b1 c1 a2 b2 c2 (simultaniousEqnSol inp0 inp1) ↔ a1 * b2 - a2 * b1 ≠ 0 := by
  constructor
  · rintro ⟨form, hform, -⟩ hzero
    rw [simultaniousEqnSol_singular h0 h1 hzero] at hform
    cases hform
  · intro hne
    have hcast : (a1 * b2 - a2 * b1 : ℚ) ≠ 0 := by exact_mod_cast hne
    obtain ⟨hfirst, hsecond⟩ := simultaneous_solved hcast c1 c2
    refine ⟨_, simultaniousEqnSol_regular h0 h1 hne, fun hzero => absurd hzero hne, fun _ => ?_⟩
    refine ⟨_, _, rfl, ?_, ?_⟩
    · push_cast
      exact hfirst
    · push_cast
      exact hsecond

/-! ### quad_eqn_sol.py: the roots -/

/-- `ok` returns, shows the message when `a` is zero, and otherwise roots of the equation. -/
def QuadraticRight (a b c : Int) (shown : Except Raised (FormList ℝ)) : Prop :=
  ∃ form, shown = .ok form ∧ (a = 0 → form = [[.text "Not a quadratic eqn".toList]]) ∧
    (a ≠ 0 →
      (∃ root1 root2 : ℝ, form = realRows root1 root2 ∧ a * root1 ^ 2 + b * root1 + c = 0 ∧
        a * root2 ^ 2 + b * root2 + c = 0) ∨
      (∃ root : ℝ, form = singleRows root ∧ a * root ^ 2 + b * root + c = 0) ∨
      ∃ realPart imagPart : ℝ, form = imaginaryRows realPart imagPart ∧
        (a : ℂ) * (realPart + imagPart * Complex.I) ^ 2 + b * (realPart + imagPart * Complex.I) + c = 0 ∧
        (a : ℂ) * (realPart - imagPart * Complex.I) ^ 2 + b * (realPart - imagPart * Complex.I) + c = 0)

/-- All branches divide by twice the first coefficient, without having looked at it. -/
theorem quadEqnSol_degenerate {inp0 : List Char} {b c : Int} (h : Py.intRow inp0 = some [0, b, c]) :
    quadEqnSol Real.sqrt inp0 = .error .zeroDivisionError := by
  have hzero : ((2 * 0 : Int) : ℝ) = 0 := by rw [mul_zero, Int.cast_zero]
  rw [quadEqnSol, triple_eq h]
  change (if b ^ 2 - 4 * 0 * c > 0 then _ else if b ^ 2 - 4 * 0 * c = 0 then _ else _) = _
  split
  · rw [divide_zero _ hzero]
    rfl
  · split
    · rw [divide_zero _ hzero]
      rfl
    · rw [divide_zero _ hzero]
      rfl

theorem roots_real {a b c : ℝ} (ha : a ≠ 0) (h : 0 ≤ b ^ 2 - 4 * a * c) :
    a * ((-b + √(b ^ 2 - 4 * a * c)) / (2 * a)) ^ 2 + b * ((-b + √(b ^ 2 - 4 * a * c)) / (2 * a)) + c = 0 ∧
      a * ((-b - √(b ^ 2 - 4 * a * c)) / (2 * a)) ^ 2 + b * ((-b - √(b ^ 2 - 4 * a * c)) / (2 * a)) + c = 0 := by
  have hs : discrim a b c = √(b ^ 2 - 4 * a * c) * √(b ^ 2 - 4 * a * c) := (Real.mul_self_sqrt h).symm
  rw [pow_two (_ / _), pow_two (_ / _)]
  exact ⟨(quadratic_eq_zero_iff ha hs _).mpr (.inl rfl), (quadratic_eq_zero_iff ha hs _).mpr (.inr rfl)⟩

/-- With a negative discriminant the square root is imaginary. -/
theorem roots_imaginary {a b c : ℝ} (ha : a ≠ 0) (h : b ^ 2 - 4 * a * c ≤ 0) :
    let z : ℂ := ((-b / (2 * a) : ℝ) : ℂ)
    let w : ℂ := ((√(-(b ^ 2 - 4 * a * c)) / (2 * a) : ℝ) : ℂ) * Complex.I
    (a : ℂ) * (z + w) ^ 2 + b * (z + w) + c = 0 ∧ (a : ℂ) * (z - w) ^ 2 + b * (z - w) + c = 0 := by
  intro z w
  have ha' : (a : ℂ) ≠ 0 := Complex.ofReal_ne_zero.mpr ha
  obtain ⟨s, hs⟩ : ∃ s, √(-(b ^ 2 - 4 * a * c)) = s := ⟨_, rfl⟩
  have hsquare : s * s = -(b ^ 2 - 4 * a * c) := by
    rw [← hs]
    exact Real.mul_self_sqrt (by linarith)
  have hroot : discrim (a : ℂ) b c = (s * Complex.I) * (s * Complex.I) := by
    have hcast : ((s * s : ℝ) : ℂ) = ((-(b ^ 2 - 4 * a * c) : ℝ) : ℂ) := congrArg _ hsquare
    push_cast at hcast
    rw [discrim, mul_mul_mul_comm, Complex.I_mul_I, hcast]
    ring
  have hplus : z + w = (-(b : ℂ) + s * Complex.I) / (2 * a) := by
    simp only [z, w, hs]
    push_cast
    ring
  have hminus : z - w = (-(b : ℂ) - s * Complex.I) / (2 * a) := by
    simp only [z, w, hs]
    push_cast
    ring
  rw [pow_two, pow_two]
  exact ⟨(quadratic_eq_zero_iff ha' hroot _).mpr (.inl hplus),
    (quadratic_eq_zero_iff ha' hroot _).mpr (.inr hminus)⟩

theorem quadraticRight_iff {inp0 : List Char} {a b c : Int} (h : Py.intRow inp0 = some [a, b, c]) :
    QuadraticRight a b c (quadEqnSol Real.sqrt inp0) ↔ a ≠ 0 := by
  constructor
  · rintro ⟨form, hform, -⟩ rfl
    rw [quadEqnSol_degenerate h] at hform
    cases hform
  · intro ha
    have hne : ((2 * a : Int) : ℝ) ≠ 0 := by
      rw [Int.cast_ne_zero]
      omega
    have ha' : (a : ℝ) ≠ 0 := Int.cast_ne_zero.mpr ha
    have hcast : ((b ^ 2 - 4 * a * c : Int) : ℝ) = (b : ℝ) ^ 2 - 4 * a * c := by push_cast; ring
    rw [quadEqnSol, triple_eq h]
    change QuadraticRight a b c
      (if b ^ 2 - 4 * a * c > 0 then _ else if b ^ 2 - 4 * a * c = 0 then _ else _)
    simp only [divide_of_ne _ hne]
    rcases lt_trichotomy 0 (b ^ 2 - 4 * a * c) with hpos | hzero | hneg
    · rw [if_pos hpos]
      refine ⟨_, rfl, fun hzero => absurd hzero ha, fun _ => .inl ⟨_, _, rfl, ?_⟩⟩
      have hnonneg : (0 : ℝ) ≤ (b : ℝ) ^ 2 - 4 * a * c := by
        rw [← hcast]
        exact_mod_cast hpos.le
      rw [hcast]
      push_cast
      exact roots_real ha' hnonneg
    · rw [if_neg (by omega), if_pos hzero.symm]
      refine ⟨_, rfl, fun hzero => absurd hzero ha, fun _ => .inr (.inl ⟨_, rfl, ?_⟩)⟩
      have hroot : (b : ℝ) ^ 2 - 4 * a * c = 0 := by
        rw [← hcast, ← hzero, Int.cast_zero]
      have hboth := (roots_real ha' hroot.ge).1
      rw [hroot, Real.sqrt_zero, add_zero] at hboth
      push_cast
      exact hboth
    · rw [if_neg (by omega), if_neg (by omega)]
      refine ⟨_, rfl, fun hzero => absurd hzero ha, fun _ => .inr (.inr ⟨_, _, rfl, ?_⟩)⟩
      have hnonpos : (b : ℝ) ^ 2 - 4 * a * c ≤ 0 := by
        rw [← hcast]
        exact_mod_cast hneg.le
      have hboth := roots_imaginary ha' hnonpos
      rw [Int.cast_neg, hcast, Int.cast_mul, Int.cast_ofNat]
      simpa only [Complex.ofReal_intCast] using hboth

/-- For all coefficients, typed in any way that `int` reads: the first solver returns with its message or a
solution exactly if the determinant is not zero, the second one with its message or the roots exactly if the
equation is quadratic. -/
theorem equation_solvers_right_iff {inp0 inp1 inp : List Char} {a1 b1 c1 a2 b2 c2 a b c : Int}
    (h0 : Py.intRow inp0 = some [a1, b1, c1]) (h1 : Py.intRow inp1 = some [a2, b2, c2])
    (h : Py.intRow inp = some [a, b, c]) :
    (SimultaneousRight a1 b1 c1 a2 b2 c2 (simultaniousEqnSol inp0 inp1) ↔ a1 * b2 - a2 * b1 ≠ 0) ∧
      (QuadraticRight a b c (quadEqnSol Real.sqrt inp) ↔ a ≠ 0) :=
  ⟨simultaneousRight_iff h0 h1, quadraticRight_iff h⟩

theorem equation_solvers_right_typed :
    SimultaneousRight 2 1 5 1 (-1) 1 (simultaniousEqnSol (Py.rowText [2, 1, 5]) (Py.rowText [1, -1, 1])) ∧
      QuadraticRight 1 2 5 (quadEqnSol Real.sqrt (Py.rowText [1, 2, 5])) := by
  have hread := equation_solvers_right_iff (Py.intRow_rowText (show [2, 1, 5] ≠ [] by decide))
    (Py.intRow_rowText (show [1, -1, 1] ≠ [] by decide)) (Py.intRow_rowText (show [1, 2, 5] ≠ [] by decide))
  exact ⟨hread.1.mpr (by decide), hread.2.mpr (by decide)⟩

/-- Two equations with the same left side, and one that is not quadratic. -/
theorem equation_solvers_raise :
    simultaniousEqnSol "1+1+2 ".toList "1+1+3 ".toList = .error .typeError ∧
      ¬ SimultaneousRight 1 1 2 1 1 3 (simultaniousEqnSol "1+1+2 ".toList "1+1+3 ".toList) ∧
      quadEqnSol Real.sqrt "0+1+2 ".toList = .error .zeroDivisionError ∧
      ¬ QuadraticRight 0 1 2 (quadEqnSol Real.sqrt "0+1+2 ".toList) := by
  have h0 : Py.intRow "1+1+2 ".toList = some [1, 1, 2] := by decide +kernel
  have h1 : Py.intRow "1+1+3 ".toList = some [1, 1, 3] := by decide +kernel
  have h : Py.intRow "0+1+2 ".toList = some [0, 1, 2] := by decide +kernel
  refine ⟨simultaniousEqnSol_singular h0 h1 (by decide), ?_, quadEqnSol_degenerate h, ?_⟩
  · rw [simultaneousRight_iff h0 h1]
    decide
  · rw [quadraticRight_iff h]
    decide

end CalSci.Equations
