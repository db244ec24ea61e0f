import CalSci.FrameBuffer
import Mathlib.Tactic.Ring
import Mathlib.Tactic.Linarith
import Mathlib.Tactic.LinearCombination

/-! The loop of `line` in closed form. The error term counts how far the pixel is from the ideal segment, so that the
`j`-th pixel has both coordinates of the point at `j / n` of the way, each rounded to the nearest integer; `n` is the
longer of the two extents. -/

namespace CalSci.FrameBuffer

def rounded (n a j : Int) : Int := (n + 2 * a * j) / (2 * n)

theorem rounded_zero {n : Int} (hn : 0 < n) (a : Int) : rounded n a 0 = 0 := by
  rw [rounded, Int.mul_zero, Int.add_zero]
  exact Int.ediv_eq_zero_of_lt (by omega) (by omega)

theorem rounded_self {n : Int} (hn : 0 < n) (a : Int) : rounded n a n = a := by
  have hsplit : n + 2 * a * n = n + a * (2 * n) := by ring
  rw [rounded, hsplit, Int.add_mul_ediv_right _ _ (by omega), Int.ediv_eq_zero_of_lt (by omega) (by omega),
    Int.zero_add]

theorem rounded_full {n : Int} (hn : 0 < n) (j : Int) : rounded n n j = j := by
  have hsplit : n + 2 * n * j = n + j * (2 * n) := by ring
  rw [rounded, hsplit, Int.add_mul_ediv_right _ _ (by omega), Int.ediv_eq_zero_of_lt (by omega) (by omega),
    Int.zero_add]

/-- The rounding error is at most a half. -/
theorem rounded_error {n : Int} (hn : 0 < n) (a j : Int) : |2 * (n * rounded n a j - j * a)| ≤ n := by
  have hdiv := Int.mul_ediv_add_emod (n + 2 * a * j) (2 * n)
  have hlow := Int.emod_nonneg (n + 2 * a * j) (b := 2 * n) (by omega)
  have hhigh := Int.emod_lt_of_pos (n + 2 * a * j) (b := 2 * n) (by omega)
  have hq : 2 * n * rounded n a j + (n + 2 * a * j) % (2 * n) = n + 2 * a * j := hdiv
  rw [abs_le]
  constructor <;> nlinarith

/-- The next point is at most one further. -/
theorem rounded_succ {n a : Int} (hn : 0 < n) (ha : 0 ≤ a) (han : a ≤ n) (j : Int) :
    rounded n a (j + 1) = rounded n a j ∨ rounded n a (j + 1) = rounded n a j + 1 := by
  have hnext : n + 2 * a * (j + 1) = n + 2 * a * j + 2 * a := by ring
  have hle : rounded n a j ≤ rounded n a (j + 1) := by
    rw [rounded, rounded, hnext]
    exact Int.ediv_le_ediv (by omega) (by omega)
  have hge : rounded n a (j + 1) ≤ rounded n a j + 1 := by
    have hone : (n + 2 * a * j + 1 * (2 * n)) / (2 * n) = (n + 2 * a * j) / (2 * n) + 1 :=
      Int.add_mul_ediv_right _ _ (by omega)
    rw [rounded, rounded, hnext, ← hone]
    exact Int.ediv_le_ediv (by omega) (by omega)
  omega

/-- The pixel a turn of the loop sets. -/
def orient (steep : Bool) (x y : Int) : Pixel := if steep then (y, x) else (x, y)

/-- What is left to do, from the error term on: the minor coordinate goes up whenever the error says so. -/
theorem march_eq (steep : Bool) (sx sy : Int) {dx dy : Int} (hdx : 0 < dx) (hdy : 0 ≤ dy) (hle : dy ≤ dx) (i : ℕ)
    (x1 y1 : Int) {e : Int} (hlow : 2 * dy - 2 * dx ≤ e) (hhigh : e < 2 * dy) :
    march steep sx sy dx dy i x1 y1 e = (List.range i).map fun j : ℕ =>
      orient steep (x1 + (j : Int) * sx) (y1 + (e - 2 * dy + 2 * dx + 2 * dy * (j : Int)) / (2 * dx) * sy) := by
  induction i generalizing x1 y1 e with
  | zero => rfl
  | succ i ih =>
      have hturns : (if 0 ≤ e then e / (2 * dx) + 1 else 0) = if 0 ≤ e then (1 : Int) else 0 := by
        split_ifs with he
        · rw [Int.ediv_eq_zero_of_lt he (by omega)]
          rfl
        · rfl
      rw [march, hturns, List.range_succ_eq_map, List.map_cons, List.map_map]
      congr 1
      · have hstart : (e - 2 * dy + 2 * dx + 2 * dy * ((0 : ℕ) : Int)) / (2 * dx) = 0 := by
          rw [Nat.cast_zero, Int.mul_zero, Int.add_zero]
          exact Int.ediv_eq_zero_of_lt (by omega) (by omega)
        rw [hstart, orient]
        simp
      · split_ifs with he
        · rw [ih (x1 + sx) (y1 + 1 * sy) (e := e - 1 * (2 * dx) + 2 * dy) (by omega) (by omega)]
          apply List.map_congr_left
          intro j _
          have hsplit : e - 2 * dy + 2 * dx + 2 * dy * ((j + 1 : ℕ) : Int) =
              e - 1 * (2 * dx) + 2 * dy - 2 * dy + 2 * dx + 2 * dy * j + 1 * (2 * dx) := by
            push_cast
            ring
          rw [Function.comp_apply, hsplit, Int.add_mul_ediv_right _ _ (by omega)]
          congr 1
          · push_cast
            ring
          · ring
        · rw [ih (x1 + sx) (y1 + 0 * sy) (e := e - 0 * (2 * dx) + 2 * dy) (by omega) (by omega)]
          apply List.map_congr_left
          intro j _
          have hsplit : e - 2 * dy + 2 * dx + 2 * dy * ((j + 1 : ℕ) : Int) =
              e - 0 * (2 * dx) + 2 * dy - 2 * dy + 2 * dx + 2 * dy * j := by
            push_cast
            ring
          rw [Function.comp_apply, hsplit]
          congr 1
          · push_cast
            ring
          · ring

/-- The longer of the two extents. -/
def extent (x1 y1 x2 y2 : Int) : ℕ := max (x2 - x1).natAbs (y2 - y1).natAbs

/-- The coordinate `j` steps on, of `n` from `a` to `b`. -/
def between (n : ℕ) (a b : Int) (j : ℕ) : Int := a + rounded n (b - a).natAbs j * if 0 < b - a then 1 else -1

theorem between_zero (n : ℕ) (a b : Int) : between n a b 0 = a := by
  obtain rfl | hn := Nat.eq_zero_or_pos n
  · simp [between, rounded]
  · rw [between, Nat.cast_zero, rounded_zero (by omega)]
    ring

/-- From `a` on, the distance to `b` is covered in the direction of `b`. -/
theorem natAbs_mul_sign (a b : Int) : ((b - a).natAbs : Int) * (if 0 < b - a then 1 else -1) = b - a := by
  split_ifs <;> omega

theorem between_self {n : ℕ} {a b : Int} (hab : (b - a).natAbs ≤ n) : between n a b n = b := by
  obtain rfl | hn := Nat.eq_zero_or_pos n
  · rw [between_zero]
    omega
  · rw [between, rounded_self (by omega), natAbs_mul_sign]
    ring

theorem between_error {n : ℕ} (hn : 0 < n) (a b : Int) (j : ℕ) :
    |2 * (n * (between n a b j - a) - j * (b - a))| ≤ n := by
  have herror := rounded_error (n := n) (by omega) (b - a).natAbs j
  have hsign := natAbs_mul_sign a b
  rw [between, add_sub_cancel_left]
  split_ifs at hsign ⊢ with hpos
  · rw [mul_one] at hsign ⊢
    rw [hsign] at herror ⊢
    exact herror
  · have hneg : 2 * ((n : Int) * (rounded n (b - a).natAbs j * -1) - j * (b - a)) =
        -(2 * (n * rounded n (b - a).natAbs j - j * ((b - a).natAbs : Int))) := by
      linear_combination 2 * (j : Int) * hsign
    rw [hneg, abs_neg]
    exact herror

theorem between_succ {n : ℕ} {a b : Int} (hn : 0 < n) (hab : (b - a).natAbs ≤ n) (j : ℕ) :
    |between n a b (j + 1) - between n a b j| ≤ 1 := by
  have hnext := rounded_succ (n := n) (a := (b - a).natAbs) (by omega) (by omega) (by omega) j
  rw [between, between, Nat.cast_add, Nat.cast_one]
  obtain heq | heq := hnext
  · rw [heq, sub_self, abs_zero]
    exact zero_le_one
  · rw [heq, abs_le]
    split_ifs <;> omega

/-- The coordinate of the long direction goes one on at every step. -/
theorem between_full {a b : Int} (hab : 0 < (b - a).natAbs) (j : ℕ) :
    between (b - a).natAbs a b j = a + j * if 0 < b - a then 1 else -1 := by
  rw [between, rounded_full (by omega)]

def lineAt (x1 y1 x2 y2 : Int) (j : ℕ) : Pixel :=
  (between (extent x1 y1 x2 y2) x1 x2 j, between (extent x1 y1 x2 y2) y1 y2 j)

theorem lineAt_zero (x1 y1 x2 y2 : Int) : lineAt x1 y1 x2 y2 0 = (x1, y1) := by
  rw [lineAt, between_zero, between_zero]

theorem lineAt_extent (x1 y1 x2 y2 : Int) : lineAt x1 y1 x2 y2 (extent x1 y1 x2 y2) = (x2, y2) := by
  have hx : (x2 - x1).natAbs ≤ extent x1 y1 x2 y2 := le_max_left _ _
  have hy : (y2 - y1).natAbs ≤ extent x1 y1 x2 y2 := le_max_right _ _
  rw [lineAt, between_self hx, between_self hy]

theorem lineAt_injective {x1 y1 x2 y2 : Int} (hn : 0 < extent x1 y1 x2 y2) :
    Function.Injective (lineAt x1 y1 x2 y2) := by
  intro i j hij
  rw [lineAt, lineAt, Prod.mk.injEq] at hij
  obtain ⟨hx, hy⟩ := hij
  obtain hextent | hextent := max_choice (x2 - x1).natAbs (y2 - y1).natAbs
  · rw [extent, hextent] at hx hn
    rw [between_full hn, between_full hn] at hx
    split_ifs at hx <;> omega
  · rw [extent, hextent] at hy hn
    rw [between_full hn, between_full hn] at hy
    split_ifs at hy <;> omega

/-- The loop, started as `line` starts it. -/
theorem march_start (steep : Bool) (sx sy : Int) {dx dy : ℕ} (hle : dy ≤ dx) (x1 y1 : Int) :
    march steep sx sy dx dy dx x1 y1 (2 * dy - dx) = (List.range dx).map fun j : ℕ =>
      orient steep (x1 + (j : Int) * sx) (y1 + rounded dx dy j * sy) := by
  obtain rfl | hdx := Nat.eq_zero_or_pos dx
  · rfl
  · rw [march_eq steep sx sy (by omega) (by omega) (by omega) dx x1 y1 (by omega) (by omega)]
    apply List.map_congr_left
    intro j _
    have hstart : 2 * (dy : Int) - dx - 2 * dy + 2 * dx + 2 * dy * j = dx + 2 * dy * j := by ring
    rw [hstart, rounded]

/-- The whole line, in closed form. -/
theorem linePixels_eq (x1 y1 x2 y2 : Int) :
    linePixels x1 y1 x2 y2 = (List.range (extent x1 y1 x2 y2 + 1)).map (lineAt x1 y1 x2 y2) := by
  rw [List.range_succ, List.map_append, List.map_singleton, lineAt_extent, linePixels]
  congr 1
  by_cases hsteep : ((x2 - x1).natAbs : Int) < (y2 - y1).natAbs
  · have hextent : extent x1 y1 x2 y2 = (y2 - y1).natAbs := by
      rw [extent]
      omega
    rw [if_pos hsteep, Int.toNat_natCast, march_start _ _ _ (by omega), hextent]
    apply List.map_congr_left
    intro j _
    rw [lineAt, hextent, between_full (by omega), between]
    rfl
  · have hextent : extent x1 y1 x2 y2 = (x2 - x1).natAbs := by
      rw [extent]
      omega
    rw [if_neg hsteep, Int.toNat_natCast, march_start _ _ _ (by omega), hextent]
    apply List.map_congr_left
    intro j hj
    have hpos : 0 < (x2 - x1).natAbs := by
      rw [List.mem_range] at hj
      omega
    rw [lineAt, hextent, between_full hpos, between]
    rfl

/-- No pixel is set twice. -/
theorem linePixels_nodup (x1 y1 x2 y2 : Int) : (linePixels x1 y1 x2 y2).Nodup := by
  rw [linePixels_eq]
  obtain hzero | hn := Nat.eq_zero_or_pos (extent x1 y1 x2 y2)
  · rw [hzero]
    exact List.nodup_singleton _
  · exact List.nodup_range.map (lineAt_injective hn)

/-- `line` draws an unbroken run of pixels from one end to the other, and each of them is the point of the segment
rounded to the nearest pixel: it is off by at most a half in both coordinates. -/
theorem line_is_digital_segment (x1 y1 x2 y2 : Int) :
    (linePixels x1 y1 x2 y2).Nodup ∧ ∃ P : ℕ → Pixel,
      linePixels x1 y1 x2 y2 = (List.range (extent x1 y1 x2 y2 + 1)).map P ∧
      P 0 = (x1, y1) ∧ P (extent x1 y1 x2 y2) = (x2, y2) ∧
      ∀ j < extent x1 y1 x2 y2,
        |(P (j + 1)).1 - (P j).1| ≤ 1 ∧ |(P (j + 1)).2 - (P j).2| ≤ 1 ∧
        |2 * (extent x1 y1 x2 y2 * ((P j).1 - x1) - j * (x2 - x1))| ≤ extent x1 y1 x2 y2 ∧
        |2 * (extent x1 y1 x2 y2 * ((P j).2 - y1) - j * (y2 - y1))| ≤ extent x1 y1 x2 y2 := by
  refine ⟨linePixels_nodup x1 y1 x2 y2, lineAt x1 y1 x2 y2, linePixels_eq x1 y1 x2 y2, lineAt_zero x1 y1 x2 y2,
    lineAt_extent x1 y1 x2 y2, ?_⟩
  intro j hj
  have hn : 0 < extent x1 y1 x2 y2 := by omega
  exact ⟨between_succ hn (le_max_left _ _) j, between_succ hn (le_max_right _ _) j, between_error hn x1 x2 j,
    between_error hn y1 y2 j⟩

end CalSci.FrameBuffer
