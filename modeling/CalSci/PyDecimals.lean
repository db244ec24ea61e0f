import CalSci.PyNumbers
import Mathlib.Algebra.Order.Field.Rat
import Mathlib.Algebra.Order.Floor.Ring
import Mathlib.Data.Rat.Floor
import Mathlib.Tactic.FieldSimp
import Mathlib.Tactic.NormNum

/-! Rounding and numbers with two decimals, on the rationals: `round`, the format `.2f`, and the number such a text
writes. Nothing here names the program that uses them. -/

namespace Py

/-- `round(q)`: the nearest integer, the even one of two. -/
def round (q : ℚ) : Int :=
  if 2 * (q - ⌊q⌋) < 1 then ⌊q⌋
  else if 1 < 2 * (q - ⌊q⌋) then ⌊q⌋ + 1
  else if ⌊q⌋ % 2 = 0 then ⌊q⌋ else ⌊q⌋ + 1

theorem round_near (q : ℚ) : (round q : ℚ) - 1 / 2 ≤ q ∧ q ≤ round q + 1 / 2 := by
  have hlow := Int.floor_le q
  have hhigh := Int.lt_floor_add_one q
  unfold round
  split_ifs <;> push_cast <;> constructor <;> linarith

/-- Whatever rounds to a nearest integer keeps the order: were the smaller number rounded higher, both would lie between
the two results, at the same place. -/
theorem mono_of_near {r : ℚ → Int} (hnear : ∀ q, (r q : ℚ) - 1 / 2 ≤ q ∧ q ≤ r q + 1 / 2) {p q : ℚ} (hpq : p ≤ q) :
    r p ≤ r q := by
  by_contra hlt
  have hone : r q + 1 ≤ r p := by omega
  have hone' : (r q : ℚ) + 1 ≤ r p := by exact_mod_cast hone
  have hp := (hnear p).1
  have hq := (hnear q).2
  obtain rfl : p = q := by linarith
  omega

theorem round_mono {p q : ℚ} (hpq : p ≤ q) : round p ≤ round q := mono_of_near round_near hpq

/-- The nearest integer, the one further from zero of two: how the digits of a text are rounded. -/
def roundAway (q : ℚ) : Int := if q < 0 then -⌊-q + 1 / 2⌋ else ⌊q + 1 / 2⌋

theorem roundAway_near (q : ℚ) : (roundAway q : ℚ) - 1 / 2 ≤ q ∧ q ≤ roundAway q + 1 / 2 := by
  unfold roundAway
  split
  next hneg =>
    have hlow := Int.floor_le (-q + 1 / 2)
    have hhigh := Int.lt_floor_add_one (-q + 1 / 2)
    push_cast
    constructor <;> linarith
  next hpos =>
    have hlow := Int.floor_le (q + 1 / 2)
    have hhigh := Int.lt_floor_add_one (q + 1 / 2)
    constructor <;> linarith

theorem roundAway_zero : roundAway 0 = 0 := by decide +kernel

/-- A number rounded to hundredths. -/
def hundredths (q : ℚ) : Int := roundAway (100 * q)

theorem hundredths_near (q : ℚ) : (hundredths q : ℚ) - 1 / 2 ≤ 100 * q ∧ 100 * q ≤ hundredths q + 1 / 2 :=
  roundAway_near (100 * q)

theorem hundredths_mono {p q : ℚ} (hpq : p ≤ q) : hundredths p ≤ hundredths q :=
  mono_of_near roundAway_near (by linarith)

theorem hundredths_zero : hundredths 0 = 0 := by rw [hundredths, mul_zero, roundAway_zero]

theorem hundredths_nonneg {q : ℚ} (hq : 0 ≤ q) : 0 ≤ hundredths q := hundredths_zero ▸ hundredths_mono hq

theorem hundredths_nonpos {q : ℚ} (hq : q ≤ 0) : hundredths q ≤ 0 := hundredths_zero ▸ hundredths_mono hq

/-- The digits of `n` hundredths. -/
def fixedDigits (n : Nat) : List Char :=
  Nat.toDigits 10 (n / 100) ++ '.' :: [Nat.digitChar (n / 10 % 10), Nat.digitChar (n % 10)]

/-- The text of a signed number of hundredths. -/
def fixedText (negative : Bool) (n : Nat) : List Char := signText negative ++ fixedDigits n

/-- `f"{q:.2f}"`. -/
def fixed (q : ℚ) : List Char := fixedText (decide (q < 0)) (hundredths q).natAbs

/-- The number of a text of digits with at most one point. -/
def decimal (text : List Char) : Option ℚ :=
  match text.splitOn '.' with
  | [whole] => (int whole).map fun n : Int => (n : ℚ)
  | [whole, fraction] =>
      (int (whole ++ fraction)).map fun n : Int => (n : ℚ) / 10 ^ (fraction.takeWhile Char.isDigit).length
  | _ => none

theorem isDigit_digitChar_mod (n : Nat) : (Nat.digitChar (n % 10)).isDigit = true := by
  rw [Nat.isDigit_digitChar]
  exact decide_eq_true (Nat.mod_lt n (by decide))

/-- The digits on both sides of the point. -/
theorem ofDigitChars_fixed (n : Nat) :
    Nat.ofDigitChars 10 (Nat.toDigits 10 (n / 100) ++ [Nat.digitChar (n / 10 % 10), Nat.digitChar (n % 10)]) 0 =
      n := by
  have htens : n / 10 % 10 < 10 := Nat.mod_lt _ (by decide)
  have hones : n % 10 < 10 := Nat.mod_lt _ (by decide)
  rw [Nat.ofDigitChars_append, Nat.ofDigitChars_ten_toDigits, Nat.ofDigitChars_cons_digitChar_of_lt_ten htens,
    Nat.ofDigitChars_cons_digitChar_of_lt_ten hones, Nat.ofDigitChars_nil]
  omega

/-- Only digits, a sign and a point are written. -/
theorem not_mem_fixedText {c : Char} (hdigit : c.isDigit = false) (hminus : c ≠ '-') (hpoint : c ≠ '.')
    (negative : Bool) (n : Nat) : c ∉ fixedText negative n := by
  have hne : ∀ m, c ≠ Nat.digitChar (m % 10) := by
    rintro m rfl
    rw [isDigit_digitChar_mod] at hdigit
    cases hdigit
  rw [fixedText, fixedDigits, List.mem_append, List.mem_append]
  rintro (hmem | hmem | hmem)
  · exact not_mem_signText hminus negative hmem
  · exact not_mem_digits hdigit isDigit_of_mem_toDigits hmem
  · simp [hpoint, hne] at hmem

theorem point_mem_fixedText (negative : Bool) (n : Nat) : '.' ∈ fixedText negative n := by
  simp [fixedText, fixedDigits]

/-- The two decimals, and the space after them. -/
def decimals (n : Nat) : List Char := [Nat.digitChar (n / 10 % 10), Nat.digitChar (n % 10), ' ']

theorem splitOn_fixedText (negative : Bool) (n : Nat) :
    (fixedText negative n ++ [' ']).splitOn '.' = [signText negative ++ Nat.toDigits 10 (n / 100), decimals n] := by
  have hwhole : '.' ∉ signText negative ++ Nat.toDigits 10 (n / 100) := by
    rw [List.mem_append]
    rintro (hmem | hmem)
    · exact not_mem_signText (by decide) negative hmem
    · exact not_mem_digits (by decide) isDigit_of_mem_toDigits hmem
  have hfraction : '.' ∉ decimals n := by
    intro hmem
    simp only [decimals, List.mem_cons, List.not_mem_nil, or_false] at hmem
    rcases hmem with heq | heq | heq
    · exact absurd (heq ▸ isDigit_digitChar_mod (n / 10)) (by decide)
    · exact absurd (heq ▸ isDigit_digitChar_mod n) (by decide)
    · exact absurd heq (by decide)
  have htext : fixedText negative n ++ [' '] =
      (signText negative ++ Nat.toDigits 10 (n / 100)) ++ '.' :: decimals n := by
    simp [fixedText, fixedDigits, decimals]
  rw [htext, List.splitOn_append_cons_self_of_not_mem hwhole, List.splitOn_eq_singleton hfraction]

/-- Without the point the text is that of the number of hundredths. -/
theorem int_fixedText (negative : Bool) (n : Nat) :
    int (signText negative ++ Nat.toDigits 10 (n / 100) ++ decimals n) =
      some (if negative then -(n : Int) else n) := by
  have hdigits : ∀ c ∈ Nat.toDigits 10 (n / 100) ++ [Nat.digitChar (n / 10 % 10), Nat.digitChar (n % 10)],
      c.isDigit = true := by
    intro c hc
    rw [List.mem_append, List.mem_cons, List.mem_singleton] at hc
    rcases hc with hc | rfl | rfl
    · exact isDigit_of_mem_toDigits c hc
    · exact isDigit_digitChar_mod (n / 10)
    · exact isDigit_digitChar_mod n
  have htext : signText negative ++ Nat.toDigits 10 (n / 100) ++ decimals n = signText negative ++
      (Nat.toDigits 10 (n / 100) ++ [Nat.digitChar (n / 10 % 10), Nat.digitChar (n % 10)]) ++ [' '] := by
    simp [decimals]
  rw [htext, int_digits hdigits (by simp) (by simp), ofDigitChars_fixed]

/-- A number of hundredths is read back from its text. -/
theorem decimal_fixedText (negative : Bool) (n : Nat) :
    decimal (fixedText negative n ++ [' ']) = some ((if negative then -(n : ℚ) else n) / 100) := by
  have hlength : ((decimals n).takeWhile Char.isDigit).length = 2 := by
    rw [decimals, List.takeWhile_cons_of_pos (isDigit_digitChar_mod (n / 10)),
      List.takeWhile_cons_of_pos (isDigit_digitChar_mod n), List.takeWhile_cons_of_neg (by decide)]
    rfl
  rw [decimal, splitOn_fixedText]
  dsimp only
  rw [int_fixedText, hlength, Option.map_some]
  cases negative <;> norm_num

end Py
