import CalSci.MpzDivision
import Mathlib.Algebra.Order.Ring.Abs
import Mathlib.Data.Int.DivMod

/-! The operations of `mpz.c` on integers. An integer has exactly one representation, and each operation takes the
representations of its operands to that of its result. -/

namespace CalSci.Mpz

open DigitLists

/-! ### Representations -/

def ofInt (n : ℤ) : Mpz := ⟨decide (n < 0), Nat.digits 65536 n.natAbs⟩

def toInt (z : Mpz) : ℤ := if z.neg then -(Nat.ofDigits 65536 z.dig : ℕ) else (Nat.ofDigits 65536 z.dig : ℕ)

/-- What `mpz.h` asks of an `mpz_t`: digits without a leading zero, and no negative zero. -/
structure Valid (z : Mpz) : Prop where
  digits : Digits z.dig
  normalised : ∀ h : z.dig ≠ [], z.dig.getLast h ≠ 0
  zero : z.dig = [] → z.neg = false

@[simp]
theorem neg_ofInt (n : ℤ) : (ofInt n).neg = decide (n < 0) := rfl

@[simp]
theorem dig_ofInt (n : ℤ) : (ofInt n).dig = Nat.digits 65536 n.natAbs := rfl

theorem toInt_ofInt (n : ℤ) : (ofInt n).toInt = n := by
  rw [toInt, dig_ofInt, Nat.ofDigits_digits, neg_ofInt]
  by_cases h : n < 0
  · simp only [h, decide_true, if_true]
    omega
  · simp only [h, decide_false, Bool.false_eq_true, if_false]
    omega

theorem valid_ofInt (n : ℤ) : (ofInt n).Valid := by
  refine ⟨digits_digits _, ?_, ?_⟩
  · intro h
    rw [dig_ofInt] at h
    exact Nat.getLast_digit_ne_zero 65536 (Nat.digits_ne_nil_iff_ne_zero.mp h)
  · intro h
    rw [dig_ofInt, Nat.digits_eq_nil_iff_eq_zero] at h
    rw [neg_ofInt, decide_eq_false (by omega)]

theorem Valid.eq_ofInt {z : Mpz} (h : z.Valid) : z = ofInt z.toInt := by
  have hdigits : z.dig = Nat.digits 65536 (Nat.ofDigits 65536 z.dig) := eq_digits (by decide) h.digits h.normalised rfl
  have habs : z.toInt.natAbs = Nat.ofDigits 65536 z.dig := by
    rw [toInt]
    split <;> omega
  have hneg : z.neg = decide (z.toInt < 0) := by
    rw [toInt]
    split
    · rename_i hneg
      have hpos : Nat.ofDigits 65536 z.dig ≠ 0 := by
        intro hzero
        rw [hzero, Nat.digits_zero] at hdigits
        rw [h.zero hdigits] at hneg
        exact Bool.noConfusion hneg
      rw [hneg, decide_eq_true (by omega)]
    · rename_i hneg
      rw [decide_eq_false (by omega)]
      simpa using hneg
  rw [ofInt, habs, ← hdigits, ← hneg]

/-- A sign and digits that represent an integer. -/
theorem mk_eq_ofInt {s : Bool} {m : ℕ} {n : ℤ} (habs : n.natAbs = m) (hneg : s = decide (n < 0)) :
    (⟨s, Nat.digits 65536 m⟩ : Mpz) = ofInt n := by
  rw [ofInt, habs, hneg]

theorem length_digits_eq_zero (m : ℕ) : (Nat.digits 65536 m).length = 0 ↔ m = 0 := by
  rw [List.length_eq_zero_iff, Nat.digits_eq_nil_iff_eq_zero]

theorem isZero_ofInt (n : ℤ) : (ofInt n).isZero = decide (n = 0) := by
  rw [isZero, ofInt]
  congr 1
  rw [length_digits_eq_zero, Int.natAbs_eq_zero]

theorem wordDigits_eq {turns uval : ℕ} (h : uval < 65536 ^ turns) : wordDigits turns uval = Nat.digits 65536 uval := by
  induction turns generalizing uval with
  | zero =>
      rw [pow_zero, Nat.lt_one_iff] at h
      rw [h, wordDigits, Nat.digits_zero]
  | succ turns ih =>
      rw [wordDigits]
      split
      · rename_i hpos
        rw [pow_succ, Nat.mul_comm] at h
        rw [ih (Nat.div_lt_of_lt_mul h), ← Nat.digits_eq_cons_digits_div (by decide) (by omega)]
      · have hzero : uval = 0 := by omega
        rw [hzero, Nat.digits_zero]

theorem setFromInt_eq {val : ℤ} (hlow : -2147483648 ≤ val) (hhigh : val < 2147483648) : setFromInt val = ofInt val := by
  rw [setFromInt]
  split
  · rename_i hzero
    rw [hzero]
    rfl
  · rw [wordDigits_eq (by omega), ofInt]

theorem setFromLl_eq {val : ℤ} (hlow : -9223372036854775808 ≤ val) (hhigh : val < 9223372036854775808) :
    setFromLl val = ofInt val := by
  rw [setFromLl, wordDigits_eq (by omega), ofInt]

/-! ### Order and sign -/

theorem cmp_ofInt (a b : ℤ) : cmp (ofInt a) (ofInt b) = Int.sign (a - b) := by
  simp only [cmp, ofInt, mpnCmp_digits]
  by_cases ha : a < 0 <;> by_cases hb : b < 0
  · simp only [ha, hb, decide_true, if_true]
    rw [← Int.sign_neg]
    congr 1
    omega
  · simp only [ha, hb, decide_true, decide_false, Bool.true_eq_false, if_false]
    rw [Int.sign_eq_neg_one_of_neg (by omega)]
    rfl
  · simp only [ha, hb, decide_true, decide_false, Bool.false_eq_true, if_false]
    rw [Int.sign_eq_one_of_pos (by omega)]
    rfl
  · simp only [ha, hb, decide_false, if_true, Bool.false_eq_true, if_false]
    congr 1
    omega

theorem absInpl_ofInt (a : ℤ) : absInpl (ofInt a) = ofInt |a| := by
  apply mk_eq_ofInt
  · rw [Int.natAbs_abs]
  · rw [decide_eq_false (not_lt.mpr (abs_nonneg a))]

theorem negInpl_ofInt (a : ℤ) : negInpl (ofInt a) = ofInt (-a) := by
  rw [negInpl]
  simp only [ofInt, ne_eq, length_digits_eq_zero, Int.natAbs_eq_zero]
  split
  · apply mk_eq_ofInt
    · rw [Int.natAbs_neg]
    · rw [← decide_not]
      congr 1
      simp only [not_lt, Int.neg_neg_iff_pos, eq_iff_iff]
      omega
  · rename_i hzero
    have : a = 0 := by simpa using hzero
    rw [this]
    rfl

/-! ### Sums and products -/

theorem addOrdered_ofInt {a b : ℤ} (h : b.natAbs ≤ a.natAbs) : addOrdered (ofInt a) (ofInt b) = ofInt (a + b) := by
  rw [addOrdered]
  by_cases hsign : (ofInt a).neg = (ofInt b).neg
  · rw [if_pos hsign, dig_ofInt, dig_ofInt, mpnAdd_digits h]
    rw [neg_ofInt, neg_ofInt, decide_eq_decide] at hsign
    apply mk_eq_ofInt (by omega)
    rw [neg_ofInt, ← Bool.decide_and, decide_eq_decide, ne_eq, length_digits_eq_zero]
    omega
  · rw [if_neg hsign, dig_ofInt, dig_ofInt, mpnSub_digits h]
    rw [neg_ofInt, neg_ofInt, decide_eq_decide] at hsign
    apply mk_eq_ofInt (by omega)
    rw [neg_ofInt, ← Bool.decide_and, decide_eq_decide, ne_eq, length_digits_eq_zero]
    omega

theorem addInpl_ofInt (a b : ℤ) : addInpl (ofInt a) (ofInt b) = ofInt (a + b) := by
  rw [addInpl]
  split
  · rename_i hless
    rw [ofInt, ofInt, mpnCmp_digits, Int.sign_neg_iff] at hless
    rw [addOrdered_ofInt (by omega), Int.add_comm]
  · rename_i hless
    rw [ofInt, ofInt, mpnCmp_digits, Int.sign_neg_iff] at hless
    exact addOrdered_ofInt (by omega)

/-- The sign `mpz_sub_inpl` gives to a difference of absolute value `m`. -/
theorem sub_neg {a n : ℤ} {m : ℕ} {neg : Bool} (habs : n.natAbs = m)
    (hpos : neg = false → (a < 0 ↔ n < 0 ∨ m = 0 ∧ a < 0))
    (hneg : neg = true → (a < 0 ↔ 0 < n ∨ m = 0 ∧ a < 0)) :
    (if (Nat.digits 65536 m).length = 0 then false else if neg then !decide (a < 0) else decide (a < 0)) =
      decide (n < 0) := by
  simp only [length_digits_eq_zero]
  split
  · rw [decide_eq_false (by omega)]
  · cases neg with
    | false =>
        have := hpos rfl
        rw [if_neg (by decide), decide_eq_decide]
        omega
    | true =>
        have := hneg rfl
        rw [if_pos rfl, ← decide_not, decide_eq_decide]
        omega

theorem subOrdered_ofInt {a b : ℤ} (h : b.natAbs ≤ a.natAbs) (neg : Bool) :
    subOrdered (ofInt a) (ofInt b) neg = ofInt (if neg then b - a else a - b) := by
  rw [subOrdered]
  by_cases hsign : (ofInt a).neg = (ofInt b).neg
  · rw [if_neg (not_not.mpr hsign), dig_ofInt, dig_ofInt, mpnSub_digits h]
    rw [neg_ofInt, neg_ofInt, decide_eq_decide] at hsign
    have habs : (if neg then b - a else a - b).natAbs = a.natAbs - b.natAbs := by
      split <;> omega
    apply mk_eq_ofInt habs (sub_neg habs ?_ ?_)
    · rintro rfl
      rw [if_neg (by decide)]
      omega
    · rintro rfl
      rw [if_pos rfl]
      omega
  · rw [if_pos hsign, dig_ofInt, dig_ofInt, mpnAdd_digits h]
    rw [neg_ofInt, neg_ofInt, decide_eq_decide] at hsign
    have habs : (if neg then b - a else a - b).natAbs = a.natAbs + b.natAbs := by
      split <;> omega
    apply mk_eq_ofInt habs (sub_neg habs ?_ ?_)
    · rintro rfl
      rw [if_neg (by decide)]
      omega
    · rintro rfl
      rw [if_pos rfl]
      omega

theorem subInpl_ofInt (a b : ℤ) : subInpl (ofInt a) (ofInt b) = ofInt (a - b) := by
  rw [subInpl]
  split
  · rename_i hless
    rw [ofInt, ofInt, mpnCmp_digits, Int.sign_neg_iff] at hless
    rw [subOrdered_ofInt (by omega), if_pos rfl]
  · rename_i hless
    rw [ofInt, ofInt, mpnCmp_digits, Int.sign_neg_iff] at hless
    rw [subOrdered_ofInt (by omega), if_neg (by decide)]

theorem mulInpl_ofInt (a b : ℤ) : mulInpl (ofInt a) (ofInt b) = ofInt (a * b) := by
  rw [mulInpl]
  split
  · rename_i hzero
    rw [dig_ofInt, dig_ofInt, length_digits_eq_zero, length_digits_eq_zero, Int.natAbs_eq_zero,
      Int.natAbs_eq_zero] at hzero
    rw [mul_eq_zero.mpr hzero]
    rfl
  · rename_i hne
    rw [dig_ofInt, dig_ofInt, length_digits_eq_zero, length_digits_eq_zero, Int.natAbs_eq_zero, Int.natAbs_eq_zero,
      not_or] at hne
    rw [dig_ofInt, dig_ofInt, mpnMul_digits (by omega) (by omega)]
    apply mk_eq_ofInt (Int.natAbs_mul a b)
    rcases lt_or_gt_of_ne hne.1 with ha | ha <;> rcases lt_or_gt_of_ne hne.2 with hb | hb
    · have hpos := mul_pos_of_neg_of_neg ha hb
      simp [ha, hb, hpos.le]
    · have hneg := mul_neg_of_neg_of_pos ha hb
      simp [ha, hb.le, hneg]
    · have hneg := mul_neg_of_pos_of_neg ha hb
      simp [ha.le, hb, hneg]
    · have hpos := mul_pos ha hb
      simp [not_lt_of_gt ha, not_lt_of_gt hb, not_lt_of_gt hpos]

/-! ### Division -/

/-- Floor division by quotient and remainder of the absolute values: of operands of the same sign. -/
theorem fdiv_fmod_of_same {a b : ℤ} (hb : b ≠ 0) (hsign : a < 0 ↔ b < 0) :
    a.fdiv b = (a.natAbs / b.natAbs : ℕ) ∧
      a.fmod b = (if a < 0 then -(a.natAbs % b.natAbs : ℕ) else (a.natAbs % b.natAbs : ℕ) : ℤ) := by
  have hdivmod : ((b.natAbs * (a.natAbs / b.natAbs) + a.natAbs % b.natAbs : ℕ) : ℤ) = a.natAbs := by
    rw [Nat.div_add_mod]
  have hlt : a.natAbs % b.natAbs < b.natAbs := Nat.mod_lt _ (by omega)
  generalize a.natAbs / b.natAbs = q at hdivmod ⊢
  generalize a.natAbs % b.natAbs = r at hdivmod hlt ⊢
  push_cast at hdivmod
  rcases lt_or_gt_of_ne hb with hneg | hpos
  · rw [if_pos (by omega), Int.fdiv_fmod_unique' hneg]
    have habs : |b| = -b := abs_of_neg hneg
    have haabs : |a| = -a := abs_of_neg (by omega)
    rw [habs, haabs] at hdivmod
    refine ⟨by linarith, by omega, by omega⟩
  · rw [if_neg (by omega), Int.fdiv_fmod_unique hpos]
    have habs : |b| = b := abs_of_pos hpos
    have haabs : |a| = a := abs_of_nonneg (by omega)
    rw [habs, haabs] at hdivmod
    refine ⟨by linarith, by omega, by omega⟩

/-- Of operands of different signs: the quotient is one less if there is a remainder. -/
theorem fdiv_fmod_of_different {a b : ℤ} (hb : b ≠ 0) (hsign : ¬ (a < 0 ↔ b < 0)) :
    (a.natAbs % b.natAbs = 0 → a.fdiv b = -(a.natAbs / b.natAbs : ℕ) ∧ a.fmod b = 0) ∧
      (a.natAbs % b.natAbs ≠ 0 → a.fdiv b = -(a.natAbs / b.natAbs : ℕ) + -1 ∧
        a.fmod b = (if a < 0 then -(a.natAbs % b.natAbs : ℕ) else (a.natAbs % b.natAbs : ℕ) : ℤ) + b) := by
  have hdivmod : ((b.natAbs * (a.natAbs / b.natAbs) + a.natAbs % b.natAbs : ℕ) : ℤ) = a.natAbs := by
    rw [Nat.div_add_mod]
  have hlt : a.natAbs % b.natAbs < b.natAbs := Nat.mod_lt _ (by omega)
  generalize a.natAbs / b.natAbs = q at hdivmod ⊢
  generalize a.natAbs % b.natAbs = r at hdivmod hlt ⊢
  push_cast at hdivmod
  rcases lt_or_gt_of_ne hb with hneg | hpos
  · have habs : |b| = -b := abs_of_neg hneg
    have haabs : |a| = a := abs_of_nonneg (by omega)
    rw [habs, haabs] at hdivmod
    rw [Int.fdiv_fmod_unique' hneg, Int.fdiv_fmod_unique' hneg, if_neg (by omega)]
    refine ⟨fun hzero => ⟨?_, by omega, by omega⟩, fun hne => ⟨by linarith, by omega, by omega⟩⟩
    rw [hzero, Nat.cast_zero] at hdivmod
    linarith
  · have habs : |b| = b := abs_of_pos hpos
    have haabs : |a| = -a := abs_of_neg (by omega)
    rw [habs, haabs] at hdivmod
    rw [Int.fdiv_fmod_unique hpos, Int.fdiv_fmod_unique hpos, if_pos (by omega)]
    refine ⟨fun hzero => ⟨?_, by omega, by omega⟩, fun hne => ⟨by linarith, by omega, by omega⟩⟩
    rw [hzero, Nat.cast_zero] at hdivmod
    linarith

/-- The remainder before its sign is put right. -/
theorem rem_eq_ofInt (a : ℤ) (r : ℕ) :
    (⟨(ofInt a).neg && (Nat.digits 65536 r).length ≠ 0, Nat.digits 65536 r⟩ : Mpz) =
      ofInt (if a < 0 then -r else r) := by
  apply mk_eq_ofInt
  · split <;> omega
  · rw [neg_ofInt, ← Bool.decide_and, decide_eq_decide, ne_eq, length_digits_eq_zero]
    split <;> omega

/-- The quotient of operands of different signs, before it is rounded down. -/
theorem quo_eq_ofInt (q : ℕ) :
    (⟨(Nat.digits 65536 q).length ≠ 0, Nat.digits 65536 q⟩ : Mpz) = ofInt (-q) := by
  apply mk_eq_ofInt
  · rw [Int.natAbs_neg, Int.natAbs_natCast]
  · rw [decide_eq_decide, ne_eq, length_digits_eq_zero]
    omega

theorem divmodInpl_ofInt (a : ℤ) {b : ℤ} (hb : b ≠ 0) :
    divmodInpl (ofInt a) (ofInt b) = some (ofInt (a.fdiv b), ofInt (a.fmod b)) := by
  rw [divmodInpl, dig_ofInt, dig_ofInt, mpnDiv_digits (Int.natAbs_ne_zero.mpr hb)]
  simp only [Option.bind_eq_bind, Option.bind_some]
  rw [rem_eq_ofInt]
  by_cases hsign : (ofInt a).neg = (ofInt b).neg
  · rw [if_neg (not_not.mpr hsign)]
    rw [neg_ofInt, neg_ofInt, decide_eq_decide] at hsign
    obtain ⟨hq, hr⟩ := fdiv_fmod_of_same hb hsign
    rw [hr, mk_eq_ofInt (s := false) (n := a.fdiv b)]
    · rfl
    · rw [hq, Int.natAbs_natCast]
    · rw [hq, decide_eq_false (not_lt.mpr (Int.natCast_nonneg _))]
  · rw [if_pos hsign]
    rw [neg_ofInt, neg_ofInt, decide_eq_decide] at hsign
    obtain ⟨hexact, hrest⟩ := fdiv_fmod_of_different hb hsign
    by_cases hzero : a.natAbs % b.natAbs = 0
    · obtain ⟨hq, hr⟩ := hexact hzero
      rw [if_neg (not_not.mpr ((length_digits_eq_zero _).mpr hzero)), quo_eq_ofInt, hq, hr, hzero]
      split <;> rfl
    · obtain ⟨hq, hr⟩ := hrest hzero
      rw [if_pos (fun h => hzero ((length_digits_eq_zero _).mp h)), quo_eq_ofInt, setFromInt_eq (by decide) (by decide),
        addInpl_ofInt, addInpl_ofInt, hq, hr]
      rfl

end CalSci.Mpz
