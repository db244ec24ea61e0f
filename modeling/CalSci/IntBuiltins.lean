import CalSci.IntArithmetic

/-! Comparisons, hashes, `divmod` and `pow` with three arguments, for operands in either representation. -/

namespace CalSci.IntObj

/-! ### Order, equality, hashes -/

/-- What an operator of comparison says of integers. -/
def CompareOp.value (op : CompareOp) (a b : ℤ) : Bool :=
  match op with
  | .less => a < b
  | .more => a > b
  | .lessEqual => a ≤ b
  | .moreEqual => a ≥ b
  | .equal => a = b
  | .notEqual => a ≠ b

theorem ofSign_cmp (op : CompareOp) (a b : ℤ) : op.ofSign (Mpz.cmp (Mpz.ofInt a) (Mpz.ofInt b)) = op.value a b := by
  have hneg := Int.sign_neg_iff (x := a - b)
  have hpos := Int.sign_pos_iff (x := a - b)
  rw [Mpz.cmp_ofInt]
  generalize Int.sign (a - b) = s at *
  cases op <;> simp only [CompareOp.ofSign, CompareOp.value, decide_eq_decide] <;> omega

theorem cmp_eq_zero (a b : ℤ) : (Mpz.cmp (Mpz.ofInt a) (Mpz.ofInt b) = 0) ↔ a = b := by
  have h := ofSign_cmp .equal a b
  simpa only [CompareOp.ofSign, CompareOp.value, decide_eq_decide] using h

theorem objEqual_eq {x y : IntObj} {a b : ℤ} (hx : Holds x a) (hy : Holds y b) : objEqual x y = decide (a = b) := by
  have hmpz := toMpz_eq hy
  have hxmpz := toMpz_eq hx
  cases hx with
  | small ha =>
      cases hy with
      | small hb => rfl
      | long b =>
          simp only [toMpz] at hxmpz
          simp only [objEqual, hxmpz, cmp_eq_zero, decide_eq_decide]
          exact eq_comm
  | long a => simp only [objEqual, hmpz, cmp_eq_zero]

theorem compareOp_eq {x y : IntObj} {a b : ℤ} (op : CompareOp) (hx : Holds x a) (hy : Holds y b) :
    compareOp op x y = op.value a b := by
  have hequal := objEqual_eq hx hy
  have hgeneric : op.ofSign (Mpz.cmp (toMpz x) (toMpz y)) = op.value a b := by
    rw [toMpz_eq hx, toMpz_eq hy, ofSign_cmp]
  cases op with
  | equal => exact hequal
  | notEqual =>
      simp only [compareOp, hequal, CompareOp.value]
      exact (decide_not (p := a = b)).symm
  | less | more | lessEqual | moreEqual =>
      cases hx with
      | small ha =>
          cases hy with
          | small hb => rfl
          | long b => exact hgeneric
      | long a => exact hgeneric

theorem hashLoop_eq {l : List ℕ} (hl : Mpz.Digits l) (val : ℕ) :
    hashLoop l val % 4294967296 = (val * 65536 ^ l.length + Nat.ofDigits 65536 l.reverse) % 4294967296 := by
  induction l generalizing val with
  | nil => simp [hashLoop]
  | cons d l ih =>
      have hd := hl.head
      have hor : Mpz.dbl (val <<< 16) ||| d = val * 65536 % 4294967296 + d := by
        rw [Nat.shiftLeft_eq, Mpz.dbl, show val * 2 ^ 16 % 4294967296 = val % 65536 * 65536 by omega, Mpz.or_eq_add hd]
        omega
      rw [hashLoop, hor, ih hl.tail, List.reverse_cons, DigitLists.ofDigits_concat, List.length_reverse, List.length_cons,
        pow_succ]
      have hcong : (val * 65536 % 4294967296 + d) % 4294967296 = (val * 65536 + d) % 4294967296 := by omega
      rw [Nat.add_mod, Nat.mul_mod, hcong, ← Nat.mul_mod, ← Nat.add_mod]
      congr 1
      ring

theorem hash_eq {x : IntObj} {a : ℤ} (h : Holds x a) : hash x = newSmallInt a := by
  cases h with
  | small h => exact (newSmallInt_eq h).symm
  | long a =>
      have hval := hashLoop_eq (Mpz.digits_digits a.natAbs).reverse 0
      rw [List.reverse_reverse, Nat.ofDigits_digits, Nat.zero_mul, Nat.zero_add] at hval
      rw [hash, mpzHash, Mpz.dig_ofInt, Mpz.neg_ofInt]
      generalize hashLoop (Nat.digits 65536 a.natAbs).reverse 0 = val at hval
      have hword : ∀ {n : ℤ}, n % 2147483648 = a % 2147483648 → newSmallInt (mpInt n) = newSmallInt a := by
        intro n hn
        rw [newSmallInt, newSmallInt, mpInt, Int.bmod_bmod_of_dvd (by decide)]
        congr 1
        rw [← Int.emod_bmod n, ← Int.emod_bmod a]
        exact congrArg (Int.bmod · 2147483648) hn
      split
      · rename_i hneg
        rw [decide_eq_true_eq] at hneg
        exact hword (by omega)
      · rename_i hpos
        rw [decide_eq_true_eq] at hpos
        exact hword (by omega)

theorem isTrue_eq {x : IntObj} {a : ℤ} (h : Holds x a) : isTrue x = decide (a ≠ 0) := by
  cases h with
  | small h => rfl
  | long a => rw [isTrue, Mpz.isZero_ofInt, decide_not]

/-- Comparisons and truth see the integers only, and equal integers have equal hashes, even when one of them is a small
integer and the other a long object. -/
theorem compare_values {x y : IntObj} {a b : ℤ} (hx : Holds x a) (hy : Holds y b) :
    (∀ op, compareOp op x y = op.value a b) ∧ isTrue x = decide (a ≠ 0) ∧
      (compareOp .equal x y = true → hash x = hash y) := by
  refine ⟨fun op => compareOp_eq op hx hy, isTrue_eq hx, ?_⟩
  intro heq
  rw [compareOp_eq .equal hx hy, CompareOp.value, decide_eq_true_eq] at heq
  rw [hash_eq hx, hash_eq hy, heq]

theorem compare_values_least :
    (∀ op, compareOp op (.small (-1073741824)) (.long (Mpz.ofInt (-1073741824))) =
        op.value (-1073741824) (-1073741824)) ∧
      isTrue (.small (-1073741824)) = decide ((-1073741824 : ℤ) ≠ 0) ∧
      (compareOp .equal (.small (-1073741824)) (.long (Mpz.ofInt (-1073741824))) = true →
        hash (.small (-1073741824)) = hash (.long (Mpz.ofInt (-1073741824)))) :=
  compare_values (.small (by decide)) (.long _)

/-! ### Quotient and remainder at once -/

/-- The least small integer divided by minus one does not fit, and nothing checks it. -/
theorem divmod_least : divmod (.small (-1073741824)) (.small (-1)) = .ok (.small (-1073741824), .small 0) := by
  decide

theorem small_fdiv {a b : ℤ} (ha : Small a) (hne : b ≠ 0) (h : ¬(a = -1073741824 ∧ b = -1)) : Small (a.fdiv b) := by
  obtain ⟨hlow, hhigh⟩ := ha
  by_cases hone : b.natAbs = 1
  · rcases (show b = 1 ∨ b = -1 by omega) with rfl | rfl
    · rw [Int.fdiv_one]
      exact ⟨hlow, hhigh⟩
    · rw [← Int.neg_fdiv_neg, Int.neg_neg, Int.fdiv_one]
      constructor <;> omega
  · have hhalf : a.natAbs / b.natAbs ≤ a.natAbs / 2 := Nat.div_le_div_left (by omega) (by decide)
    by_cases hsigns : a < 0 ↔ b < 0
    · rw [(Mpz.fdiv_fmod_of_same hne hsigns).1]
      generalize a.natAbs / b.natAbs = q at hhalf ⊢
      constructor <;> omega
    · obtain ⟨hzero, hpos⟩ := Mpz.fdiv_fmod_of_different hne hsigns
      by_cases hrem : a.natAbs % b.natAbs = 0
      · rw [(hzero hrem).1]
        generalize a.natAbs / b.natAbs = q at hhalf ⊢
        constructor <;> omega
      · rw [(hpos hrem).1]
        generalize a.natAbs / b.natAbs = q at hhalf ⊢
        constructor <;> omega

theorem small_fmod {a b : ℤ} (hb : Small b) (hne : b ≠ 0) : Small (a.fmod b) := by
  obtain ⟨hlow, hhigh⟩ := hb
  have hnonneg := Int.emod_nonneg a hne
  have hlt := Int.emod_lt a hne
  rw [Int.fmod_eq_emod]
  split <;> constructor <;> omega

/-- `divmod` gives the quotient and the remainder of Python, whatever represents its operands, except for the least small
integer and minus one, both small. -/
theorem divmod_exact_iff {x y : IntObj} {a b : ℤ} (hx : Holds x a) (hy : Holds y b) (hne : b ≠ 0) :
    (∃ q r, divmod x y = .ok (q, r) ∧ Holds q (a.fdiv b) ∧ Holds r (a.fmod b)) ↔
      ¬(x = .small (-1073741824) ∧ y = .small (-1)) := by
  constructor
  · rintro ⟨q, r, hdivmod, hq, -⟩ ⟨rfl, rfl⟩
    have ha := hx.unique (.small (by decide))
    have hb := hy.unique (.small (by decide))
    rw [divmod_least, Except.ok.injEq, Prod.mk.injEq] at hdivmod
    rw [← hdivmod.1, ha, hb] at hq
    have := hq.unique (.small (by decide))
    exact absurd this (by decide)
  · intro h
    have hlong : Mpz.isZero (toMpz y) = false := by
      rw [toMpz_eq hy]
      exact (Mpz.isZero_ofInt b).trans (decide_eq_false hne)
    have hgeneric : (if Mpz.isZero (toMpz y) then (.error divideByZero : Except Failure (IntObj × IntObj))
        else (fun z : Mpz × Mpz => (.long z.1, .long z.2)) <$> ofLoop (Mpz.divmodInpl (toMpz x) (toMpz y))) =
          .ok (.long (Mpz.ofInt (a.fdiv b)), .long (Mpz.ofInt (a.fmod b))) := by
      rw [hlong, if_neg Bool.false_ne_true, toMpz_eq hx, toMpz_eq hy, Mpz.divmodInpl_ofInt a hne]
      rfl
    cases hx with
    | small ha =>
        cases hy with
        | small hb =>
            have hq := small_fdiv ha hne (by simpa using h)
            have hr := small_fmod (a := a) hb hne
            refine ⟨_, _, ?_, .small hq, .small hr⟩
            rw [divmod, if_neg hne, smallIntFloorDivide_eq ha hb hne, smallIntModulo_eq hb hne, newSmallInt_eq hq,
              newSmallInt_eq hr]
            rfl
        | long b => exact ⟨_, _, hgeneric, .long _, .long _⟩
    | long a =>
        cases hy with
        | small hb => exact ⟨_, _, hgeneric, .long _, .long _⟩
        | long b => exact ⟨_, _, hgeneric, .long _, .long _⟩

theorem divmod_exact_iff_long :
    (∃ q r, divmod (.long (Mpz.ofInt (-1073741824))) (.small (-1)) = .ok (q, r) ∧
        Holds q ((-1073741824 : ℤ).fdiv (-1)) ∧ Holds r ((-1073741824 : ℤ).fmod (-1))) ↔
      ¬((.long (Mpz.ofInt (-1073741824)) : IntObj) = .small (-1073741824) ∧ (.small (-1) : IntObj) = .small (-1)) :=
  divmod_exact_iff (.long _) (.small (by decide)) (by decide)

/-! ### Modular powers -/

/-- A power with a positive exponent and a modulus has the remainder of the exact power, with the sign of the modulus. -/
theorem pow3_exact {x y z : IntObj} {a b c : ℤ} (hx : Holds x a) (hy : Holds y b) (hz : Holds z c) (hb : 0 < b)
    (hc : c ≠ 0) : ∃ r, pow3 x y z = .ok r ∧ Holds r ((a ^ b.toNat).fmod c) := by
  obtain ⟨k, hk⟩ := Int.eq_ofNat_of_zero_le hb.le
  refine ⟨.long (Mpz.ofInt ((a ^ b.toNat).fmod c)), ?_, .long _⟩
  rw [pow3, toMpz_eq hx, toMpz_eq hy, toMpz_eq hz, hk, Mpz.pow3Inpl_ofInt a (by omega) hc, Int.toNat_natCast]
  rfl

theorem pow3_exact_fermat : ∃ r, pow3 (.small 3) (.long (Mpz.ofInt 1000000006)) (.small 1000000007) = .ok r ∧
    Holds r (((3 : ℤ) ^ (1000000006 : ℤ).toNat).fmod 1000000007) :=
  pow3_exact (.small (by decide)) (.long _) (.small (by decide)) (by decide) (by decide)

end CalSci.IntObj
