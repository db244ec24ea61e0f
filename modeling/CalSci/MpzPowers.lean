import CalSci.MpzArithmetic

/-! Powers by repeated squaring, also modulo a number; and which integers fit a machine word. -/

namespace CalSci.Mpz

open DigitLists

/-- The lowest bit of a number, as the loops read it. -/
theorem head_odd {n n0 : ℕ} {rest : List ℕ} (h : Nat.digits 65536 n = n0 :: rest) : n0 &&& 1 ≠ 0 ↔ n % 2 = 1 := by
  have hn : n = n0 + 65536 * Nat.ofDigits 65536 rest := by
    rw [← Nat.ofDigits_cons, ← h, Nat.ofDigits_digits]
  rw [Nat.and_one_is_mod]
  omega

theorem pow_half (x : ℤ) (n : ℕ) : (x * x) ^ (n / 2) * (if n % 2 = 1 then x else 1) = x ^ n := by
  have hsplit := Nat.div_add_mod n 2
  rw [← pow_two, ← pow_mul]
  rcases Nat.mod_two_eq_zero_or_one n with h | h
  · rw [h, if_neg (by decide), mul_one]
    congr 1
    omega
  · rw [h, if_pos rfl, ← pow_succ]
    congr 1
    omega

theorem lt_two_pow_length (n : ℕ) : n < 2 ^ (16 * (Nat.digits 65536 n).length) := by
  rw [pow_mul]
  exact Nat.lt_base_pow_length_digits (by decide)

theorem powLoop_ofInt {turns n : ℕ} (hn : n < 2 ^ turns) (d x : ℤ) :
    powLoop turns (ofInt d) (ofInt x) (Nat.digits 65536 n) = some (ofInt (d * x ^ n)) := by
  induction turns generalizing n d x with
  | zero =>
      rw [pow_zero, Nat.lt_one_iff] at hn
      rw [hn, Nat.digits_zero, powLoop, pow_zero, mul_one]
  | succ turns ih =>
      cases hdig : Nat.digits 65536 n with
      | nil =>
          rw [Nat.digits_eq_nil_iff_eq_zero.mp hdig, powLoop, pow_zero, mul_one]
      | cons n0 rest =>
          have hdest : (if n0 &&& 1 ≠ 0 then mulInpl (ofInt d) (ofInt x) else ofInt d) =
              ofInt (d * (if n % 2 = 1 then x else 1)) := by
            rw [mulInpl_ofInt]
            by_cases hodd : n % 2 = 1
            · rw [if_pos ((head_odd hdig).mpr hodd), if_pos hodd]
            · rw [if_neg (fun h => hodd ((head_odd hdig).mp h)), if_neg hodd, mul_one]
          have hhalf : mpnShr (n0 :: rest) 1 = Nat.digits 65536 (n / 2) := by
            rw [← hdig, mpnShr_digits, pow_one]
          simp only [powLoop]
          rw [hdest, hhalf, mulInpl_ofInt]
          split
          · rename_i hlast
            have hzero : n / 2 = 0 := (length_digits_eq_zero _).mp hlast
            have hpow := pow_half x n
            rw [hzero, pow_zero, one_mul] at hpow
            rw [hpow]
          · rw [ih (by omega)]
            congr 2
            rw [← pow_half x n]
            ring

/-- A power of zero is always zero here. -/
theorem powInpl_ofInt (a : ℤ) (b : ℕ) : powInpl (ofInt a) (ofInt b) = some (ofInt (if a = 0 then 0 else a ^ b)) := by
  rw [powInpl]
  simp only [dig_ofInt, neg_ofInt, length_digits_eq_zero, Int.natAbs_eq_zero, Int.natAbs_natCast]
  have hneg : ¬ (decide ((b : ℤ) < 0) = true) := by simp
  split
  · rename_i hzero
    rw [if_pos (hzero.resolve_right hneg)]
    rfl
  · rename_i hne
    rw [if_neg (fun h => hne (.inl h))]
    split
    · rename_i hb
      rw [hb, pow_zero]
      rfl
    · rw [setFromInt_eq (by decide) (by decide), powLoop_ofInt (lt_two_pow_length b), one_mul]

/-! ### Modular powers -/

theorem fmod_congr {a b c : ℤ} (h : c ∣ a - b) : a.fmod c = b.fmod c := by
  obtain ⟨k, hk⟩ := h
  rw [show a = b + c * k by omega, Int.add_mul_fmod_self_left]

theorem dvd_fmod_sub (a c : ℤ) : c ∣ a.fmod c - a := by
  rw [Int.fmod_def]
  exact ⟨-a.fdiv c, by ring⟩

theorem pow3Loop_ofInt {turns n : ℕ} (hn : n < 2 ^ turns) (hpos : n ≠ 0) (d x : ℤ) {c : ℤ} (hc : c ≠ 0) :
    pow3Loop (ofInt c) turns (ofInt d) (ofInt x) (Nat.digits 65536 n) = some (ofInt ((d * x ^ n).fmod c)) := by
  induction turns generalizing n d x with
  | zero =>
      rw [pow_zero, Nat.lt_one_iff] at hn
      exact absurd hn hpos
  | succ turns ih =>
      cases hdig : Nat.digits 65536 n with
      | nil => exact absurd (Nat.digits_eq_nil_iff_eq_zero.mp hdig) hpos
      | cons n0 rest =>
          have hhalf : mpnShr (n0 :: rest) 1 = Nat.digits 65536 (n / 2) := by
            rw [← hdig, mpnShr_digits, pow_one]
          simp only [pow3Loop, hhalf, mulInpl_ofInt, divmodInpl_ofInt _ hc, Option.map_some, Option.bind_eq_bind]
          have hdest : (if n0 &&& 1 ≠ 0 then some (ofInt ((d * x).fmod c)) else some (ofInt d)) =
              some (ofInt (if n % 2 = 1 then (d * x).fmod c else d)) := by
            by_cases hodd : n % 2 = 1
            · rw [if_pos ((head_odd hdig).mpr hodd), if_pos hodd]
            · rw [if_neg (fun h => hodd ((head_odd hdig).mp h)), if_neg hodd]
          rw [hdest, Option.bind_some]
          split
          · rename_i hlast
            have hone : n = 1 := by
              have := (length_digits_eq_zero _).mp hlast
              omega
            rw [hone, if_pos rfl, pow_one]
            rfl
          · rename_i hmore
            rw [Option.bind_some, ih (by omega) (fun h => hmore ((length_digits_eq_zero _).mpr h))]
            congr 2
            apply fmod_congr
            -- both factors are only known up to multiples of the modulus
            have hx := (Int.ModEq.pow (n / 2) ((Int.modEq_iff_dvd.mpr (dvd_fmod_sub (x * x) c)).symm))
            have hd : (if n % 2 = 1 then (d * x).fmod c else d) ≡ d * (if n % 2 = 1 then x else 1) [ZMOD c] := by
              split
              · exact (Int.modEq_iff_dvd.mpr (dvd_fmod_sub (d * x) c)).symm
              · rw [mul_one]
            have hprod := (hd.mul hx).symm
            rw [mul_assoc, mul_comm (if n % 2 = 1 then x else 1), pow_half] at hprod
            exact Int.modEq_iff_dvd.mp hprod

/-- `pow(a, b, c)`, as long as neither the exponent nor the modulus is zero. -/
theorem pow3Inpl_ofInt (a : ℤ) {b : ℕ} (hb : b ≠ 0) {c : ℤ} (hc : c ≠ 0) :
    pow3Inpl (ofInt a) (ofInt b) (ofInt c) = some (ofInt ((a ^ b).fmod c)) := by
  rw [pow3Inpl]
  have hneg : ¬ (ofInt b).neg = true := by simp
  split
  · rename_i hsimple
    have hzero : (a ^ b).fmod c = 0 := by
      rcases hsimple with ha | hb' | hone
      · rw [dig_ofInt, length_digits_eq_zero, Int.natAbs_eq_zero] at ha
        rw [ha, zero_pow hb, Int.zero_fmod]
      · exact absurd hb' hneg
      · rw [dig_ofInt] at hone
        have habs : c.natAbs = 1 := by
          rw [← Nat.ofDigits_digits 65536 c.natAbs, hone, Nat.ofDigits_singleton]
        have hdvd : c ∣ a ^ b - 0 := by
          rcases Int.natAbs_eq_iff.mp habs with rfl | rfl
          · exact one_dvd _
          · exact ⟨-(a ^ b), by push_cast; ring⟩
        rw [fmod_congr hdvd, Int.zero_fmod]
    rw [hzero]
    rfl
  · rw [setFromInt_eq (by decide) (by decide), dig_ofInt b, Int.natAbs_natCast,
      pow3Loop_ofInt (lt_two_pow_length b) hb 1 a hc,
      one_mul]

/-! ### Machine words -/

theorem asIntLoop_eq {dig : List ℕ} (hdig : Digits dig) {val : ℕ} (hval : val < 2147483648) :
    asIntLoop dig val =
      if val * 65536 ^ dig.length + Nat.ofDigits 65536 dig.reverse < 2147483648 then
        some (val * 65536 ^ dig.length + Nat.ofDigits 65536 dig.reverse) else none := by
  induction dig generalizing val with
  | nil => simp [asIntLoop, hval]
  | cons d dig ih =>
      have hd := hdig.head
      rw [asIntLoop]
      have hsum : val * 65536 ^ (d :: dig).length + Nat.ofDigits 65536 (d :: dig).reverse =
          (val * 65536 + d) * 65536 ^ dig.length + Nat.ofDigits 65536 dig.reverse := by
        rw [List.reverse_cons, ofDigits_concat, List.length_reverse, List.length_cons, pow_succ]
        ring
      rw [hsum]
      split
      · have hbig : 2147483648 ≤ (val * 65536 + d) * 65536 ^ dig.length := by
          calc 2147483648 ≤ val * 65536 + d := by omega
            _ = (val * 65536 + d) * 1 := (Nat.mul_one _).symm
            _ ≤ (val * 65536 + d) * 65536 ^ dig.length := Nat.mul_le_mul_left _ (Nat.one_le_pow _ _ (by decide))
        rw [if_neg (by omega)]
      · have hor : dbl (val <<< 16) ||| d = val * 65536 + d := by
          rw [Nat.shiftLeft_eq, dbl_eq (by omega), or_eq_add hd]
        rw [hor, ih hdig.tail (by omega)]

theorem asIntChecked_ofInt (a : ℤ) : asIntChecked (ofInt a) = if a.natAbs < 2147483648 then some a else none := by
  rw [asIntChecked, dig_ofInt, asIntLoop_eq (digits_digits _).reverse (by decide), List.reverse_reverse, Nat.zero_mul,
    Nat.zero_add, Nat.ofDigits_digits, neg_ofInt]
  by_cases hfits : a.natAbs < 2147483648
  · rw [if_pos hfits, if_pos hfits, Option.map_some]
    congr 1
    by_cases hneg : a < 0
    · rw [if_pos (decide_eq_true hneg), signed_eq (by omega) (by omega)]
      omega
    · rw [if_neg (by simpa using hneg), signed_eq (by omega) (by omega)]
      omega
  · rw [if_neg hfits, if_neg hfits, Option.map_none]

end CalSci.Mpz
