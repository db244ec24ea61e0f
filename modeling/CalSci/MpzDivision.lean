import CalSci.MpzShifts
import Mathlib.Data.Nat.Bitwise
import Mathlib.Tactic.LinearCombination

/-! Long division. The denominator is shifted until its highest bit is set; then each digit of the quotient is estimated
from the leading digits, which is never too small, and corrected by adding the denominator back. -/

namespace CalSci.Mpz

open DigitLists

/-! ### Normalisation -/

theorem and_msb_eq_zero_iff {d : ℕ} (hd : d < 65536) : d &&& 32768 = 0 ↔ d < 32768 := by
  have h := Nat.and_two_pow d 15
  rw [show (2 : ℕ) ^ 15 = 32768 by rfl] at h
  rw [h, Nat.testBit_eq_decide_div_mod_eq, show (2 : ℕ) ^ 15 = 32768 by rfl]
  by_cases hone : d / 32768 % 2 = 1 <;> simp [hone] <;> omega

theorem normShift_spec {turns d : ℕ} (hd : d < 65536) (hturns : 32768 ≤ d * 2 ^ turns) :
    normShift (turns + 1) d ≤ turns ∧ 32768 ≤ d * 2 ^ normShift (turns + 1) d ∧
      d * 2 ^ normShift (turns + 1) d < 65536 := by
  induction turns generalizing d with
  | zero =>
      rw [Nat.pow_zero, Nat.mul_one] at hturns
      have hset : ¬ (d &&& 32768 = 0) := by
        rw [and_msb_eq_zero_iff hd]
        omega
      rw [normShift, if_neg hset]
      omega
  | succ turns ih =>
      rw [normShift]
      split
      · rename_i hzero
        have hlow := (and_msb_eq_zero_iff hd).mp hzero
        have hnext : d <<< 1 % 65536 = d * 2 := by
          rw [Nat.shiftLeft_eq]
          omega
        obtain ⟨hle, hmin, hmax⟩ := ih (d := d * 2) (by omega) (by rw [pow_succ] at hturns; linarith)
        rw [hnext]
        refine ⟨by omega, ?_, ?_⟩
        · rw [pow_succ]
          linarith
        · rw [pow_succ]
          linarith
      · rename_i hset
        rw [and_msb_eq_zero_iff hd] at hset
        omega

theorem normShift_digit {d : ℕ} (hpos : 0 < d) (hd : d < 65536) :
    normShift 16 d ≤ 15 ∧ 32768 ≤ d * 2 ^ normShift 16 d ∧ d * 2 ^ normShift 16 d < 65536 :=
  normShift_spec hd (by omega)

section Shifted

variable {shift : ℕ} (hshift : shift ≤ 15)

include hshift in
/-- A digit as it is after normalisation, with what comes up from the digit below. -/
theorem norm_eq {d c : ℕ} (hd : d < 65536) (hcarry : c < 2 ^ shift) :
    dbl (d <<< shift) ||| c = d * 2 ^ shift + c := by
  have hpow : 2 ^ shift ≤ 32768 := Nat.pow_le_pow_right (n := 2) (j := 15) (by decide) hshift
  have hlt : d * 2 ^ shift < 4294967296 := by nlinarith
  rw [Nat.shiftLeft_eq, dbl_eq hlt, ← Nat.shiftLeft_eq, ← Nat.shiftLeft_add_eq_or_of_lt hcarry, Nat.shiftLeft_eq]

include hshift in
theorem norm_carry {d carry : ℕ} (hd : d < 65536) (hcarry : carry < 2 ^ shift) :
    (d * 2 ^ shift + carry) / 65536 = d >>> (16 - shift) % 65536 ∧ d >>> (16 - shift) % 65536 < 2 ^ shift := by
  rw [Nat.shiftRight_eq_div_pow]
  interval_cases shift <;> simp only [Nat.reduceSub, Nat.reducePow] at hcarry ⊢ <;> omega

include hshift in
theorem shiftNum_cons {d carry : ℕ} (hd : d < 65536) (hcarry : carry < 2 ^ shift) (l : List ℕ) :
    shiftNum shift (d :: l) carry =
      (d * 2 ^ shift + carry) % 65536 :: shiftNum shift l ((d * 2 ^ shift + carry) / 65536) := by
  rw [shiftNum, (norm_carry hshift hd hcarry).1, ← Nat.shiftLeft_add_eq_or_of_lt hcarry, Nat.shiftLeft_eq]

include hshift in
theorem shiftNum_spec {l : List ℕ} (hl : Digits l) {c : ℕ} (hcarry : c < 2 ^ shift) :
    (shiftNum shift l c).length = l.length ∧ Digits (shiftNum shift l c) ∧ ∃ out,
      Nat.ofDigits 65536 (shiftNum shift l c) + 65536 ^ l.length * out = Nat.ofDigits 65536 l * 2 ^ shift + c := by
  induction l generalizing c with
  | nil => exact ⟨rfl, digits_nil, c, by simp [shiftNum]⟩
  | cons d l ih =>
      obtain ⟨hnext, hlt⟩ := norm_carry hshift hl.head hcarry
      obtain ⟨hlen, hdig, out, hval⟩ := ih hl.tail (c := (d * 2 ^ shift + c) / 65536) (hnext ▸ hlt)
      rw [shiftNum_cons hshift hl.head hcarry]
      refine ⟨congrArg (· + 1) hlen, hdig.cons (Nat.mod_lt _ (by decide)), out, ?_⟩
      simp only [Nat.ofDigits_cons, List.length_cons, pow_succ]
      have := Nat.div_add_mod (d * 2 ^ shift + c) 65536
      linarith

include hshift in
/-- With room above it, a shifted number keeps its value. -/
theorem ofDigits_shiftNum {l : List ℕ} (hl : Digits l) (hroom : Nat.ofDigits 65536 l * 2 ^ shift < 65536 ^ l.length) :
    Nat.ofDigits 65536 (shiftNum shift l 0) = Nat.ofDigits 65536 l * 2 ^ shift := by
  obtain ⟨-, -, out, hval⟩ := shiftNum_spec hshift hl (c := 0) (by positivity)
  have hout : out = 0 := by
    by_contra hne
    have : 65536 ^ l.length * 1 ≤ 65536 ^ l.length * out := Nat.mul_le_mul_left _ (by omega)
    omega
  rw [hout] at hval
  omega

/-! ### The inner loops -/

include hshift in
theorem subtractQuo_spec {quo : ℕ} (hquo : quo ≤ 65537) {num den : List ℕ} (hnum : Digits num) (hden : Digits den)
    (hlength : num.length = den.length) {p : ℕ} (hnorm : p / 65536 < 2 ^ shift) {c : ℤ}
    (hlow : -65538 ≤ c) (hhigh : c ≤ 0) :
    (subtractQuo shift quo num den p c).1.length = num.length ∧
      Digits (subtractQuo shift quo num den p c).1 ∧
      -65538 ≤ (subtractQuo shift quo num den p c).2 ∧ (subtractQuo shift quo num den p c).2 ≤ 0 ∧
      (Nat.ofDigits 65536 (subtractQuo shift quo num den p c).1 : ℕ) +
          65536 ^ num.length * (subtractQuo shift quo num den p c).2 =
        (Nat.ofDigits 65536 num : ℕ) + c -
          quo * (Nat.ofDigits 65536 (shiftNum shift den (p / 65536)) : ℕ) := by
  induction num generalizing den p c with
  | nil =>
      rw [List.eq_nil_of_length_eq_zero hlength.symm]
      refine ⟨rfl, digits_nil, hlow, hhigh, ?_⟩
      simp [subtractQuo, shiftNum]
  | cons n num ih =>
      cases den with
      | nil => simp at hlength
      | cons d den =>
          have hn := hnum.head
          have hd := hden.head
          obtain ⟨hnext, hlt⟩ := norm_carry hshift hd hnorm
          generalize he : d * 2 ^ shift + p / 65536 = e at hnext
          have hx : quo * (e % 65536) ≤ 65537 * 65535 := Nat.mul_le_mul hquo (by omega)
          generalize hxe : quo * (e % 65536) = x at hx
          obtain ⟨hlen, hdig, hlow', hhigh', hval⟩ := ih (p := e)
            (c := c / 65536 - (x / 65536 : ℕ) + (c % 65536 + n - (x % 65536 : ℕ)) / 65536) hnum.tail
            hden.tail (by simpa using hlength) (hnext ▸ hlt) (by omega) (by omega)
          simp only [subtractQuo]
          rw [norm_eq hshift hd hnorm, he, hxe, dbl_eq (n := x) (by omega),
            signed_eq (n := c % 65536 + n - (x % 65536 : ℕ)) (by omega) (by omega),
            signed_eq (by omega) (by omega)]
          refine ⟨congrArg (· + 1) hlen, hdig.cons (by omega), hlow', hhigh', ?_⟩
          rw [shiftNum_cons hshift hd hnorm, he]
          simp only [Nat.ofDigits_cons, List.length_cons, pow_succ]
          push_cast at hval ⊢
          have hdigit : (((c % 65536 + n - x % 65536) % 65536).toNat : ℤ) =
              (c % 65536 + n - x % 65536) % 65536 := Int.toNat_of_nonneg (by omega)
          have hb := Int.mul_ediv_add_emod c 65536
          have hl := Int.mul_ediv_add_emod (c % 65536 + n - x % 65536) 65536
          have hxd := Int.mul_ediv_add_emod (x : ℤ) 65536
          have hxv : (x : ℤ) = quo * (e % 65536) := by rw [← hxe]; push_cast; ring
          rw [hdigit]
          linear_combination 65536 * hval + hl + hb - hxd - hxv

include hshift in
theorem addDen_spec {num den : List ℕ} (hnum : Digits num) (hden : Digits den) (hlength : num.length = den.length)
    {p : ℕ} (hnorm : p / 65536 < 2 ^ shift) {c : ℕ} (hcarry : c ≤ 1) :
    (addDen shift num den p c).1.length = num.length ∧ Digits (addDen shift num den p c).1 ∧
      (addDen shift num den p c).2 ≤ 1 ∧
      Nat.ofDigits 65536 (addDen shift num den p c).1 +
          65536 ^ num.length * (addDen shift num den p c).2 =
        Nat.ofDigits 65536 num + c + Nat.ofDigits 65536 (shiftNum shift den (p / 65536)) := by
  induction num generalizing den p c with
  | nil =>
      rw [List.eq_nil_of_length_eq_zero hlength.symm]
      refine ⟨rfl, digits_nil, hcarry, ?_⟩
      simp [addDen, shiftNum]
  | cons n num ih =>
      cases den with
      | nil => simp at hlength
      | cons d den =>
          have hn := hnum.head
          have hd := hden.head
          obtain ⟨hnext, hlt⟩ := norm_carry hshift hd hnorm
          generalize he : d * 2 ^ shift + p / 65536 = e at hnext
          obtain ⟨hlen, hdig, hout, hval⟩ := ih (p := e) (c := (c + (n + e % 65536)) / 65536) hnum.tail
            hden.tail (by simpa using hlength) (hnext ▸ hlt) (by omega)
          simp only [addDen]
          rw [norm_eq hshift hd hnorm, he, dbl_eq (n := c + (n + e % 65536)) (by omega)]
          refine ⟨congrArg (· + 1) hlen, hdig.cons (Nat.mod_lt _ (by decide)), hout, ?_⟩
          rw [shiftNum_cons hshift hd hnorm, he]
          simp only [Nat.ofDigits_cons, List.length_cons, pow_succ]
          have := Nat.div_add_mod (c + (n + e % 65536)) 65536
          linarith

/-! ### One digit of the quotient -/

/-- A borrow means that too much was subtracted. -/
theorem borrow_neg {v p borrow t d : ℤ} (hv : 0 ≤ v) (hvp : v < p) (hd : d < p) (ht : v + p * borrow = t) (htd : t < d)
    (hne : borrow ≠ 0) : borrow < 0 ∧ t < 0 := by
  have hneg : borrow < 0 := by
    by_contra hnot
    have hpos : 1 ≤ borrow := by omega
    nlinarith
  refine ⟨hneg, ?_⟩
  have : borrow ≤ -1 := by omega
  nlinarith

include hshift in
/-- Adding back ends, with the quotient and the remainder of `high` by the normalised denominator. -/
theorem addBack_spec {den : List ℕ} (hden : Digits den) {m t : ℕ} {num : List ℕ} {c : ℤ} (hnum : Digits num)
    (hlength : num.length = den.length) (hlow : -65538 ≤ c)
    (hval : (Nat.ofDigits 65536 num : ℕ) + 65536 ^ den.length * c =
      (m : ℤ) - t * (Nat.ofDigits 65536 (shiftNum shift den 0) : ℕ))
    (hover : (m : ℤ) - t * (Nat.ofDigits 65536 (shiftNum shift den 0) : ℕ) <
      (Nat.ofDigits 65536 (shiftNum shift den 0) : ℕ)) :
    ∃ q rem, addBack shift den t num c = some (q, rem) ∧ Digits rem ∧ rem.length = den.length ∧
      m = q * Nat.ofDigits 65536 (shiftNum shift den 0) + Nat.ofDigits 65536 rem ∧
      Nat.ofDigits 65536 rem < Nat.ofDigits 65536 (shiftNum shift den 0) := by
  have hzero : 0 / 65536 < 2 ^ shift := by
    rw [Nat.zero_div]
    positivity
  obtain ⟨hdlen, hddig, -⟩ := shiftNum_spec hshift hden (c := 0) (by positivity)
  have hdlt := hddig.lt
  rw [hdlen] at hdlt
  generalize hd : Nat.ofDigits 65536 (shiftNum shift den 0) = d at hval hover hdlt ⊢
  have hd' : (d : ℤ) < 65536 ^ den.length := by exact_mod_cast hdlt
  induction t generalizing num c with
  | zero =>
      have hnlt := hnum.lt
      rw [hlength] at hnlt
      generalize hv : Nat.ofDigits 65536 num = v at hval hnlt
      have hv' : (v : ℤ) < 65536 ^ den.length := by exact_mod_cast hnlt
      have hborrow : c = 0 := by
        by_contra hne
        have := (borrow_neg (Int.natCast_nonneg v) hv' hd' hval hover hne).2
        omega
      rw [hborrow] at hval
      refine ⟨0, num, by rw [addBack, if_pos hborrow], hnum, hlength, ?_, ?_⟩ <;> omega
  | succ t ih =>
      have hnlt := hnum.lt
      rw [hlength] at hnlt
      rw [addBack]
      split
      · rename_i hborrow
        refine ⟨t + 1, num, rfl, hnum, hlength, ?_, ?_⟩
        · rw [hborrow, Int.mul_zero, Int.add_zero] at hval
          generalize Nat.ofDigits 65536 num = v at hval
          zify
          push_cast at hval
          linarith
        · rw [hborrow, Int.mul_zero, Int.add_zero] at hval
          rw [← hval] at hover
          exact_mod_cast hover
      · rename_i hne
        obtain ⟨hlen, hdig, hout, hsum⟩ := addDen_spec hshift hnum hden hlength hzero (Nat.zero_le 1)
        rw [Nat.zero_div, hd, hlength, Nat.add_zero] at hsum
        generalize hv : Nat.ofDigits 65536 num = v at hval hnlt hsum
        have hv' : (v : ℤ) < 65536 ^ den.length := by exact_mod_cast hnlt
        obtain ⟨hneg, htoo⟩ := borrow_neg (Int.natCast_nonneg v) hv' hd' hval hover hne
        dsimp only
        rw [signed_eq (by omega) (by omega)]
        apply ih hdig (hlen.trans hlength) (by omega)
        · generalize Nat.ofDigits 65536 (addDen shift num den 0 0).1 = w at hsum
          zify at hsum
          push_cast at hval
          linarith
        · push_cast at htoo
          linarith

include hshift in
/-- The leading digit of the normalised denominator. -/
theorem leadDenDigit_eq {den : List ℕ} (hden : Digits den) (hne : den ≠ []) :
    leadDenDigit den shift = Nat.ofDigits 65536 den * 2 ^ shift / 65536 ^ (den.length - 1) := by
  obtain ⟨init, d, rfl⟩ := (List.eq_nil_or_concat' den).resolve_left hne
  have hd : d < 65536 := hden d (by simp)
  have hsum : Nat.ofDigits 65536 (init ++ [d]) * 2 ^ shift / 65536 ^ init.length =
      d * 2 ^ shift + Nat.ofDigits 65536 init * 2 ^ shift / 65536 ^ init.length := by
    rw [ofDigits_concat, Nat.add_mul, Nat.mul_assoc, Nat.add_mul_div_left _ _ (by positivity), Nat.add_comm]
  simp only [leadDenDigit, List.length_append, List.length_singleton, Nat.add_sub_cancel]
  rw [hsum]
  rcases List.eq_nil_or_concat' init with rfl | ⟨rest, e, rfl⟩
  · have hone := norm_eq hshift hd (c := 0) (by positivity)
    simpa using hone
  · have he : e < 65536 := hden e (by simp)
    have hpow : 65536 ^ (rest ++ [e]).length = 65536 ^ rest.length * 2 ^ (16 - shift) * 2 ^ shift := by
      rw [List.length_append, List.length_singleton, pow_succ, Nat.mul_assoc, ← pow_add, Nat.sub_add_cancel (by omega)]
      rfl
    have hrest : Nat.ofDigits 65536 rest < 65536 ^ rest.length := Digits.lt fun c hc => hden c (by simp [hc])
    have hlow : Nat.ofDigits 65536 (rest ++ [e]) * 2 ^ shift / 65536 ^ (rest ++ [e]).length = e / 2 ^ (16 - shift) := by
      rw [hpow, Nat.mul_div_mul_right _ _ (by positivity), ← Nat.div_div_eq_div_mul, ofDigits_concat,
        Nat.add_mul_div_left _ _ (by positivity), Nat.div_eq_of_lt hrest, Nat.zero_add]
    have hcarry : e / 2 ^ (16 - shift) < 2 ^ shift := by
      rw [Nat.div_lt_iff_lt_mul (by positivity), ← pow_add, Nat.add_sub_cancel' (by omega)]
      exact he
    rw [hlow, ← norm_eq hshift hd hcarry, if_pos (by simp), Nat.shiftRight_eq_div_pow]
    congr 1
    · simp
    · simp

/-- One turn of the main loop, on the digits it reads. -/
theorem divLoop_succ (den low front : List ℕ) (next top : ℕ) (hlength : front.length + 1 = den.length) :
    divLoop shift den (low.length + 1) (low ++ (front ++ [next]) ++ [top]) =
      (addBack shift den ((dbl (top <<< 16) ||| next) / leadDenDigit den shift)
        (subtractQuo shift ((dbl (top <<< 16) ||| next) / leadDenDigit den shift) (front ++ [next]) den 0 0).1
        (signed ((subtractQuo shift ((dbl (top <<< 16) ||| next) / leadDenDigit den shift) (front ++ [next]) den 0 0).2 +
          top))).bind fun r => (divLoop shift den low.length (low ++ r.2)).bind fun s => some (s.1, s.2 ++ [r.1 % 65536]) := by
  have hwindow : ((low ++ (front ++ [next]) ++ [top]).drop low.length).take den.length = front ++ [next] := by
    rw [List.append_assoc, List.drop_left, ← hlength]
    exact List.take_left' (by simp)
  have htop : (low ++ (front ++ [next]) ++ [top]).getD (low.length + den.length) 0 = top := by
    rw [← hlength, List.getD_append_right _ _ _ _ (by simp)]
    simp
  have hnext : (low ++ (front ++ [next]) ++ [top]).getD (low.length + den.length - 1) 0 = next := by
    rw [← hlength, List.append_assoc, List.append_assoc, List.getD_append_right _ _ _ _ (by simp),
      List.getD_append_right _ _ _ _ (by simp)]
    simp
  have htake : (low ++ (front ++ [next]) ++ [top]).take low.length = low := by
    rw [List.append_assoc]
    exact List.take_left' rfl
  rw [divLoop]
  simp only [hwindow, htop, hnext, htake, bind]
  rfl

include hshift in
/-- The digits still to be divided, of which the highest ones are below the denominator: the loop finds quotient and
remainder. -/
theorem divLoop_spec {den : List ℕ} (hden : Digits den) (hne : den ≠ []) {d : ℕ}
    (hd : Nat.ofDigits 65536 (shiftNum shift den 0) = d) (hd' : Nat.ofDigits 65536 den * 2 ^ shift = d)
    (hlead : 32768 ≤ d / 65536 ^ (den.length - 1)) {turns : ℕ} {z : List ℕ} (hnum : Digits z)
    (hlength : z.length = turns + den.length) (hbelow : Nat.ofDigits 65536 (z.drop turns) < d) :
    ∃ rem quo, divLoop shift den turns z = some (rem, quo) ∧ Digits rem ∧ Digits quo ∧ quo.length = turns ∧
      Nat.ofDigits 65536 z = Nat.ofDigits 65536 quo * d + Nat.ofDigits 65536 rem ∧ Nat.ofDigits 65536 rem < d := by
  induction turns generalizing z with
  | zero =>
      rw [List.drop_zero] at hbelow
      exact ⟨z, [], rfl, hnum, digits_nil, rfl, by simp, hbelow⟩
  | succ turns ih =>
      obtain ⟨low, front, next, top, rfl, hlow, hfront⟩ : ∃ low front next top,
          z = low ++ (front ++ [next]) ++ [top] ∧ low.length = turns ∧ front.length + 1 = den.length := by
        have hpos : 0 < den.length := List.length_pos_iff.mpr hne
        obtain ⟨init, top, rfl⟩ := (List.eq_nil_or_concat' z).resolve_left (by rintro rfl; simp at hlength; omega)
        rw [List.length_append, List.length_singleton] at hlength
        obtain ⟨front, next, hsplit⟩ := (List.eq_nil_or_concat' (init.drop turns)).resolve_left (by
          rw [List.drop_eq_nil_iff]
          omega)
        refine ⟨init.take turns, front, next, top, ?_, ?_, ?_⟩
        · rw [← hsplit, List.take_append_drop]
        · rw [List.length_take]
          omega
        · have := congrArg List.length hsplit
          rw [List.length_drop, List.length_append, List.length_singleton] at this
          omega
      have hlowDigits : Digits low := fun c hc => hnum c (by simp [hc])
      have hwindow : Digits (front ++ [next]) := fun c hc => hnum c (by
        rw [List.mem_append, List.mem_append]
        exact .inl (.inr hc))
      have hnext : next < 65536 := hwindow next (by simp)
      have htop : top < 65536 := hnum top (by simp)
      have hwlen : (front ++ [next]).length = den.length := by simpa using hfront
      -- the digits of this turn are below the denominator times the base
      have hhigh : Nat.ofDigits 65536 (front ++ [next]) + 65536 ^ den.length * top < d * 65536 := by
        rw [← hwlen, ← ofDigits_concat]
        apply ofDigits_lt_of_drop_one (by decide) (fun c hc => hnum c (by simp [List.mem_append] at hc ⊢; tauto))
        rwa [List.append_assoc, ← hlow, List.drop_length_add_append] at hbelow
      generalize hh : Nat.ofDigits 65536 (front ++ [next]) + 65536 ^ den.length * top = high at hhigh
      have hestimate : (dbl (top <<< 16) ||| next) / leadDenDigit den shift =
          high / 65536 ^ (den.length - 1) / (d / 65536 ^ (den.length - 1)) := by
        have hf : Nat.ofDigits 65536 front < 65536 ^ front.length := Digits.lt fun c hc => hwindow c (by simp [hc])
        have hdig : high / 65536 ^ front.length = next + 65536 * top := by
          rw [← hh, ofDigits_concat, ← hfront, pow_succ, Nat.mul_assoc, Nat.add_assoc, ← Nat.mul_add,
            Nat.add_mul_div_left _ _ (by positivity), Nat.div_eq_of_lt hf, Nat.zero_add]
        rw [leadDenDigit_eq hshift hden hne, hd', Nat.shiftLeft_eq, dbl_eq (by omega), or_eq_add hnext, ← hfront,
          Nat.add_sub_cancel, hdig]
        congr 1
        ring
      rw [← hlow, divLoop_succ _ _ _ _ _ hfront, hestimate]
      generalize hq : high / 65536 ^ (den.length - 1) / (d / 65536 ^ (den.length - 1)) = quo
      have hquo : quo ≤ 65537 := by
        rw [← hq]
        exact estimate_le (by positivity) (by omega) hhigh
      have hpos : 0 < d := by
        by_contra hzero
        rw [Nat.eq_zero_of_not_pos hzero, Nat.zero_div] at hlead
        omega
      -- the estimate is not too small
      have hover : high < quo * d + d := by
        have hle : high / d ≤ quo := by
          rw [← hq]
          exact div_le_estimate (by omega)
        calc high < d * (high / d + 1) := Nat.lt_mul_div_succ high hpos
          _ ≤ d * (quo + 1) := Nat.mul_le_mul_left d (by omega)
          _ = quo * d + d := by ring
      obtain ⟨hslen, hsdig, hslow, hshigh, hsval⟩ := subtractQuo_spec hshift hquo hwindow hden hwlen (p := 0)
        (by rw [Nat.zero_div]; positivity) (by omega) (le_refl 0)
      rw [signed_eq (by omega) (by omega)]
      obtain ⟨q, rem, hback, hrem, hremlen, hdivmod, hremlt⟩ := addBack_spec hshift hden (m := high) (t := quo) hsdig
        (hslen.trans hwlen) (c := (subtractQuo shift quo (front ++ [next]) den 0 0).2 + top) (by omega) (by
          rw [Nat.zero_div, hwlen] at hsval
          rw [← hh, Int.mul_add, ← Int.add_assoc, hsval]
          push_cast
          ring) (by
          rw [hd]
          zify at hover
          linarith)
      rw [hd] at hdivmod hremlt
      have hqlt : q < 65536 := by
        by_contra hge
        have : 65536 * d ≤ q * d := Nat.mul_le_mul_right d (by omega)
        omega
      have hnext' : Nat.ofDigits 65536 ((low ++ rem).drop turns) < d := by
        rwa [← hlow, List.drop_left]
      obtain ⟨final, quo', hloop, hfinal, hquo', hquolen, hval, hlt⟩ := ih (z := low ++ rem)
        (fun c hc => (List.mem_append.mp hc).elim (hlowDigits c) (hrem c))
        (by rw [List.length_append, hlow, hremlen]) hnext'
      refine ⟨final, quo' ++ [q], ?_, hfinal, ?_,
        by rw [List.length_append, hquolen, List.length_singleton, hlow], ?_, hlt⟩
      · rw [hback, Option.bind_some, hlow, hloop, Option.bind_some, Nat.mod_eq_of_lt hqlt]
      · intro c hc
        rcases List.mem_append.mp hc with hc | hc
        · exact hquo' c hc
        · rw [List.mem_singleton.mp hc]
          exact hqlt
      · rw [Nat.ofDigits_append] at hval
        rw [List.append_assoc, Nat.ofDigits_append, ofDigits_concat, hwlen, hh, hdivmod,
          ofDigits_concat, hquolen, ← hlow]
        rw [hlow] at hval ⊢
        linarith

/-! ### Back to the original scale -/

include hshift in
theorem unshift_digit {n m : ℕ} (hn : n < 65536) :
    (n >>> shift ||| m % 2 ^ shift * 2 ^ (16 - shift)) % 65536 + 65536 * (m / 2 ^ shift) =
        (n + 65536 * m) / 2 ^ shift ∧
      n <<< (16 - shift) % 65536 = (n + 65536 * m) % 2 ^ shift * 2 ^ (16 - shift) := by
  have hlow : n / 2 ^ shift < 2 ^ (16 - shift) := by
    rw [Nat.div_lt_iff_lt_mul (by positivity), ← pow_add, Nat.sub_add_cancel (by omega)]
    exact hn
  have hor : n >>> shift ||| m % 2 ^ shift * 2 ^ (16 - shift) =
      n / 2 ^ shift + m % 2 ^ shift * 2 ^ (16 - shift) := by
    rw [Nat.or_comm, ← Nat.shiftLeft_eq, Nat.shiftRight_eq_div_pow, ← Nat.shiftLeft_add_eq_or_of_lt hlow, Nat.add_comm]
  rw [hor, Nat.shiftLeft_eq]
  interval_cases shift <;> simp only [Nat.reduceSub, Nat.reducePow] <;> omega

include hshift in
theorem unshiftNum_spec {num : List ℕ} (hnum : Digits num) :
    Digits (unshiftNum shift num).1 ∧ Nat.ofDigits 65536 (unshiftNum shift num).1 = Nat.ofDigits 65536 num / 2 ^ shift ∧
      (unshiftNum shift num).2 = Nat.ofDigits 65536 num % 2 ^ shift * 2 ^ (16 - shift) := by
  induction num with
  | nil => exact ⟨digits_nil, by simp [unshiftNum], by simp [unshiftNum]⟩
  | cons n num ih =>
      obtain ⟨hdig, hval, hcarry⟩ := ih hnum.tail
      obtain ⟨hdigit, hnext⟩ := unshift_digit hshift (m := Nat.ofDigits 65536 num) hnum.head
      have hstep : unshiftNum shift (n :: num) =
          ((n >>> shift ||| (unshiftNum shift num).2) % 65536 :: (unshiftNum shift num).1,
            n <<< (16 - shift) % 65536) := rfl
      rw [hstep, hcarry]
      refine ⟨hdig.cons (Nat.mod_lt _ (by decide)), ?_, ?_⟩
      · rw [Nat.ofDigits_cons, hval, Nat.ofDigits_cons]
        exact hdigit
      · rw [Nat.ofDigits_cons]
        exact hnext

end Shifted

/-! ### The whole division -/

/-- The denominator after normalisation: it still has as many digits, and its highest bit is set. -/
theorem normalised {n lead : ℕ} {init : List ℕ} (hden : Nat.digits 65536 n = init ++ [lead]) :
    normShift 16 lead ≤ 15 ∧ n * 2 ^ normShift 16 lead < 65536 ^ (init.length + 1) ∧
      65536 ^ init.length * 32768 ≤ n * 2 ^ normShift 16 lead ∧
      65536 ^ init.length * 2 ^ normShift 16 lead ≤ n * 2 ^ normShift 16 lead := by
  have hdigits : Digits (init ++ [lead]) := hden ▸ digits_digits n
  have hval : n = Nat.ofDigits 65536 init + 65536 ^ init.length * lead := by
    rw [← ofDigits_concat, ← hden, Nat.ofDigits_digits]
  have hinit : Nat.ofDigits 65536 init < 65536 ^ init.length := Digits.lt fun d hd => hdigits d (by simp [hd])
  have hlead : lead < 65536 := hdigits lead (by simp)
  have hpos : 0 < lead := by
    have hn : n ≠ 0 := by
      rintro rfl
      simp at hden
    have hlast := Nat.getLast_digit_ne_zero 65536 hn
    simp only [hden, List.getLast_append_singleton] at hlast
    omega
  obtain ⟨hshift, hmin, hmax⟩ := normShift_digit hpos hlead
  generalize normShift 16 lead = shift at hshift hmin hmax
  have hbase : 2 ^ (16 - shift) * 2 ^ shift = 65536 := by
    rw [← pow_add, Nat.sub_add_cancel (by omega)]
    rfl
  have hroom : (lead + 1) * 2 ^ shift ≤ 65536 := by
    rw [← hbase] at hmax ⊢
    exact Nat.mul_le_mul_right _ (Nat.lt_of_mul_lt_mul_right hmax)
  refine ⟨hshift, ?_, ?_, ?_⟩
  · calc n * 2 ^ shift < (65536 ^ init.length * (lead + 1)) * 2 ^ shift := by
          apply Nat.mul_lt_mul_of_pos_right _ (by positivity)
          rw [hval, Nat.mul_add, Nat.mul_one, Nat.add_comm]
          exact Nat.add_lt_add_left hinit _
      _ = 65536 ^ init.length * ((lead + 1) * 2 ^ shift) := Nat.mul_assoc _ _ _
      _ ≤ 65536 ^ init.length * 65536 := Nat.mul_le_mul_left _ hroom
      _ = 65536 ^ (init.length + 1) := (pow_succ _ _).symm
  · calc 65536 ^ init.length * 32768 ≤ 65536 ^ init.length * (lead * 2 ^ shift) := Nat.mul_le_mul_left _ hmin
      _ = 65536 ^ init.length * lead * 2 ^ shift := (Nat.mul_assoc _ _ _).symm
      _ ≤ n * 2 ^ shift := Nat.mul_le_mul_right _ (by omega)
  · apply Nat.mul_le_mul_right
    calc 65536 ^ init.length = 65536 ^ init.length * 1 := (Nat.mul_one _).symm
      _ ≤ 65536 ^ init.length * lead := Nat.mul_le_mul_left _ hpos
      _ ≤ n := by omega

/-- The numerator has room for the shift in the digit put above it. -/
theorem shiftNum_extended {shift : ℕ} (hshift : shift ≤ 15) (m : ℕ) :
    (shiftNum shift (Nat.digits 65536 m ++ [0]) 0).length = (Nat.digits 65536 m).length + 1 ∧
      Digits (shiftNum shift (Nat.digits 65536 m ++ [0]) 0) ∧
      Nat.ofDigits 65536 (shiftNum shift (Nat.digits 65536 m ++ [0]) 0) = m * 2 ^ shift := by
  have hextended : Digits (Nat.digits 65536 m ++ [0]) := by
    intro d hd
    rcases List.mem_append.mp hd with hd | hd
    · exact digits_digits m d hd
    · rw [List.mem_singleton.mp hd]
      decide
  have hval : Nat.ofDigits 65536 (Nat.digits 65536 m ++ [0]) = m := by
    rw [ofDigits_concat, Nat.mul_zero, Nat.add_zero, Nat.ofDigits_digits]
  have hroom : m * 2 ^ shift < 65536 ^ (Nat.digits 65536 m ++ [0]).length := by
    have hpow : 2 ^ shift ≤ 65536 := Nat.pow_le_pow_right (n := 2) (j := 16) (by decide) (by omega)
    have hlt : m < 65536 ^ (Nat.digits 65536 m).length := Nat.lt_base_pow_length_digits (by decide)
    rw [List.length_append, List.length_singleton, pow_succ]
    calc m * 2 ^ shift ≤ m * 65536 := Nat.mul_le_mul_left m hpow
      _ < 65536 ^ (Nat.digits 65536 m).length * 65536 := Nat.mul_lt_mul_of_pos_right hlt (by decide)
  obtain ⟨hlength, hdigits, -⟩ := shiftNum_spec hshift hextended (c := 0) (by positivity)
  refine ⟨?_, hdigits, ?_⟩
  · rw [hlength, List.length_append, List.length_singleton]
  · rw [ofDigits_shiftNum hshift hextended (by rwa [hval]), hval]

/-- The main loop divides the shifted numerator by the shifted denominator. -/
theorem divLoop_digits {m n lead : ℕ} {init : List ℕ} (hden : Nat.digits 65536 n = init ++ [lead]) (hlt : n < m) :
    ∃ rem quo, divLoop (normShift 16 lead) (Nat.digits 65536 n)
        ((shiftNum (normShift 16 lead) (Nat.digits 65536 m ++ [0]) 0).length - (Nat.digits 65536 n).length)
        (shiftNum (normShift 16 lead) (Nat.digits 65536 m ++ [0]) 0) = some (rem, quo) ∧
      Digits rem ∧ Digits quo ∧
      m * 2 ^ normShift 16 lead = Nat.ofDigits 65536 quo * (n * 2 ^ normShift 16 lead) + Nat.ofDigits 65536 rem ∧
      Nat.ofDigits 65536 rem < n * 2 ^ normShift 16 lead := by
  obtain ⟨hshift, hroom, hbit, hpart⟩ := normalised hden
  generalize normShift 16 lead = shift at hshift hroom hbit hpart
  have hne : Nat.digits 65536 n ≠ [] := by
    rw [hden]
    simp
  have hlength : (Nat.digits 65536 n).length = init.length + 1 := by rw [hden, List.length_append, List.length_singleton]
  have hlonger := Nat.le_length_digits_le 65536 n m hlt.le
  rw [hlength] at hlonger
  obtain ⟨hnumlen, hnumdig, hnumval⟩ := shiftNum_extended hshift m
  have hdenval := ofDigits_shiftNum hshift (digits_digits n) (by rwa [Nat.ofDigits_digits, hlength])
  rw [Nat.ofDigits_digits] at hdenval
  have hturns : (shiftNum shift (Nat.digits 65536 m ++ [0]) 0).length - (Nat.digits 65536 n).length =
      (Nat.digits 65536 m).length - init.length := by omega
  -- the digit put above the numerator is less than any leading digit that is left
  have hbelow : Nat.ofDigits 65536 ((shiftNum shift (Nat.digits 65536 m ++ [0]) 0).drop
      ((Nat.digits 65536 m).length - init.length)) < n * 2 ^ shift := by
    rw [← Nat.ofDigits_div_pow_eq_ofDigits_drop _ (by decide) _ hnumdig, hnumval]
    apply Nat.div_lt_of_lt_mul
    calc m * 2 ^ shift < 65536 ^ (Nat.digits 65536 m).length * 2 ^ shift :=
          Nat.mul_lt_mul_of_pos_right (Nat.lt_base_pow_length_digits (by decide)) (by positivity)
      _ = 65536 ^ ((Nat.digits 65536 m).length - init.length) * (65536 ^ init.length * 2 ^ shift) := by
          rw [← Nat.mul_assoc, ← pow_add, Nat.sub_add_cancel (by omega)]
      _ ≤ 65536 ^ ((Nat.digits 65536 m).length - init.length) * (n * 2 ^ shift) := Nat.mul_le_mul_left _ hpart
  have hlead : 32768 ≤ n * 2 ^ shift / 65536 ^ ((Nat.digits 65536 n).length - 1) := by
    rw [hlength, Nat.add_sub_cancel, Nat.le_div_iff_mul_le (by positivity), Nat.mul_comm]
    exact hbit
  obtain ⟨rem, quo, hloop, hrem, hquo, -, hval, hremlt⟩ := divLoop_spec hshift (digits_digits n) hne hdenval
    (by rw [Nat.ofDigits_digits]) hlead hnumdig (by omega) hbelow
  rw [hnumval] at hval
  rw [hturns]
  exact ⟨rem, quo, hloop, hrem, hquo, hval, hremlt⟩

theorem mpnDiv_digits {m n : ℕ} (hn : n ≠ 0) :
    mpnDiv (Nat.digits 65536 m) (Nat.digits 65536 n) =
      some (Nat.digits 65536 (m % n), Nat.digits 65536 (m / n)) := by
  rw [mpnDiv, mpnCmp_digits]
  rcases Nat.lt_trichotomy m n with hlt | rfl | hgt
  · rw [Int.sign_eq_neg_one_of_neg (by omega), if_neg (by decide), if_pos (by decide), Nat.mod_eq_of_lt hlt,
      Nat.div_eq_of_lt hlt, Nat.digits_zero]
  · rw [Int.sub_self, Int.sign_zero, if_pos rfl, Nat.mod_self, Nat.div_self (Nat.pos_of_ne_zero hn), Nat.digits_zero]
    rfl
  · rw [Int.sign_eq_one_of_pos (by omega), if_neg (by decide), if_neg (by decide)]
    obtain ⟨init, lead, hden⟩ := (List.eq_nil_or_concat' (Nat.digits 65536 n)).resolve_left
      (Nat.digits_ne_nil_iff_ne_zero.mpr hn)
    have hlast : (Nat.digits 65536 n).getD ((Nat.digits 65536 n).length - 1) 0 = lead := by
      rw [hden, List.length_append, List.length_singleton, Nat.add_sub_cancel,
        List.getD_append_right _ _ _ _ (le_refl _)]
      simp
    obtain ⟨rem, quo, hloop, hrem, hquo, hval, hlt⟩ := divLoop_digits hden hgt
    have hscale : 0 < 2 ^ normShift 16 lead := by positivity
    have hscaled : 0 < n * 2 ^ normShift 16 lead := Nat.mul_pos (Nat.pos_of_ne_zero hn) hscale
    have hq : Nat.ofDigits 65536 quo = m / n := by
      rw [← Nat.mul_div_mul_right m n hscale, hval, Nat.add_comm, Nat.add_mul_div_right _ _ hscaled,
        Nat.div_eq_of_lt hlt, Nat.zero_add]
    have hr : Nat.ofDigits 65536 rem / 2 ^ normShift 16 lead = m % n := by
      have hmod : Nat.ofDigits 65536 rem = m % n * 2 ^ normShift 16 lead := by
        rw [← Nat.mul_mod_mul_right, hval, Nat.add_comm, Nat.add_mul_mod_self_right, Nat.mod_eq_of_lt hlt]
      rw [hmod, Nat.mul_div_cancel _ hscale]
    obtain ⟨hback, hbackval, -⟩ := unshiftNum_spec (normalised hden).1 hrem
    simp only [hlast, hloop, Option.bind_eq_bind, Option.bind_some, mpnRemoveTrailingZeros]
    rw [rdropWhile_zero_eq_digits (b := 65536) (by decide) hback, rdropWhile_zero_eq_digits (b := 65536) (by decide) hquo,
      hbackval, hr, hq]
    rfl

/-- Long division ends, and finds the quotient and the remainder, for all operands without leading zeros. -/
theorem mpnDiv_exact {num den : List ℕ} (hnum : Digits num) (hnumLast : ∀ h : num ≠ [], num.getLast h ≠ 0)
    (hden : Digits den) (hdenLast : ∀ h : den ≠ [], den.getLast h ≠ 0) (hne : den ≠ []) :
    ∃ rem quo, mpnDiv num den = some (rem, quo) ∧ Digits rem ∧ Digits quo ∧
      Nat.ofDigits 65536 num = Nat.ofDigits 65536 quo * Nat.ofDigits 65536 den + Nat.ofDigits 65536 rem ∧
      Nat.ofDigits 65536 rem < Nat.ofDigits 65536 den := by
  have hm : num = Nat.digits 65536 (Nat.ofDigits 65536 num) := eq_digits (by decide) hnum hnumLast rfl
  have hn : den = Nat.digits 65536 (Nat.ofDigits 65536 den) := eq_digits (by decide) hden hdenLast rfl
  generalize Nat.ofDigits 65536 num = m at hm ⊢
  generalize Nat.ofDigits 65536 den = n at hn ⊢
  subst hm hn
  have hpos : n ≠ 0 := Nat.digits_ne_nil_iff_ne_zero.mp hne
  refine ⟨_, _, mpnDiv_digits hpos, digits_digits _, digits_digits _, ?_, ?_⟩
  · rw [Nat.ofDigits_digits, Nat.ofDigits_digits, Nat.mul_comm]
    exact (Nat.div_add_mod m n).symm
  · rw [Nat.ofDigits_digits]
    exact Nat.mod_lt m (Nat.pos_of_ne_zero hpos)

theorem mpnDiv_exact_three_digits : ∃ rem quo, mpnDiv [0, 0, 32768] [65535, 32768] = some (rem, quo) ∧ Digits rem ∧
    Digits quo ∧ Nat.ofDigits 65536 [0, 0, 32768] =
      Nat.ofDigits 65536 quo * Nat.ofDigits 65536 [65535, 32768] + Nat.ofDigits 65536 rem ∧
    Nat.ofDigits 65536 rem < Nat.ofDigits 65536 [65535, 32768] :=
  mpnDiv_exact (by simp [Digits]) (by decide) (by simp [Digits]) (by decide) (by decide)

end CalSci.Mpz
