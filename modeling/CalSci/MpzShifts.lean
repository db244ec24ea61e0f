import CalSci.MpzDigits
import Mathlib.Tactic.IntervalCases

/-! Shifts of digits, by whole digits and by a part of one. -/

namespace CalSci.Mpz

open DigitLists

/-- A digit above another, as `|` puts them together. -/
theorem or_eq_add {d e : ℕ} (he : e < 65536) : d * 65536 ||| e = d * 65536 + e := by
  have h := Nat.shiftLeft_add_eq_or_of_lt (i := 16) he d
  rw [Nat.shiftLeft_eq] at h
  exact h.symm

/-! ### To the left -/

/-- The digit written from two neighbours is the part of the lower one that goes up, and the rest of the higher one. -/
theorem shl_digit {part high m : ℕ} (hpos : 0 < part) (hle : part ≤ 16) (hlow : m < 65536) :
    (high * 65536 + m) >>> (16 - part) % 65536 = high * 2 ^ part % 65536 + m * 2 ^ part / 65536 := by
  rw [Nat.shiftRight_eq_div_pow]
  interval_cases part <;> simp only [Nat.reduceSub, Nat.reducePow] <;> omega

theorem shlLoop_spec {part : ℕ} (hpos : 0 < part) (hle : part ≤ 16) {j : List ℕ} (hj : Digits j) :
    (shlLoop part j).2 = j.headD 0 * 65536 ∧ Digits (shlLoop part j).1 ∧
      Nat.ofDigits 65536 j * 2 ^ part = j.headD 0 * 2 ^ part % 65536 + 65536 * Nat.ofDigits 65536 (shlLoop part j).1 := by
  induction j with
  | nil => exact ⟨rfl, digits_nil, by simp [shlLoop]⟩
  | cons d j ih =>
      obtain ⟨hlast, hdig, hval⟩ := ih hj.tail
      have hd := hj.head
      have hstep : shlLoop part (d :: j) = ((j.headD 0 * 65536 + d) >>> (16 - part) % 65536 :: (shlLoop part j).1,
          d * 65536) := by
        have hshift : dbl ((j.headD 0 * 65536 + d) <<< 16) = d * 65536 := by
          rw [Nat.shiftLeft_eq, dbl]
          omega
        rw [shlLoop, List.foldr_cons, ← shlLoop, hlast, or_eq_add hd, hshift]
      rw [hstep]
      refine ⟨rfl, hdig.cons (Nat.mod_lt _ (by decide)), ?_⟩
      rw [shl_digit hpos hle hd, Nat.ofDigits_cons, Nat.ofDigits_cons, List.headD_cons]
      have := Nat.div_add_mod (d * 2 ^ part) 65536
      linarith

theorem mpnShl_digits {n shift : ℕ} (hshift : 0 < shift) :
    mpnShl (Nat.digits 65536 n) shift = Nat.digits 65536 (n * 2 ^ shift) := by
  simp only [mpnShl, mpnRemoveTrailingZeros]
  generalize hpart : (if shift % 16 = 0 then 16 else shift % 16) = part
  have hbounds : 0 < part ∧ part ≤ 16 ∧ shift = 16 * ((shift + 16 - 1) / 16 - 1) + part := by
    rw [← hpart]
    split <;> omega
  obtain ⟨hpos, hle, hsplit⟩ := hbounds
  obtain ⟨hlast, hdig, hval⟩ := shlLoop_spec hpos hle (digits_digits n)
  have hlow : (shlLoop part (Nat.digits 65536 n)).2 >>> (16 - part) % 65536 =
      (Nat.digits 65536 n).headD 0 * 2 ^ part % 65536 := by
    have h := @shl_digit part ((Nat.digits 65536 n).headD 0) 0 hpos hle (by decide)
    rw [Nat.add_zero, Nat.zero_mul, Nat.zero_div, Nat.add_zero] at h
    rw [hlast, h]
  rw [hlow, rdropWhile_zero_eq_digits (b := 65536) (by decide)]
  · rw [Nat.ofDigits_append, Nat.ofDigits_replicate_zero, Nat.ofDigits_cons, List.length_replicate, ← hval,
      Nat.ofDigits_digits, Nat.zero_add]
    congr 1
    conv_rhs => rw [hsplit, pow_add, pow_mul]
    ring
  · intro d hd
    rcases List.mem_append.mp hd with hd | hd
    · rw [List.eq_of_mem_replicate hd]
      decide
    · rcases List.mem_cons.mp hd with rfl | hd
      · exact Nat.mod_lt _ (by decide)
      · exact hdig d hd

/-! ### To the right -/

theorem shr_digit {part low high rest : ℕ} (hpart : part < 16) (hlow : low < 65536) :
    (low + high * 65536) / 2 ^ part % 65536 + 65536 * ((high + 65536 * rest) / 2 ^ part) =
      (low + 65536 * (high + 65536 * rest)) / 2 ^ part := by
  interval_cases part <;> simp only [Nat.reducePow] <;> omega

theorem shrLoop_spec {part : ℕ} (hpart : part < 16) {j : List ℕ} (hj : Digits j) :
    (shrLoop part j).length = j.length ∧ Digits (shrLoop part j) ∧
      Nat.ofDigits 65536 (shrLoop part j) = Nat.ofDigits 65536 j / 2 ^ part := by
  induction j with
  | nil => exact ⟨rfl, digits_nil, by simp [shrLoop]⟩
  | cons d j ih =>
      have hd := hj.head
      cases j with
      | nil =>
          have hlt : d / 2 ^ part < 65536 := (Nat.div_le_self d _).trans_lt hd
          rw [shrLoop, Nat.shiftRight_eq_div_pow, Nat.mod_eq_of_lt hlt, Nat.ofDigits_singleton, Nat.ofDigits_singleton]
          exact ⟨rfl, digits_nil.cons hlt, rfl⟩
      | cons e j =>
          obtain ⟨hlen, hdig, hval⟩ := ih hj.tail
          have he := hj.tail.head
          have hor : d ||| e <<< 16 = d + e * 65536 := by
            rw [Nat.or_comm, Nat.shiftLeft_eq]
            exact (or_eq_add hd).trans (Nat.add_comm _ _)
          rw [shrLoop, hor, dbl_eq (by omega), Nat.shiftRight_eq_div_pow]
          refine ⟨congrArg (· + 1) hlen, hdig.cons (Nat.mod_lt _ (by decide)), ?_⟩
          rw [Nat.ofDigits_cons, hval, Nat.ofDigits_cons, shr_digit hpart hd]
          rw [Nat.ofDigits_cons, Nat.ofDigits_cons]

/-- Whole digits that are dropped. -/
theorem drop_digits (n whole : ℕ) : (Nat.digits 65536 n).drop whole = Nat.digits 65536 (n / 65536 ^ whole) := by
  apply eq_digits (by decide)
  · exact fun d hd => digits_digits n d (List.mem_of_mem_drop hd)
  · intro h
    rw [List.getLast_drop h]
    have hn : n ≠ 0 := by
      rintro rfl
      simp at h
    exact Nat.getLast_digit_ne_zero 65536 hn
  · exact (Nat.self_div_pow_eq_ofDigits_drop whole n (by decide)).symm

theorem mpnShr_digits (n shift : ℕ) : mpnShr (Nat.digits 65536 n) shift = Nat.digits 65536 (n / 2 ^ shift) := by
  have hpow : 2 ^ shift = 65536 ^ (shift / 16) * 2 ^ (shift % 16) := by
    conv_lhs => rw [← Nat.div_add_mod shift 16, pow_add, pow_mul]
    rfl
  rw [mpnShr, hpow, ← Nat.div_div_eq_div_mul]
  have hpart : shift % 16 < 16 := Nat.mod_lt _ (by decide)
  split
  · rename_i hall
    have hzero := drop_digits n (shift / 16)
    rw [List.drop_eq_nil_of_le hall] at hzero
    rw [Nat.digits_eq_nil_iff_eq_zero.mp hzero.symm, Nat.zero_div, Nat.digits_zero]
  · rename_i hsome
    have hne : Nat.digits 65536 (n / 65536 ^ (shift / 16)) ≠ [] := by
      rw [← drop_digits, ne_eq, List.drop_eq_nil_iff]
      exact hsome
    rw [drop_digits]
    generalize n / 65536 ^ (shift / 16) = r at hne ⊢
    obtain ⟨hlen, hdig, hval⟩ := shrLoop_spec hpart (digits_digits r)
    rw [Nat.ofDigits_digits] at hval
    have hfull := pow_length_le hne
    rw [← hlen] at hfull
    simp only
    split
    · rename_i hlast
      obtain ⟨l, hl⟩ := List.getLast?_eq_some_iff.mp hlast
      rw [hl, List.dropLast_concat]
      rw [hl] at hdig hval hfull
      apply eq_digits_of_le (by decide) (fun d hd => hdig d (List.mem_append_left _ hd))
      · rw [← hval, Nat.ofDigits_append, Nat.ofDigits_singleton, Nat.mul_zero, Nat.add_zero]
      · -- the highest digit was at least one, so at least half of a digit is left of it
        intro hnil
        have hlength : 0 < l.length := List.length_pos_iff.mpr hnil
        rw [List.length_append, List.length_singleton, Nat.add_sub_cancel,
          show l.length = l.length - 1 + 1 by omega, pow_succ] at hfull
        have hle : 2 ^ (shift % 16) ≤ 65536 := Nat.pow_le_pow_right (n := 2) (j := 16) (by decide) (by omega)
        rw [Nat.le_div_iff_mul_le (by positivity)]
        calc 65536 ^ (l.length - 1) * 2 ^ (shift % 16) ≤ 65536 ^ (l.length - 1) * 65536 := Nat.mul_le_mul_left _ hle
          _ ≤ r := hfull
    · rename_i hlast
      apply eq_digits (by decide) hdig _ hval
      intro h hzero
      exact hlast (by rw [List.getLast?_eq_some_getLast h, hzero])

end CalSci.Mpz
