import CalSci.DigitLists
import CalSci.MpzModel

/-! What the loops over digits compute. Every one of them takes the digits of its arguments to the digits of its result,
without a leading zero, and none overflows 32 bits. -/

namespace CalSci.Mpz

open DigitLists

theorem dbl_eq {n : ℕ} (h : n < 4294967296) : dbl n = n := Nat.mod_eq_of_lt h

theorem signed_eq {n : ℤ} (hlow : -2147483648 ≤ n) (hhigh : n < 2147483648) : signed n = n :=
  Int.bmod_eq_of_le (by omega) (by omega)

def Digits (l : List ℕ) : Prop := ∀ d ∈ l, d < 65536

theorem Digits.head {d : ℕ} {l : List ℕ} (h : Digits (d :: l)) : d < 65536 := h d List.mem_cons_self

theorem Digits.tail {d : ℕ} {l : List ℕ} (h : Digits (d :: l)) : Digits l := fun e he => h e (List.mem_cons_of_mem d he)

theorem Digits.cons {d : ℕ} {l : List ℕ} (hd : d < 65536) (h : Digits l) : Digits (d :: l) :=
  List.forall_mem_cons.mpr ⟨hd, h⟩

theorem Digits.reverse {l : List ℕ} (h : Digits l) : Digits l.reverse := fun d hd => h d (List.mem_reverse.mp hd)

theorem digits_nil : Digits [] := List.forall_mem_nil _

theorem digits_digits (n : ℕ) : Digits (Nat.digits 65536 n) := fun _ hd => Nat.digits_lt_base (by decide) hd

theorem Digits.lt {l : List ℕ} (h : Digits l) : Nat.ofDigits 65536 l < 65536 ^ l.length :=
  Nat.ofDigits_lt_base_pow_length (by decide) h

theorem pow_length_le {n : ℕ} (hn : Nat.digits 65536 n ≠ []) : 65536 ^ ((Nat.digits 65536 n).length - 1) ≤ n := by
  have h := Nat.base_pow_length_digits_le 65536 n (by decide) (Nat.digits_ne_nil_iff_ne_zero.mp hn)
  have hlength : 0 < (Nat.digits 65536 n).length := List.length_pos_iff.mpr hn
  rw [show (Nat.digits 65536 n).length = (Nat.digits 65536 n).length - 1 + 1 by omega, pow_succ] at h
  omega

/-! ### Comparison -/

theorem cmpLoop_eq {i j : List ℕ} (hi : Digits i) (hj : Digits j) (hlength : i.length = j.length) :
    cmpLoop i j = Int.sign ((Nat.ofDigits 65536 i.reverse : ℕ) - (Nat.ofDigits 65536 j.reverse : ℕ)) := by
  induction i generalizing j with
  | nil =>
      rw [List.length_nil] at hlength
      rw [List.eq_nil_of_length_eq_zero hlength.symm]
      simp [cmpLoop]
  | cons d i ih =>
      cases j with
      | nil => simp at hlength
      | cons e j =>
          rw [List.length_cons, List.length_cons] at hlength
          have hd := hi.head
          have he := hj.head
          have hlen : i.length = j.length := by omega
          have hrev : i.reverse.length = j.reverse.length := by simpa using hlen
          simp only [cmpLoop, List.reverse_cons]
          rw [signed_eq (by omega) (by omega)]
          rcases Nat.lt_trichotomy d e with hlt | heq | hgt
          · have := ofDigits_concat_lt (b := 65536) (by decide) hi.tail.reverse hrev hlt
            rw [if_pos (by omega), Int.sign_eq_neg_one_of_neg (by omega)]
          · rw [if_neg (by omega), if_neg (by omega), ih hi.tail hj.tail hlen, heq, ofDigits_concat, ofDigits_concat, hrev]
            congr 1
            push_cast
            ring
          · have := ofDigits_concat_lt (b := 65536) (by decide) hj.tail.reverse hrev.symm hgt
            rw [if_neg (by omega), if_pos (by omega), Int.sign_eq_one_of_pos (by omega)]

theorem mpnCmp_digits (m n : ℕ) :
    mpnCmp (Nat.digits 65536 m) (Nat.digits 65536 n) = Int.sign (m - n : ℤ) := by
  unfold mpnCmp
  split
  · rename_i hlt
    have := lt_of_length_digits_lt hlt
    rw [Int.sign_eq_neg_one_of_neg (by omega)]
  · split
    · rename_i hgt
      have := lt_of_length_digits_lt hgt
      rw [Int.sign_eq_one_of_pos (by omega)]
    · rw [cmpLoop_eq (digits_digits m).reverse (digits_digits n).reverse (by simp only [List.length_reverse]; omega)]
      simp only [List.reverse_reverse, Nat.ofDigits_digits]

/-! ### Sums and differences -/

theorem addLoop_spec {j k : List ℕ} {c : ℕ} (hj : Digits j) (hk : Digits k) (hlength : k.length ≤ j.length)
    (hcarry : c ≤ 1) : ∃ l out, addLoop j k c = carried l out ∧ l.length = j.length ∧ Digits l ∧ out ≤ 1 ∧
      Nat.ofDigits 65536 l + 65536 ^ j.length * out = Nat.ofDigits 65536 j + Nat.ofDigits 65536 k + c := by
  induction j generalizing k c with
  | nil =>
      have hnil : k = [] := List.eq_nil_of_length_eq_zero (Nat.le_zero.mp hlength)
      refine ⟨[], c, ?_, rfl, digits_nil, hcarry, ?_⟩
      · rw [addLoop, carried, Nat.mod_eq_of_lt (by omega)]
        rfl
      · simp [hnil]
  | cons d j ih =>
      have hd := hj.head
      cases k with
      | nil =>
          obtain ⟨l, out, heq, hlen, hl, hout, hval⟩ :=
            ih (c := (c + d) / 65536) hj.tail digits_nil (Nat.zero_le _) (by omega)
          refine ⟨(c + d) % 65536 :: l, out, ?_, congrArg (· + 1) hlen, hl.cons (by omega), hout, ?_⟩
          · simp only [addLoop]
            rw [dbl_eq (by omega), heq, carried_cons]
          · rw [Nat.ofDigits_nil] at hval
            simp only [Nat.ofDigits_cons, Nat.ofDigits_nil, List.length_cons, pow_succ, Nat.add_zero] at hval ⊢
            have := Nat.div_add_mod (c + d) 65536
            linarith
      | cons e k =>
          have he := hk.head
          obtain ⟨l, out, heq, hlen, hl, hout, hval⟩ := ih (c := (c + (d + e)) / 65536) hj.tail hk.tail
            (Nat.le_of_succ_le_succ hlength) (by omega)
          refine ⟨(c + (d + e)) % 65536 :: l, out, ?_, congrArg (· + 1) hlen, hl.cons (by omega), hout, ?_⟩
          · simp only [addLoop]
            rw [dbl_eq (by omega), heq, carried_cons]
          · simp only [Nat.ofDigits_cons, List.length_cons, pow_succ]
            have := Nat.div_add_mod (c + (d + e)) 65536
            linarith

theorem mpnAdd_digits {m n : ℕ} (h : n ≤ m) :
    mpnAdd (Nat.digits 65536 m) (Nat.digits 65536 n) = Nat.digits 65536 (m + n) := by
  obtain ⟨l, out, heq, hlen, hl, hout, hval⟩ := addLoop_spec (digits_digits m) (digits_digits n)
    (Nat.le_length_digits_le 65536 n m h) (Nat.zero_le 1)
  rw [Nat.ofDigits_digits, Nat.ofDigits_digits, Nat.add_zero, ← hlen] at hval
  rw [mpnAdd, heq]
  apply carried_eq_digits (by decide) hl (by omega) hval
  intro hne
  rw [hlen]
  have hm : Nat.digits 65536 m ≠ [] := by
    intro hnil
    rw [hnil] at hlen
    exact hne (List.eq_nil_of_length_eq_zero hlen)
  exact (pow_length_le hm).trans (Nat.le_add_right m n)

theorem subLoop_spec {j k : List ℕ} {c : ℤ} (hj : Digits j) (hk : Digits k) (hlength : k.length ≤ j.length)
    (hlow : -1 ≤ c) (hhigh : c ≤ 0) :
    (subLoop j k c).length = j.length ∧ Digits (subLoop j k c) ∧
      ∃ out : ℤ, (Nat.ofDigits 65536 (subLoop j k c) : ℕ) + 65536 ^ j.length * out =
        (Nat.ofDigits 65536 j : ℕ) - (Nat.ofDigits 65536 k : ℕ) + c := by
  induction j generalizing k c with
  | nil =>
      have hnil : k = [] := List.eq_nil_of_length_eq_zero (Nat.le_zero.mp hlength)
      exact ⟨rfl, digits_nil, c, by simp [hnil, subLoop]⟩
  | cons d j ih =>
      have hd := hj.head
      cases k with
      | nil =>
          obtain ⟨hlen, hl, out, hval⟩ := ih (c := (c + d) / 65536) hj.tail digits_nil (Nat.zero_le _) (by omega)
            (by omega)
          simp only [subLoop]
          rw [signed_eq (by omega) (by omega)]
          refine ⟨congrArg (· + 1) hlen, hl.cons (by omega), out, ?_⟩
          simp only [Nat.ofDigits_cons, Nat.ofDigits_nil, List.length_cons, pow_succ] at hval ⊢
          push_cast at hval ⊢
          have hdigit : (((c + d) % 65536).toNat : ℤ) = (c + d) % 65536 := Int.toNat_of_nonneg (by omega)
          have := Int.mul_ediv_add_emod (c + d) 65536
          rw [hdigit]
          linarith
      | cons e k =>
          have he := hk.head
          obtain ⟨hlen, hl, out, hval⟩ := ih (c := (c + (d - e)) / 65536) hj.tail hk.tail
            (Nat.le_of_succ_le_succ hlength) (by omega) (by omega)
          simp only [subLoop]
          rw [signed_eq (by omega) (by omega)]
          refine ⟨congrArg (· + 1) hlen, hl.cons (by omega), out, ?_⟩
          simp only [Nat.ofDigits_cons, List.length_cons, pow_succ]
          push_cast at hval ⊢
          have hdigit : (((c + (d - e)) % 65536).toNat : ℤ) = (c + (d - e)) % 65536 :=
            Int.toNat_of_nonneg (by omega)
          have := Int.mul_ediv_add_emod (c + (d - e)) 65536
          rw [hdigit]
          linarith

theorem mpnSub_digits {m n : ℕ} (h : n ≤ m) :
    mpnSub (Nat.digits 65536 m) (Nat.digits 65536 n) = Nat.digits 65536 (m - n) := by
  obtain ⟨hlen, hl, out, hval⟩ := subLoop_spec (c := 0) (digits_digits m) (digits_digits n)
    (Nat.le_length_digits_le 65536 n m h) (by omega) (by omega)
  rw [mpnSub, mpnRemoveTrailingZeros, rdropWhile_zero_eq_digits (by decide) hl]
  congr 1
  have hlt := hl.lt
  have hm := (digits_digits m).lt
  rw [hlen] at hlt
  rw [Nat.ofDigits_digits] at hm
  rw [Nat.ofDigits_digits, Nat.ofDigits_digits] at hval
  -- both sides are below the same power, so nothing is borrowed from above it
  have hout : out = 0 := by
    have hlt' : ((Nat.ofDigits 65536 (subLoop (Nat.digits 65536 m) (Nat.digits 65536 n) 0) : ℕ) : ℤ) <
        65536 ^ (Nat.digits 65536 m).length := by exact_mod_cast hlt
    have hm' : (m : ℤ) < 65536 ^ (Nat.digits 65536 m).length := by exact_mod_cast hm
    by_contra hne
    rcases Int.lt_or_gt_of_ne hne with hneg | hpos <;> nlinarith
  rw [hout] at hval
  omega

/-! ### Products -/

/-- A product of digits and two carries still fit in 32 bits. -/
theorem digit_mul_le {d e : ℕ} (hd : d < 65536) (he : e < 65536) : d * e ≤ 4294836225 :=
  Nat.mul_le_mul (Nat.le_of_lt_succ hd) (Nat.le_of_lt_succ he)

theorem mulDigLoop_spec {i : List ℕ} {dmul c : ℕ} (hi : Digits i) (hmul : dmul < 65536) (hcarry : c < 65536) :
    ∃ l out, mulDigLoop dmul i c = carried l out ∧ l.length = i.length ∧ Digits l ∧ out < 65536 ∧
      Nat.ofDigits 65536 l + 65536 ^ i.length * out = Nat.ofDigits 65536 i * dmul + c := by
  induction i generalizing c with
  | nil =>
      refine ⟨[], c, ?_, rfl, digits_nil, hcarry, by simp⟩
      rw [mulDigLoop, carried, Nat.mod_eq_of_lt hcarry]
      rfl
  | cons d i ih =>
      have hprod := digit_mul_le hi.head hmul
      obtain ⟨l, out, heq, hlen, hl, hout, hval⟩ := ih (c := (c + d * dmul) / 65536) hi.tail (by omega)
      refine ⟨(c + d * dmul) % 65536 :: l, out, ?_, congrArg (· + 1) hlen, hl.cons (by omega), hout, ?_⟩
      · simp only [mulDigLoop]
        rw [dbl_eq (n := d * dmul) (by omega), dbl_eq (by omega), heq, carried_cons]
      · simp only [Nat.ofDigits_cons, List.length_cons, pow_succ]
        have := Nat.div_add_mod (c + d * dmul) 65536
        linarith

theorem mpnMulDigAddDig_digits {n dmul dadd : ℕ} (hpos : 0 < dmul) (hmul : dmul < 65536) (hadd : dadd < 65536) :
    mpnMulDigAddDig (Nat.digits 65536 n) dmul dadd = Nat.digits 65536 (n * dmul + dadd) := by
  obtain ⟨l, out, heq, hlen, hl, hout, hval⟩ := mulDigLoop_spec (digits_digits n) hmul hadd
  rw [Nat.ofDigits_digits, ← hlen] at hval
  rw [mpnMulDigAddDig, heq]
  apply carried_eq_digits (by decide) hl hout hval
  intro hne
  rw [hlen]
  have hn : Nat.digits 65536 n ≠ [] := by
    intro hnil
    rw [hnil] at hlen
    exact hne (List.eq_nil_of_length_eq_zero hlen)
  calc 65536 ^ ((Nat.digits 65536 n).length - 1) ≤ n := pow_length_le hn
    _ ≤ n * dmul := Nat.le_mul_of_pos_right n hpos
    _ ≤ n * dmul + dadd := Nat.le_add_right _ _

theorem mulRow_spec {j r : List ℕ} {kdig c : ℕ} (hj : Digits j) (hid : Digits r) (hlength : r.length ≤ j.length)
    (hk : kdig < 65536) (hcarry : c < 65536) :
    ∃ l out, mulRow kdig j r c = carried l out ∧ l.length = j.length ∧ Digits l ∧ out < 65536 ∧
      Nat.ofDigits 65536 l + 65536 ^ j.length * out =
        Nat.ofDigits 65536 j * kdig + Nat.ofDigits 65536 r + c := by
  induction j generalizing r c with
  | nil =>
      have hnil : r = [] := List.eq_nil_of_length_eq_zero (Nat.le_zero.mp hlength)
      refine ⟨[], c, ?_, rfl, digits_nil, hcarry, by simp [hnil]⟩
      rw [hnil, mulRow, carried, Nat.mod_eq_of_lt hcarry]
      rfl
  | cons d j ih =>
      have hprod := digit_mul_le hj.head hk
      have hhead : r.headD 0 < 65536 := by
        cases r with
        | nil => exact Nat.zero_lt_succ _
        | cons e r => exact hid.head
      have htail : Digits r.tail := fun e he => hid e (List.mem_of_mem_tail he)
      have hsplit : Nat.ofDigits 65536 r = r.headD 0 + 65536 * Nat.ofDigits 65536 r.tail := by
        cases r with
        | nil => rfl
        | cons e r => rw [Nat.ofDigits_cons, List.headD_cons, List.tail_cons]
      obtain ⟨l, out, heq, hlen, hl, hout, hval⟩ :=
        ih (r := r.tail) (c := (c + (r.headD 0 + d * kdig)) / 65536) hj.tail htail
          (by rw [List.length_tail]; rw [List.length_cons] at hlength; omega) (by omega)
      refine ⟨(c + (r.headD 0 + d * kdig)) % 65536 :: l, out, ?_, congrArg (· + 1) hlen, hl.cons (by omega), hout,
        ?_⟩
      · simp only [mulRow]
        rw [dbl_eq (n := d * kdig) (by omega), dbl_eq (n := _ + d * kdig) (by omega), dbl_eq (by omega), heq,
          carried_cons]
      · rw [hsplit]
        simp only [Nat.ofDigits_cons, List.length_cons, pow_succ]
        have := Nat.div_add_mod (c + (r.headD 0 + d * kdig)) 65536
        linarith

theorem mulRows_spec {j k id : List ℕ} (hj : Digits j) (hne : j ≠ []) (hk : Digits k) (hkne : k ≠ []) (hid : Digits id)
    (hlength : id.length ≤ j.length) :
    ∃ l out, mulRows j k id = carried l out ∧ l.length + 1 = j.length + k.length ∧ Digits l ∧ out < 65536 ∧
      Nat.ofDigits 65536 l + 65536 ^ l.length * out =
        Nat.ofDigits 65536 j * Nat.ofDigits 65536 k + Nat.ofDigits 65536 id := by
  induction k generalizing id with
  | nil => exact absurd rfl hkne
  | cons kdig k ih =>
      obtain ⟨row, top, heq, hlen, hrow, htop, hval⟩ :=
        mulRow_spec (c := 0) hj hid hlength hk.head (by decide)
      cases k with
      | nil =>
          refine ⟨row, top, heq, by rw [hlen, List.length_singleton], hrow, htop, ?_⟩
          rw [hlen, hval, Nat.ofDigits_singleton, Nat.add_zero]
      | cons kdig' k =>
          cases row with
          | nil =>
              rw [List.length_nil] at hlen
              exact absurd (List.eq_nil_of_length_eq_zero hlen.symm) hne
          | cons low row =>
              have hnext : (carried row top).length ≤ j.length := by
                have := carried_length_le row top
                rw [List.length_cons] at hlen
                omega
              obtain ⟨l, out, heq', hlen', hl, hout, hval'⟩ :=
                ih hk.tail (by simp) (carried_lt hrow.tail htop) hnext
              refine ⟨low :: l, out, ?_, ?_, hl.cons hrow.head, hout, ?_⟩
              · rw [mulRows, heq, carried_cons, List.headD_cons, List.tail_cons, heq', carried_cons]
                simp
              · simp only [List.length_cons] at hlen' ⊢
                omega
              · rw [ofDigits_carried] at hval'
                rw [← hlen] at hval
                simp only [Nat.ofDigits_cons, List.length_cons, pow_succ] at hval hval' ⊢
                linarith

theorem mpnMul_digits {m n : ℕ} (hm : m ≠ 0) (hn : n ≠ 0) :
    mpnMul (Nat.digits 65536 m) (Nat.digits 65536 n) = Nat.digits 65536 (m * n) := by
  have hmne := Nat.digits_ne_nil_iff_ne_zero (b := 65536) |>.mpr hm
  have hnne := Nat.digits_ne_nil_iff_ne_zero (b := 65536) |>.mpr hn
  obtain ⟨l, out, heq, hlen, hl, hout, hval⟩ :=
    mulRows_spec (digits_digits m) hmne (digits_digits n) hnne digits_nil (Nat.zero_le _)
  rw [Nat.ofDigits_digits, Nat.ofDigits_digits, Nat.ofDigits_nil, Nat.add_zero] at hval
  rw [mpnMul, heq]
  apply carried_eq_digits (by decide) hl hout hval
  intro _
  have hmpos := List.length_pos_iff.mpr hmne
  have hnpos := List.length_pos_iff.mpr hnne
  have hexp : l.length - 1 = ((Nat.digits 65536 m).length - 1) + ((Nat.digits 65536 n).length - 1) := by omega
  rw [hexp, pow_add]
  exact Nat.mul_le_mul (pow_length_le hmne) (pow_length_le hnne)

end CalSci.Mpz
