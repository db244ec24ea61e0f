import CalSci.MpzArithmetic
import Mathlib.Data.Int.Bitwise

/-! The bits of integers. Negative numbers act as if they had infinitely many leading ones: their digits are
complemented on the way in and on the way out, by a carry that runs through the loop. -/

namespace CalSci.Mpz

open DigitLists

/-! ### Bits of digits -/

theorem testBit_digit_add {d : ℕ} (hd : d < 65536) (n i : ℕ) :
    (d + 65536 * n).testBit i = if i < 16 then d.testBit i else n.testBit (i - 16) := by
  rw [Nat.add_comm]
  exact Nat.testBit_two_pow_mul_add (i := 16) n hd i

theorem testBit_mod (n i : ℕ) : (n % 65536).testBit i = (decide (i < 16) && n.testBit i) :=
  Nat.testBit_mod_two_pow n 16 i

/-- A number has no bit at its own place, nor beyond. -/
theorem testBit_far {m i : ℕ} (h : m ≤ i) : m.testBit i = false :=
  Nat.testBit_lt_two_pow (Nat.lt_two_pow_self.trans_le (Nat.pow_le_pow_right (by decide) h))

theorem digit_xor_mask {d : ℕ} (hd : d < 65536) : d ^^^ 65535 = 65535 - d := by
  apply Nat.eq_of_testBit_eq
  intro i
  have hcompl := Nat.testBit_two_pow_sub_succ (n := 16) hd i
  rw [show (2 : ℕ) ^ 16 - (d + 1) = 65535 - d by omega] at hcompl
  have hmask := Nat.testBit_two_pow_sub_one 16 i
  rw [show (2 : ℕ) ^ 16 - 1 = 65535 by rfl] at hmask
  rw [Nat.testBit_xor, hcompl, hmask]
  by_cases hi : i < 16
  · simp [hi]
  · have hzero : d.testBit i = false :=
      Nat.testBit_lt_two_pow (hd.trans_le (Nat.pow_le_pow_right (n := 2) (i := 16) (by decide) (by omega)))
    simp [hi, hzero]

/-! ### The digits of an operand -/

/-- The low parts of `carry += g(digit)` over so many digits; missing digits are zero. -/
def stream (g : ℕ → ℕ) : ℕ → List ℕ → ℕ → List ℕ
  | 0, _, _ => []
  | n + 1, l, carry => (carry + g (l.headD 0)) % 65536 :: stream g n l.tail ((carry + g (l.headD 0)) / 65536)

theorem length_stream (g : ℕ → ℕ) (n : ℕ) (l : List ℕ) (carry : ℕ) : (stream g n l carry).length = n := by
  induction n generalizing l carry with
  | zero => rfl
  | succ n ih => rw [stream, List.length_cons, ih]

theorem digits_stream (g : ℕ → ℕ) (n : ℕ) (l : List ℕ) (carry : ℕ) : Digits (stream g n l carry) := by
  induction n generalizing l carry with
  | zero => exact digits_nil
  | succ n ih => exact (ih _ _).cons (Nat.mod_lt _ (by decide))

theorem Digits.headD {l : List ℕ} (hl : Digits l) : l.headD 0 < 65536 := by
  cases l with
  | nil => exact Nat.zero_lt_succ _
  | cons d l => exact hl.head

theorem Digits.listTail {l : List ℕ} (hl : Digits l) : Digits l.tail := fun d hd => hl d (List.mem_of_mem_tail hd)

theorem ofDigits_head_tail (l : List ℕ) : Nat.ofDigits 65536 l = l.headD 0 + 65536 * Nat.ofDigits 65536 l.tail := by
  cases l with
  | nil => rfl
  | cons d l => rw [Nat.ofDigits_cons, List.headD_cons, List.tail_cons]

/-- What is added to each digit of a number with so many digits comes out, but for a carry. -/
theorem ofDigits_stream {g : ℕ → ℕ} {e : ℕ} {s : ℤ} (hg : ∀ d < 65536, (g d : ℤ) = e + s * d) {l : List ℕ}
    (hl : Digits l) {n : ℕ} (hn : l.length ≤ n) (carry : ℕ) :
    ∃ out : ℕ, (Nat.ofDigits 65536 (stream g n l carry) : ℕ) + 65536 ^ n * out =
      carry + s * (Nat.ofDigits 65536 l : ℕ) + e * (Nat.ofDigits 65536 (List.replicate n 1) : ℕ) := by
  induction n generalizing l carry with
  | zero =>
      refine ⟨carry, ?_⟩
      rw [List.eq_nil_of_length_eq_zero (Nat.le_zero.mp hn)]
      simp [stream]
  | succ n ih =>
      obtain ⟨out, hval⟩ := ih hl.listTail (by rw [List.length_tail]; omega) ((carry + g (l.headD 0)) / 65536)
      refine ⟨out, ?_⟩
      have hdigit := hg (l.headD 0) hl.headD
      have hsplit := Nat.div_add_mod (carry + g (l.headD 0)) 65536
      have hlist := ofDigits_head_tail l
      rw [stream, Nat.ofDigits_cons, List.replicate_succ, Nat.ofDigits_cons, hlist, pow_succ]
      generalize Nat.ofDigits 65536 (stream g n l.tail ((carry + g (l.headD 0)) / 65536)) = v at hval ⊢
      generalize Nat.ofDigits 65536 l.tail = w at hval ⊢
      generalize Nat.ofDigits 65536 (List.replicate n 1) = u at hval ⊢
      generalize (carry + g (l.headD 0)) / 65536 = q at hsplit hval
      generalize (carry + g (l.headD 0)) % 65536 = r at hsplit ⊢
      zify at hsplit
      push_cast
      linear_combination 65536 * hval + hsplit + hdigit

theorem repunit (n : ℕ) : 65535 * Nat.ofDigits 65536 (List.replicate n 1) + 1 = 65536 ^ n := by
  induction n with
  | zero => rfl
  | succ n ih =>
      rw [List.replicate_succ, Nat.ofDigits_cons, pow_succ, ← ih]
      ring

section Streams

variable {l : List ℕ} (hl : Digits l) {n : ℕ} (hn : l.length ≤ n)

include hl hn in
theorem lt_pow_of_length_le : Nat.ofDigits 65536 l < 65536 ^ n :=
  hl.lt.trans_le (Nat.pow_le_pow_right (by decide) hn)

include hl hn in
/-- Digits that are taken as they are. -/
theorem ofDigits_stream_plain : Nat.ofDigits 65536 (stream (· ^^^ 0) n l 0) = Nat.ofDigits 65536 l := by
  obtain ⟨out, hval⟩ := ofDigits_stream (g := (· ^^^ 0)) (e := 0) (s := 1) (by simp) hl hn 0
  have hlt := lt_pow_of_length_le hl hn
  generalize Nat.ofDigits 65536 (stream (· ^^^ 0) n l 0) = v at hval ⊢
  generalize Nat.ofDigits 65536 l = w at hval hlt ⊢
  have hnat : v + 65536 ^ n * out = w := by
    push_cast at hval
    zify
    linarith
  have hout : out = 0 := by
    by_contra hne
    have : 65536 ^ n * 1 ≤ 65536 ^ n * out := Nat.mul_le_mul_left _ (by omega)
    omega
  rw [hout] at hnat
  omega

include hl hn in
/-- The digits of the negative of a number. -/
theorem ofDigits_stream_compl (hpos : 0 < Nat.ofDigits 65536 l) :
    Nat.ofDigits 65536 (stream (· ^^^ 65535) n l 1) = 65536 ^ n - Nat.ofDigits 65536 l := by
  obtain ⟨out, hval⟩ := ofDigits_stream (g := (· ^^^ 65535)) (e := 65535) (s := -1)
    (fun d hd => by rw [digit_xor_mask hd]; omega) hl hn 1
  have hlt := lt_pow_of_length_le hl hn
  have hrep := repunit n
  generalize Nat.ofDigits 65536 (stream (· ^^^ 65535) n l 1) = v at hval ⊢
  generalize Nat.ofDigits 65536 l = w at hval hlt hpos ⊢
  generalize Nat.ofDigits 65536 (List.replicate n 1) = u at hval hrep
  have hnat : v + w + 65536 ^ n * out = 65536 ^ n := by
    push_cast at hval
    zify at hrep ⊢
    linarith
  have hout : out = 0 := by
    by_contra hne
    have : 65536 ^ n * 1 ≤ 65536 ^ n * out := Nat.mul_le_mul_left _ (by omega)
    omega
  rw [hout] at hnat
  omega

include hl hn in
/-- The digits of a number less one, and of a number that is carried along. -/
theorem ofDigits_stream_pred {c : ℕ} (hc : c ≤ 1) (hpos : 0 < Nat.ofDigits 65536 l + c) :
    Nat.ofDigits 65536 (stream (· + 65535) n l c) = Nat.ofDigits 65536 l + c - 1 := by
  obtain ⟨out, hval⟩ := ofDigits_stream (g := (· + 65535)) (e := 65535) (s := 1) (fun d _ => by push_cast; ring) hl hn c
  have hlt := lt_pow_of_length_le hl hn
  have hrep := repunit n
  have hsmall := (digits_stream (· + 65535) n l c).lt
  rw [length_stream] at hsmall
  generalize Nat.ofDigits 65536 (stream (· + 65535) n l c) = v at hval hsmall ⊢
  generalize Nat.ofDigits 65536 l = w at hval hlt hpos ⊢
  generalize Nat.ofDigits 65536 (List.replicate n 1) = u at hval hrep
  have hnat : v + 65536 ^ n * out + 1 = c + w + 65536 ^ n := by
    push_cast at hval
    zify at hrep ⊢
    linarith
  have hout : out = 1 := by
    by_contra hne
    rcases Nat.lt_or_gt_of_ne hne with hless | hmore
    · rw [show out = 0 by omega] at hnat
      omega
    · have : 65536 ^ n * 2 ≤ 65536 ^ n * out := Nat.mul_le_mul_left _ hmore
      omega
  rw [hout] at hnat
  omega

end Streams

/-! ### The loop over both operands -/

/-- The loops of `mpn_and_neg`, `mpn_or_neg` and `mpn_xor_neg`. -/
def signedLoop (g h : ℕ → ℕ) (op : ℕ → ℕ → ℕ) : List ℕ → List ℕ → ℕ → ℕ → ℕ → List ℕ × ℕ
  | jdig :: j, k, carryi, carryj, carryk =>
      let carryj := dbl (carryj + g jdig)
      let carryk := dbl (carryk + h (k.headD 0))
      let carryi := dbl (carryi + op carryj carryk % 65536)
      let s := signedLoop g h op j k.tail (carryi / 65536) (carryj / 65536) (carryk / 65536)
      (carryi % 65536 :: s.1, s.2)
  | [], _, carryi, _, _ => ([], carryi)

theorem signedLoop_spec {g h : ℕ → ℕ} {o : ℕ → ℕ → ℕ} {f : Bool → Bool → Bool} (hg : ∀ d < 65536, g d < 131071)
    (hh : ∀ d < 65536, h d < 131071)
    (hop : ∀ x y i, (o x y % 65536).testBit i = (decide (i < 16) && f (x.testBit i) (y.testBit i))) {j k : List ℕ}
    (hj : Digits j) (hk : Digits k) {p q r : ℕ} (hi : p ≤ 1) (hcj : q ≤ 1) (hck : r ≤ 1) :
    (signedLoop g h o j k p q r).1.length = j.length ∧
      Digits (signedLoop g h o j k p q r).1 ∧ (signedLoop g h o j k p q r).2 ≤ 1 ∧
      ∃ w, Nat.ofDigits 65536 (signedLoop g h o j k p q r).1 +
          65536 ^ j.length * (signedLoop g h o j k p q r).2 = w + p ∧
        ∀ i, w.testBit i = (decide (i < 16 * j.length) &&
          f ((Nat.ofDigits 65536 (stream g j.length j q)).testBit i)
            ((Nat.ofDigits 65536 (stream h j.length k r)).testBit i)) := by
  induction j generalizing k p q r with
  | nil => exact ⟨rfl, digits_nil, hi, 0, by simp [signedLoop], by simp⟩
  | cons d j ih =>
      have hgd := hg d hj.head
      have hhd := hh _ hk.headD
      have hdigit : o (q + g d) (r + h (k.headD 0)) % 65536 < 65536 := Nat.mod_lt _ (by decide)
      simp only [signedLoop]
      rw [dbl_eq (n := q + g d) (by omega), dbl_eq (n := r + h (k.headD 0)) (by omega), dbl_eq (by omega)]
      obtain ⟨hlen, hdig, hout, w, hval, hbits⟩ := ih hj.tail hk.listTail
        (p := (p + o (q + g d) (r + h (k.headD 0)) % 65536) / 65536)
        (q := (q + g d) / 65536) (r := (r + h (k.headD 0)) / 65536) (by omega) (by omega) (by omega)
      refine ⟨congrArg (· + 1) hlen, hdig.cons (Nat.mod_lt _ (by decide)), hout,
        o (q + g d) (r + h (k.headD 0)) % 65536 + 65536 * w, ?_, ?_⟩
      · rw [Nat.ofDigits_cons, List.length_cons, pow_succ]
        have := Nat.div_add_mod (p + o (q + g d) (r + h (k.headD 0)) % 65536) 65536
        linarith
      · intro i
        rw [testBit_digit_add hdigit, List.length_cons, stream, stream, Nat.ofDigits_cons, Nat.ofDigits_cons,
          testBit_digit_add (Nat.mod_lt _ (by decide)), testBit_digit_add (Nat.mod_lt _ (by decide)), List.headD_cons,
          List.tail_cons]
        by_cases hlow : i < 16
        · have hin : i < 16 * (j.length + 1) := by omega
          simp [hlow, hin, hop, testBit_mod]
        · rw [if_neg hlow, if_neg hlow, if_neg hlow, hbits (i - 16)]
          congr 1
          rw [decide_eq_decide]
          omega

/-! ### The bits of an integer -/

/-- An integer is determined by its bits. -/
theorem eq_of_testBit {a b : ℤ} (h : ∀ i, a.testBit i = b.testBit i) : a = b := by
  match a, b with
  | .ofNat m, .ofNat n => exact congrArg Int.ofNat (Nat.eq_of_testBit_eq h)
  | .negSucc m, .negSucc n => exact congrArg Int.negSucc (Nat.eq_of_testBit_eq fun i => Bool.not_inj (h i))
  | .ofNat m, .negSucc n | .negSucc n, .ofNat m =>
      have hm : m.testBit (m + n) = false := testBit_far (by omega)
      have hn : n.testBit (m + n) = false := testBit_far (by omega)
      have := h (m + n)
      simp only [Int.testBit, hm, hn] at this
      exact Bool.noConfusion this

theorem lt_pow_of_length_digits_le {m n : ℕ} (hn : (Nat.digits 65536 m).length ≤ n) : m < 2 ^ (16 * n) := by
  rw [pow_mul]
  exact (Nat.digits_length_le_iff (by decide) m).mp hn

/-- Beyond the digits only the sign is left. -/
theorem testBit_beyond {a : ℤ} {n i : ℕ} (hn : (Nat.digits 65536 a.natAbs).length ≤ n) (hi : 16 * n ≤ i) :
    a.testBit i = decide (a < 0) := by
  have hlt := (lt_pow_of_length_digits_le hn).trans_le (Nat.pow_le_pow_right (by decide) hi)
  match a with
  | .ofNat m => exact (Nat.testBit_lt_two_pow hlt).trans (decide_eq_false (by simp)).symm
  | .negSucc m =>
      rw [decide_eq_true (Int.negSucc_lt_zero m)]
      exact congrArg not (Nat.testBit_lt_two_pow ((Nat.lt_succ_self m).trans hlt))

/-- The digits that `mpn_and_neg` and `mpn_or_neg` combine are those of the two's complement. -/
theorem testBit_stream {a : ℤ} {n i : ℕ} (hn : (Nat.digits 65536 a.natAbs).length ≤ n) (hi : i < 16 * n) :
    (Nat.ofDigits 65536 (stream (· ^^^ maskOf (decide (a < 0)).toNat) n (Nat.digits 65536 a.natAbs)
      (decide (a < 0)).toNat)).testBit i = a.testBit i := by
  match a with
  | .ofNat m =>
      rw [decide_eq_false (by simp)]
      simp only [Bool.toNat_false, maskOf, if_true]
      rw [ofDigits_stream_plain (digits_digits _) hn, Nat.ofDigits_digits]
      rfl
  | .negSucc m =>
      rw [decide_eq_true (Int.negSucc_lt_zero m)]
      simp only [Bool.toNat_true, maskOf, one_ne_zero, if_false]
      have hlt := lt_pow_of_length_digits_le hn
      rw [ofDigits_stream_compl (digits_digits _) hn (by rw [Nat.ofDigits_digits]; simp), Nat.ofDigits_digits,
        show (65536 : ℕ) ^ n = 2 ^ (16 * n) by rw [pow_mul]; rfl, Int.natAbs_negSucc,
        Nat.testBit_two_pow_sub_succ ((Nat.lt_succ_self m).trans hlt), decide_eq_true hi, Bool.true_and]
      rfl

/-- The number whose bits are those of `w`, or all of their opposites. -/
def complemented (c : Bool) (w : ℕ) : ℤ := if c then .negSucc w else .ofNat w

theorem testBit_complemented (c : Bool) (w i : ℕ) : (complemented c w).testBit i = (w.testBit i ^^ c) := by
  cases c with
  | false => exact (Bool.xor_false _).symm
  | true => exact (Bool.xor_true _).symm

theorem ofInt_complemented (c : Bool) (w : ℕ) : ofInt (complemented c w) = ⟨c, Nat.digits 65536 (w + c.toNat)⟩ := by
  cases c with
  | false => exact (mk_eq_ofInt rfl (decide_eq_false (by simp [complemented])).symm).symm
  | true => exact (mk_eq_ofInt rfl (decide_eq_true (Int.negSucc_lt_zero w)).symm).symm

/-! ### Two operands -/

/-- `carryi` after the loop, if there is one. -/
theorem append_carry {l : List ℕ} {out : ℕ} (hout : out ≤ 1) :
    l ++ (if out ≠ 0 then [out % 65536] else []) = carried l out := by
  rw [carried, Nat.mod_eq_of_lt (by omega)]
  split
  · rfl
  · exact List.append_nil l

theorem andNegLoop_eq (imask jmask kmask : ℕ) (j k : List ℕ) (ci cj ck : ℕ) :
    andNegLoop imask jmask kmask j k ci cj ck =
      (signedLoop (· ^^^ jmask) (· ^^^ kmask) (fun x y => (x &&& y) ^^^ imask) j k ci cj ck).1 ++
        (if (signedLoop (· ^^^ jmask) (· ^^^ kmask) (fun x y => (x &&& y) ^^^ imask) j k ci cj ck).2 ≠ 0 then
          [(signedLoop (· ^^^ jmask) (· ^^^ kmask) (fun x y => (x &&& y) ^^^ imask) j k ci cj ck).2 % 65536]
        else []) := by
  induction j generalizing k ci cj ck with
  | nil => rfl
  | cons d j ih =>
      rw [andNegLoop, ih]
      rfl

theorem orNegLoop_eq (jmask kmask : ℕ) (j k : List ℕ) (ci cj ck : ℕ) :
    orNegLoop jmask kmask j k ci cj ck =
      signedLoop (· ^^^ jmask) (· ^^^ kmask) (fun x y => (x ||| y) ^^^ 65535) j k ci cj ck := by
  induction j generalizing k ci cj ck with
  | nil => rfl
  | cons d j ih =>
      rw [orNegLoop, ih]
      rfl

theorem xorNegLoop_eq (j k : List ℕ) (ci cj ck : ℕ) :
    xorNegLoop j k ci cj ck =
      (signedLoop (· + 65535) (· + 65535) (· ^^^ ·) j k ci cj ck).1 ++
        (if (signedLoop (· + 65535) (· + 65535) (· ^^^ ·) j k ci cj ck).2 ≠ 0 then
          [(signedLoop (· + 65535) (· + 65535) (· ^^^ ·) j k ci cj ck).2 % 65536]
        else []) := by
  induction j generalizing k ci cj ck with
  | nil => rfl
  | cons d j ih =>
      rw [xorNegLoop, ih]
      rfl

/-- The sum of the digits and the carry of the loop, with the leading zeros removed. -/
theorem digits_carried {l : List ℕ} {out n v : ℕ} (hl : Digits l) (hout : out ≤ 1) (hn : l.length = n)
    (hval : Nat.ofDigits 65536 l + 65536 ^ n * out = v) :
    mpnRemoveTrailingZeros (carried l out) = Nat.digits 65536 v := by
  rw [mpnRemoveTrailingZeros, rdropWhile_zero_eq_digits (by decide) (carried_lt hl (by omega)), ofDigits_carried,
    hn, hval]

theorem mask_le (c : Bool) : maskOf c.toNat < 65536 := by
  cases c <;> decide

theorem xor_mask_lt (c : Bool) : ∀ d < 65536, d ^^^ maskOf c.toNat < 131071 := by
  intro d hd
  have : d ^^^ maskOf c.toNat < 2 ^ 16 := Nat.xor_lt_two_pow hd (mask_le c)
  omega

theorem testBit_xor_mask (c : Bool) (v i : ℕ) :
    ((v ^^^ maskOf c.toNat) % 65536).testBit i = (decide (i < 16) && (v.testBit i ^^ c)) := by
  rw [testBit_mod, Nat.testBit_xor]
  cases c with
  | false => simp [maskOf]
  | true =>
      have hmask := Nat.testBit_two_pow_sub_one 16 i
      rw [show (2 : ℕ) ^ 16 - 1 = 65535 by rfl] at hmask
      by_cases hi : i < 16 <;> simp [maskOf, hmask, hi]

theorem toNat_le_one (c : Bool) : c.toNat ≤ 1 := by
  cases c <;> decide

/-- The loop on two integers, of which the first has no fewer digits. -/
theorem signedLoop_ints {o : ℕ → ℕ → ℕ} {f : Bool → Bool → Bool} (c : Bool)
    (hop : ∀ x y i, (o x y % 65536).testBit i = (decide (i < 16) && f (x.testBit i) (y.testBit i))) {a b : ℤ}
    (hlen : (Nat.digits 65536 b.natAbs).length ≤ (Nat.digits 65536 a.natAbs).length) {l : List ℕ} {out : ℕ}
    (hl : signedLoop (· ^^^ maskOf (decide (a < 0)).toNat) (· ^^^ maskOf (decide (b < 0)).toNat) o
      (Nat.digits 65536 a.natAbs) (Nat.digits 65536 b.natAbs) c.toNat (decide (a < 0)).toNat (decide (b < 0)).toNat =
        (l, out)) :
    Digits l ∧ l.length = (Nat.digits 65536 a.natAbs).length ∧ out ≤ 1 ∧
      ∃ w, Nat.ofDigits 65536 l + 65536 ^ (Nat.digits 65536 a.natAbs).length * out = w + c.toNat ∧
        ∀ i, w.testBit i =
          (decide (i < 16 * (Nat.digits 65536 a.natAbs).length) && f (a.testBit i) (b.testBit i)) := by
  obtain ⟨hlength, hdig, hout, w, hval, hbits⟩ := signedLoop_spec (xor_mask_lt (decide (a < 0)))
    (xor_mask_lt (decide (b < 0))) hop (digits_digits a.natAbs) (digits_digits b.natAbs) (toNat_le_one c)
    (toNat_le_one (decide (a < 0))) (toNat_le_one (decide (b < 0)))
  rw [hl] at hlength hdig hout hval
  refine ⟨hdig, hlength, hout, w, hval, ?_⟩
  intro i
  rw [hbits]
  by_cases hi : i < 16 * (Nat.digits 65536 a.natAbs).length
  · rw [testBit_stream le_rfl hi, testBit_stream hlen hi]
  · rw [decide_eq_false hi, Bool.false_and, Bool.false_and]

/-! ### And, or, exclusive or -/

theorem ofDigits_zipWith_and {j k : List ℕ} (hj : Digits j) (hk : Digits k) :
    Nat.ofDigits 65536 (List.zipWith (· &&& ·) j k) = Nat.ofDigits 65536 j &&& Nat.ofDigits 65536 k := by
  induction j generalizing k with
  | nil => simp
  | cons d j ih =>
      cases k with
      | nil => simp
      | cons e k =>
          have hde : d &&& e < 65536 := lt_of_le_of_lt Nat.and_le_left hj.head
          apply Nat.eq_of_testBit_eq
          intro i
          rw [List.zipWith_cons_cons, Nat.ofDigits_cons, ih hj.tail hk.tail, Nat.ofDigits_cons, Nat.ofDigits_cons,
            Nat.testBit_and, testBit_digit_add hde, testBit_digit_add hj.head, testBit_digit_add hk.head]
          split
          · exact Nat.testBit_and d e i
          · exact Nat.testBit_and _ _ _

theorem digits_zipWith_and {j k : List ℕ} (hj : Digits j) : Digits (List.zipWith (· &&& ·) j k) := by
  intro d hd
  obtain ⟨i, hi, hd⟩ := List.getElem_of_mem hd
  rw [List.getElem_zipWith] at hd
  rw [← hd]
  exact lt_of_le_of_lt Nat.and_le_left (hj _ (List.getElem_mem _))

theorem mpnAnd_digits (m n : ℕ) : mpnAnd (Nat.digits 65536 m) (Nat.digits 65536 n) = Nat.digits 65536 (m &&& n) := by
  rw [mpnAnd, mpnRemoveTrailingZeros,
    rdropWhile_zero_eq_digits (by decide) (digits_zipWith_and (digits_digits m)),
    ofDigits_zipWith_and (digits_digits m) (digits_digits n), Nat.ofDigits_digits, Nat.ofDigits_digits]

section CopyLoop

variable {op : ℕ → ℕ → ℕ} {f : Bool → Bool → Bool} (hbits : ∀ x y i, (op x y).testBit i = f (x.testBit i) (y.testBit i))
  (hf : ∀ p, f p false = p) (hlt : ∀ x < 65536, ∀ y < 65536, op x y < 65536)

include hlt in
theorem digits_copyLoop {j k : List ℕ} (hj : Digits j) (hk : Digits k) : Digits (copyLoop op j k) := by
  induction j generalizing k with
  | nil => cases k <;> exact digits_nil
  | cons d j ih =>
      cases k with
      | nil => exact hj
      | cons e k => exact (ih hj.tail hk.tail).cons (hlt d hj.head e hk.head)

theorem length_copyLoop (j k : List ℕ) : (copyLoop op j k).length = j.length := by
  induction j generalizing k with
  | nil => cases k <;> rfl
  | cons d j ih =>
      cases k with
      | nil => rfl
      | cons e k => exact congrArg (· + 1) (ih k)

include hbits hf hlt in
theorem testBit_copyLoop {j k : List ℕ} (hj : Digits j) (hk : Digits k) (hlen : k.length ≤ j.length) (i : ℕ) :
    (Nat.ofDigits 65536 (copyLoop op j k)).testBit i =
      f ((Nat.ofDigits 65536 j).testBit i) ((Nat.ofDigits 65536 k).testBit i) := by
  induction j generalizing k i with
  | nil =>
      rw [List.eq_nil_of_length_eq_zero (Nat.le_zero.mp hlen), copyLoop, Nat.ofDigits_nil, Nat.zero_testBit, hf]
  | cons d j ih =>
      cases k with
      | nil => rw [copyLoop, Nat.ofDigits_nil, Nat.zero_testBit, hf]
      | cons e k =>
          rw [copyLoop, Nat.ofDigits_cons, Nat.ofDigits_cons, Nat.ofDigits_cons,
            testBit_digit_add (hlt d hj.head e hk.head), testBit_digit_add hj.head, testBit_digit_add hk.head]
          split
          · exact hbits d e i
          · exact ih hj.tail hk.tail (Nat.le_of_succ_le_succ hlen) _

end CopyLoop

theorem or_digit_lt : ∀ x < 65536, ∀ y < 65536, x ||| y < 65536 :=
  fun _ hx _ hy => Nat.or_lt_two_pow (n := 16) hx hy

theorem xor_digit_lt : ∀ x < 65536, ∀ y < 65536, x ^^^ y < 65536 :=
  fun _ hx _ hy => Nat.xor_lt_two_pow (n := 16) hx hy

theorem mpnOr_digits {m n : ℕ} (hlen : (Nat.digits 65536 n).length ≤ (Nat.digits 65536 m).length) :
    mpnOr (Nat.digits 65536 m) (Nat.digits 65536 n) = Nat.digits 65536 (m ||| n) := by
  have hval : Nat.ofDigits 65536 (mpnOr (Nat.digits 65536 m) (Nat.digits 65536 n)) = m ||| n := by
    apply Nat.eq_of_testBit_eq
    intro i
    rw [mpnOr, testBit_copyLoop Nat.testBit_or Bool.or_false or_digit_lt (digits_digits m) (digits_digits n) hlen,
      Nat.ofDigits_digits, Nat.ofDigits_digits, Nat.testBit_or]
  apply eq_digits_of_le (by decide) (digits_copyLoop or_digit_lt (digits_digits m) (digits_digits n)) hval
  intro hne
  rw [length_copyLoop]
  have hm : Nat.digits 65536 m ≠ [] := by
    intro hm
    rw [hm, List.length_nil, Nat.le_zero, List.length_eq_zero_iff] at hlen
    rw [hm, hlen] at hne
    exact hne rfl
  exact (pow_length_le hm).trans Nat.left_le_or

theorem mpnXor_digits {m n : ℕ} (hlen : (Nat.digits 65536 n).length ≤ (Nat.digits 65536 m).length) :
    mpnXor (Nat.digits 65536 m) (Nat.digits 65536 n) = Nat.digits 65536 (m ^^^ n) := by
  rw [mpnXor, mpnRemoveTrailingZeros,
    rdropWhile_zero_eq_digits (by decide) (digits_copyLoop xor_digit_lt (digits_digits m) (digits_digits n))]
  congr 1
  apply Nat.eq_of_testBit_eq
  intro i
  rw [testBit_copyLoop Nat.testBit_xor Bool.xor_false xor_digit_lt (digits_digits m) (digits_digits n) hlen,
    Nat.ofDigits_digits, Nat.ofDigits_digits, Nat.testBit_xor]

/-- The operands can be exchanged. -/
theorem longerFirst_ofInt {op : Mpz → Mpz → Mpz} {g : ℤ → ℤ → ℤ} (hcomm : ∀ a b, g a b = g b a)
    (h : ∀ a b : ℤ, (Nat.digits 65536 b.natAbs).length ≤ (Nat.digits 65536 a.natAbs).length →
      op (ofInt a) (ofInt b) = ofInt (g a b)) (a b : ℤ) : longerFirst op (ofInt a) (ofInt b) = ofInt (g a b) := by
  rw [longerFirst]
  split
  · rename_i hless
    rw [h b a hless.le, hcomm]
  · rename_i hless
    exact h a b (not_lt.mp hless)

/-- An integer from what its bits are below the digits, and its sign. -/
theorem eq_complemented_of_bits {c : Bool} {w n : ℕ} {r : ℤ} (hbits : ∀ i < 16 * n, w.testBit i = (r.testBit i ^^ c))
    (hbeyond : ∀ i, 16 * n ≤ i → w.testBit i = false ∧ r.testBit i = c) : r = complemented c w := by
  apply eq_of_testBit
  intro i
  rw [testBit_complemented]
  by_cases hi : i < 16 * n
  · rw [hbits i hi, Bool.xor_assoc, Bool.xor_self, Bool.xor_false]
  · obtain ⟨hw, hr⟩ := hbeyond i (by omega)
    rw [hw, hr, Bool.false_xor]

theorem andInpl_ofInt (a b : ℤ) : andInpl (ofInt a) (ofInt b) = ofInt (Int.land a b) := by
  refine longerFirst_ofInt (fun a b => ?_) (fun a b hlen => ?_) a b
  · exact eq_of_testBit fun i => by rw [Int.testBit_land, Int.testBit_land, Bool.and_comm]
  split
  · rename_i hsigns
    rw [neg_ofInt, neg_ofInt] at hsigns
    rw [dig_ofInt, dig_ofInt]
    obtain ⟨m, hm⟩ := Int.eq_ofNat_of_zero_le (not_lt.mp (of_decide_eq_false hsigns.1))
    obtain ⟨n, hn⟩ := Int.eq_ofNat_of_zero_le (not_lt.mp (of_decide_eq_false hsigns.2))
    rw [hm, hn, Int.natAbs_natCast, Int.natAbs_natCast, mpnAnd_digits]
    exact mk_eq_ofInt rfl (decide_eq_false (by simp [Int.land])).symm
  · rename_i hsigns
    simp only [neg_ofInt, dig_ofInt] at hsigns ⊢
    have hc : (decide (a < 0) == decide (b < 0)) = (decide (a < 0) && decide (b < 0)) := by
      cases ha : decide (a < 0) <;> cases hb : decide (b < 0) <;> simp_all
    rw [hc, mpnAndNeg, andNegLoop_eq]
    obtain ⟨hdig, hlength, hout, w, hval, hbits⟩ := signedLoop_ints (decide (a < 0) && decide (b < 0))
      (o := fun x y => (x &&& y) ^^^ maskOf (decide (a < 0) && decide (b < 0)).toNat)
      (f := fun p q => (p && q) ^^ (decide (a < 0) && decide (b < 0)))
      (fun x y i => by rw [testBit_xor_mask, Nat.testBit_and]) hlen rfl
    rw [append_carry hout, digits_carried hdig hout hlength hval, ← ofInt_complemented]
    congr 1
    refine (eq_complemented_of_bits (n := (Nat.digits 65536 a.natAbs).length) (fun i hi => ?_) (fun i hi => ?_)).symm
    · rw [hbits, decide_eq_true hi, Bool.true_and, Int.testBit_land]
    · rw [hbits, decide_eq_false (not_lt.mpr hi), Bool.false_and, Int.testBit_land, testBit_beyond le_rfl hi,
        testBit_beyond hlen hi]
      exact ⟨rfl, rfl⟩

theorem lor_comm (a b : ℤ) : Int.lor a b = Int.lor b a :=
  eq_of_testBit fun i => by rw [Int.testBit_lor, Int.testBit_lor, Bool.or_comm]

/-- The result of an or lies between a negative operand and zero. -/
theorem lor_natAbs_le {a b : ℤ} {w : ℕ} (ha : a < 0) (h : Int.lor a b = complemented true w) : w + 1 ≤ a.natAbs := by
  obtain ⟨x, hx⟩ := Int.eq_negSucc_of_lt_zero ha
  have hand : w &&& x = w := by
    apply Nat.eq_of_testBit_eq
    intro i
    have hbit := congrArg (Int.testBit · i) h
    simp only [Int.testBit_lor, testBit_complemented] at hbit
    have hsign : a.testBit i = !x.testBit i := by
      rw [hx]
      rfl
    rw [Nat.testBit_and]
    rw [hsign] at hbit
    cases hw : w.testBit i <;> cases hxi : x.testBit i <;> simp [hw, hxi] at hbit ⊢
  have hle : w ≤ x := by
    rw [← hand]
    exact Nat.and_le_right
  rw [hx, Int.natAbs_negSucc]
  omega

/-- What `mpn_or_neg` gives, and its assertion that no carry is left. -/
theorem mpnOrNeg_ints {a b : ℤ} (hlen : (Nat.digits 65536 b.natAbs).length ≤ (Nat.digits 65536 a.natAbs).length)
    (hneg : (decide (a < 0) || decide (b < 0)) = true) :
    (⟨true, mpnOrNeg (Nat.digits 65536 a.natAbs) (Nat.digits 65536 b.natAbs) (decide (a < 0)).toNat
        (decide (b < 0)).toNat⟩ : Mpz) = ofInt (Int.lor a b) ∧
      (orNegLoop (maskOf (decide (a < 0)).toNat) (maskOf (decide (b < 0)).toNat) (Nat.digits 65536 a.natAbs)
        (Nat.digits 65536 b.natAbs) 1 (decide (a < 0)).toNat (decide (b < 0)).toNat).2 = 0 := by
  obtain ⟨hdig, hlength, hout, w, hval, hbits⟩ := signedLoop_ints true (o := fun x y => (x ||| y) ^^^ 65535)
    (f := fun p q => (p || q) ^^ true) (fun x y i => by rw [← Nat.testBit_or]; exact testBit_xor_mask true _ i) hlen rfl
  have hres : Int.lor a b = complemented true w := by
    refine eq_complemented_of_bits (n := (Nat.digits 65536 a.natAbs).length) (fun i hi => ?_) (fun i hi => ?_)
    · rw [hbits, decide_eq_true hi, Bool.true_and, Int.testBit_lor]
    · rw [hbits, decide_eq_false (not_lt.mpr hi), Bool.false_and, Int.testBit_lor, testBit_beyond le_rfl hi,
        testBit_beyond hlen hi]
      exact ⟨rfl, hneg⟩
  -- the result lies between the negative operand and zero
  have hsmall : w + 1 < 65536 ^ (Nat.digits 65536 a.natAbs).length := by
    rw [Bool.or_eq_true, decide_eq_true_eq, decide_eq_true_eq] at hneg
    rcases hneg with ha | hb
    · exact (lor_natAbs_le ha hres).trans_lt (Nat.lt_base_pow_length_digits (by decide))
    · calc w + 1 ≤ b.natAbs := lor_natAbs_le hb ((lor_comm b a).trans hres)
        _ < 65536 ^ (Nat.digits 65536 b.natAbs).length := Nat.lt_base_pow_length_digits (by decide)
        _ ≤ 65536 ^ (Nat.digits 65536 a.natAbs).length := Nat.pow_le_pow_right (by decide) hlen
  rw [Bool.toNat_true] at hval hdig hlength hout
  rw [mpnOrNeg, orNegLoop_eq]
  generalize signedLoop _ _ _ _ _ _ _ _ = s at *
  have hzero : s.2 = 0 := by
    by_contra hne
    rw [show s.2 = 1 by omega] at hval
    omega
  refine ⟨?_, hzero⟩
  rw [hzero, Nat.mul_zero, Nat.add_zero] at hval
  rw [mpnRemoveTrailingZeros, rdropWhile_zero_eq_digits (by decide) hdig, hval, hres, ofInt_complemented]
  rfl

theorem orInpl_ofInt (a b : ℤ) : orInpl (ofInt a) (ofInt b) = ofInt (Int.lor a b) := by
  refine longerFirst_ofInt lor_comm (fun a b hlen => ?_) a b
  split
  · rename_i hsigns
    rw [neg_ofInt, neg_ofInt] at hsigns
    rw [dig_ofInt, dig_ofInt, mpnOr_digits hlen]
    obtain ⟨m, hm⟩ := Int.eq_ofNat_of_zero_le (not_lt.mp (of_decide_eq_false hsigns.1))
    obtain ⟨n, hn⟩ := Int.eq_ofNat_of_zero_le (not_lt.mp (of_decide_eq_false hsigns.2))
    rw [hm, hn, Int.natAbs_natCast, Int.natAbs_natCast]
    exact mk_eq_ofInt rfl (decide_eq_false (by simp [Int.lor])).symm
  · rename_i hsigns
    simp only [neg_ofInt, dig_ofInt] at hsigns ⊢
    apply (mpnOrNeg_ints hlen _).1
    cases ha : decide (a < 0) <;> cases hb : decide (b < 0) <;> simp_all

/-- The digits that `mpn_xor_neg` combines: a negative number less one. -/
theorem testBit_stream_pred {a : ℤ} {n : ℕ} (hn : (Nat.digits 65536 a.natAbs).length ≤ n) (i : ℕ) :
    (Nat.ofDigits 65536 (stream (· + 65535) n (Nat.digits 65536 a.natAbs) (!decide (a < 0)).toNat)).testBit i =
      (a.testBit i ^^ decide (a < 0)) := by
  match a with
  | .ofNat m =>
      rw [decide_eq_false (by simp)]
      rw [ofDigits_stream_pred (digits_digits _) hn (by decide) (by simp), Nat.ofDigits_digits, Bool.xor_false]
      rfl
  | .negSucc m =>
      rw [decide_eq_true (Int.negSucc_lt_zero m)]
      rw [ofDigits_stream_pred (digits_digits _) hn (by decide) (by rw [Nat.ofDigits_digits]; simp), Nat.ofDigits_digits]
      exact (Bool.not_not _).symm.trans (Bool.xor_true _).symm

theorem mpnXorNeg_ints {a b : ℤ} (hlen : (Nat.digits 65536 b.natAbs).length ≤ (Nat.digits 65536 a.natAbs).length) :
    (⟨decide (a < 0) != decide (b < 0), mpnXorNeg (Nat.digits 65536 a.natAbs) (Nat.digits 65536 b.natAbs)
        (decide (a < 0) != decide (b < 0)).toNat (!decide (a < 0)).toNat (!decide (b < 0)).toNat⟩ : Mpz) =
      ofInt (Int.xor a b) := by
  obtain ⟨hlength, hdig, hout, w, hval, hbits⟩ := signedLoop_spec (g := (· + 65535)) (h := (· + 65535)) (f := Bool.xor)
    (o := (· ^^^ ·)) (fun d hd => by omega) (fun d hd => by omega)
    (fun x y i => by rw [testBit_mod, Nat.testBit_xor]) (digits_digits a.natAbs) (digits_digits b.natAbs)
    (toNat_le_one (decide (a < 0) != decide (b < 0))) (toNat_le_one (!decide (a < 0))) (toNat_le_one (!decide (b < 0)))
  rw [mpnXorNeg, xorNegLoop_eq, append_carry hout, digits_carried hdig hout hlength hval, ← ofInt_complemented]
  congr 1
  refine (eq_complemented_of_bits (n := (Nat.digits 65536 a.natAbs).length) (fun i hi => ?_) (fun i hi => ?_)).symm
  · rw [hbits, decide_eq_true hi, Bool.true_and, Int.testBit_lxor, testBit_stream_pred le_rfl, testBit_stream_pred hlen]
    cases a.testBit i <;> cases b.testBit i <;> cases decide (a < 0) <;> cases decide (b < 0) <;> rfl
  · rw [hbits, decide_eq_false (not_lt.mpr hi), Bool.false_and, Int.testBit_lxor, testBit_beyond le_rfl hi,
      testBit_beyond hlen hi]
    exact ⟨rfl, (congrFun₂ Bool.bne_eq_xor _ _).symm⟩

theorem xorInpl_ofInt (a b : ℤ) : xorInpl (ofInt a) (ofInt b) = ofInt (Int.xor a b) := by
  refine longerFirst_ofInt (fun a b => ?_) (fun a b hlen => ?_) a b
  · exact eq_of_testBit fun i => by rw [Int.testBit_lxor, Int.testBit_lxor, Bool.xor_comm]
  have hres := mpnXorNeg_ints hlen
  split
  · rename_i hsame
    rw [neg_ofInt, neg_ofInt] at hsame
    rw [← hsame, bne_self_eq_false] at hres
    split
    · rename_i hpos
      rw [neg_ofInt] at hpos
      rw [dig_ofInt, dig_ofInt, mpnXor_digits hlen]
      obtain ⟨m, hm⟩ := Int.eq_ofNat_of_zero_le (not_lt.mp (of_decide_eq_false hpos))
      obtain ⟨n, hn⟩ := Int.eq_ofNat_of_zero_le (not_lt.mp (of_decide_eq_false (hsame.symm.trans hpos)))
      rw [hm, hn, Int.natAbs_natCast, Int.natAbs_natCast]
      exact mk_eq_ofInt rfl (decide_eq_false (by simp [Int.xor])).symm
    · rename_i hneg
      rw [neg_ofInt, Bool.not_eq_false] at hneg
      rw [hneg] at hres
      exact hres
  · rename_i hdiffer
    rw [neg_ofInt, neg_ofInt] at hdiffer
    rw [bne_iff_ne.mpr hdiffer] at hres
    exact hres

/-! ### Complement and shifts -/

theorem digits_one : Nat.digits 65536 1 = [1] := Nat.digits_of_lt 65536 1 one_ne_zero (by decide)

theorem notInpl_ofInt (a : ℤ) : notInpl (ofInt a) = ofInt (-a - 1) := by
  rw [notInpl, ← digits_one]
  split
  · rename_i hzero
    rw [dig_ofInt, length_digits_eq_zero] at hzero
    exact mk_eq_ofInt (by omega) (decide_eq_true (by omega)).symm
  · rename_i hne
    rw [dig_ofInt, length_digits_eq_zero] at hne
    rw [dig_ofInt]
    split
    · rename_i hneg
      rw [neg_ofInt, decide_eq_true_eq] at hneg
      rw [mpnSub_digits (by omega)]
      exact mk_eq_ofInt (by omega) (decide_eq_false (by omega)).symm
    · rename_i hneg
      rw [neg_ofInt, decide_eq_true_eq] at hneg
      rw [mpnAdd_digits (by omega)]
      exact mk_eq_ofInt (by omega) (decide_eq_true (by omega)).symm

theorem shlInpl_ofInt (a : ℤ) (k : ℕ) : shlInpl (ofInt a) k = ofInt (a * 2 ^ k) := by
  rw [shlInpl]
  split
  · rename_i h
    rw [dig_ofInt, length_digits_eq_zero] at h
    rcases h with hzero | hzero
    · rw [Int.natAbs_eq_zero.mp hzero, Int.zero_mul]
    · rw [hzero, pow_zero, Int.mul_one]
  · rename_i h
    rw [dig_ofInt, mpnShl_digits (by omega)]
    have hpos : (0 : ℤ) < 2 ^ k := by positivity
    refine mk_eq_ofInt ?_ (decide_eq_decide.mpr ?_)
    · rw [Int.natAbs_mul, Int.natAbs_pow]
      rfl
    · exact ⟨fun ha => mul_neg_of_neg_of_pos ha hpos, fun h => neg_of_mul_neg_left h hpos.le⟩

theorem any_ne_zero (l : List ℕ) : (l.any (· ≠ 0)) = decide (Nat.ofDigits 65536 l ≠ 0) := by
  induction l with
  | nil => rfl
  | cons d l ih =>
      rw [List.any_cons, ih, Nat.ofDigits_cons, ← Bool.decide_or, decide_eq_decide]
      omega

/-- The bits that are shifted out of the digit at the border. -/
theorem border_bits (m k : ℕ) :
    ((Nat.digits 65536 m).getD (k / 16) 0 &&& (1 <<< (k % 16) - 1)) = m / 65536 ^ (k / 16) % 2 ^ (k % 16) := by
  rw [Nat.shiftLeft_eq, Nat.one_mul, Nat.and_two_pow_sub_one_eq_mod, Nat.getD_digits _ _ (by decide)]
  exact Nat.mod_mod_of_dvd _ (Nat.pow_dvd_pow (a := 2) (n := 16) (by omega))

theorem roundUp_ofInt (a : ℤ) (k : ℕ) : roundUp (ofInt a) k = decide (a.natAbs % 2 ^ k ≠ 0) := by
  have hpow : 2 ^ k = 65536 ^ (k / 16) * 2 ^ (k % 16) := by
    conv_lhs => rw [← Nat.div_add_mod k 16, pow_add, pow_mul]
    rfl
  have hguard : (decide (k / 16 < (Nat.digits 65536 a.natAbs).length) &&
      decide (((Nat.digits 65536 a.natAbs).getD (k / 16) 0 &&& (1 <<< (k % 16) - 1)) ≠ 0)) =
        decide (a.natAbs / 65536 ^ (k / 16) % 2 ^ (k % 16) ≠ 0) := by
    rw [border_bits]
    by_cases hlt : k / 16 < (Nat.digits 65536 a.natAbs).length
    · rw [decide_eq_true hlt, Bool.true_and]
    · rw [decide_eq_false hlt, Bool.false_and]
      have hsmall : a.natAbs < 65536 ^ (k / 16) := (Nat.digits_length_le_iff (by decide) _).mp (not_lt.mp hlt)
      rw [Nat.div_eq_of_lt hsmall, Nat.zero_mod]
      rfl
  rw [roundUp, dig_ofInt, hguard, any_ne_zero, ← Nat.self_mod_pow_eq_ofDigits_take _ _ (by decide), hpow, Nat.mod_mul,
    ← Bool.decide_or, decide_eq_decide, ne_eq, ne_eq, ne_eq, Nat.add_eq_zero_iff, Nat.mul_eq_zero]
  have hne : 65536 ^ (k / 16) ≠ 0 := by positivity
  tauto

/-- The quotient of a negative number goes towards minus infinity. -/
theorem neg_ediv_pow (m k : ℕ) :
    (-(m : ℤ)) / 2 ^ k = -((m / 2 ^ k + (if m % 2 ^ k ≠ 0 then 1 else 0) : ℕ) : ℤ) := by
  have hpos : 0 < 2 ^ k := Nat.two_pow_pos k
  have hsplit := Nat.div_add_mod m (2 ^ k)
  have hrem := Nat.mod_lt m hpos
  rw [show (2 : ℤ) ^ k = ((2 ^ k : ℕ) : ℤ) by norm_num]
  generalize 2 ^ k = b at *
  generalize m / b = q at *
  generalize m % b = r at *
  split
  · refine ((Int.ediv_emod_unique (r := (b : ℤ) - r) (by omega)).mpr ⟨?_, by omega, by omega⟩).1
    rw [← hsplit]
    push_cast
    ring
  · have hzero : r = 0 := by omega
    refine ((Int.ediv_emod_unique (r := 0) (by omega)).mpr ⟨?_, by omega, by omega⟩).1
    rw [← hsplit, hzero]
    push_cast
    ring

theorem shrInpl_ofInt (a : ℤ) (k : ℕ) : shrInpl (ofInt a) k = ofInt (a / 2 ^ k) := by
  rw [shrInpl]
  split
  · rename_i h
    rw [dig_ofInt, length_digits_eq_zero] at h
    rcases h with hzero | hzero
    · rw [Int.natAbs_eq_zero.mp hzero, Int.zero_ediv]
    · rw [hzero, pow_zero, Int.ediv_one]
  · rw [roundUp_ofInt, dig_ofInt, mpnShr_digits, neg_ofInt]
    by_cases ha : a < 0
    · obtain ⟨m, hm⟩ : ∃ m : ℕ, a = -(m : ℤ) := ⟨a.natAbs, by omega⟩
      have habs : a.natAbs = m := by omega
      rw [habs, hm, neg_ediv_pow, decide_eq_true (by omega), Bool.true_and]
      by_cases hround : m % 2 ^ k ≠ 0
      · rw [if_pos (decide_eq_true hround), if_pos hround]
        generalize m / 2 ^ k = q
        have hdig : (if (Nat.digits 65536 q).length = 0 then [1] else mpnAdd (Nat.digits 65536 q) [1]) =
            Nat.digits 65536 (q + 1) := by
          split
          · rename_i hzero
            rw [(length_digits_eq_zero _).mp hzero, digits_one]
          · rename_i hne
            rw [length_digits_eq_zero] at hne
            rw [← digits_one, mpnAdd_digits (by omega)]
        rw [hdig]
        exact mk_eq_ofInt (by omega) (decide_eq_true (by omega)).symm
      · rw [if_neg (by simpa using hround), if_neg hround]
        have hpos : 0 < m / 2 ^ k := by
          have := Nat.div_add_mod m (2 ^ k)
          rcases Nat.eq_zero_or_pos (m / 2 ^ k) with hq | hq
          · rw [hq] at this
            omega
          · exact hq
        generalize m / 2 ^ k = q at *
        exact mk_eq_ofInt (by omega) (decide_eq_true (by omega)).symm
    · obtain ⟨m, hm⟩ := Int.eq_ofNat_of_zero_le (not_lt.mp ha)
      rw [decide_eq_false ha, Bool.false_and, if_neg Bool.false_ne_true, hm]
      exact mk_eq_ofInt rfl (decide_eq_false (Int.not_lt.mpr (by positivity))).symm

/-- The bitwise operators act on each bit of the infinite two's complement of their operands, whatever the signs and the
lengths, and never leave a leading zero or a negative zero. -/
theorem bitwise_exact {y z : Mpz} (hy : y.Valid) (hz : z.Valid) :
    ((andInpl y z).Valid ∧ ∀ i, (andInpl y z).toInt.testBit i = (y.toInt.testBit i && z.toInt.testBit i)) ∧
      ((orInpl y z).Valid ∧ ∀ i, (orInpl y z).toInt.testBit i = (y.toInt.testBit i || z.toInt.testBit i)) ∧
      ((xorInpl y z).Valid ∧ ∀ i, (xorInpl y z).toInt.testBit i = (y.toInt.testBit i ^^ z.toInt.testBit i)) ∧
      ((notInpl y).Valid ∧ ∀ i, (notInpl y).toInt.testBit i = !y.toInt.testBit i) := by
  rw [hy.eq_ofInt, hz.eq_ofInt]
  generalize y.toInt = a
  generalize z.toInt = b
  rw [andInpl_ofInt, orInpl_ofInt, xorInpl_ofInt, notInpl_ofInt]
  simp only [toInt_ofInt]
  refine ⟨⟨valid_ofInt _, Int.testBit_land a b⟩, ⟨valid_ofInt _, Int.testBit_lor a b⟩,
    ⟨valid_ofInt _, Int.testBit_lxor a b⟩, valid_ofInt _, fun i => ?_⟩
  have hnot : -a - 1 = Int.lnot a := by
    cases a with
    | ofNat m =>
        rw [Int.lnot, Int.negSucc_eq, Int.ofNat_eq_natCast]
        ring
    | negSucc m =>
        rw [Int.lnot, Int.negSucc_eq]
        ring
  rw [hnot, Int.testBit_lnot]

theorem bitwise_exact_mixed :
    ((andInpl (ofInt (-5)) (ofInt 70000)).Valid ∧ ∀ i, (andInpl (ofInt (-5)) (ofInt 70000)).toInt.testBit i =
        ((ofInt (-5)).toInt.testBit i && (ofInt 70000).toInt.testBit i)) ∧
      ((orInpl (ofInt (-5)) (ofInt 70000)).Valid ∧ ∀ i, (orInpl (ofInt (-5)) (ofInt 70000)).toInt.testBit i =
        ((ofInt (-5)).toInt.testBit i || (ofInt 70000).toInt.testBit i)) ∧
      ((xorInpl (ofInt (-5)) (ofInt 70000)).Valid ∧ ∀ i, (xorInpl (ofInt (-5)) (ofInt 70000)).toInt.testBit i =
        ((ofInt (-5)).toInt.testBit i ^^ (ofInt 70000).toInt.testBit i)) ∧
      ((notInpl (ofInt (-5))).Valid ∧ ∀ i, (notInpl (ofInt (-5))).toInt.testBit i =
        !(ofInt (-5)).toInt.testBit i) :=
  bitwise_exact (valid_ofInt _) (valid_ofInt _)

end CalSci.Mpz
