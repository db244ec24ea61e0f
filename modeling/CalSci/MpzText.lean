import CalSci.MpzBits

/-! Long integers as texts: `mpz_as_str_inpl`, as `str` calls it (without a prefix and without separators), and
`mpz_set_from_str`, which reads what follows a sign. -/

namespace CalSci.Mpz

open DigitLists

/-! ### Writing -/

/-- One pass over the digits, from the highest on: the digits divided by the base, and the remainder. -/
def divBase (base : ℕ) (dig : List ℕ) : List ℕ × ℕ :=
  dig.foldr (fun d s => ((dbl (s.2 <<< 16) ||| d) / base % 65536 :: s.1, (dbl (s.2 <<< 16) ||| d) % base)) ([], 0)

def digitChar (baseChar : Char) (a : ℕ) : Char :=
  if a + 48 > 57 then Char.ofNat (a + 48 + (baseChar.toNat - 57 - 1)) else Char.ofNat (a + 48)

/-- The loop of `mpz_as_str_inpl`, lowest character first; a number has at most sixteen bits for each digit. -/
def asStrLoop (base : ℕ) (baseChar : Char) : ℕ → List ℕ → List Char
  | 0, _ => []
  | turns + 1, dig =>
      digitChar baseChar (divBase base dig).2 ::
        if (divBase base dig).1.any (· ≠ 0) then asStrLoop base baseChar turns (divBase base dig).1 else []

def asStr (i : Mpz) (base : ℕ) (baseChar : Char) : List Char :=
  if i.dig.length = 0 then ['0']
  else (asStrLoop base baseChar (16 * i.dig.length) i.dig ++ (if i.neg then ['-'] else [])).reverse

/-! ### Reading -/

/-- The value of a character, before it is compared with the base. -/
def charDigit (v : Char) : Option ℕ :=
  if '0' ≤ v ∧ v ≤ '9' then some (v.toNat - 48)
  else if 'A' ≤ v ∧ v ≤ 'Z' then some (v.toNat - 55)
  else if 'a' ≤ v ∧ v ≤ 'z' then some (v.toNat - 87)
  else none

/-- The loop of `mpz_set_from_str`: the digits, and how many characters have been read. -/
def setFromStrLoop (base : ℕ) : List Char → List ℕ → ℕ → List ℕ × ℕ
  | [], dig, cur => (dig, cur)
  | c :: str, dig, cur =>
      match charDigit c with
      | some v => if v ≥ base then (dig, cur) else setFromStrLoop base str (mpnMulDigAddDig dig base v) (cur + 1)
      | none => (dig, cur)

/-- `mpz_set_from_str`. -/
def setFromStr (str : List Char) (neg : Bool) (base : ℕ) : Mpz × ℕ :=
  (⟨neg, (setFromStrLoop base str [] 0).1⟩, (setFromStrLoop base str [] 0).2)

/-! ### What is written -/

section Base

variable {base : ℕ} (hlow : 2 ≤ base) (hhigh : base ≤ 32)

include hlow hhigh in
theorem divBase_spec {dig : List ℕ} (hdig : Digits dig) :
    Digits (divBase base dig).1 ∧ Nat.ofDigits 65536 (divBase base dig).1 = Nat.ofDigits 65536 dig / base ∧
      (divBase base dig).2 = Nat.ofDigits 65536 dig % base := by
  induction dig with
  | nil => exact ⟨digits_nil, by simp [divBase], by simp [divBase]⟩
  | cons d dig ih =>
      obtain ⟨hq, hval, hrem⟩ := ih hdig.tail
      have hd := hdig.head
      have hlt : (divBase base dig).2 < base := hrem ▸ Nat.mod_lt _ (by omega)
      have hstep : divBase base (d :: dig) = ((dbl ((divBase base dig).2 <<< 16) ||| d) / base % 65536 ::
        (divBase base dig).1, (dbl ((divBase base dig).2 <<< 16) ||| d) % base) := rfl
      rw [hstep, Nat.shiftLeft_eq, show (2 : ℕ) ^ 16 = 65536 by rfl, dbl_eq (by omega), or_eq_add hd]
      generalize (divBase base dig).2 = r at *
      generalize (divBase base dig).1 = q at *
      have hsmall : (r * 65536 + d) / base < 65536 := by
        rw [Nat.div_lt_iff_lt_mul (by omega)]
        nlinarith
      -- the quotient of what is above contributes whole digits
      have hsplit : Nat.ofDigits 65536 (d :: dig) =
          r * 65536 + d + base * (65536 * (Nat.ofDigits 65536 dig / base)) := by
        have := Nat.div_add_mod (Nat.ofDigits 65536 dig) base
        rw [Nat.ofDigits_cons, hrem]
        nlinarith
      refine ⟨hq.cons (Nat.mod_lt _ (by decide)), ?_, ?_⟩
      · rw [Nat.ofDigits_cons, Nat.mod_eq_of_lt hsmall, hval, hsplit, Nat.add_mul_div_left _ _ (by omega)]
      · rw [hsplit]
        exact (Nat.add_mul_mod_self_left _ _ _).symm

include hlow hhigh in
theorem asStrLoop_eq (baseChar : Char) {n : ℕ} {dig : List ℕ} (hdig : Digits dig) (hne : Nat.ofDigits 65536 dig ≠ 0)
    (hlt : Nat.ofDigits 65536 dig < 2 ^ n) :
    asStrLoop base baseChar n dig = (Nat.digits base (Nat.ofDigits 65536 dig)).map (digitChar baseChar) := by
  induction n generalizing dig with
  | zero =>
      rw [pow_zero] at hlt
      omega
  | succ n ih =>
      obtain ⟨hq, hval, hrem⟩ := divBase_spec hlow hhigh hdig
      rw [asStrLoop, Nat.digits_def' (by omega) (Nat.pos_of_ne_zero hne), List.map_cons, hrem, any_ne_zero, hval]
      congr 1
      split
      · rename_i hmore
        rw [decide_eq_true_eq] at hmore
        rw [ih hq (hval ▸ hmore), hval]
        rw [hval, Nat.div_lt_iff_lt_mul (by omega)]
        rw [pow_succ] at hlt
        nlinarith [Nat.two_pow_pos n]
      · rename_i hdone
        rw [decide_eq_true_eq, not_not] at hdone
        rw [hdone, Nat.digits_zero, List.map_nil]

theorem charDigit_digitChar {baseChar : Char} (hchar : baseChar = 'a' ∨ baseChar = 'A') {a : ℕ} (ha : a < 32) :
    charDigit (digitChar baseChar a) = some a := by
  rcases hchar with rfl | rfl
  · revert a
    decide
  · revert a
    decide

include hlow hhigh in
theorem setFromStrLoop_eq {baseChar : Char} (hchar : baseChar = 'a' ∨ baseChar = 'A') {l : List ℕ}
    (hl : ∀ d ∈ l, d < base) (m cur : ℕ) :
    setFromStrLoop base (l.map (digitChar baseChar)) (Nat.digits 65536 m) cur =
      (Nat.digits 65536 (l.foldl (fun v d => v * base + d) m), cur + l.length) := by
  induction l generalizing m cur with
  | nil => rfl
  | cons d l ih =>
      have hd : d < base := hl d List.mem_cons_self
      rw [List.map_cons, setFromStrLoop, charDigit_digitChar hchar (by omega)]
      simp only
      rw [if_neg (by omega), mpnMulDigAddDig_digits (by omega) (by omega) (by omega),
        ih (fun e he => hl e (List.mem_cons_of_mem d he)), List.foldl_cons, List.length_cons, Nat.add_assoc,
        Nat.add_comm 1]

end Base

/-- Reading back the text of a long integer gives the integer, in every base that is written, in small letters or
large. -/
theorem text_round_trip {z : Mpz} (hz : z.Valid) {base : ℕ} (hlow : 2 ≤ base) (hhigh : base ≤ 32) {baseChar : Char}
    (hchar : baseChar = 'a' ∨ baseChar = 'A') :
    ∃ str, asStr z base baseChar = (if z.neg then ['-'] else []) ++ str ∧
      setFromStr str z.neg base = (z, str.length) := by
  rw [hz.eq_ofInt]
  generalize z.toInt = n
  by_cases hzero : n = 0
  · subst hzero
    refine ⟨['0'], rfl, ?_⟩
    have hloop := setFromStrLoop_eq hlow hhigh hchar (l := [0]) (by simp; omega) 0 0
    rw [show [0].map (digitChar baseChar) = ['0'] by rfl, Nat.digits_zero] at hloop
    rw [show (ofInt 0).neg = false by rfl, setFromStr, hloop]
    simp [ofInt]
  · have hdig := digits_digits n.natAbs
    have hval := Nat.ofDigits_digits 65536 n.natAbs
    have hlt : Nat.ofDigits 65536 (Nat.digits 65536 n.natAbs) < 2 ^ (16 * (Nat.digits 65536 n.natAbs).length) := by
      rw [hval]
      exact lt_pow_of_length_digits_le le_rfl
    have hlen : (ofInt n).dig.length ≠ 0 := by
      rw [dig_ofInt, ne_eq, length_digits_eq_zero]
      omega
    refine ⟨((Nat.digits base n.natAbs).reverse).map (digitChar baseChar), ?_, ?_⟩
    · rw [asStr, if_neg hlen, dig_ofInt, asStrLoop_eq hlow hhigh baseChar hdig (by rw [hval]; omega) hlt, hval,
        List.reverse_append, ← List.map_reverse]
      congr 1
      split <;> rfl
    · have hloop := setFromStrLoop_eq hlow hhigh hchar (l := (Nat.digits base n.natAbs).reverse)
        (fun d hd => Nat.digits_lt_base (by omega) (List.mem_reverse.mp hd)) 0 0
      have hfold : (Nat.digits base n.natAbs).reverse.foldl (fun v d => v * base + d) 0 = n.natAbs := by
        rw [List.foldl_reverse]
        calc (Nat.digits base n.natAbs).foldr (fun d v => v * base + d) 0
            = Nat.ofDigits base (Nat.digits base n.natAbs) := by
              rw [Nat.ofDigits_eq_foldr]
              congr 1
              funext d v
              simp only [Nat.cast_id]
              ring
          _ = n.natAbs := Nat.ofDigits_digits base n.natAbs
      rw [hfold, Nat.digits_zero, Nat.zero_add] at hloop
      rw [setFromStr, hloop, List.length_map]
      rfl

theorem text_round_trip_hex : ∃ str, asStr (ofInt (-81985529216486895)) 16 'a' =
      (if (ofInt (-81985529216486895)).neg then ['-'] else []) ++ str ∧
    setFromStr str (ofInt (-81985529216486895)).neg 16 = (ofInt (-81985529216486895), str.length) :=
  text_round_trip (valid_ofInt _) (by decide) (by decide) (.inl rfl)

end CalSci.Mpz
