import Mathlib.Data.List.DropRight
import Mathlib.Data.Nat.Digits.Lemmas
import Mathlib.Tactic.Ring
import Mathlib.Tactic.Linarith

/-! Numbers as lists of digits, lowest first, in any base. A list without a leading zero is `Nat.digits` of its value,
and the quotient of the leading digits bounds the quotient of the numbers. -/

namespace DigitLists

variable {b n : ℕ} {l : List ℕ}

theorem eq_digits (hb : 1 < b) (hlt : ∀ d ∈ l, d < b) (hlast : ∀ h : l ≠ [], l.getLast h ≠ 0)
    (hval : Nat.ofDigits b l = n) : l = b.digits n := by
  rw [← hval, Nat.digits_ofDigits b hb l hlt hlast]

/-- A number too large for fewer digits has no leading zero. -/
theorem eq_digits_of_le (hb : 1 < b) (hlt : ∀ d ∈ l, d < b) (hval : Nat.ofDigits b l = n)
    (hle : l ≠ [] → b ^ (l.length - 1) ≤ n) : l = b.digits n := by
  apply eq_digits hb hlt _ hval
  intro hl hzero
  have hsplit := List.dropLast_append_getLast hl
  rw [hzero] at hsplit
  have hshort : Nat.ofDigits b l.dropLast < b ^ l.dropLast.length :=
    Nat.ofDigits_lt_base_pow_length hb fun d hd => hlt d (List.mem_of_mem_dropLast hd)
  have heq : Nat.ofDigits b l = Nat.ofDigits b l.dropLast := by
    rw [← hsplit, Nat.ofDigits_append, List.dropLast_append_cons]
    simp
  rw [List.length_dropLast] at hshort
  have := hle hl
  omega

theorem ofDigits_rdropWhile_zero (l : List ℕ) : Nat.ofDigits b (l.rdropWhile (· = 0)) = Nat.ofDigits b l := by
  induction l using List.reverseRecOn with
  | nil => rw [List.rdropWhile_nil]
  | append_singleton l d ih =>
      by_cases hd : d = 0
      · rw [List.rdropWhile_concat_pos _ _ _ (by simpa using hd), ih, hd, Nat.ofDigits_append]
        simp
      · rw [List.rdropWhile_concat_neg _ _ _ (by simpa using hd)]

/-- Without its leading zeros a list is the digits of its value. -/
theorem rdropWhile_zero_eq_digits (hb : 1 < b) (hlt : ∀ d ∈ l, d < b) :
    l.rdropWhile (· = 0) = b.digits (Nat.ofDigits b l) := by
  apply eq_digits hb _ _ (ofDigits_rdropWhile_zero l)
  · exact fun d hd => hlt d ((List.rdropWhile_prefix (· = 0) (l := l)).subset hd)
  · intro h hzero
    exact List.rdropWhile_last_not (· = 0) l h (by simpa using hzero)

/-- A digit more. -/
theorem ofDigits_concat (l : List ℕ) (d : ℕ) : Nat.ofDigits b (l ++ [d]) = Nat.ofDigits b l + b ^ l.length * d := by
  rw [Nat.ofDigits_append, Nat.ofDigits_singleton]

/-- The highest digit decides. -/
theorem ofDigits_concat_lt (hb : 1 < b) {l' : List ℕ} (hlt : ∀ d ∈ l, d < b) (hlength : l.length = l'.length) {d e : ℕ}
    (hde : d < e) : Nat.ofDigits b (l ++ [d]) < Nat.ofDigits b (l' ++ [e]) := by
  rw [ofDigits_concat, ofDigits_concat, ← hlength]
  calc Nat.ofDigits b l + b ^ l.length * d < b ^ l.length + b ^ l.length * d :=
        Nat.add_lt_add_right (Nat.ofDigits_lt_base_pow_length hb hlt) _
    _ = b ^ l.length * (d + 1) := by ring
    _ ≤ b ^ l.length * e := Nat.mul_le_mul_left _ hde
    _ ≤ Nat.ofDigits b l' + b ^ l.length * e := Nat.le_add_left _ _

/-- With a digit more below. -/
theorem ofDigits_lt_of_drop_one {m : ℕ} (hb : 0 < b) (hlt : ∀ d ∈ l, d < b) (h : Nat.ofDigits b (l.drop 1) < m) :
    Nat.ofDigits b l < m * b := by
  cases l with
  | nil =>
      rw [List.drop_nil, Nat.ofDigits_nil] at h
      exact Nat.mul_pos h hb
  | cons d l =>
      have hd : d < b := hlt d List.mem_cons_self
      rw [List.drop_one, List.tail_cons] at h
      rw [Nat.ofDigits_cons]
      calc d + b * Nat.ofDigits b l < b + b * Nat.ofDigits b l := Nat.add_lt_add_right hd _
        _ = (Nat.ofDigits b l + 1) * b := by ring
        _ ≤ m * b := Nat.mul_le_mul_right b h

theorem lt_of_length_digits_lt {m : ℕ} (h : (b.digits m).length < (b.digits n).length) : m < n := by
  by_contra hle
  have := Nat.le_length_digits_le b n m (Nat.le_of_not_lt hle)
  omega

/-! ### Carries -/

/-- Digits, and after them a carry if there is one. -/
def carried (l : List ℕ) (out : ℕ) : List ℕ := if out ≠ 0 then l ++ [out] else l

theorem ofDigits_carried (l : List ℕ) (out : ℕ) :
    Nat.ofDigits b (carried l out) = Nat.ofDigits b l + b ^ l.length * out := by
  unfold carried
  split
  · exact ofDigits_concat l out
  · have hout : out = 0 := by omega
    rw [hout, Nat.mul_zero, Nat.add_zero]

theorem carried_cons (d : ℕ) (l : List ℕ) (out : ℕ) : carried (d :: l) out = d :: carried l out := by
  unfold carried
  split <;> rfl

theorem carried_lt {out : ℕ} (hlt : ∀ d ∈ l, d < b) (hout : out < b) : ∀ d ∈ carried l out, d < b := by
  unfold carried
  split
  · intro d hd
    rcases List.mem_append.mp hd with hd | hd
    · exact hlt d hd
    · rw [List.mem_singleton.mp hd]
      exact hout
  · exact hlt

theorem carried_length_le (l : List ℕ) (out : ℕ) : (carried l out).length ≤ l.length + 1 := by
  unfold carried
  split
  · rw [List.length_append, List.length_singleton]
  · omega

/-- Digits and a carry have no leading zero if the number is too large for fewer digits. -/
theorem carried_eq_digits (hb : 1 < b) {out : ℕ} (hlt : ∀ d ∈ l, d < b) (hout : out < b)
    (hval : Nat.ofDigits b l + b ^ l.length * out = n) (hle : l ≠ [] → b ^ (l.length - 1) ≤ n) :
    carried l out = b.digits n := by
  apply eq_digits_of_le hb (carried_lt hlt hout) ((ofDigits_carried l out).trans hval)
  unfold carried
  split
  · intro _
    rw [List.length_append, List.length_singleton, Nat.add_sub_cancel]
    calc b ^ l.length ≤ b ^ l.length * out := Nat.le_mul_of_pos_right _ (by omega)
      _ ≤ n := by omega
  · exact hle

/-! ### Estimates of a quotient -/

section Estimate

variable {d e : ℕ}

/-- The estimate from the leading digits is never too small. -/
theorem div_le_estimate (hlead : 0 < d / e) : n / d ≤ n / e / (d / e) := by
  have he : 0 < e := by
    by_contra h
    have : e = 0 := by omega
    rw [this, Nat.div_zero] at hlead
    omega
  rw [Nat.div_div_eq_div_mul]
  exact Nat.div_le_div_left (Nat.mul_div_le d e) (Nat.mul_pos he hlead)

/-- It is at most one more than the base if the leading digit is at least half of it. -/
theorem estimate_le (he : 0 < e) (hlead : b ≤ 2 * (d / e)) (hn : n < d * b) :
    n / e / (d / e) ≤ b + 1 := by
  have hd : d < e * (d / e + 1) := Nat.lt_mul_div_succ d he
  have hne : n / e < (d / e + 1) * b := by
    apply Nat.div_lt_of_lt_mul
    calc n < d * b := hn
      _ ≤ e * (d / e + 1) * b := Nat.mul_le_mul_right b hd.le
      _ = e * ((d / e + 1) * b) := by ring
  have hlt : n / e < d / e * (b + 2) := by
    calc n / e < (d / e + 1) * b := hne
      _ = d / e * b + b := by ring
      _ ≤ d / e * b + d / e * 2 := by omega
      _ = d / e * (b + 2) := by ring
  have := Nat.div_lt_of_lt_mul hlt
  omega

end Estimate

end DigitLists
