import CalSci.IntObjects
import CalSci.MpzBits
import CalSci.MpzPowers

/-! The operations on objects of type `int` compute what Python says of the integers, whichever of the two
representations the operands have. -/

namespace CalSci.IntObj

/-! ### The integer an object stands for -/

def Small (v : ℤ) : Prop := -1073741824 ≤ v ∧ v ≤ 1073741823

instance (v : ℤ) : Decidable (Small v) := inferInstanceAs (Decidable (_ ∧ _))

/-- An object stands for an integer. A long object may hold any integer, also one that would fit. -/
inductive Holds : IntObj → ℤ → Prop
  | small {v : ℤ} (h : Small v) : Holds (.small v) v
  | long (v : ℤ) : Holds (.long (Mpz.ofInt v)) v

/-- The object that an integer normally has. -/
def ofInt (v : ℤ) : IntObj := if Small v then .small v else .long (Mpz.ofInt v)

theorem holds_ofInt (v : ℤ) : Holds (ofInt v) v := by
  rw [ofInt]
  split
  · rename_i h
    exact .small h
  · exact .long v

/-- An object stands for one integer only. -/
theorem Holds.unique {x : IntObj} {v w : ℤ} (hv : Holds x v) (hw : Holds x w) : v = w := by
  cases hv with
  | small h =>
      cases hw with
      | small h' => rfl
  | long v =>
      generalize hz : Mpz.ofInt v = z at hw
      cases hw with
      | long w => rw [← Mpz.toInt_ofInt v, hz, Mpz.toInt_ofInt]

theorem toMpz_eq {x : IntObj} {v : ℤ} (h : Holds x v) : toMpz x = Mpz.ofInt v := by
  cases h with
  | small h => exact Mpz.setFromInt_eq (by have := h.1; omega) (by have := h.2; omega)
  | long v => rfl

theorem mpInt_eq {n : ℤ} (hlow : -2147483648 ≤ n) (hhigh : n < 2147483648) : mpInt n = n :=
  Int.bmod_eq_of_le (by omega) (by omega)

theorem newSmallInt_eq {n : ℤ} (h : Small n) : newSmallInt n = .small n :=
  congrArg IntObj.small (Int.bmod_eq_of_le (by have := h.1; omega) (by have := h.2; omega))

/-- The test of the two highest bits is the test of the bounds. -/
theorem smallIntFits_eq {n : ℤ} (hlow : -2147483648 ≤ n) (hhigh : n < 2147483648) :
    smallIntFits n = decide (Small n) := by
  have hand := Nat.and_two_pow (mpUint n ^^^ mpUint (2 * n)) 31
  rw [Nat.testBit_xor, Nat.testBit_eq_decide_div_mod_eq, Nat.testBit_eq_decide_div_mod_eq] at hand
  rw [smallIntFits, show (2147483648 : ℕ) = 2 ^ 31 by rfl, hand, decide_eq_decide]
  have hfirst : mpUint n / 2 ^ 31 % 2 = 1 ↔ n < 0 := by
    rw [mpUint]
    omega
  have hsecond : mpUint (2 * n) / 2 ^ 31 % 2 = 1 ↔ (1073741824 ≤ n ∨ n < 0 ∧ -1073741824 ≤ n) := by
    rw [mpUint]
    omega
  have hxor : ∀ p q : Bool, (p ^^ q).toNat * 2 ^ 31 = 0 ↔ p = q := by decide
  rw [hxor, decide_eq_decide, hfirst, hsecond]
  unfold Small
  omega

theorem newIntFromLl_eq {n : ℤ} (hlow : -2147483648 ≤ n) (hhigh : n < 2147483648) :
    newIntFromLl n = .long (Mpz.ofInt n) :=
  congrArg IntObj.long (Mpz.setFromLl_eq (by omega) (by omega))

theorem newInt_eq {n : ℤ} (hlow : -2147483648 ≤ n) (hhigh : n < 2147483648) : newInt n = ofInt n := by
  rw [newInt, ofInt, smallIntFits_eq hlow hhigh]
  by_cases h : Small n
  · rw [decide_eq_true h, if_pos rfl, if_pos h, newSmallInt_eq h]
  · rw [decide_eq_false h, if_neg Bool.false_ne_true, if_neg h, newIntFromLl_eq hlow hhigh]

/-- A result that fits becomes a small integer. -/
theorem normalised_ofInt (v : ℤ) : normalised (Mpz.ofInt v) = ofInt v := by
  rw [normalised, Mpz.asIntChecked_ofInt]
  by_cases hv : v.natAbs < 2147483648
  · rw [if_pos hv]
    simp only
    rw [smallIntFits_eq (by omega) (by omega), ofInt]
    by_cases h : Small v
    · rw [decide_eq_true h, if_pos rfl, if_pos h, newSmallInt_eq h]
    · rw [decide_eq_false h, if_neg Bool.false_ne_true, if_neg h]
  · rw [if_neg hv, ofInt, if_neg]
    rintro ⟨hlow, hhigh⟩
    omega

/-! ### What Python says

Up to a limit of this port: a shift count has to fit in a machine word. -/

def UnaryOp.value : UnaryOp → ℤ → ℤ
  | .positive, v => v
  | .negative, v => -v
  | .invert, v => -v - 1
  | .abs, v => |v|

def countOf (b : ℤ) : Except Failure ℕ :=
  if b.natAbs ≥ 2147483648 then .error wordOverflow
  else if b < 0 then .error negativeShiftCount
  else .ok b.toNat

/-- The operators with two operands, on exact integers: quotients towards minus infinity, remainders with the sign of the
divisor, bits of an infinite two's complement. -/
def BinaryOp.value (op : BinaryOp) (a b : ℤ) : Except Failure ℤ :=
  match op with
  | .or => .ok (Int.lor a b)
  | .xor => .ok (Int.xor a b)
  | .and => .ok (Int.land a b)
  | .lshift => (fun k : ℕ => a * 2 ^ k) <$> countOf b
  | .rshift => (fun k : ℕ => a / 2 ^ k) <$> countOf b
  | .add => .ok (a + b)
  | .subtract => .ok (a - b)
  | .multiply => .ok (a * b)
  | .floorDivide => if b = 0 then .error divideByZero else .ok (a.fdiv b)
  | .modulo => if b = 0 then .error divideByZero else .ok (a.fmod b)
  | .power => if b < 0 then .error .float else .ok (a ^ b.toNat)

/-! ### One operand -/

theorem unaryOp_holds {x : IntObj} {v : ℤ} (op : UnaryOp) (h : Holds x v) : Holds (unaryOp op x) (op.value v) := by
  cases h with
  | small h =>
      obtain ⟨hlow, hhigh⟩ := h
      have hneg : ∀ {u : ℤ}, Small u → Holds (if u = smallIntMin then newInt (-u) else newSmallInt (-u)) (-u) := by
        intro u hu
        obtain ⟨hu, hu'⟩ := hu
        split
        · rename_i heq
          rw [newInt_eq (by omega) (by omega)]
          exact holds_ofInt _
        · rename_i hne
          have hrange : Small (-u) := by
            constructor <;> simp only [smallIntMin] at hne <;> omega
          rw [newSmallInt_eq hrange]
          exact .small hrange
      cases op with
      | positive => exact .small ⟨hlow, hhigh⟩
      | negative => exact hneg ⟨hlow, hhigh⟩
      | invert =>
          have hrange : Small (-v - 1) := by
            constructor <;> omega
          rw [show unaryOp .invert (.small v) = .small (-v - 1) from newSmallInt_eq hrange]
          exact .small hrange
      | abs =>
          simp only [unaryOp, UnaryOp.value]
          by_cases hv : v ≥ 0
          · rw [if_pos hv, abs_of_nonneg hv]
            exact .small ⟨hlow, hhigh⟩
          · rw [if_neg hv, abs_of_neg (by omega)]
            exact hneg ⟨hlow, hhigh⟩
  | long v =>
      cases op with
      | positive => exact .long v
      | negative =>
          simp only [unaryOp, intUnaryOp, Mpz.negInpl_ofInt]
          exact .long (-v)
      | invert =>
          simp only [unaryOp, intUnaryOp, Mpz.notInpl_ofInt]
          exact .long (-v - 1)
      | abs =>
          simp only [unaryOp, intUnaryOp, Mpz.absInpl_ofInt, UnaryOp.value]
          split
          · rename_i hpos
            rw [Mpz.neg_ofInt, decide_eq_false_iff_not, not_lt] at hpos
            rw [abs_of_nonneg hpos]
            exact .long v
          · exact .long |v|

/-! ### The loops and tests on machine words -/

/-- `mp_small_int_mul_overflow` finds exactly the products that do not fit. -/
theorem smallIntMulOverflow_eq {x y : ℤ} : smallIntMulOverflow x y = decide (¬Small (x * y)) := by
  have hpos : ∀ {u v : ℤ}, 0 < v → (u > smallIntMax.tdiv v ↔ 1073741823 < u * v) := by
    intro u v hv
    rw [smallIntMax, Int.tdiv_eq_ediv_of_nonneg (by decide), gt_iff_lt, Int.ediv_lt_iff_lt_mul hv]
  have hmin : ∀ {u v : ℤ}, 0 < v → (u < smallIntMin.tdiv v ↔ u * v < -1073741824) := by
    intro u v hv
    rw [smallIntMin, Int.neg_tdiv, Int.tdiv_eq_ediv_of_nonneg (by decide), lt_neg,
      Int.ediv_lt_iff_lt_mul hv, Int.neg_mul]
    omega
  have hneg : ∀ {u v : ℤ}, v < 0 → (u < smallIntMax.tdiv v ↔ 1073741823 < u * v) := by
    intro u v hv
    have hdiv : smallIntMax.tdiv v = -(smallIntMax.tdiv (-v)) := by
      rw [Int.tdiv_neg, Int.neg_neg]
    rw [hdiv, smallIntMax, Int.tdiv_eq_ediv_of_nonneg (by decide), lt_neg,
      Int.ediv_lt_iff_lt_mul (by omega), Int.neg_mul_neg]
  unfold Small
  rw [smallIntMulOverflow]
  by_cases hx : x > 0 <;> by_cases hy : y > 0 <;> simp only [hx, hy, if_true, if_false]
  · rw [decide_eq_decide, hpos hy]
    have : 0 < x * y := Int.mul_pos hx hy
    omega
  · rw [decide_eq_decide, hmin hx, Int.mul_comm y x]
    have : x * y ≤ 0 := Int.mul_nonpos_of_nonneg_of_nonpos (by omega) (by omega)
    omega
  · rw [decide_eq_decide, hmin hy]
    have : x * y ≤ 0 := Int.mul_nonpos_of_nonpos_of_nonneg (by omega) (by omega)
    omega
  · by_cases hzero : x = 0
    · simp [hzero]
    · rw [← Bool.decide_and, decide_eq_decide, hneg (by omega), Int.mul_comm y x]
      have : 0 ≤ x * y := Int.mul_nonneg_of_nonpos_of_nonpos (by omega) (by omega)
      omega

theorem smallIntModulo_eq {a b : ℤ} (hb : Small b) (hne : b ≠ 0) : smallIntModulo a b = a.fmod b := by
  obtain ⟨hblow, hbhigh⟩ := hb
  have hsame := fun h => (Mpz.fdiv_fmod_of_same (a := a) hne h).2
  have hdiffer := fun h => Mpz.fdiv_fmod_of_different (a := a) hne h
  have hlt : a.natAbs % b.natAbs < b.natAbs := Nat.mod_lt _ (by omega)
  have htmod : a.tmod b = if a < 0 then -((a.natAbs % b.natAbs : ℕ) : ℤ) else ((a.natAbs % b.natAbs : ℕ) : ℤ) := by
    have habs := Int.natAbs_tmod a b
    split
    · have hsign := Int.tmod_nonneg (a := -a) b (by omega)
      rw [Int.neg_tmod] at hsign
      omega
    · have hsign := Int.tmod_nonneg (a := a) b (by omega)
      omega
  rw [smallIntModulo, htmod]
  generalize a.natAbs % b.natAbs = r at *
  by_cases hsigns : a < 0 ↔ b < 0
  · rw [hsame hsigns]
    rw [if_neg (by split <;> omega)]
  · obtain ⟨hzero, hpos⟩ := hdiffer hsigns
    by_cases hr : r = 0
    · rw [(hzero hr).2, if_neg (by split <;> omega)]
      split <;> omega
    · rw [(hpos hr).2, if_pos (by split <;> omega), mpInt_eq (by split <;> omega) (by split <;> omega)]

theorem smallIntFloorDivide_eq {a b : ℤ} (ha : Small a) (hb : Small b) (hne : b ≠ 0) :
    smallIntFloorDivide a b = a.fdiv b := by
  obtain ⟨halow, hahigh⟩ := ha
  obtain ⟨hblow, hbhigh⟩ := hb
  have hceil : ∀ {m d : ℤ}, 0 < d → (m + (d - 1)) / d = -(-m / d) := by
    intro m d hd
    have hsplit := Int.mul_ediv_add_emod (m + (d - 1)) d
    have hlow := Int.emod_nonneg (m + (d - 1)) hd.ne'
    have hhigh := Int.emod_lt_of_pos (m + (d - 1)) hd
    generalize (m + (d - 1)) / d = q at *
    have := ((Int.ediv_emod_unique (a := -m) (r := d * q - m) (q := -q) hd).mpr ⟨by ring, by omega, by omega⟩).1
    omega
  rw [smallIntFloorDivide]
  by_cases ha : a ≥ 0 <;> by_cases hb : b < 0 <;> simp only [ha, hb, if_true, if_false]
  · rw [mpInt_eq (by omega) (by omega), Int.tdiv_eq_ediv_of_nonneg (by omega), ← Int.neg_fdiv_neg,
      Int.fdiv_eq_ediv_of_nonneg _ (by omega)]
    have := hceil (m := a) (d := -b) (by omega)
    rw [Int.ediv_neg] at this
    omega
  · rw [Int.tdiv_eq_ediv_of_nonneg ha, Int.fdiv_eq_ediv_of_nonneg _ (by omega)]
  · rw [if_neg (by omega), ← Int.neg_fdiv_neg, Int.fdiv_eq_ediv_of_nonneg _ (by omega),
      ← Int.tdiv_eq_ediv_of_nonneg (by omega), Int.neg_tdiv, Int.tdiv_neg, Int.neg_neg]
  · rw [if_pos (by omega), mpInt_eq (by omega) (by omega), show a + (-b + 1) = -(-a + (b - 1)) by ring, Int.neg_tdiv,
      Int.tdiv_eq_ediv_of_nonneg (by omega), hceil (by omega), Int.neg_neg, Int.neg_neg,
      Int.fdiv_eq_ediv_of_nonneg _ (by omega)]

/-- If it does not overflow, the loop on small integers has the power. -/
theorem powerLoop_some {n : ℕ} {a b k v : ℤ} (ha : Small a) (hb : Small b) (hk : 0 ≤ k) (hlt : k < 2 ^ n)
    (h : powerLoop n a b k = some v) : v = a * b ^ k.toNat ∧ Small v := by
  induction n generalizing a b k with
  | zero =>
      have hzero : k = 0 := by
        rw [pow_zero] at hlt
        omega
      rw [powerLoop, Option.some.injEq] at h
      rw [← h, hzero]
      exact ⟨by simp, ha⟩
  | succ n ih =>
      rw [powerLoop] at h
      split at h
      · rename_i hpos
        split at h
        · exact absurd h (by simp)
        · rename_i hfits
          simp only [smallIntMulOverflow_eq, decide_eq_true_eq, not_and, not_not] at hfits
          -- the factor for the lowest bit of the exponent
          have hans : (if k % 2 = 1 then mpInt (a * b) else a) = a * b ^ (k % 2).toNat ∧
              Small (if k % 2 = 1 then mpInt (a * b) else a) := by
            split
            · rename_i hodd
              have hsmall := hfits hodd
              rw [mpInt_eq (by have := hsmall.1; omega) (by have := hsmall.2; omega), hodd]
              exact ⟨by simp, hsmall⟩
            · rename_i heven
              rw [show k % 2 = 0 by omega]
              exact ⟨by simp, ha⟩
          generalize (if k % 2 = 1 then mpInt (a * b) else a) = ans at h hans
          split at h
          · rename_i hone
            rw [Option.some.injEq] at h
            rw [← h, hone]
            rw [hone] at hans
            exact hans
          · split at h
            · exact absurd h (by simp)
            · rename_i hsquare
              simp only [smallIntMulOverflow_eq, decide_eq_true_eq, not_not] at hsquare
              rw [mpInt_eq (by have := hsquare.1; omega) (by have := hsquare.2; omega),
                Int.tdiv_eq_ediv_of_nonneg hk] at h
              rw [pow_succ] at hlt
              obtain ⟨hv, hsmall⟩ := ih hans.2 hsquare (by omega) (by omega) h
              refine ⟨?_, hsmall⟩
              rw [hv, hans.1, ← pow_two, ← pow_mul, mul_assoc, ← pow_add]
              congr 2
              omega
      · have hzero : k = 0 := by omega
        rw [Option.some.injEq] at h
        rw [← h, hzero]
        exact ⟨by simp, ha⟩

/-! ### Bounds of bits -/

/-- The bits of a number, if they are all the same from some place on, bound it. -/
theorem bounds_of_testBit {v : ℤ} {n : ℕ} {c : Bool} (h : ∀ i, n ≤ i → v.testBit i = c) : -2 ^ n ≤ v ∧ v < 2 ^ n := by
  match v with
  | .ofNat m =>
      have hc : c = false := by
        rw [← h (n + m) (by omega)]
        exact Mpz.testBit_far (by omega)
      have hlt : m < 2 ^ n := Nat.lt_pow_two_of_testBit m fun i hi => (h i hi).trans hc
      have : ((m : ℕ) : ℤ) < 2 ^ n := by exact_mod_cast hlt
      have hpos : (0 : ℤ) < 2 ^ n := by positivity
      rw [Int.ofNat_eq_natCast]
      omega
  | .negSucc m =>
      have hc : c = true := by
        rw [← h (n + m) (by omega)]
        exact congrArg not (Mpz.testBit_far (by omega))
      have hlt : m < 2 ^ n := Nat.lt_pow_two_of_testBit m fun i hi => by
        have := (h i hi).trans hc
        simpa [Int.testBit] using this
      have : ((m : ℕ) : ℤ) < 2 ^ n := by exact_mod_cast hlt
      rw [Int.negSucc_eq]
      omega

theorem testBit_of_small {a : ℤ} (h : Small a) {i : ℕ} (hi : 30 ≤ i) : a.testBit i = decide (a < 0) := by
  obtain ⟨hlow, hhigh⟩ := h
  have hpow : 2 ^ 30 ≤ 2 ^ i := Nat.pow_le_pow_right (by decide) hi
  cases a with
  | ofNat m =>
      rw [decide_eq_false (by simp)]
      rw [Int.ofNat_eq_natCast] at hhigh
      exact Nat.testBit_lt_two_pow (by omega)
  | negSucc m =>
      rw [decide_eq_true (Int.negSucc_lt_zero m)]
      rw [Int.negSucc_eq] at hlow
      exact congrArg not (Nat.testBit_lt_two_pow (by omega))

theorem bitwise_bounds {a b r : ℤ} {f : Bool → Bool → Bool} (ha : Small a) (hb : Small b)
    (hr : ∀ i, r.testBit i = f (a.testBit i) (b.testBit i)) : -2147483648 ≤ r ∧ r < 2147483648 := by
  have h := bounds_of_testBit (v := r) (n := 30) (c := f (decide (a < 0)) (decide (b < 0))) fun i hi => by
    rw [hr, testBit_of_small ha hi, testBit_of_small hb hi]
  constructor <;> norm_num at h <;> omega

/-! ### Two operands -/

theorem shiftCount_eq {y : IntObj} {b : ℤ} (h : Holds y b) : shiftCount y = countOf b := by
  have hcheck : getChecked y = if b.natAbs ≥ 2147483648 then .error wordOverflow else .ok b := by
    cases h with
    | small h =>
        obtain ⟨hlow, hhigh⟩ := h
        rw [if_neg (by omega)]
        rfl
    | long b =>
        rw [getChecked, Mpz.asIntChecked_ofInt]
        by_cases hb : b.natAbs < 2147483648
        · rw [if_pos hb, if_neg (by omega)]
        · rw [if_neg hb, if_pos (by omega)]
  rw [shiftCount, hcheck, countOf]
  by_cases hb : b.natAbs ≥ 2147483648
  · rw [if_pos hb, if_pos hb]
    rfl
  · rw [if_neg hb, if_neg hb]
    rfl

/-- The operation on long integers, whatever the operands are: only a power of nought is left open. -/
theorem intBinaryOp_eq {x y : IntObj} {a b : ℤ} (op : BinaryOp) (hx : Holds x a) (hy : Holds y b)
    (hpower : op = .power → a ≠ 0 ∨ b ≠ 0) : intBinaryOp op x y = ofInt <$> op.value a b := by
  have hz : Mpz.isZero (Mpz.ofInt b) = decide (b = 0) := Mpz.isZero_ofInt b
  rw [intBinaryOp]
  simp only [mpzBinaryOp, toMpz_eq hx, toMpz_eq hy, hz]
  cases op with
  | or => exact congrArg Except.ok (by rw [Mpz.orInpl_ofInt, normalised_ofInt])
  | xor => exact congrArg Except.ok (by rw [Mpz.xorInpl_ofInt, normalised_ofInt])
  | and => exact congrArg Except.ok (by rw [Mpz.andInpl_ofInt, normalised_ofInt])
  | lshift =>
      simp only [BinaryOp.value, shiftCount_eq hy]
      cases countOf b with
      | error e => rfl
      | ok k => exact congrArg Except.ok (by rw [Mpz.shlInpl_ofInt, normalised_ofInt])
  | rshift =>
      simp only [BinaryOp.value, shiftCount_eq hy]
      cases countOf b with
      | error e => rfl
      | ok k => exact congrArg Except.ok (by rw [Mpz.shrInpl_ofInt, normalised_ofInt])
  | add => exact congrArg Except.ok (by rw [Mpz.addInpl_ofInt, normalised_ofInt])
  | subtract => exact congrArg Except.ok (by rw [Mpz.subInpl_ofInt, normalised_ofInt])
  | multiply => exact congrArg Except.ok (by rw [Mpz.mulInpl_ofInt, normalised_ofInt])
  | floorDivide =>
      simp only [BinaryOp.value]
      by_cases hb : b = 0
      · rw [decide_eq_true hb, if_pos rfl, if_pos hb]
        rfl
      · rw [decide_eq_false hb, if_neg Bool.false_ne_true, if_neg hb, Mpz.divmodInpl_ofInt a hb]
        exact congrArg Except.ok (normalised_ofInt _)
  | modulo =>
      simp only [BinaryOp.value]
      by_cases hb : b = 0
      · rw [decide_eq_true hb, if_pos rfl, if_pos hb]
        rfl
      · rw [decide_eq_false hb, if_neg Bool.false_ne_true, if_neg hb, Mpz.divmodInpl_ofInt a hb]
        exact congrArg Except.ok (normalised_ofInt _)
  | power =>
      have hn : Mpz.isNeg (Mpz.ofInt b) = decide (b < 0) := rfl
      simp only [BinaryOp.value]
      by_cases hb : b < 0
      · rw [if_pos (hn.trans (decide_eq_true hb)), if_pos hb]
        rfl
      · obtain ⟨k, hk⟩ := Int.eq_ofNat_of_zero_le (not_lt.mp hb)
        rw [if_neg (by rw [hn, decide_eq_true_eq]; exact hb), if_neg hb, hk, Mpz.powInpl_ofInt, Int.toNat_natCast]
        have hres : (if a = 0 then 0 else a ^ k) = a ^ k := by
          split
          · rename_i ha
            rw [ha, zero_pow]
            have := hpower rfl
            omega
          · rfl
        rw [hres]
        exact congrArg Except.ok (normalised_ofInt _)

/-- Shifting by a word or more leaves the sign. -/
theorem shift_clipped {a : ℤ} (ha : Small a) {k : ℕ} (hk : 31 ≤ k) : a / 2 ^ k = a / 2 ^ 31 := by
  obtain ⟨hlow, hhigh⟩ := ha
  have hpow : (2 : ℤ) ^ 31 ≤ 2 ^ k := pow_le_pow_right₀ (by norm_num) hk
  norm_num only at hpow ⊢
  by_cases hneg : a < 0
  · rw [Int.ediv_eq_neg_one_of_neg_of_le hneg (by omega), Int.ediv_eq_neg_one_of_neg_of_le hneg (by omega)]
  · rw [Int.ediv_eq_zero_of_lt (by omega) (by omega), Int.ediv_eq_zero_of_lt (by omega) (by omega)]

/-- A left shift that passes the tests fits in a machine word. -/
theorem lshift_bounds {a : ℤ} {k : ℕ} (hk : k < 32) (hhigh : a ≤ smallIntMax / 2 ^ k) (hlow : smallIntMin / 2 ^ k ≤ a) :
    -2147483648 ≤ a * 2 ^ k ∧ a * 2 ^ k < 2147483648 := by
  simp only [smallIntMax, smallIntMin] at hhigh hlow
  interval_cases k <;> norm_num only at hhigh hlow ⊢ <;> omega

theorem countOf_small {b : ℤ} (hb : Small b) : countOf b = if b < 0 then .error negativeShiftCount else .ok b.toNat := by
  obtain ⟨hlow, hhigh⟩ := hb
  rw [countOf, if_neg (by omega)]

theorem smallBinaryOp_eq {a b : ℤ} (op : BinaryOp) (ha : Small a) (hb : Small b) :
    smallBinaryOp op a b = ofInt <$> op.value a b := by
  have hlong : newIntFromLl a = .long (Mpz.ofInt a) :=
    newIntFromLl_eq (by have := ha.1; omega) (by have := ha.2; omega)
  have hword : ∀ {r : ℤ}, (-2147483648 ≤ r ∧ r < 2147483648) → newInt r = ofInt r := fun hr => newInt_eq hr.1 hr.2
  obtain ⟨halow, hahigh⟩ := id ha
  obtain ⟨hblow, hbhigh⟩ := id hb
  cases op with
  | or => exact congrArg Except.ok (hword (bitwise_bounds ha hb fun i => Int.testBit_lor a b i))
  | xor => exact congrArg Except.ok (hword (bitwise_bounds ha hb fun i => Int.testBit_lxor a b i))
  | and => exact congrArg Except.ok (hword (bitwise_bounds ha hb fun i => Int.testBit_land a b i))
  | lshift =>
      simp only [smallBinaryOp, BinaryOp.value, countOf_small hb]
      by_cases hneg : b < 0
      · rw [if_pos hneg, if_pos hneg]
        rfl
      · rw [if_neg hneg, if_neg hneg]
        split
        · rw [hlong, intBinaryOp_eq .lshift (.long a) (.small hb) (by simp)]
          simp only [BinaryOp.value, countOf_small hb]
          rw [if_neg hneg]
        · rename_i hstandard
          simp only [not_or, not_lt, ge_iff_le, not_le, gt_iff_lt] at hstandard
          have hbounds := lshift_bounds (by omega) hstandard.2.1 hstandard.2.2
          rw [mpInt_eq hbounds.1 hbounds.2, hword hbounds]
          rfl
  | rshift =>
      simp only [smallBinaryOp, BinaryOp.value, countOf_small hb]
      by_cases hneg : b < 0
      · rw [if_pos hneg, if_pos hneg]
        rfl
      · rw [if_neg hneg, if_neg hneg]
        have hclip : a / 2 ^ (if b ≥ 32 then 31 else b).toNat = a / 2 ^ b.toNat := by
          split
          · exact (shift_clipped ha (by omega)).symm
          · rfl
        have hbounds : -2147483648 ≤ a / 2 ^ b.toNat ∧ a / 2 ^ b.toNat < 2147483648 := by
          have hpos : (0 : ℤ) < 2 ^ b.toNat := by positivity
          have habs := Int.natAbs_ediv_le_natAbs a (2 ^ b.toNat)
          omega
        rw [hclip, hword hbounds]
        rfl
  | add =>
      simp only [smallBinaryOp, BinaryOp.value]
      rw [mpInt_eq (by omega) (by omega), hword (by omega)]
      rfl
  | subtract =>
      simp only [smallBinaryOp, BinaryOp.value]
      rw [mpInt_eq (by omega) (by omega), hword (by omega)]
      rfl
  | multiply =>
      simp only [smallBinaryOp, smallIntMulOverflow_eq]
      by_cases hfits : Small (a * b)
      · rw [if_neg (by simpa using hfits), mpInt_eq (by have := hfits.1; omega) (by have := hfits.2; omega),
          newSmallInt_eq hfits, BinaryOp.value]
        exact congrArg Except.ok (if_pos hfits).symm
      · rw [if_pos (decide_eq_true hfits), hlong, intBinaryOp_eq .multiply (.long a) (.small hb) (by simp)]
  | floorDivide =>
      simp only [smallBinaryOp, BinaryOp.value]
      by_cases hzero : b = 0
      · rw [if_pos hzero, if_pos hzero]
        rfl
      · rw [if_neg hzero, if_neg hzero, smallIntFloorDivide_eq ha hb hzero, hword]
        · rfl
        · have habs := Int.natAbs_fdiv_le_natAbs a b
          omega
  | modulo =>
      simp only [smallBinaryOp, BinaryOp.value]
      by_cases hzero : b = 0
      · rw [if_pos hzero, if_pos hzero]
        rfl
      · rw [if_neg hzero, if_neg hzero, smallIntModulo_eq hb hzero, hword]
        · rfl
        · have hnonneg := Int.emod_nonneg a hzero
          have hlt := Int.emod_lt a hzero
          rw [Int.fmod_eq_emod]
          split <;> omega
  | power =>
      simp only [smallBinaryOp]
      by_cases hneg : b < 0
      · rw [if_pos hneg, BinaryOp.value, if_pos hneg]
        rfl
      · rw [if_neg hneg]
        split
        · rename_i ans hans
          obtain ⟨hval, hsmall⟩ := powerLoop_some (by decide) ha (by omega) (by omega) hans
          rw [hword ⟨by have := hsmall.1; omega, by have := hsmall.2; omega⟩, BinaryOp.value, if_neg hneg, hval, one_mul]
          rfl
        · rename_i hnone
          have hne : b ≠ 0 := by
            rintro rfl
            simp [powerLoop] at hnone
          rw [hlong, intBinaryOp_eq .power (.long a) (.small hb) fun _ => .inr hne]

/-- Both representations of both operands: the result is the object of the exact value. Nought to the power of nought is
left to small integers. -/
theorem binaryOp_eq {x y : IntObj} {a b : ℤ} (op : BinaryOp) (hx : Holds x a) (hy : Holds y b)
    (hpower : op = .power → (x = .small 0 ∧ y = .small 0) ∨ a ≠ 0 ∨ b ≠ 0) :
    binaryOp op x y = ofInt <$> op.value a b := by
  cases hx with
  | small ha =>
      cases hy with
      | small hb => exact smallBinaryOp_eq op ha hb
      | long b =>
          apply intBinaryOp_eq op (.small ha) (.long b)
          intro hop
          rcases hpower hop with ⟨-, hy⟩ | hne
          · exact absurd hy (by simp)
          · exact hne
  | long a =>
      have hne : op = .power → a ≠ 0 ∨ b ≠ 0 := by
        intro hop
        rcases hpower hop with ⟨hx, -⟩ | hne
        · exact absurd hx (by simp)
        · exact hne
      cases hy with
      | small hb => exact intBinaryOp_eq op (.long a) (.small hb) hne
      | long b => exact intBinaryOp_eq op (.long a) (.long b) hne

end CalSci.IntObj
