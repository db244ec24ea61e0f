import CalSci.IntArithmetic

/-! Whole expressions of integers, as the interpreter evaluates them: operand by operand, with an exception leaving the
expression. Results of operators with two operands are small integers whenever they fit. Those of operators with one
operand need not be: a complement may bring a long object closer to nought, but by one only. -/

namespace CalSci.IntObj

inductive IntExpr where
  | const (n : ℤ)
  | unary (op : UnaryOp) (e : IntExpr)
  | binary (op : BinaryOp) (l r : IntExpr)

namespace IntExpr

/-- What the interpreter computes. -/
def eval : IntExpr → Except Failure IntObj
  | .const n => return ofInt n
  | .unary op e => return unaryOp op (← e.eval)
  | .binary op l r => do
      let lhs ← l.eval
      let rhs ← r.eval
      binaryOp op lhs rhs

/-- What Python says. -/
def value : IntExpr → Except Failure ℤ
  | .const n => return n
  | .unary op e => return op.value (← e.value)
  | .binary op l r => do
      let a ← l.value
      let b ← r.value
      op.value a b

def inverts : IntExpr → ℕ
  | .const _ => 0
  | .unary op e => if op = .invert then e.inverts + 1 else e.inverts
  | .binary _ l r => l.inverts + r.inverts

end IntExpr

def toInt : IntObj → ℤ
  | .small val => val
  | .long z => z.toInt

theorem Holds.toInt_eq {x : IntObj} {v : ℤ} (h : Holds x v) : x.toInt = v := by
  cases h with
  | small h => rfl
  | long v => exact Mpz.toInt_ofInt v

/-- An object for an integer, that is small unless the integer is about as large as a long one. -/
structure Near (k : ℕ) (x : IntObj) (v : ℤ) : Prop where
  holds : Holds x v
  long : x = .small v ∨ 1073741824 ≤ v.natAbs + k

theorem Near.mono {k k' : ℕ} {x : IntObj} {v : ℤ} (h : Near k x v) (hk : k ≤ k') : Near k' x v :=
  ⟨h.holds, h.long.imp_right fun hlong => hlong.trans (Nat.add_le_add_left hk _)⟩

theorem near_ofInt (k : ℕ) (v : ℤ) : Near k (ofInt v) v := by
  refine ⟨holds_ofInt v, ?_⟩
  rw [ofInt]
  by_cases h : Small v
  · exact .inl (if_pos h)
  · refine .inr ?_
    unfold Small at h
    omega

/-- A small operand has a small result, or one that is as large as a long one. -/
theorem unaryOp_small {v : ℤ} (op : UnaryOp) (h : Small v) :
    unaryOp op (.small v) = .small (op.value v) ∨ 1073741824 ≤ (op.value v).natAbs := by
  obtain ⟨hlow, hhigh⟩ := h
  have hnegative : (if v = smallIntMin then newInt (-v) else newSmallInt (-v)) = .small (-v) ∨
      1073741824 ≤ (-v).natAbs := by
    by_cases hmin : v = smallIntMin
    · refine .inr ?_
      rw [hmin]
      decide
    · refine .inl ?_
      rw [if_neg hmin, newSmallInt_eq]
      constructor <;> simp only [smallIntMin] at hmin <;> omega
  cases op with
  | positive => exact .inl rfl
  | negative => exact hnegative
  | invert =>
      refine .inl (newSmallInt_eq ?_)
      constructor <;> omega
  | abs =>
      simp only [unaryOp, UnaryOp.value]
      by_cases hv : v ≥ 0
      · rw [if_pos hv, abs_of_nonneg hv]
        exact .inl rfl
      · rw [if_neg hv, abs_of_neg (by omega)]
        exact hnegative

theorem Near.unaryOp {k : ℕ} {x : IntObj} {v : ℤ} (op : UnaryOp) (h : Near k x v) :
    Near (if op = .invert then k + 1 else k) (unaryOp op x) (op.value v) := by
  refine ⟨unaryOp_holds op h.holds, ?_⟩
  rcases h.long with rfl | hlong
  · have hsmall : Small v := by
      cases h.holds with
      | small h => exact h
    exact (unaryOp_small op hsmall).imp_right fun hlarge => hlarge.trans (Nat.le_add_right _ _)
  · refine .inr ?_
    cases op with
    | positive => exact hlong
    | negative =>
        rw [if_neg (by simp), UnaryOp.value, Int.natAbs_neg]
        exact hlong
    | invert =>
        rw [if_pos rfl, UnaryOp.value]
        omega
    | abs =>
        rw [if_neg (by simp), UnaryOp.value, Int.natAbs_abs]
        exact hlong

/-- With fewer complements than there are small integers of one sign, no long object holds nought. -/
theorem Near.binaryOp {k k' : ℕ} {x y : IntObj} {a b : ℤ} (op : BinaryOp) (hx : Near k x a) (hy : Near k' y b)
    (hk : k + k' < 1073741824) : IntObj.binaryOp op x y = ofInt <$> op.value a b := by
  apply binaryOp_eq op hx.holds hy.holds
  intro _
  rcases hx.long with rfl | ha
  · rcases hy.long with rfl | hb
    · by_cases ha : a = 0
      · by_cases hb : b = 0
        · exact .inl ⟨by rw [ha], by rw [hb]⟩
        · exact .inr (.inr hb)
      · exact .inr (.inl ha)
    · exact .inr (.inr (by omega))
  · exact .inr (.inl (by omega))

/-- What the interpreter has after an expression: the same exception, or an object for the value. -/
inductive Agree (k : ℕ) : Except Failure IntObj → Except Failure ℤ → Prop
  | error (f : Failure) : Agree k (.error f) (.error f)
  | ok {x : IntObj} {v : ℤ} (h : Near k x v) : Agree k (.ok x) (.ok v)

theorem Agree.of_eq {k : ℕ} {r : Except Failure ℤ} {x : Except Failure IntObj} (h : x = ofInt <$> r) : Agree k x r := by
  rw [h]
  cases r with
  | error f => exact .error f
  | ok v => exact .ok (near_ofInt k v)

theorem eval_agrees (e : IntExpr) (h : e.inverts < 1073741824) : Agree e.inverts e.eval e.value := by
  induction e with
  | const n => exact .ok (near_ofInt 0 n)
  | unary op e ih =>
      have hagree := ih (by rw [IntExpr.inverts] at h; split at h <;> omega)
      simp only [IntExpr.eval, IntExpr.value, IntExpr.inverts]
      generalize e.eval = x at hagree
      generalize e.value = v at hagree
      cases hagree with
      | error f => exact .error f
      | ok hnear => exact .ok (hnear.unaryOp op)
  | binary op l r ihl ihr =>
      rw [IntExpr.inverts] at h
      have hl := ihl (by omega)
      have hr := ihr (by omega)
      simp only [IntExpr.eval, IntExpr.value, IntExpr.inverts]
      generalize l.eval = x at hl
      generalize l.value = a at hl
      generalize r.eval = y at hr
      generalize r.value = b at hr
      cases hl with
      | error f => exact .error f
      | ok hx =>
          cases hr with
          | error f => exact .error f
          | ok hy => exact Agree.of_eq (hx.binaryOp op hy h)

/-- Every expression of integers has exactly the value that Python says, or raises what Python raises; no loop of `mpz.c`
gets stuck. Only after a thousand million complements could a long object hold nought, of which `mpz_pow_inpl` gives no
power but nought. -/
theorem expressions_exact (e : IntExpr) (h : e.inverts < 1073741824) : toInt <$> e.eval = e.value := by
  have hagree := eval_agrees e h
  generalize e.eval = x at hagree
  generalize e.value = v at hagree
  cases hagree with
  | error f => rfl
  | ok hnear => exact congrArg Except.ok hnear.holds.toInt_eq

theorem expressions_exact_powers :
    toInt <$> (IntExpr.binary .floorDivide (.binary .power (.const 7) (.const 40))
        (.unary .invert (.binary .lshift (.const 3) (.const 35)))).eval =
      (IntExpr.binary .floorDivide (.binary .power (.const 7) (.const 40))
        (.unary .invert (.binary .lshift (.const 3) (.const 35)))).value :=
  expressions_exact _ (by decide)

end CalSci.IntObj
