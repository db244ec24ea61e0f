import CalSci.MpzModel
import Mathlib.Data.Int.Bitwise

/-! Objects of type `int` and what the interpreter does with them: `py/smallint.c`, `py/objint_mpz.c`, and the parts of
`py/runtime.c` and `py/obj.c` for operands of this type. An `mp_int_t` has 32 bits; a small integer is kept in the
object word itself, with one bit less. The operators of the machine on signed words are those of integers wherever the
result fits, and reduced to the word where the code relies on that. -/

namespace CalSci

/-- A small integer, or an `mp_obj_int_t`. -/
inductive IntObj where
  | small (val : ℤ)
  | long (mpz : Mpz)
  deriving DecidableEq, Repr

namespace IntObj

open Mpz

/-! ### Small integers -/

def smallIntMin : ℤ := -1073741824

def smallIntMax : ℤ := 1073741823

def mpInt (n : ℤ) : ℤ := n.bmod 4294967296

/-- A value of `mp_uint_t`. -/
def mpUint (n : ℤ) : ℕ := (n % 4294967296).toNat

/-- `MP_SMALL_INT_FITS`: the two highest bits are the same. -/
def smallIntFits (n : ℤ) : Bool := (mpUint n ^^^ mpUint (2 * n)) &&& 2147483648 = 0

/-- `MP_OBJ_NEW_SMALL_INT`, which shifts the highest bit out. -/
def newSmallInt (n : ℤ) : IntObj := .small (n.bmod 2147483648)

/-- `mp_obj_new_int_from_ll`. -/
def newIntFromLl (val : ℤ) : IntObj := .long (setFromLl val)

def newInt (value : ℤ) : IntObj := if smallIntFits value then newSmallInt value else newIntFromLl value

/-- `mp_small_int_mul_overflow`. -/
def smallIntMulOverflow (x y : ℤ) : Bool :=
  if x > 0 then
    if y > 0 then x > smallIntMax.tdiv y else y < smallIntMin.tdiv x
  else if y > 0 then x < smallIntMin.tdiv y
  else x ≠ 0 && y < smallIntMax.tdiv x

def smallIntModulo (dividend divisor : ℤ) : ℤ :=
  let dividend := dividend.tmod divisor
  if (dividend < 0 ∧ divisor > 0) ∨ (dividend > 0 ∧ divisor < 0) then mpInt (dividend + divisor) else dividend

def smallIntFloorDivide (num denom : ℤ) : ℤ :=
  let num :=
    if num ≥ 0 then if denom < 0 then mpInt (num + (-denom - 1)) else num
    else if denom ≥ 0 then mpInt (num + (-denom + 1)) else num
  num.tdiv denom

/-! ### Outcomes -/

/-- Why an operation does not give an integer. -/
inductive Failure where
  | zeroDivisionError (msg : String)
  | valueError (msg : String)
  | overflowError (msg : String)
  /-- Floating-point arithmetic takes over. It gives a float, or `ZeroDivisionError` for a power of zero. -/
  | float
  /-- A loop of `mpz.c` does not end. -/
  | stuck
  deriving DecidableEq, Repr

def divideByZero : Failure := .zeroDivisionError "divide by zero"

def negativeShiftCount : Failure := .valueError "negative shift count"

def wordOverflow : Failure := .overflowError "overflow converting long int to machine word"

/-- What a loop of `mpz.c` has found. -/
def ofLoop {α : Type} : Option α → Except Failure α
  | some a => .ok a
  | none => .error .stuck

/-! ### One operand -/

inductive UnaryOp where
  | positive
  | negative
  | invert
  | abs
  deriving DecidableEq, Repr

def intUnaryOp (op : UnaryOp) (z : Mpz) : IntObj :=
  match op with
  | .positive => .long z
  | .negative => .long (negInpl z)
  | .invert => .long (notInpl z)
  | .abs => if z.neg = false then .long z else .long (absInpl z)

def unaryOp (op : UnaryOp) : IntObj → IntObj
  | .small val =>
      match op with
      | .positive => .small val
      | .negative => if val = smallIntMin then newInt (-val) else newSmallInt (-val)
      | .abs => if val ≥ 0 then .small val else if val = smallIntMin then newInt (-val) else newSmallInt (-val)
      | .invert => newSmallInt (-val - 1)
  | .long z => intUnaryOp op z

def isTrue : IntObj → Bool
  | .small val => val ≠ 0
  | .long z => !isZero z

/-- The loop of `mpz_hash`, from the highest digit on. -/
def hashLoop : List ℕ → ℕ → ℕ
  | [], val => val
  | d :: dig, val => hashLoop dig (dbl (val <<< 16) ||| d)

def mpzHash (z : Mpz) : ℤ :=
  let val : ℕ := hashLoop z.dig.reverse 0
  if z.neg then mpInt (-(val : ℤ)) else mpInt val

def hash : IntObj → IntObj
  | .small val => .small val
  | .long z => newSmallInt (mpzHash z)

/-! ### Two operands -/

inductive BinaryOp where
  | or
  | xor
  | and
  | lshift
  | rshift
  | add
  | subtract
  | multiply
  | floorDivide
  | modulo
  | power
  deriving DecidableEq, Repr

/-- `zlhs` and `zrhs` of `mp_obj_int_binary_op`. -/
def toMpz : IntObj → Mpz
  | .small val => setFromInt val
  | .long z => z

def getChecked : IntObj → Except Failure ℤ
  | .small val => .ok val
  | .long z =>
      match asIntChecked z with
      | some value => .ok value
      | none => .error wordOverflow

def shiftCount (rhs : IntObj) : Except Failure ℕ := do
  let irhs ← getChecked rhs
  if irhs < 0 then throw negativeShiftCount else return irhs.toNat

/-- The switch of `mp_obj_int_binary_op`. -/
def mpzBinaryOp (op : BinaryOp) (lhs rhs : IntObj) : Except Failure Mpz :=
  let zlhs := toMpz lhs
  let zrhs := toMpz rhs
  match op with
  | .add => return addInpl zlhs zrhs
  | .subtract => return subInpl zlhs zrhs
  | .multiply => return mulInpl zlhs zrhs
  | .floorDivide => if isZero zrhs then throw divideByZero else Prod.fst <$> ofLoop (divmodInpl zlhs zrhs)
  | .modulo => if isZero zrhs then throw divideByZero else Prod.snd <$> ofLoop (divmodInpl zlhs zrhs)
  | .and => return andInpl zlhs zrhs
  | .or => return orInpl zlhs zrhs
  | .xor => return xorInpl zlhs zrhs
  | .lshift => shlInpl zlhs <$> shiftCount rhs
  | .rshift => shrInpl zlhs <$> shiftCount rhs
  | .power => if isNeg zrhs then throw .float else ofLoop (powInpl zlhs zrhs)

/-- The result of `mp_obj_int_binary_op`, as a small integer if it fits. -/
def normalised (res : Mpz) : IntObj :=
  match asIntChecked res with
  | some resSmall => if smallIntFits resSmall then newSmallInt resSmall else .long res
  | none => .long res

def intBinaryOp (op : BinaryOp) (lhs rhs : IntObj) : Except Failure IntObj := normalised <$> mpzBinaryOp op lhs rhs

/-- The loop of `MP_BINARY_OP_POWER` on small integers; an exponent has fewer than 31 bits. Without a result it goes to
`power_overflow`. -/
def powerLoop : ℕ → ℤ → ℤ → ℤ → Option ℤ
  | 0, ans, _, _ => some ans
  | turns + 1, ans, lhsVal, rhsVal =>
      if rhsVal > 0 then
        if rhsVal % 2 = 1 ∧ smallIntMulOverflow ans lhsVal then none
        else
          let ans := if rhsVal % 2 = 1 then mpInt (ans * lhsVal) else ans
          if rhsVal = 1 then some ans
          else if smallIntMulOverflow lhsVal lhsVal then none
          else powerLoop turns ans (mpInt (lhsVal * lhsVal)) (rhsVal.tdiv 2)
      else some ans

/-- `mp_binary_op` for two small integers. -/
def smallBinaryOp (op : BinaryOp) (lhsVal rhsVal : ℤ) : Except Failure IntObj :=
  match op with
  | .or => return newInt (Int.lor lhsVal rhsVal)
  | .xor => return newInt (Int.xor lhsVal rhsVal)
  | .and => return newInt (Int.land lhsVal rhsVal)
  | .lshift =>
      if rhsVal < 0 then throw negativeShiftCount
      else if rhsVal ≥ 32 ∨ lhsVal > smallIntMax / 2 ^ rhsVal.toNat ∨ lhsVal < smallIntMin / 2 ^ rhsVal.toNat then
        intBinaryOp .lshift (newIntFromLl lhsVal) (.small rhsVal)
      else return newInt (mpInt (lhsVal * 2 ^ rhsVal.toNat))
  | .rshift =>
      if rhsVal < 0 then throw negativeShiftCount
      else
        let rhsVal := if rhsVal ≥ 32 then 31 else rhsVal
        return newInt (lhsVal / 2 ^ rhsVal.toNat)
  | .add => return newInt (mpInt (lhsVal + rhsVal))
  | .subtract => return newInt (mpInt (lhsVal - rhsVal))
  | .multiply =>
      if smallIntMulOverflow lhsVal rhsVal then intBinaryOp .multiply (newIntFromLl lhsVal) (.small rhsVal)
      else return newSmallInt (mpInt (lhsVal * rhsVal))
  | .floorDivide =>
      if rhsVal = 0 then throw divideByZero else return newInt (smallIntFloorDivide lhsVal rhsVal)
  | .modulo => if rhsVal = 0 then throw divideByZero else return newInt (smallIntModulo lhsVal rhsVal)
  | .power =>
      if rhsVal < 0 then throw .float
      else
        match powerLoop 31 1 lhsVal rhsVal with
        | some ans => return newInt ans
        | none => intBinaryOp .power (newIntFromLl lhsVal) (.small rhsVal)

def binaryOp (op : BinaryOp) : IntObj → IntObj → Except Failure IntObj
  | .small lhsVal, .small rhsVal => smallBinaryOp op lhsVal rhsVal
  | lhs, rhs => intBinaryOp op lhs rhs

/-- `divmod`: `MP_BINARY_OP_DIVMOD` of both functions. The results are not checked. -/
def divmod : IntObj → IntObj → Except Failure (IntObj × IntObj)
  | .small lhsVal, .small rhsVal =>
      if rhsVal = 0 then throw divideByZero
      else
        return (newSmallInt (smallIntFloorDivide lhsVal rhsVal), newSmallInt (smallIntModulo lhsVal rhsVal))
  | lhs, rhs =>
      if isZero (toMpz rhs) then throw divideByZero
      else (fun z : Mpz × Mpz => (.long z.1, .long z.2)) <$> ofLoop (divmodInpl (toMpz lhs) (toMpz rhs))

/-- `pow` with three arguments: `mp_obj_int_pow3`. -/
def pow3 (base exponent modulus : IntObj) : Except Failure IntObj :=
  .long <$> ofLoop (pow3Inpl (toMpz base) (toMpz exponent) (toMpz modulus))

/-! ### Comparison -/

inductive CompareOp where
  | less
  | more
  | lessEqual
  | moreEqual
  | equal
  | notEqual
  deriving DecidableEq, Repr

def CompareOp.ofSign (cmp : ℤ) : CompareOp → Bool
  | .less => cmp < 0
  | .more => cmp > 0
  | .lessEqual => cmp ≤ 0
  | .moreEqual => cmp ≥ 0
  | .equal => cmp = 0
  | .notEqual => cmp ≠ 0

/-- `mp_obj_equal_not_equal` before `!=` is turned around: a small integer gives way to the other operand. -/
def objEqual : IntObj → IntObj → Bool
  | .small lhsVal, .small rhsVal => lhsVal = rhsVal
  | .small lhsVal, .long rhs => cmp rhs (setFromInt lhsVal) = 0
  | .long lhs, rhs => cmp lhs (toMpz rhs) = 0

def compareOp (op : CompareOp) (lhs rhs : IntObj) : Bool :=
  match op with
  | .equal => objEqual lhs rhs
  | .notEqual => !objEqual lhs rhs
  | op =>
      match lhs, rhs with
      | .small lhsVal, .small rhsVal =>
          match op with
          | .less => lhsVal < rhsVal
          | .more => lhsVal > rhsVal
          | .lessEqual => lhsVal ≤ rhsVal
          | _ => lhsVal ≥ rhsVal
      | lhs, rhs => op.ofSign (cmp (toMpz lhs) (toMpz rhs))

end IntObj

end CalSci
