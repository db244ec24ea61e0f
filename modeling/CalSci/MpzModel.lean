import Mathlib.Data.List.DropRight
import Mathlib.Data.Nat.Digits.Defs
import Mathlib.Algebra.Order.Ring.Int

/-! Integers of any size: `py/mpz.c`, as the 32-bit build of the firmware has it. A number is the list of its digits,
lowest first; a digit (`mpz_dig_t`) has sixteen bits, so that `DIG_BASE` is 65536, `& DIG_MASK` is the remainder and
`>> DIG_SIZE` the quotient. Where the code computes in `mpz_dbl_dig_t` or `mpz_dbl_dig_signed_t` the result is reduced
to 32 bits. The loops read a digit before they write it, so it makes no difference whether the arrays are the same. -/

namespace CalSci

/-- `mpz_t`: the sign, and the digits in use. -/
structure Mpz where
  neg : Bool
  dig : List ℕ
  deriving DecidableEq, Repr

namespace Mpz

/-- A value of `mpz_dbl_dig_t`. -/
def dbl (n : ℕ) : ℕ := n % 4294967296

/-- A value of `mpz_dbl_dig_signed_t`. -/
def signed (n : ℤ) : ℤ := n.bmod 4294967296

/-! ### Digit arrays -/

/-- `mpn_remove_trailing_zeros`; the trailing digits are the highest. -/
def mpnRemoveTrailingZeros (dig : List ℕ) : List ℕ := dig.rdropWhile (· = 0)

/-- The loop of `mpn_cmp`, which starts with the highest digits. -/
def cmpLoop : List ℕ → List ℕ → ℤ
  | i :: is, j :: js =>
      let cmp := signed (i - j)
      if cmp < 0 then -1 else if cmp > 0 then 1 else cmpLoop is js
  | _, _ => 0

/-- The sign of `i - j`. -/
def mpnCmp (i j : List ℕ) : ℤ :=
  if i.length < j.length then -1
  else if i.length > j.length then 1
  else cmpLoop i.reverse j.reverse

/-- The loop of `mpn_shl`, from the highest digit on: the digits written, and `d`. -/
def shlLoop (part : ℕ) (j : List ℕ) : List ℕ × ℕ :=
  j.foldr (fun jdig s => ((s.2 ||| jdig) >>> (16 - part) % 65536 :: s.1, dbl ((s.2 ||| jdig) <<< 16))) ([], 0)

/-- `j << n`. -/
def mpnShl (j : List ℕ) (n : ℕ) : List ℕ :=
  let whole := (n + 16 - 1) / 16
  let part := if n % 16 = 0 then 16 else n % 16
  let s := shlLoop part j
  mpnRemoveTrailingZeros (List.replicate (whole - 1) 0 ++ (s.2 >>> (16 - part) % 65536 :: s.1))

def shrLoop (part : ℕ) : List ℕ → List ℕ
  | j :: k :: js => (dbl (j ||| k <<< 16)) >>> part % 65536 :: shrLoop part (k :: js)
  | [j] => [j >>> part % 65536]
  | [] => []

/-- `j >> n`; at most the highest digit of the result is dropped. -/
def mpnShr (j : List ℕ) (n : ℕ) : List ℕ :=
  if n / 16 ≥ j.length then []
  else
    let i := shrLoop (n % 16) (j.drop (n / 16))
    if i.getLast? = some 0 then i.dropLast else i

/-- The two loops of `mpn_add`, and the carry after them. -/
def addLoop : List ℕ → List ℕ → ℕ → List ℕ
  | j :: js, k :: ks, carry =>
      let carry := dbl (carry + (j + k))
      carry % 65536 :: addLoop js ks (carry / 65536)
  | j :: js, [], carry =>
      let carry := dbl (carry + j)
      carry % 65536 :: addLoop js [] (carry / 65536)
  | [], _, carry => if carry ≠ 0 then [carry % 65536] else []

/-- `j + k`, where `j` has no fewer digits. -/
def mpnAdd (j k : List ℕ) : List ℕ := addLoop j k 0

/-- The two loops of `mpn_sub`; the borrow is shifted with its sign. -/
def subLoop : List ℕ → List ℕ → ℤ → List ℕ
  | j :: js, k :: ks, borrow =>
      let borrow := signed (borrow + (j - k))
      (borrow % 65536).toNat :: subLoop js ks (borrow / 65536)
  | j :: js, [], borrow =>
      let borrow := signed (borrow + j)
      (borrow % 65536).toNat :: subLoop js [] (borrow / 65536)
  | [], _, _ => []

/-- `j - k`, where `j` is no less. -/
def mpnSub (j k : List ℕ) : List ℕ := mpnRemoveTrailingZeros (subLoop j k 0)

def mulDigLoop (dmul : ℕ) : List ℕ → ℕ → List ℕ
  | i :: is, carry =>
      let carry := dbl (carry + dbl (i * dmul))
      carry % 65536 :: mulDigLoop dmul is (carry / 65536)
  | [], carry => if carry ≠ 0 then [carry % 65536] else []

/-- `i * dmul + dadd`. -/
def mpnMulDigAddDig (i : List ℕ) (dmul dadd : ℕ) : List ℕ := mulDigLoop dmul i dadd

/-- The inner loop of `mpn_mul`: one digit of `k` times `j`, added to the digits from `idig` on, which are zero where
nothing has been written yet. -/
def mulRow (kdig : ℕ) : List ℕ → List ℕ → ℕ → List ℕ
  | j :: js, id, carry =>
      let carry := dbl (carry + dbl (id.headD 0 + dbl (j * kdig)))
      carry % 65536 :: mulRow kdig js id.tail (carry / 65536)
  | [], id, carry => if carry ≠ 0 then carry % 65536 :: id.tail else id

/-- The outer loop of `mpn_mul`: `idig` moves up by one digit with each digit of `k`. -/
def mulRows (j : List ℕ) : List ℕ → List ℕ → List ℕ
  | [], _ => []
  | [kdig], id => mulRow kdig j id 0
  | kdig :: ks, id => (mulRow kdig j id 0).headD 0 :: mulRows j ks (mulRow kdig j id 0).tail

/-- `j * k`. -/
def mpnMul (j k : List ℕ) : List ℕ := mulRows j k []

/-! ### Bits -/

/-- `j & k`. -/
def mpnAnd (j k : List ℕ) : List ℕ := mpnRemoveTrailingZeros (List.zipWith (· &&& ·) j k)

/-- The loops of `mpn_or` and `mpn_xor`: beyond the digits of `k`, those of `j` are copied. -/
def copyLoop (op : ℕ → ℕ → ℕ) : List ℕ → List ℕ → List ℕ
  | j :: js, k :: ks => op j k :: copyLoop op js ks
  | js, [] => js
  | [], _ :: _ => []

/-- `j | k`, where `j` has no fewer digits. -/
def mpnOr (j k : List ℕ) : List ℕ := copyLoop (· ||| ·) j k

/-- `j ^ k`, where `j` has no fewer digits. -/
def mpnXor (j k : List ℕ) : List ℕ := mpnRemoveTrailingZeros (copyLoop (· ^^^ ·) j k)

/-- The loop of `mpn_and_neg`; a missing digit of `k` counts as zero. -/
def andNegLoop (imask jmask kmask : ℕ) : List ℕ → List ℕ → ℕ → ℕ → ℕ → List ℕ
  | jdig :: j, k, carryi, carryj, carryk =>
      let carryj := dbl (carryj + (jdig ^^^ jmask))
      let carryk := dbl (carryk + (k.headD 0 ^^^ kmask))
      let carryi := dbl (carryi + ((carryj &&& carryk) ^^^ imask) % 65536)
      carryi % 65536 :: andNegLoop imask jmask kmask j k.tail (carryi / 65536) (carryj / 65536) (carryk / 65536)
  | [], _, carryi, _, _ => if carryi ≠ 0 then [carryi % 65536] else []

/-- `Xm = Xc == 0 ? 0 : DIG_MASK`. -/
def maskOf (carry : ℕ) : ℕ := if carry = 0 then 0 else 65535

def mpnAndNeg (j k : List ℕ) (carryi carryj carryk : ℕ) : List ℕ :=
  mpnRemoveTrailingZeros (andNegLoop (maskOf carryi) (maskOf carryj) (maskOf carryk) j k carryi carryj carryk)

/-- The loop of `mpn_or_neg`: the digits, and `carryi`, which is asserted to be zero. -/
def orNegLoop (jmask kmask : ℕ) : List ℕ → List ℕ → ℕ → ℕ → ℕ → List ℕ × ℕ
  | jdig :: j, k, carryi, carryj, carryk =>
      let carryj := dbl (carryj + (jdig ^^^ jmask))
      let carryk := dbl (carryk + (k.headD 0 ^^^ kmask))
      let carryi := dbl (carryi + ((carryj ||| carryk) ^^^ 65535) % 65536)
      let s := orNegLoop jmask kmask j k.tail (carryi / 65536) (carryj / 65536) (carryk / 65536)
      (carryi % 65536 :: s.1, s.2)
  | [], _, carryi, _, _ => ([], carryi)

def mpnOrNeg (j k : List ℕ) (carryj carryk : ℕ) : List ℕ :=
  mpnRemoveTrailingZeros (orNegLoop (maskOf carryj) (maskOf carryk) j k 1 carryj carryk).1

def xorNegLoop : List ℕ → List ℕ → ℕ → ℕ → ℕ → List ℕ
  | jdig :: j, k, carryi, carryj, carryk =>
      let carryj := dbl (carryj + (jdig + 65535))
      let carryk := dbl (carryk + (k.headD 0 + 65535))
      let carryi := dbl (carryi + (carryj ^^^ carryk) % 65536)
      carryi % 65536 :: xorNegLoop j k.tail (carryi / 65536) (carryj / 65536) (carryk / 65536)
  | [], _, carryi, _, _ => if carryi ≠ 0 then [carryi % 65536] else []

def mpnXorNeg (j k : List ℕ) (carryi carryj carryk : ℕ) : List ℕ :=
  mpnRemoveTrailingZeros (xorNegLoop j k carryi carryj carryk)

/-! ### Division -/

/-- How many leading zeros a digit has: `d <<= 1` until its highest bit is set. -/
def normShift : ℕ → ℕ → ℕ
  | 0, _ => 0
  | turns + 1, d => if d &&& 32768 = 0 then normShift turns (d <<< 1 % 65536) + 1 else 0

/-- The numerator shifted by `norm_shift`. -/
def shiftNum (shift : ℕ) : List ℕ → ℕ → List ℕ
  | n :: num, carry => (n <<< shift ||| carry) % 65536 :: shiftNum shift num (n >>> (16 - shift) % 65536)
  | [], _ => []

/-- `lead_den_digit`: the highest digit of the denominator as it is after normalisation. -/
def leadDenDigit (den : List ℕ) (shift : ℕ) : ℕ :=
  let lead := dbl (den.getD (den.length - 1) 0 <<< shift)
  if den.length ≥ 2 then lead ||| den.getD (den.length - 2) 0 >>> (16 - shift) else lead

/-- The first inner loop: `quo` times the normalised denominator is subtracted from the digits of the numerator. -/
def subtractQuo (shift quo : ℕ) : List ℕ → List ℕ → ℕ → ℤ → List ℕ × ℤ
  | n :: num, d :: den, dNorm, borrow =>
      let dNorm := dbl (d <<< shift) ||| dNorm / 65536
      let x := dbl (quo * (dNorm % 65536))
      let lowDigs := signed (borrow % 65536 + n - (x % 65536 : ℕ))
      let s := subtractQuo shift quo num den dNorm (signed (borrow / 65536 - (x / 65536 : ℕ) + lowDigs / 65536))
      ((lowDigs % 65536).toNat :: s.1, s.2)
  | _, _, _, borrow => ([], borrow)

/-- The second inner loop: the normalised denominator is added back. -/
def addDen (shift : ℕ) : List ℕ → List ℕ → ℕ → ℕ → List ℕ × ℕ
  | n :: num, d :: den, dNorm, carry =>
      let dNorm := dbl (d <<< shift) ||| dNorm / 65536
      let carry := dbl (carry + (n + dNorm % 65536))
      let s := addDen shift num den dNorm (carry / 65536)
      (carry % 65536 :: s.1, s.2)
  | _, _, _, carry => ([], carry)

/-- `for (; borrow != 0; --quo)`: the quotient was too large as long as there is a borrow. It is not followed further
than `quo` goes down to zero. -/
def addBack (shift : ℕ) (den : List ℕ) : ℕ → List ℕ → ℤ → Option (ℕ × List ℕ)
  | quo, num, borrow =>
      if borrow = 0 then some (quo, num)
      else
        match quo with
        | 0 => none
        | quo + 1 =>
            let s := addDen shift num den 0 0
            addBack shift den quo s.1 (signed (borrow + s.2))

/-- The main loop of `mpn_div`, with the number of digits of the quotient still to be found: the numerator that is left,
and the quotient. -/
def divLoop (shift : ℕ) (den : List ℕ) : ℕ → List ℕ → Option (List ℕ × List ℕ)
  | 0, num => some (num, [])
  | turns + 1, num => do
      let window := (num.drop turns).take den.length
      let top := num.getD (turns + den.length) 0
      let quo := (dbl (top <<< 16) ||| num.getD (turns + den.length - 1) 0) / leadDenDigit den shift
      let s := subtractQuo shift quo window den 0 0
      let (quo, window) ← addBack shift den quo s.1 (signed (s.2 + top))
      let (rem, digits) ← divLoop shift den turns (num.take turns ++ window)
      return (rem, digits ++ [quo % 65536])

/-- The remainder shifted back, from the highest digit on: its digits, and `carry`. -/
def unshiftNum (shift : ℕ) (num : List ℕ) : List ℕ × ℕ :=
  num.foldr (fun n s => ((n >>> shift ||| s.2) % 65536 :: s.1, n <<< (16 - shift) % 65536)) ([], 0)

/-- `mpn_div`: the remainder, which replaces the numerator, and the quotient. -/
def mpnDiv (num den : List ℕ) : Option (List ℕ × List ℕ) :=
  if mpnCmp num den = 0 then some ([], [1])
  else if mpnCmp num den < 0 then some (num, [])
  else do
    let shift := normShift 16 (den.getD (den.length - 1) 0)
    let num := shiftNum shift (num ++ [0]) 0
    let (rem, quo) ← divLoop shift den (num.length - den.length) num
    return (mpnRemoveTrailingZeros (unshiftNum shift rem).1, mpnRemoveTrailingZeros quo)

/-! ### Signed numbers -/

/-- `while (uval > 0)`: the digits of a machine word of so many digits. -/
def wordDigits : ℕ → ℕ → List ℕ
  | 0, _ => []
  | turns + 1, uval => if uval > 0 then uval % 65536 :: wordDigits turns (uval / 65536) else []

def setFromInt (val : ℤ) : Mpz :=
  if val = 0 then ⟨false, []⟩ else ⟨decide (val < 0), wordDigits 2 val.natAbs⟩

def setFromLl (val : ℤ) : Mpz := ⟨decide (val < 0), wordDigits 4 val.natAbs⟩

def isZero (z : Mpz) : Bool := z.dig.length = 0

def isNeg (z : Mpz) : Bool := z.neg

def cmp (z1 z2 : Mpz) : ℤ :=
  if z1.neg = z2.neg then if z1.neg then -mpnCmp z1.dig z2.dig else mpnCmp z1.dig z2.dig
  else z2.neg.toInt - z1.neg.toInt

def absInpl (z : Mpz) : Mpz := { z with neg := false }

def negInpl (z : Mpz) : Mpz := if z.dig.length ≠ 0 then { z with neg := !z.neg } else z

def notInpl (z : Mpz) : Mpz :=
  if z.dig.length = 0 then ⟨true, [1]⟩
  else if z.neg then ⟨false, mpnSub z.dig [1]⟩
  else ⟨true, mpnAdd z.dig [1]⟩

def shlInpl (lhs : Mpz) (rhs : ℕ) : Mpz :=
  if lhs.dig.length = 0 ∨ rhs = 0 then lhs else ⟨lhs.neg, mpnShl lhs.dig rhs⟩

/-- `round_up` of `mpz_shr_inpl`: whether a bit that is set is shifted out. -/
def roundUp (lhs : Mpz) (rhs : ℕ) : Bool :=
  (lhs.dig.take (rhs / 16)).any (· ≠ 0) ||
    (rhs / 16 < lhs.dig.length && (lhs.dig.getD (rhs / 16) 0 &&& (1 <<< (rhs % 16) - 1)) ≠ 0)

def shrInpl (lhs : Mpz) (rhs : ℕ) : Mpz :=
  if lhs.dig.length = 0 ∨ rhs = 0 then lhs
  else
    let dig := mpnShr lhs.dig rhs
    -- towards minus infinity
    if lhs.neg && roundUp lhs rhs then ⟨true, if dig.length = 0 then [1] else mpnAdd dig [1]⟩
    else ⟨lhs.neg, dig⟩

/-- `mpz_add_inpl`, with the operand of greater absolute value first. -/
def addOrdered (lhs rhs : Mpz) : Mpz :=
  let dig := if lhs.neg = rhs.neg then mpnAdd lhs.dig rhs.dig else mpnSub lhs.dig rhs.dig
  ⟨lhs.neg && dig.length ≠ 0, dig⟩

def addInpl (lhs rhs : Mpz) : Mpz :=
  if mpnCmp lhs.dig rhs.dig < 0 then addOrdered rhs lhs else addOrdered lhs rhs

/-- `mpz_sub_inpl`, after the operands may have been exchanged. -/
def subOrdered (lhs rhs : Mpz) (neg : Bool) : Mpz :=
  let dig := if lhs.neg ≠ rhs.neg then mpnAdd lhs.dig rhs.dig else mpnSub lhs.dig rhs.dig
  ⟨if dig.length = 0 then false else if neg then !lhs.neg else lhs.neg, dig⟩

def subInpl (lhs rhs : Mpz) : Mpz :=
  if mpnCmp lhs.dig rhs.dig < 0 then subOrdered rhs lhs true else subOrdered lhs rhs false

/-- The operands of `mpz_and_inpl` and its like, with the longer one first. -/
def longerFirst (op : Mpz → Mpz → Mpz) (lhs rhs : Mpz) : Mpz :=
  if lhs.dig.length < rhs.dig.length then op rhs lhs else op lhs rhs

def andInpl : Mpz → Mpz → Mpz :=
  longerFirst fun lhs rhs =>
    if lhs.neg = false ∧ rhs.neg = false then ⟨false, mpnAnd lhs.dig rhs.dig⟩
    else
      ⟨lhs.neg && rhs.neg, mpnAndNeg lhs.dig rhs.dig (lhs.neg == rhs.neg).toNat lhs.neg.toNat rhs.neg.toNat⟩

def orInpl : Mpz → Mpz → Mpz :=
  longerFirst fun lhs rhs =>
    if lhs.neg = false ∧ rhs.neg = false then ⟨false, mpnOr lhs.dig rhs.dig⟩
    else ⟨true, mpnOrNeg lhs.dig rhs.dig lhs.neg.toNat rhs.neg.toNat⟩

def xorInpl : Mpz → Mpz → Mpz :=
  longerFirst fun lhs rhs =>
    if lhs.neg = rhs.neg then
      ⟨false, if lhs.neg = false then mpnXor lhs.dig rhs.dig else mpnXorNeg lhs.dig rhs.dig 0 0 0⟩
    else ⟨true, mpnXorNeg lhs.dig rhs.dig 1 (!lhs.neg).toNat (!rhs.neg).toNat⟩

def mulInpl (lhs rhs : Mpz) : Mpz :=
  if lhs.dig.length = 0 ∨ rhs.dig.length = 0 then setFromInt 0
  else ⟨lhs.neg != rhs.neg, mpnMul lhs.dig rhs.dig⟩

/-- The loop of `mpz_pow_inpl`; a number has at most sixteen bits for each digit. -/
def powLoop : ℕ → Mpz → Mpz → List ℕ → Option Mpz
  | _, dest, _, [] => some dest
  | 0, _, _, _ :: _ => none
  | turns + 1, dest, x, n0 :: n =>
      let dest := if n0 &&& 1 ≠ 0 then mulInpl dest x else dest
      let n := mpnShr (n0 :: n) 1
      if n.length = 0 then some dest else powLoop turns dest (mulInpl x x) n

def powInpl (lhs rhs : Mpz) : Option Mpz :=
  if lhs.dig.length = 0 ∨ rhs.neg then some (setFromInt 0)
  else if rhs.dig.length = 0 then some (setFromInt 1)
  else powLoop (16 * rhs.dig.length) (setFromInt 1) lhs rhs.dig

/-- `mpz_divmod_inpl`: quotient and remainder, with the remainder of the sign of `rhs`. -/
def divmodInpl (lhs rhs : Mpz) : Option (Mpz × Mpz) := do
  let (rem, quo) ← mpnDiv lhs.dig rhs.dig
  let destRem : Mpz := ⟨lhs.neg && rem.length ≠ 0, rem⟩
  if lhs.neg ≠ rhs.neg then
    let destQuo : Mpz := ⟨quo.length ≠ 0, quo⟩
    if rem.length ≠ 0 then return (addInpl destQuo (setFromInt (-1)), addInpl destRem rhs)
    else return (destQuo, destRem)
  else return (⟨false, quo⟩, destRem)

def pow3Loop (mod : Mpz) : ℕ → Mpz → Mpz → List ℕ → Option Mpz
  | _, dest, _, [] => some dest
  | 0, _, _, _ :: _ => none
  | turns + 1, dest, x, n0 :: n => do
      let dest ← (if n0 &&& 1 ≠ 0 then (divmodInpl (mulInpl dest x) mod).map Prod.snd else some dest)
      let n := mpnShr (n0 :: n) 1
      if n.length = 0 then return dest
      else
        let (_, x) ← divmodInpl (mulInpl x x) mod
        pow3Loop mod turns dest x n

def pow3Inpl (lhs rhs mod : Mpz) : Option Mpz :=
  if lhs.dig.length = 0 ∨ rhs.neg ∨ mod.dig = [1] then some (setFromInt 0)
  else pow3Loop mod (16 * rhs.dig.length) (setFromInt 1) lhs rhs.dig

/-- The loop of `mpz_as_int_checked`, from the highest digit on. -/
def asIntLoop : List ℕ → ℕ → Option ℕ
  | [], val => some val
  | d :: dig, val => if val > 32767 then none else asIntLoop dig (dbl (val <<< 16) ||| d)

/-- `mpz_as_int_checked`. -/
def asIntChecked (i : Mpz) : Option ℤ :=
  (asIntLoop i.dig.reverse 0).map fun val : ℕ => if i.neg then signed (-(val : ℤ)) else signed val

end Mpz

end CalSci
