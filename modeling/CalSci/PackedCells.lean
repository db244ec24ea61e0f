import Mathlib.Algebra.Ring.Nat
import Mathlib.Logic.Function.Basic
import Mathlib.Data.Nat.Notation

/-! Cells of a few bits packed into bytes. A cell lies in one byte, from some bit on; writing it keeps the other bits
of its byte and every other byte, so that cells whose bits are apart do not disturb each other. -/

namespace PackedCells

abbrev Memory := ℕ → UInt8

/-- Where a cell lies: its byte, and its lowest bit there. -/
structure Place where
  index : ℕ
  shift : ℕ
  deriving DecidableEq, Repr

/-- The `bits` lowest bits of a byte. -/
def mask (bits : ℕ) : UInt8 := UInt8.ofNat (2 ^ bits - 1)

/-- A byte with a cell of `bits` bits replaced. -/
def put (bits shift : ℕ) (b v : UInt8) : UInt8 :=
  (b &&& ~~~(mask bits <<< UInt8.ofNat shift)) ||| ((v &&& mask bits) <<< UInt8.ofNat shift)

def take (bits shift : ℕ) (b : UInt8) : UInt8 := (b >>> UInt8.ofNat shift) &&& mask bits

def read (bits : ℕ) (m : Memory) (p : Place) : UInt8 := take bits p.shift (m p.index)

def write (bits : ℕ) (m : Memory) (p : Place) (v : UInt8) : Memory :=
  Function.update m p.index (put bits p.shift (m p.index) v)

/-- No bit is in both cells. -/
def Apart (bits : ℕ) (p q : Place) : Prop :=
  p.index = q.index → p.shift + bits ≤ q.shift ∨ q.shift + bits ≤ p.shift

/-- Two bytes with the same bits. -/
theorem byte_ext {a b : UInt8} (h : ∀ i (hi : i < 8), a.toBitVec[i] = b.toBitVec[i]) : a = b :=
  UInt8.toBitVec_inj.mp (BitVec.eq_of_getElem_eq h)

theorem getElem_mask {bits i : ℕ} (hi : i < 8) : (mask bits).toBitVec[i] = decide (i < bits) := by
  have hofNat : (mask bits).toBitVec = BitVec.ofNat 8 (2 ^ bits - 1) := rfl
  rw [← BitVec.getLsbD_eq_getElem, hofNat, BitVec.getLsbD_ofNat, Nat.testBit_two_pow_sub_one]
  simp [hi]

/-- The bits of a byte after a cell was put in. -/
theorem getElem_put {bits shift : ℕ} (h : shift < 8) (b v : UInt8) {i : ℕ} (hi : i < 8) :
    (put bits shift b v).toBitVec[i] =
      if shift ≤ i ∧ i < shift + bits then v.toBitVec[i - shift] else b.toBitVec[i] := by
  have hmod : shift % 256 % 8 = shift := by omega
  have hrest : i - shift < 8 := by omega
  by_cases hlow : i < shift
  · have hout : ¬ (shift ≤ i ∧ i < shift + bits) := by omega
    simp [put, hmod, hlow, hout]
  · have hle : shift ≤ i := Nat.le_of_not_lt hlow
    have hlt : i - shift < bits ↔ i < shift + bits := by omega
    by_cases hin : i < shift + bits <;> simp [put, hmod, hlow, getElem_mask hrest, hlt, hin, hle]

theorem getElem_take {bits shift : ℕ} (h : shift < 8) (b : UInt8) {i : ℕ} (hi : i < 8) :
    (take bits shift b).toBitVec[i] = (b.toBitVec.getLsbD (shift + i) && decide (i < bits)) := by
  have hmod : shift % 256 % 8 = shift := by omega
  simp [take, hmod, getElem_mask hi]

theorem and_mask_eight (v : UInt8) : v &&& mask 8 = v := by
  apply byte_ext
  intro i hi
  simp [getElem_mask hi, hi]

/-- A cell of one bit. -/
theorem take_one {shift : ℕ} (h : shift < 8) (b : UInt8) :
    take 1 shift b = if b.toNat.testBit shift then 1 else 0 := by
  apply byte_ext
  intro i hi
  have hbit : b.toBitVec.getLsbD shift = b.toNat.testBit shift := rfl
  rw [getElem_take h _ hi]
  cases i with
  | zero => cases htest : b.toNat.testBit shift <;> simp [hbit, htest]
  | succ i => cases htest : b.toNat.testBit shift <;> simp

theorem take_put_self {bits shift : ℕ} (h : shift < 8) (hin : shift + bits ≤ 8) (b v : UInt8) :
    take bits shift (put bits shift b v) = v &&& mask bits := by
  apply UInt8.toBitVec_inj.mp
  apply BitVec.eq_of_getElem_eq
  intro i hi
  rw [getElem_take h _ hi, UInt8.toBitVec_and, BitVec.getElem_and, getElem_mask hi]
  by_cases hbits : i < bits
  · have hlt : shift + i < 8 := by omega
    rw [BitVec.getLsbD_eq_getElem hlt, getElem_put h _ _ hlt, if_pos (by omega)]
    simp
  · simp [hbits]

/-- A cell outside the bits that were replaced. -/
theorem take_put_of_apart {bits shift other : ℕ} (h : shift < 8) (hother : other < 8)
    (hapart : shift + bits ≤ other ∨ other + bits ≤ shift) (b v : UInt8) :
    take bits other (put bits shift b v) = take bits other b := by
  apply UInt8.toBitVec_inj.mp
  apply BitVec.eq_of_getElem_eq
  intro i hi
  rw [getElem_take hother _ hi, getElem_take hother _ hi]
  by_cases hlt : other + i < 8
  · by_cases hbits : i < bits
    · rw [BitVec.getLsbD_eq_getElem hlt, BitVec.getLsbD_eq_getElem hlt, getElem_put h _ _ hlt, if_neg (by omega)]
    · simp [hbits]
  · simp [Nat.le_of_not_lt hlt]

variable {bits : ℕ} {m : Memory} {p q : Place}

theorem read_write_self (hp : p.shift < 8) (hin : p.shift + bits ≤ 8) (v : UInt8) :
    read bits (write bits m p v) p = v &&& mask bits := by
  rw [read, write, Function.update_self, take_put_self hp hin]

theorem read_write_of_apart (hp : p.shift < 8) (hq : q.shift < 8) (h : Apart bits p q) (v : UInt8) :
    read bits (write bits m p v) q = read bits m q := by
  by_cases hindex : p.index = q.index
  · rw [read, read, write, ← hindex, Function.update_self, take_put_of_apart hp hq (h hindex)]
  · rw [read, read, write, Function.update_of_ne (Ne.symm hindex)]

theorem write_of_ne {i : ℕ} (h : i ≠ p.index) (v : UInt8) : write bits m p v i = m i :=
  Function.update_of_ne h _ _

end PackedCells
