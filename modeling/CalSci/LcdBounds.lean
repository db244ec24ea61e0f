import CalSci.LcdModel
import Mathlib.Tactic.Linarith

/-! The bounds of the LCD driver's reads. The size check compares the length of the buffer with a 32-bit
product, and the loops run over the same two factors modulo 256: the reads stay in the buffer and send
`width * pages` bytes exactly when the product is not changed by that reduction. -/

namespace CalSci.Lcd

/-- The arguments whose product survives the reduction of both factors to a byte: two bytes, a zero, or
two negative numbers for which the two reductions cancel (as `width + pages = -256` does). -/
def Fits (width pages : Int) : Prop :=
  (0 ≤ width ∧ width < 256 ∧ 0 ≤ pages ∧ pages < 256) ∨ width = 0 ∨ pages = 0 ∨
    (width < 0 ∧ pages < 0 ∧
      width / 256 * pages + pages / 256 * width = 256 * (width / 256 * (pages / 256)))

/-- The difference of the two products. -/
theorem mul_sub_mod (w p : Int) :
    w * p - w % 256 * (p % 256) = 256 * (w / 256 * p + p / 256 * w - 256 * (w / 256 * (p / 256))) := by
  have hw := Int.emod_add_mul_ediv w 256
  have hp := Int.emod_add_mul_ediv p 256
  obtain ⟨a, ha⟩ : ∃ a, w / 256 = a := ⟨_, rfl⟩
  obtain ⟨b, hb⟩ : ∃ b, p / 256 = b := ⟨_, rfl⟩
  rw [ha] at hw ⊢
  rw [hb] at hp ⊢
  rw [show w % 256 = w - 256 * a by omega, show p % 256 = p - 256 * b by omega]
  ring

theorem fits_iff (w p : Int) : Fits w p ↔ w * p = w % 256 * (p % 256) := by
  have hdiff := mul_sub_mod w p
  have hw0 := Int.emod_nonneg w (show (256 : Int) ≠ 0 by decide)
  have hp0 := Int.emod_nonneg p (show (256 : Int) ≠ 0 by decide)
  constructor
  · rintro (⟨hw, hw', hp, hp'⟩ | rfl | rfl | ⟨-, -, hcancel⟩)
    · rw [Int.emod_eq_of_lt hw hw', Int.emod_eq_of_lt hp hp']
    · simp
    · simp
    · rw [hcancel, sub_self, mul_zero] at hdiff
      exact sub_eq_zero.mp hdiff
  · intro hmul
    have hprod := mul_nonneg hw0 hp0
    rw [← hmul] at hprod
    rcases lt_trichotomy w 0 with hw | hw | hw
    · rcases lt_trichotomy p 0 with hp | hp | hp
      · rw [hmul, sub_self] at hdiff
        exact .inr (.inr (.inr ⟨hw, hp, by omega⟩))
      · exact .inr (.inr (.inl hp))
      · exact absurd hprod (not_le.mpr (mul_neg_of_neg_of_pos hw hp))
    · exact .inr (.inl hw)
    · rcases lt_trichotomy p 0 with hp | hp | hp
      · exact absurd hprod (not_le.mpr (mul_neg_of_pos_of_neg hw hp))
      · exact .inr (.inr (.inl hp))
      · -- neither factor can shrink, or the product would
        have hwle : w % 256 ≤ w := by omega
        have hple : p % 256 ≤ p := by omega
        have hw' : w ≤ w % 256 :=
          le_of_mul_le_mul_right (hmul.trans_le (mul_le_mul_of_nonneg_left hple hw0)) hp
        have hp' : p ≤ p % 256 :=
          le_of_mul_le_mul_left (hmul.trans_le (mul_le_mul_of_nonneg_right hwle hp0)) hw
        exact .inl ⟨hw.le, by omega, hp.le, by omega⟩

/-! ### The check -/

theorem toNat_toUInt32 (x : Int32) : (x.toUInt32.toNat : Int) = x.toInt % 2 ^ 32 := by
  have hlt : x.toBitVec.toNat < 2 ^ 32 := x.toBitVec.isLt
  change (x.toBitVec.toNat : Int) = x.toBitVec.toInt % 2 ^ 32
  rw [BitVec.toInt_eq_toNat_bmod]
  have hmod : Int.bmod (x.toBitVec.toNat : Int) (2 ^ 32) % (2 ^ 32 : Nat)
      = x.toBitVec.toNat % (2 ^ 32 : Nat) := Int.bmod_emod
  omega

theorem toNat_toByte (x : Int32) : ((toByte x).toNat : Int) = x.toInt % 256 := by
  have h := toNat_toUInt32 x
  rw [toByte, UInt32.toNat_toUInt8]
  omega

/-- The buffers the check accepts: their length is the product modulo `2 ^ 32`. -/
theorem mpDraw_eq_ok_iff {buf : Buffer} {page column width pages : Int32}
    {stream : List (Transfer Nat)} :
    mpDraw buf page column width pages = .ok stream ↔
      (buf.bytes.length : Int) = width.toInt * pages.toInt % 2 ^ 32 ∧
        stream = drawBufferEx id (toByte page) (toByte column) (toByte width) (toByte pages) := by
  have hlt := buf.length_lt
  have hsize : UInt32.ofNat buf.bytes.length = (width * pages).toUInt32 ↔
      (buf.bytes.length : Int) = width.toInt * pages.toInt % 2 ^ 32 := by
    have hprod : ((width * pages).toUInt32.toNat : Int) = width.toInt * pages.toInt % 2 ^ 32 := by
      rw [toNat_toUInt32, Int32.toInt_mul]
      exact Int.bmod_emod
    rw [← UInt32.toNat_inj, UInt32.toNat_ofNat_of_lt' hlt, ← hprod]
    omega
  rw [mpDraw]
  by_cases h : UInt32.ofNat buf.bytes.length = (width * pages).toUInt32
  · rw [if_neg (not_not_intro h), Except.ok.injEq, eq_comm]
    exact ⟨fun hs => ⟨hsize.mp h, hs⟩, And.right⟩
  · rw [if_pos h]
    exact ⟨nofun, fun hs => absurd (hsize.mpr hs.1) h⟩

/-- For every call that passes the size check: the reads stay in the buffer and exactly `width * pages`
bytes are sent, if and only if the product survives the reduction to bytes. -/
theorem draw_in_bounds_iff (buf : Buffer) (page column width pages : Int32)
    (stream : List (Transfer Nat)) (h : mpDraw buf page column width pages = .ok stream) :
    ((∀ i ∈ data stream, i < buf.bytes.length) ∧
        ((data stream).length : Int) = width.toInt * pages.toInt) ↔
      Fits width.toInt pages.toInt := by
  obtain ⟨hlen, rfl⟩ := mpDraw_eq_ok_iff.mp h
  have hwidth := toNat_toByte width
  have hpages := toNat_toByte pages
  have hcount : (((toByte pages).toNat * (toByte width).toNat : Nat) : Int)
      = width.toInt % 256 * (pages.toInt % 256) := by
    rw [Nat.cast_mul, hwidth, hpages, mul_comm]
  rw [data_drawBufferEx, List.map_id, List.length_range, hcount, fits_iff]
  constructor
  · rintro ⟨-, hmul⟩
    exact hmul.symm
  · intro hmul
    refine ⟨fun i hi => ?_, hmul.symm⟩
    -- a product of two bytes is below `2 ^ 32`, so it is the length itself
    have hsmall : (toByte pages).toNat * (toByte width).toNat ≤ 255 * 255 :=
      Nat.mul_le_mul (Nat.le_of_lt_succ (toByte pages).toNat_lt)
        (Nat.le_of_lt_succ (toByte width).toNat_lt)
    rw [List.mem_range] at hi
    rw [hmul, ← hcount] at hlen
    omega

/-- Two bytes on one page. -/
theorem draw_in_bounds_iff_short :
    let buf : Buffer := ⟨[0x0f, 0xf0], by decide⟩
    ∃ stream, mpDraw buf 0 0 2 1 = .ok stream ∧
      (((∀ i ∈ data stream, i < buf.bytes.length) ∧
        ((data stream).length : Int) = (2 : Int32).toInt * (1 : Int32).toInt) ↔
        Fits (2 : Int32).toInt (1 : Int32).toInt) := by
  intro buf
  have hok : mpDraw buf 0 0 2 1 = .ok (drawBufferEx id 0 0 2 1) := by decide
  exact ⟨_, hok, draw_in_bounds_iff buf 0 0 2 1 _ hok⟩

/-- `graphics(buf, width=-1, pages=-1)` with a buffer of one byte passes the check, since the product
is 1, and then reads 255 pages of 255 columns. -/
theorem draw_reads_past_buffer :
    let buf : Buffer := ⟨[0xff], by decide⟩
    ∃ stream, mpDraw buf 0 0 (-1) (-1) = .ok stream ∧ buf.bytes.length = 1 ∧
      (data stream).length = 255 * 255 ∧
      ¬ ((∀ i ∈ data stream, i < buf.bytes.length) ∧
        ((data stream).length : Int) = (-1 : Int32).toInt * (-1 : Int32).toInt) := by
  intro buf
  have hok : mpDraw buf 0 0 (-1) (-1) = .ok (drawBufferEx id 0 0 255 255) :=
    mpDraw_eq_ok_iff.mpr ⟨by decide, rfl⟩
  have hdata : data (drawBufferEx id 0 0 255 255) = List.range (255 * 255) := by
    rw [data_drawBufferEx, List.map_id]
    rfl
  refine ⟨_, hok, rfl, by rw [hdata, List.length_range], fun hin => ?_⟩
  rw [hdata] at hin
  exact absurd (hin.1 1 (List.mem_range.mpr (by decide))) (by decide)

end CalSci.Lcd
