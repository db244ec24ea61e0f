import CalSci.FramebufModel
import Mathlib.Tactic.Ring

/-! Five of the formats of `framebuf` pack a pixel into bits of one byte, each pixel into bits of its own: `setpixel`
sets one pixel and no other, and what it stores is what `getpixel` reads. The bytes of such a buffer then are a picture,
and the loops of `fill_rect`, byte by byte, set the pixels of a rectangle. -/

namespace CalSci.Framebuf

open PackedCells

/-- The formats whose pixels are read back as they were stored. -/
def Format.Packed : Format → Prop
  | .mvlsb | .mhlsb | .mhmsb | .gs4Hmsb | .gs8 => True
  | .rgb565 | .gs2Hmsb => False

instance : DecidablePred Format.Packed := fun f => by
  cases f <;> unfold Format.Packed <;> infer_instance

/-- The bits of a pixel. -/
def Format.depth : Format → ℕ
  | .gs4Hmsb => 4
  | .gs8 => 8
  | _ => 1

/-- What a format keeps of a colour. -/
def Format.shade (format : Format) (col : UInt32) : UInt8 :=
  match format with
  | .gs4Hmsb => (col &&& 0x0f).toUInt8
  | .gs8 => col.toUInt8
  | _ => lit col

def Layout.place (l : Layout) (x y : ℕ) : Place :=
  match l.format with
  | .mvlsb => ⟨y / 8 * l.stride + x, y % 8⟩
  | .gs4Hmsb => ⟨(x + y * l.stride) / 2, if x % 2 = 1 then 0 else 4⟩
  | .gs8 => ⟨x + y * l.stride, 0⟩
  | _ => ⟨(x + y * l.stride) / 8, horizOffset l x⟩

/-- What the constructor gives a buffer of one of these formats: rows do not overlap and start at a byte, and every
pixel is in the buffer. -/
structure Layout.Sound (l : Layout) : Prop where
  packed : l.format.Packed
  width_le : l.width ≤ l.stride
  aligned : l.format = .gs4Hmsb → 2 ∣ l.stride
  aligned_horiz : l.format = .mhlsb ∨ l.format = .mhmsb → 8 ∣ l.stride
  room : ∀ x y, x < l.width → y < l.height → (l.place x y).index < l.len

theorem le_roundUp {k : ℕ} (hk : 0 < k) (n : ℕ) : n ≤ roundUp k n := by
  rw [roundUp]
  have hdiv := Nat.div_add_mod (n + (k - 1)) k
  have hmod := Nat.mod_lt (n + (k - 1)) hk
  rw [Nat.mul_comm] at hdiv
  omega

theorem dvd_roundUp (k n : ℕ) : k ∣ roundUp k n := Dvd.intro_left _ rfl

/-- Two rows of a buffer share no byte. -/
theorem row_unique {s a b x y : ℕ} (hx : x < s) (hy : y < s) (h : x + a * s = y + b * s) : x = y ∧ a = b := by
  have hs : 0 < s := by omega
  have hmod := congrArg (· % s) h
  have hdiv := congrArg (· / s) h
  simp only [Nat.add_mul_mod_self_right, Nat.mod_eq_of_lt hx, Nat.mod_eq_of_lt hy] at hmod
  simp only [Nat.add_mul_div_right _ _ hs, Nat.div_eq_of_lt hx, Nat.div_eq_of_lt hy, Nat.zero_add] at hdiv
  exact ⟨hmod, hdiv⟩

/-- The byte of a pixel in a format with `k` pixels a byte. -/
theorem packed_index {k t : ℕ} (hk : 0 < k) (x y : ℕ) : (x + y * (k * t)) / k = x / k + y * t := by
  have hmul : y * (k * t) = y * t * k := by ring
  rw [hmul, Nat.add_mul_div_right _ _ hk]

theorem packed_unique {k s x y x' y' : ℕ} (hk : 0 < k) (hdvd : k ∣ s) (hx : x < s) (hx' : x' < s)
    (h : (x + y * s) / k = (x' + y' * s) / k) : y = y' ∧ x / k = x' / k := by
  obtain ⟨t, rfl⟩ := hdvd
  rw [packed_index hk, packed_index hk] at h
  have hlt : ∀ z, z < k * t → z / k < t := fun z hz => Nat.div_lt_of_lt_mul hz
  obtain ⟨hcol, hrow⟩ := row_unique (hlt x hx) (hlt x' hx') h
  exact ⟨hrow, hcol⟩

variable {l : Layout} {x y x' y' : ℕ}

theorem place_shift_lt (l : Layout) (x y : ℕ) : (l.place x y).shift < 8 := by
  unfold Layout.place horizOffset
  split <;> (try split) <;> simp <;> omega

theorem place_within (l : Layout) (x y : ℕ) : (l.place x y).shift + l.format.depth ≤ 8 := by
  have hshift := place_shift_lt l x y
  unfold Layout.place Format.depth at *
  cases hformat : l.format <;> simp only [hformat] at * <;> first | omega | skip
  split <;> omega

/-- Different pixels have different bits. -/
theorem Layout.Sound.apart (h : l.Sound) (hx : x < l.width) (hx' : x' < l.width) (hne : (x, y) ≠ (x', y')) :
    Apart l.format.depth (l.place x y) (l.place x' y') := by
  have hxs := hx.trans_le h.width_le
  have hxs' := hx'.trans_le h.width_le
  have hne' : ¬ (x = x' ∧ y = y') := fun heq => hne (Prod.ext heq.1 heq.2)
  have horiz : 8 ∣ l.stride → (x + y * l.stride) / 8 = (x' + y' * l.stride) / 8 → x % 8 ≠ x' % 8 := by
    intro hdvd heq hmod
    obtain ⟨hrow, hcol⟩ := packed_unique (by decide) hdvd hxs hxs' heq
    exact hne' ⟨by omega, hrow⟩
  intro hindex
  unfold Layout.place Format.depth horizOffset at *
  have hpacked := h.packed
  cases hformat : l.format <;> simp only [hformat, Format.Packed] at hindex hpacked ⊢
  case mvlsb =>
    rw [Nat.add_comm, Nat.add_comm (y' / 8 * l.stride)] at hindex
    obtain ⟨hcol, hrow⟩ := row_unique hxs hxs' hindex
    omega
  case gs4Hmsb =>
    obtain ⟨hrow, hcol⟩ := packed_unique (by decide) (h.aligned hformat) hxs hxs' hindex
    split <;> split <;> omega
  case gs8 =>
    exact absurd (row_unique hxs hxs' hindex) hne'
  case mhlsb =>
    have hmod := horiz (h.aligned_horiz (Or.inl hformat)) hindex
    simp only [reduceCtorEq, if_false]
    omega
  case mhmsb =>
    have hmod := horiz (h.aligned_horiz (Or.inr hformat)) hindex
    simp only [if_true]
    omega

/-! ### Reading and storing a pixel -/

theorem setBit_eq_put (offset : ℕ) (col : UInt32) (b : UInt8) : setBit offset col b = put 1 offset b (lit col) := by
  have hlit : lit col &&& mask 1 = lit col := by
    unfold lit
    split <;> decide
  rw [put, hlit]
  rfl

theorem nibble_shift (v : UInt8) : (v &&& 0x0f) <<< (4 : UInt8) = v <<< (4 : UInt8) := by
  have hmask : (0x0f : UInt8) = mask 4 := rfl
  rw [hmask]
  apply byte_ext
  intro i hi
  have hback : i - 4 < 8 := by omega
  have hkept : i - 4 < 4 := by omega
  by_cases hlow : i < 4 <;> simp [getElem_mask hback, hkept, hlow]

theorem put_low (b v : UInt8) : put 4 0 b v = (b &&& 0xf0) ||| (v &&& 0x0f) := by
  have hmask : ~~~(mask 4 <<< UInt8.ofNat 0) = 0xf0 := by decide
  have hshift : (v &&& mask 4) <<< UInt8.ofNat 0 = (v &&& 0x0f) := UInt8.shiftLeft_zero
  rw [put, hmask, hshift]

theorem put_high (b v : UInt8) : put 4 4 b v = (b &&& 0x0f) ||| (v <<< (4 : UInt8)) := by
  have hmask : ~~~(mask 4 <<< UInt8.ofNat 4) = 0x0f := by decide
  have hshift : (v &&& mask 4) <<< UInt8.ofNat 4 = v <<< 4 := nibble_shift v
  rw [put, hmask, hshift]

theorem put_byte (b v : UInt8) : put 8 0 b v = v := by
  have hmask : ~~~(mask 8 <<< UInt8.ofNat 0) = 0 := by decide
  rw [put, hmask, and_mask_eight]
  simp

theorem take_low (b : UInt8) : take 4 0 b = b &&& 0x0f := by
  have hmask : mask 4 = 0x0f := rfl
  simp [take, hmask]

theorem take_high (b : UInt8) : take 4 4 b = b >>> 4 := by
  apply byte_ext
  intro i hi
  rw [getElem_take (by decide) _ hi]
  by_cases hlow : i < 4
  · simp [hlow]
  · have hout : 8 ≤ 4 + i := by omega
    simp [hlow, BitVec.getLsbD_of_ge _ _ hout]

theorem take_byte (b : UInt8) : take 8 0 b = b := by
  simp [take, and_mask_eight]

/-- What is stored is read back. -/
theorem shade_masked (format : Format) (col : UInt32) : format.shade col &&& mask format.depth = format.shade col := by
  have hlit : lit col &&& mask 1 = lit col := by
    unfold lit
    split <;> decide
  have hlow : ∀ v : UInt8, v &&& 0x0f &&& mask 4 = v &&& 0x0f := fun v => UInt8.and_assoc v 0x0f (mask 4)
  cases format <;> simp only [Format.shade, Format.depth, hlit, and_mask_eight]
  rw [UInt32.toUInt8_and]
  exact hlow _

theorem getpixel_eq (hpacked : l.format.Packed) (d : Drawing) (x y : ℕ) :
    getpixel l d x y = (PackedCells.read l.format.depth d.buf (l.place x y)).toUInt32 := by
  unfold getpixel PackedCells.read Layout.place Format.depth
  cases hformat : l.format <;> simp only [hformat, Format.Packed] at hpacked ⊢
  case mvlsb => rfl
  case gs4Hmsb =>
    rw [gs4HmsbGetpixel]
    split_ifs
    · rw [take_low]
    · rw [take_high]
  case gs8 => rw [gs8Getpixel, take_byte]
  case mhlsb => rfl
  case mhmsb => rfl

/-- The pixel's own bits change, and the log. -/
theorem setpixel_eq (hpacked : l.format.Packed) (d : Drawing) (hx : x < l.width) (hy : y < l.height) (col : UInt32) :
    setpixel l d x y col = .ok { d.log l.len (l.place x y).index with
      buf := write l.format.depth d.buf (l.place x y) (l.format.shade col) } := by
  have hon : ¬ (l.width ≤ x ∨ l.height ≤ y) := by omega
  unfold setpixel write Layout.place Format.depth Format.shade
  cases hformat : l.format <;> simp only [hformat, Format.Packed] at hpacked ⊢
  case mvlsb =>
    rw [mvlsbSetpixel, checkedSetpixel, if_neg hon]
    simp only [Drawing.poke, setBit_eq_put]
    rfl
  case gs4Hmsb =>
    rw [gs4HmsbSetpixel]
    split_ifs with hodd
    · have hput : put 4 0 (d.buf ((x + y * l.stride) / 2)) (col &&& 0x0f).toUInt8 =
          (col &&& 0x0F).toUInt8 ||| (d.buf ((x + y * l.stride) / 2) &&& 0xF0) := by
        rw [put_low, UInt8.or_comm, UInt32.toUInt8_and, UInt8.and_assoc]
        rfl
      rw [hput]
      simp only [Drawing.poke]
      rfl
    · have hput : put 4 4 (d.buf ((x + y * l.stride) / 2)) (col &&& 0x0f).toUInt8 =
          (col.toUInt8 <<< 4) ||| (d.buf ((x + y * l.stride) / 2) &&& 0x0F) := by
        rw [put_high, UInt8.or_comm, UInt32.toUInt8_and]
        congr 1
        exact nibble_shift _
      rw [hput]
      simp only [Drawing.poke]
      rfl
  case gs8 =>
    rw [gs8Setpixel, checkedSetpixel, if_neg hon]
    simp only [Drawing.poke, put_byte]
    rfl
  case mhlsb =>
    rw [monoHorizSetpixel, checkedSetpixel, if_neg hon]
    simp only [Drawing.poke, setBit_eq_put]
    rfl
  case mhmsb =>
    rw [monoHorizSetpixel, checkedSetpixel, if_neg hon]
    simp only [Drawing.poke, setBit_eq_put]
    rfl

/-! ### What the constructor checks -/

theorem index_lt {x y t u a : ℕ} (hx : x < u) (hy : y ≤ a) : x + y * t < a * t + u := by
  have hrows := Nat.mul_le_mul_right t hy
  omega

theorem requires_stride (format : Format) (width height stride : ℕ) :
    stride ≤ (format.requires width height stride).1 ∧
      (format = .gs4Hmsb → 2 ∣ (format.requires width height stride).1) ∧
      (format = .mhlsb ∨ format = .mhmsb → 8 ∣ (format.requires width height stride).1) := by
  have h8 := le_roundUp (k := 8) (by decide) stride
  have h4 := le_roundUp (k := 4) (by decide) stride
  have h2 := le_roundUp (k := 2) (by decide) stride
  cases format <;> simp [Format.requires, dvd_roundUp, h8, h4, h2]

/-- The bytes `make_new` asks for hold every pixel. -/
theorem place_lt_bits {f : Format} {width height stride len : ℕ} (hpacked : f.Packed) (hx : x < width) (hy : y < height) :
    (Layout.place ⟨f, width, height, (f.requires width height stride).1, len⟩ x y).index <
      f.bits width height stride / 8 := by
  have hrow : y ≤ height - 1 := by omega
  have hone : height - (height - 1) = 1 := by omega
  have horiz : (x + y * roundUp 8 stride) / 8 <
      ((height - 1) * roundUp 8 stride + (height - (height - 1)) * roundUp 8 width) * 1 / 8 := by
    obtain ⟨t, ht⟩ := dvd_roundUp 8 stride
    obtain ⟨u, hu⟩ := dvd_roundUp 8 width
    have hwidth := le_roundUp (k := 8) (by decide) width
    have hneeded : ((height - 1) * (8 * t) + 1 * (8 * u)) * 1 = 8 * ((height - 1) * t + u) := by ring
    rw [ht, hu, hone, hneeded, Nat.mul_div_cancel_left _ (by decide), packed_index (by decide)]
    exact index_lt (by omega) hrow
  cases f <;> simp only [Format.Packed, Layout.place, Format.bits, Format.requires] at hpacked ⊢
  case mvlsb =>
    have hrows : y / 8 ≤ (height + 7) / 8 - 1 := by omega
    have hR : roundUp 8 height = 8 * ((height + 7) / 8) := by
      rw [roundUp, Nat.mul_comm]
    have hdiff : roundUp 8 height - 8 = 8 * ((height + 7) / 8 - 1) := by omega
    have hlast : roundUp 8 height - (roundUp 8 height - 8) = 8 := by omega
    have hneeded : (8 * ((height + 7) / 8 - 1) * stride + 8 * width) * 1 =
        8 * (((height + 7) / 8 - 1) * stride + width) := by ring
    rw [hlast, hdiff, hneeded, Nat.mul_div_cancel_left _ (by decide), Nat.add_comm]
    exact index_lt hx hrows
  case gs4Hmsb =>
    obtain ⟨t, ht⟩ := dvd_roundUp 2 stride
    obtain ⟨u, hu⟩ := dvd_roundUp 2 width
    have hwidth := le_roundUp (k := 2) (by decide) width
    have hneeded : ((height - 1) * (2 * t) + 1 * (2 * u)) * 4 = 8 * ((height - 1) * t + u) := by ring
    rw [ht, hu, hone, hneeded, Nat.mul_div_cancel_left _ (by decide), packed_index (by decide)]
    exact index_lt (by omega) hrow
  case gs8 =>
    rw [hone, Nat.one_mul, Nat.mul_div_cancel _ (by decide)]
    exact index_lt hx hrow
  case mhlsb => exact horiz
  case mhmsb => exact horiz

/-- What an accepted call of the constructor says. -/
theorem makeNew_inv {len : ℕ} {width height format stride : Int}
    (hnew : makeNew len width height format stride = .ok l) :
    width.toNat ≤ stride.toNat ∧ l.format.bits width.toNat height.toNat stride.toNat % 2 ^ 32 / 8 ≤ len ∧
      l = ⟨l.format, width.toNat, height.toNat, (l.format.requires width.toNat height.toNat stride.toNat).1, len⟩ := by
  unfold makeNew at hnew
  split_ifs at hnew with hargs
  cases hformat : Format.ofInt format with
  | none =>
      rw [hformat] at hnew
      cases hnew
  | some f =>
      simp only [hformat] at hnew
      split_ifs at hnew with hneeded
      cases hnew
      exact ⟨by omega, Nat.le_of_not_lt hneeded, rfl⟩

/-- An accepted buffer of one of these formats is sound, when its bits can be counted in 32 bits. -/
theorem makeNew_sound {len : ℕ} {width height format stride : Int}
    (hnew : makeNew len width height format stride = .ok l) (hpacked : l.format.Packed)
    (hbits : l.format.bits width.toNat height.toNat stride.toNat < 2 ^ 32) : l.Sound ∧ l.len = len := by
  obtain ⟨hwidth, hneeded, hl⟩ := makeNew_inv hnew
  rw [Nat.mod_eq_of_lt hbits] at hneeded
  generalize hf : l.format = f at *
  subst hl
  obtain ⟨hstride, heven, hbyte⟩ := requires_stride f width.toNat height.toNat stride.toNat
  exact ⟨{
    packed := hpacked
    width_le := hwidth.trans hstride
    aligned := heven
    aligned_horiz := hbyte
    room := fun x y hx hy => (place_lt_bits hpacked hx hy).trans_le hneeded }, rfl⟩

end CalSci.Framebuf
