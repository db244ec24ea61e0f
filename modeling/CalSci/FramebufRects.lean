import CalSci.FramebufPictures

/-! `fill_rect` against `setpixel`: each format has loops of its own for rectangles, which step over the bytes of rows
or columns; GS4 takes two pixels at a time and has ends to look after. On a sound buffer they all paint exactly the
pixels of the rectangle. -/

namespace CalSci.Framebuf

open PackedCells

variable {l : Layout} {d d' : Drawing} {x y w h : ℕ} {v : UInt32}

theorem Shows.trans {result : Except Py.Err Drawing} {pic : Picture} {F : Picture → Picture}
    (hfirst : Shows l d (.ok d') pic) (hthen : Shows l d' result (F (picture l d'))) : Shows l d result (F pic) := by
  obtain ⟨e, heq, rfl, houtside⟩ := hfirst
  cases heq
  obtain ⟨d'', hok, hpic, houtside'⟩ := hthen
  exact ⟨d'', hok, hpic, fun i hi => (houtside' i hi).trans (houtside i hi)⟩

/-- Painting on top of what was painted in the same colour. -/
theorem Shows.paint_union {result : Except Py.Err Drawing} {P Q : Set (Int × Int)}
    (hfirst : Shows l d (.ok d') ((picture l d).paint l P v))
    (hthen : Shows l d' result ((picture l d').paint l Q v)) :
    Shows l d result ((picture l d).paint l (P ∪ Q) v) := by
  have htrans := hfirst.trans (F := fun pic => pic.paint l Q v) hthen
  simpa only [Picture.paint_paint] using htrans

theorem Shows.paint_congr {result : Except Py.Err Drawing} {P Q : Set (Int × Int)} (hset : P = Q)
    (hshows : Shows l d result ((picture l d).paint l P v)) : Shows l d result ((picture l d).paint l Q v) := hset ▸ hshows

theorem Shows.paint_nothing (P : Set (Int × Int)) (hempty : P = ∅) (d : Drawing) :
    Shows l d (.ok d) ((picture l d).paint l P v) := by
  rw [hempty, Picture.paint_empty]
  exact Shows.refl l d

/-! ### Sets of pixels -/

theorem rectangle_zero_width (x y h : Int) : rectangle x y 0 h = ∅ := by
  ext q
  simp only [rectangle, Set.mem_ofPred_eq, Set.mem_empty_iff_false, iff_false]
  omega

theorem rectangle_zero_height (x y w : Int) : rectangle x y w 0 = ∅ := by
  ext q
  simp only [rectangle, Set.mem_ofPred_eq, Set.mem_empty_iff_false, iff_false]
  omega

/-- A rectangle cut in two from top to bottom. -/
theorem rectangle_add_width (x y : Int) (w w' : ℕ) (h : Int) :
    rectangle x y (w + w' : ℕ) h = rectangle x y w h ∪ rectangle (x + w) y w' h := by
  ext q
  simp only [rectangle, Set.mem_ofPred_eq, Set.mem_union]
  omega

/-- A rectangle cut in two from left to right. -/
theorem rectangle_add_height (x y w : Int) (h h' : ℕ) :
    rectangle x y w (h + h' : ℕ) = rectangle x y w h ∪ rectangle x (y + h) w h' := by
  ext q
  simp only [rectangle, Set.mem_ofPred_eq, Set.mem_union]
  omega

theorem rectangle_one (x y : Int) : rectangle x y 1 1 = {(x, y)} := by
  ext q
  obtain ⟨a, b⟩ := q
  simp only [rectangle, Set.mem_ofPred_eq, Set.mem_singleton_iff, Prod.mk.injEq]
  omega

theorem row_eq_rectangle (x y : ℕ) (n : ℕ) :
    {q : Int × Int | ∃ k < n, q ∈ ({(((x + k : ℕ) : Int), (y : Int))} : Set (Int × Int))} = rectangle x y n 1 := by
  ext ⟨a, b⟩
  simp only [rectangle, Set.mem_ofPred_eq, Set.mem_singleton_iff, Prod.mk.injEq]
  refine ⟨?_, ?_⟩
  · rintro ⟨k, hk, rfl, rfl⟩
    omega
  · rintro ⟨hle, hlt, hy, hy'⟩
    exact ⟨(a - x).toNat, by omega, by omega, by omega⟩

theorem column_eq_rectangle (x y : ℕ) (n : ℕ) :
    {q : Int × Int | ∃ k < n, q ∈ ({((x : Int), ((y + k : ℕ) : Int))} : Set (Int × Int))} = rectangle x y 1 n := by
  ext ⟨a, b⟩
  simp only [rectangle, Set.mem_ofPred_eq, Set.mem_singleton_iff, Prod.mk.injEq]
  refine ⟨?_, ?_⟩
  · rintro ⟨k, hk, rfl, rfl⟩
    omega
  · rintro ⟨hx, hx', hle, hlt⟩
    exact ⟨(b - y).toNat, by omega, by omega, by omega⟩

/-! ### Loops over bytes -/

/-- A byte in which the bits of one pixel are replaced. -/
theorem Layout.Sound.poke_shows (hl : l.Sound) (d : Drawing) (hx : x < l.width) (hy : y < l.height) {b : ℕ}
    {f : UInt8 → UInt8} {s : UInt8} (hs : s &&& mask l.format.depth = s) (hb : b = (l.place x y).index)
    (hf : ∀ byte, f byte = put l.format.depth (l.place x y).shift byte s) :
    Shows l d (.ok (d.poke b f)) ((picture l d).paint l {((x : Int), (y : Int))} s.toUInt32) := by
  rw [Picture.paint_singleton hx hy]
  apply hl.write_shows hx hy hs
  rw [hb]
  simp only [Drawing.poke, write, hf]

/-- A loop whose turns paint one set each. -/
theorem pokes_shows {f : UInt8 → UInt8} {s n : ℕ} {b : ℕ} {P : ℕ → Set (Int × Int)}
    (hpoke : ∀ k < n, ∀ d, Shows l d (.ok (d.poke (b + k * s) f)) ((picture l d).paint l (P k) v)) (d : Drawing) :
    Shows l d (.ok (d.pokes b s f n)) ((picture l d).paint l {q | ∃ k < n, q ∈ P k} v) := by
  induction n generalizing b d P with
  | zero =>
      apply Shows.paint_nothing
      ext q
      simp
  | succ n ih =>
      have hhead := hpoke 0 (Nat.succ_pos n) d
      rw [Nat.zero_mul, Nat.add_zero] at hhead
      have htail := ih (b := b + s) (P := fun k => P (k + 1)) (fun k hk d => by
        have hturn := hpoke (k + 1) (Nat.succ_lt_succ hk) d
        rwa [Nat.succ_mul, Nat.add_comm (k * s), ← Nat.add_assoc] at hturn) (d.poke b f)
      apply (hhead.paint_union htail).paint_congr
      ext q
      simp only [Set.mem_union, Set.mem_ofPred_eq]
      refine ⟨?_, ?_⟩
      · rintro (hq | ⟨k, hk, hq⟩)
        · exact ⟨0, Nat.succ_pos n, hq⟩
        · exact ⟨k + 1, Nat.succ_lt_succ hk, hq⟩
      · rintro ⟨k, hk, hq⟩
        cases k with
        | zero => exact Or.inl hq
        | succ k => exact Or.inr ⟨k, Nat.lt_of_succ_lt_succ hk, hq⟩

theorem lit_masked (col : UInt32) : lit col &&& mask 1 = lit col := by
  unfold lit
  split <;> decide

theorem mvlsbFillRect_shows (hl : l.Sound) (hformat : l.format = .mvlsb) (hx : x + w ≤ l.width) (hy : y + h ≤ l.height)
    (col : UInt32) (d : Drawing) :
    Shows l d (.ok (mvlsbFillRect l d x y w h col)) ((picture l d).paint l (rectangle x y w h) (lit col).toUInt32) := by
  induction h generalizing y d with
  | zero => exact Shows.paint_nothing _ (rectangle_zero_height x y w) d
  | succ h ih =>
      have hrow := pokes_shows (l := l) (v := (lit col).toUInt32) (b := y / 8 * l.stride + x) (s := 1) (n := w)
        (f := setBit (y % 8) col) (P := fun k => {(((x + k : ℕ) : Int), (y : Int))}) (fun k hk d => by
          apply hl.poke_shows d (by omega) (by omega)
          · simpa only [Format.depth, hformat] using lit_masked col
          · simp only [Layout.place, hformat]
            omega
          · intro byte
            simp only [Layout.place, hformat, Format.depth, setBit_eq_put]) d
      rw [row_eq_rectangle] at hrow
      have hrest := ih (y := y + 1) (by omega) (d.pokes (y / 8 * l.stride + x) 1 (setBit (y % 8) col) w)
      apply (hrow.paint_union hrest).paint_congr
      rw [Nat.add_comm h 1, rectangle_add_height]
      rfl

theorem monoHorizFillRect_shows (hl : l.Sound) (hformat : l.format = .mhlsb ∨ l.format = .mhmsb)
    (hx : x + w ≤ l.width) (hy : y + h ≤ l.height) (col : UInt32) (d : Drawing) :
    Shows l d (.ok (monoHorizFillRect l d x y w h col))
      ((picture l d).paint l (rectangle x y w h) (lit col).toUInt32) := by
  obtain ⟨t, ht⟩ := hl.aligned_horiz hformat
  have hadvance : l.stride / 8 = t := by omega
  have hplace : ∀ x y, l.place x y = ⟨(x + y * l.stride) / 8, horizOffset l x⟩ := by
    intro x y
    rcases hformat with hformat | hformat <;> simp only [Layout.place, hformat]
  have hdepth : l.format.depth = 1 := by
    rcases hformat with hformat | hformat <;> rw [hformat] <;> rfl
  induction w generalizing x d with
  | zero => exact Shows.paint_nothing _ (rectangle_zero_width x y h) d
  | succ w ih =>
      have hcolumn := pokes_shows (l := l) (v := (lit col).toUInt32) (b := x / 8 + y * t) (s := t) (n := h)
        (f := setBit (horizOffset l x) col) (P := fun k => {((x : Int), ((y + k : ℕ) : Int))}) (fun k hk d => by
          apply hl.poke_shows d (by omega) (by omega)
          · simpa only [hdepth] using lit_masked col
          · rw [hplace, ht, packed_index (by decide), Nat.add_mul, Nat.add_assoc]
          · intro byte
            rw [hplace, hdepth, setBit_eq_put]) d
      rw [column_eq_rectangle] at hcolumn
      have hrest := ih (x := x + 1) (by omega) (d.pokes (x / 8 + y * t) t (setBit (horizOffset l x) col) h)
      rw [monoHorizFillRect, hadvance]
      apply (hcolumn.paint_union hrest).paint_congr
      rw [Nat.add_comm w 1, rectangle_add_width]
      rfl

theorem gs8Rows_shows (hl : l.Sound) (hformat : l.format = .gs8) (hx : x + w ≤ l.width) (hy : y + h ≤ l.height)
    (col : UInt32) (d : Drawing) :
    Shows l d (.ok (gs8Rows l d (x + y * l.stride) w col h))
      ((picture l d).paint l (rectangle x y w h) col.toUInt8.toUInt32) := by
  have hplace : ∀ x y, l.place x y = ⟨x + y * l.stride, 0⟩ := fun x y => by simp only [Layout.place, hformat]
  induction h generalizing y d with
  | zero => exact Shows.paint_nothing _ (rectangle_zero_height x y w) d
  | succ h ih =>
      have hrow := pokes_shows (l := l) (v := col.toUInt8.toUInt32) (b := x + y * l.stride) (s := 1) (n := w)
        (f := fun _ => col.toUInt8) (P := fun k => {(((x + k : ℕ) : Int), (y : Int))}) (fun k hk d => by
          apply hl.poke_shows d (by omega) (by omega)
          · simpa only [Format.depth, hformat] using and_mask_eight _
          · simp only [hplace]
            omega
          · intro byte
            simp only [hplace, hformat, Format.depth, put_byte]) d
      rw [row_eq_rectangle] at hrow
      have hrest := ih (y := y + 1) (by omega) (d.pokes (x + y * l.stride) 1 (fun _ => col.toUInt8) w)
      rw [Nat.add_mul, Nat.one_mul, ← Nat.add_assoc] at hrest
      apply (hrow.paint_union hrest).paint_congr
      rw [Nat.add_comm h 1, rectangle_add_height]
      rfl

/-! ### Two pixels a byte -/

/-- Both halves of a byte replaced. -/
theorem put_pair (b : UInt8) {v : UInt8} (hv : v &&& mask 4 = v) :
    put 4 0 (put 4 4 b v) v = (v <<< (4 : UInt8)) ||| v := by
  apply UInt8.toBitVec_inj.mp
  apply BitVec.eq_of_getElem_eq
  intro i hi
  rw [getElem_put (by decide) _ _ hi, getElem_put (by decide) _ _ hi]
  by_cases hlow : i < 4
  · simp [hlow]
  · have hhigh : 4 ≤ i := Nat.le_of_not_lt hlow
    have hbit : v.toBitVec[i] = false := by
      rw [← hv, UInt8.toBitVec_and, BitVec.getElem_and, getElem_mask hi]
      simp [hlow]
    simp [hlow, hhigh, hi, hbit]

/-- The pairs of a row from an even pixel on, and the even pixel it may end with. -/
def gs4Rest (d : Drawing) (b n : ℕ) (s : UInt8) : Drawing :=
  if n % 2 = 1 then
    (d.pokes b 1 (fun _ => (s <<< 4) ||| s) (n / 2)).poke (b + n / 2) fun byte => (s <<< 4) ||| (byte &&& 0x0f)
  else d.pokes b 1 (fun _ => (s <<< 4) ||| s) (n / 2)

theorem gs4HmsbRow_even (d : Drawing) (b n : ℕ) (s : UInt8) :
    gs4HmsbRow d b n false s = (gs4Rest d b n s, b + (n + 1) / 2) := by
  by_cases hlast : n % 2 = 1
  · have hhalf : n / 2 + 1 = (n + 1) / 2 := by omega
    simp [gs4HmsbRow, gs4Rest, hlast, Nat.add_assoc, hhalf]
  · have hhalf : n / 2 = (n + 1) / 2 := by omega
    simp [gs4HmsbRow, gs4Rest, hlast, hhalf]

theorem gs4HmsbRow_odd_zero (d : Drawing) (b : ℕ) (s : UInt8) : gs4HmsbRow d b 0 true s = (d, b) := rfl

theorem gs4HmsbRow_odd_succ (d : Drawing) (b n : ℕ) (s : UInt8) :
    gs4HmsbRow d b (n + 1) true s =
      (gs4Rest (d.poke b fun byte => (byte &&& 0xf0) ||| s) (b + 1) n s, b + 1 + n / 2) := by
  by_cases hlast : n % 2 = 1 <;> simp [gs4HmsbRow, gs4Rest, hlast]

section Gs4

variable (hl : l.Sound) (hformat : l.format = .gs4Hmsb) {s : UInt8} (hs : s &&& mask 4 = s)

include hl hformat hs

/-- The low half of a byte is the odd pixel. -/
theorem gs4_low_shows (hx : x < l.width) (hy : y < l.height) (hodd : x % 2 = 1) {b : ℕ}
    (hb : b = (x + y * l.stride) / 2) (d : Drawing) :
    Shows l d (.ok (d.poke b fun byte => (byte &&& 0xf0) ||| s))
      ((picture l d).paint l {((x : Int), (y : Int))} s.toUInt32) := by
  have hlow : s &&& 0x0f = s := hs
  apply hl.poke_shows d hx hy
  · simpa only [Format.depth, hformat] using hs
  · simp only [Layout.place, hformat, hb]
  · intro byte
    simp only [Layout.place, hformat, hodd, if_true, Format.depth, put_low, hlow]

/-- The high half of a byte is the even pixel. -/
theorem gs4_high_shows (hx : x < l.width) (hy : y < l.height) (heven : x % 2 = 0) {b : ℕ}
    (hb : b = (x + y * l.stride) / 2) (d : Drawing) :
    Shows l d (.ok (d.poke b fun byte => (s <<< (4 : UInt8)) ||| (byte &&& 0x0f)))
      ((picture l d).paint l {((x : Int), (y : Int))} s.toUInt32) := by
  apply hl.poke_shows d hx hy
  · simpa only [Format.depth, hformat] using hs
  · simp only [Layout.place, hformat, hb]
  · intro byte
    have hodd : ¬ x % 2 = 1 := by omega
    simp only [Layout.place, hformat, hodd, if_false, Format.depth, put_high, UInt8.or_comm]

/-- A whole byte is two pixels. -/
theorem gs4_pair_shows (hx : x + 1 < l.width) (hy : y < l.height) (heven : x % 2 = 0) {b : ℕ}
    (hb : b = (x + y * l.stride) / 2) (d : Drawing) :
    Shows l d (.ok (d.poke b fun _ => (s <<< (4 : UInt8)) ||| s))
      ((picture l d).paint l (rectangle x y 2 1) s.toUInt32) := by
  obtain ⟨t, ht⟩ := hl.aligned hformat
  have hhigh := hl.poke_shows (x := x) (y := y) d (by omega) hy (b := b) (f := fun byte => put 4 4 byte s) (s := s)
    (by simpa only [Format.depth, hformat] using hs) (by simp only [Layout.place, hformat, hb]) (fun byte => by
      have hodd : ¬ x % 2 = 1 := by omega
      simp only [Layout.place, hformat, hodd, if_false, Format.depth])
  have hlow := hl.poke_shows (x := x + 1) (y := y) (d.poke b fun byte => put 4 4 byte s) hx hy (b := b)
    (f := fun byte => put 4 0 byte s) (s := s) (by simpa only [Format.depth, hformat] using hs)
    (by
      simp only [Layout.place, hformat, hb, ht]
      rw [packed_index (by decide), packed_index (by decide)]
      omega)
    (fun byte => by
      have hodd : (x + 1) % 2 = 1 := by omega
      simp only [Layout.place, hformat, hodd, if_true, Format.depth])
  have hpoke : ((d.poke b fun byte => put 4 4 byte s).poke b fun byte => put 4 0 byte s) =
      d.poke b fun _ => (s <<< (4 : UInt8)) ||| s := by
    simp only [Drawing.poke, Function.update_self, Function.update_idem, put_pair _ hs]
  rw [hpoke] at hlow
  apply (hhigh.paint_union hlow).paint_congr
  rw [← rectangle_one, ← rectangle_one]
  exact (rectangle_add_width x y 1 1 1).symm

/-- The `memset` of a row. -/
theorem gs4_pairs_shows {n : ℕ} (hx : x + 2 * n ≤ l.width) (hy : y < l.height) (heven : x % 2 = 0) {b : ℕ}
    (hb : b = (x + y * l.stride) / 2) (d : Drawing) :
    Shows l d (.ok (d.pokes b 1 (fun _ => (s <<< (4 : UInt8)) ||| s) n))
      ((picture l d).paint l (rectangle x y (2 * n : ℕ) 1) s.toUInt32) := by
  obtain ⟨t, ht⟩ := hl.aligned hformat
  have hpairs := pokes_shows (l := l) (v := s.toUInt32) (b := b) (s := 1) (n := n)
    (f := fun _ => (s <<< (4 : UInt8)) ||| s) (P := fun k => rectangle ((x + 2 * k : ℕ) : Int) y 2 1) (fun k hk d => by
      apply gs4_pair_shows hl hformat hs (by omega) hy (by omega)
      rw [hb, ht, packed_index (by decide), packed_index (by decide)]
      omega) d
  apply hpairs.paint_congr
  ext q
  simp only [rectangle, Set.mem_ofPred_eq]
  refine ⟨?_, ?_⟩
  · rintro ⟨k, hk, h1, h2, h3, h4⟩
    omega
  · rintro ⟨h1, h2, h3, h4⟩
    exact ⟨((q.1 - x) / 2).toNat, by omega, by omega, by omega, by omega, by omega⟩

theorem gs4Rest_shows {n : ℕ} (hx : x + n ≤ l.width) (hy : y < l.height) (heven : x % 2 = 0) {b : ℕ}
    (hb : b = (x + y * l.stride) / 2) (d : Drawing) :
    Shows l d (.ok (gs4Rest d b n s)) ((picture l d).paint l (rectangle x y n 1) s.toUInt32) := by
  have hpairs := gs4_pairs_shows hl hformat hs (n := n / 2) (by omega) hy heven hb d
  unfold gs4Rest
  split_ifs with hlast
  · obtain ⟨t, ht⟩ := hl.aligned hformat
    have hend := gs4_high_shows hl hformat hs (x := x + 2 * (n / 2)) (b := b + n / 2) (by omega) hy (by omega)
      (by
        rw [hb, ht, packed_index (by decide), packed_index (by decide)]
        omega)
      (d.pokes b 1 (fun _ => (s <<< (4 : UInt8)) ||| s) (n / 2))
    apply (hpairs.paint_union hend).paint_congr
    have hcut := rectangle_add_width x y (2 * (n / 2)) 1 1
    have hn : 2 * (n / 2) + 1 = n := by omega
    rw [hn] at hcut
    rw [hcut, ← rectangle_one, Nat.cast_add]
    rfl
  · have hn : 2 * (n / 2) = n := by omega
    rwa [hn] at hpairs

/-- A row: the odd pixel it may start with, and the rest. -/
theorem gs4HmsbRow_shows (hx : x + w ≤ l.width) (hy : y < l.height) (d : Drawing) :
    Shows l d (.ok (gs4HmsbRow d ((x + y * l.stride) / 2) w (x % 2 = 1) s).1)
        ((picture l d).paint l (rectangle x y w 1) s.toUInt32) ∧
      (gs4HmsbRow d ((x + y * l.stride) / 2) w (x % 2 = 1) s).2 + (l.stride - w) / 2 =
        (x + (y + 1) * l.stride) / 2 := by
  obtain ⟨t, ht⟩ := hl.aligned hformat
  have hwidth := hl.width_le
  have hnext : (x + (y + 1) * l.stride) / 2 = (x + y * l.stride) / 2 + t := by
    rw [ht, packed_index (by decide), packed_index (by decide)]
    ring
  by_cases hodd : x % 2 = 1
  · rw [decide_eq_true hodd]
    cases w with
    | zero =>
        rw [gs4HmsbRow_odd_zero, hnext]
        exact ⟨Shows.paint_nothing _ (rectangle_zero_width x y 1) d, by omega⟩
    | succ n =>
        rw [gs4HmsbRow_odd_succ, hnext]
        refine ⟨?_, by omega⟩
        have hfirst := gs4_low_shows hl hformat hs (by omega) hy hodd rfl d
        have hrest := gs4Rest_shows hl hformat hs (x := x + 1) (n := n) (b := (x + y * l.stride) / 2 + 1) (by omega) hy
          (by omega)
          (by
            rw [ht, packed_index (by decide), packed_index (by decide)]
            omega)
          (d.poke ((x + y * l.stride) / 2) fun byte => (byte &&& 0xf0) ||| s)
        apply (hfirst.paint_union hrest).paint_congr
        have hcut := rectangle_add_width x y 1 n 1
        rw [Nat.add_comm 1 n] at hcut
        rw [hcut, ← rectangle_one]
        rfl
  · rw [decide_eq_false hodd, gs4HmsbRow_even, hnext]
    exact ⟨gs4Rest_shows hl hformat hs hx hy (by omega) rfl d, by omega⟩

theorem gs4HmsbRows_shows (hx : x + w ≤ l.width) (hy : y + h ≤ l.height) (d : Drawing) :
    Shows l d (.ok (gs4HmsbRows l d ((x + y * l.stride) / 2) w (x % 2 = 1) s h))
      ((picture l d).paint l (rectangle x y w h) s.toUInt32) := by
  induction h generalizing y d with
  | zero => exact Shows.paint_nothing _ (rectangle_zero_height x y w) d
  | succ h ih =>
      obtain ⟨hrow, hnext⟩ := gs4HmsbRow_shows hl hformat hs hx (y := y) (by omega) d
      have hrest := ih (y := y + 1) (by omega) (gs4HmsbRow d ((x + y * l.stride) / 2) w (x % 2 = 1) s).1
      rw [← hnext] at hrest
      apply (hrow.paint_union hrest).paint_congr
      rw [Nat.add_comm h 1, rectangle_add_height]
      rfl

end Gs4

/-! ### Clipping -/

/-- The loops of every format paint the rectangle they are given. -/
theorem Layout.Sound.formatFillRect_shows (hl : l.Sound) (hx : x + w ≤ l.width) (hy : y + h ≤ l.height) (col : UInt32)
    (d : Drawing) :
    Shows l d (formatFillRect l d x y w h col)
      ((picture l d).paint l (rectangle x y w h) (l.format.shade col).toUInt32) := by
  have hpacked := hl.packed
  unfold formatFillRect Format.shade
  cases hformat : l.format <;> simp only [hformat, Format.Packed] at hpacked ⊢
  case mvlsb => exact mvlsbFillRect_shows hl hformat hx hy col d
  case gs4Hmsb =>
    have hs := shade_masked .gs4Hmsb col
    exact gs4HmsbRows_shows hl hformat hs hx hy d
  case gs8 => exact gs8Rows_shows hl hformat hx hy col d
  case mhlsb => exact monoHorizFillRect_shows hl (Or.inl hformat) hx hy col d
  case mhmsb => exact monoHorizFillRect_shows hl (Or.inr hformat) hx hy col d

/-- `fill_rect` paints the visible part of any rectangle. -/
theorem Layout.Sound.fillRect_shows (hl : l.Sound) (x y w h : Int) (col : UInt32) (d : Drawing) :
    Shows l d (fillRect l d x y w h col)
      ((picture l d).paint l (rectangle x y w h) (l.format.shade col).toUInt32) := by
  unfold fillRect
  split_ifs with hnone
  · have hempty : (picture l d).paint l (rectangle x y w h) (l.format.shade col).toUInt32 =
        (picture l d).paint l ∅ (l.format.shade col).toUInt32 := by
      apply Picture.paint_congr
      intro a b ha hb
      simp only [rectangle, Set.mem_ofPred_eq, Set.mem_empty_iff_false, iff_false]
      omega
    rw [hempty, Picture.paint_empty]
    exact Shows.refl l d
  · have hshows := hl.formatFillRect_shows (x := (max x 0).toNat) (y := (max y 0).toNat)
      (w := (min (l.width : Int) (x + w) - max x 0).toNat) (h := (min (l.height : Int) (y + h) - max y 0).toNat)
      (by omega) (by omega) col d
    have hclip : (picture l d).paint l (rectangle x y w h) (l.format.shade col).toUInt32 =
        (picture l d).paint l (rectangle (max x 0).toNat (max y 0).toNat
          (min (l.width : Int) (x + w) - max x 0).toNat (min (l.height : Int) (y + h) - max y 0).toNat)
          (l.format.shade col).toUInt32 := by
      apply Picture.paint_congr
      intro a b ha hb
      simp only [rectangle, Set.mem_ofPred_eq]
      omega
    rw [hclip]
    exact hshows

end CalSci.Framebuf
