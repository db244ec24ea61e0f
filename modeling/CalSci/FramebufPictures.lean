import CalSci.FramebufFormats
import Mathlib.Data.Set.Basic

/-! What the drawing calls mean: a picture gives each pixel a colour, and a call paints a set of pixels, moves the
picture, or copies another one into it. On a sound buffer each call does to the bytes what it does to the picture, and
leaves the memory behind the buffer alone. -/

namespace CalSci.Framebuf

open PackedCells

abbrev Picture := ℕ × ℕ → UInt32

/-- The picture in a buffer; nothing is shown outside of it. -/
def picture (l : Layout) (d : Drawing) : Picture := fun p =>
  if p.1 < l.width ∧ p.2 < l.height then getpixel l d p.1 p.2 else 0

def rectangle (x y w h : Int) : Set (Int × Int) := {q | x ≤ q.1 ∧ q.1 < x + w ∧ y ≤ q.2 ∧ q.2 < y + h}

namespace Picture

open Classical in
/-- The visible pixels of a set in one colour. -/
noncomputable def paint (l : Layout) (pic : Picture) (P : Set (Int × Int)) (v : UInt32) : Picture := fun p =>
  if p.1 < l.width ∧ p.2 < l.height ∧ ((p.1 : Int), (p.2 : Int)) ∈ P then v else pic p

/-- Every pixel whose source is visible takes its colour. -/
def shift (l : Layout) (pic : Picture) (xstep ystep : Int) : Picture := fun p =>
  if p.1 < l.width ∧ p.2 < l.height ∧ l.Onscreen (p.1 - xstep) (p.2 - ystep) then
    pic ((p.1 - xstep).toNat, (p.2 - ystep).toNat)
  else pic p

/-- The pixels of another picture, from `(x, y)` on, except those of colour `key`. -/
def copy (l : Layout) (pic : Picture) (source : Source) (x y : Int) (key : UInt32) (palette : Option Source) : Picture :=
  fun p =>
    let col := source.pixel palette (p.1 - x).toNat (p.2 - y).toNat
    if p.1 < l.width ∧ p.2 < l.height ∧ source.layout.Onscreen (p.1 - x) (p.2 - y) ∧ col ≠ key then
      (l.format.shade col).toUInt32
    else pic p

noncomputable def call (l : Layout) (pic : Picture) : Call → Picture
  | .fill col => pic.paint l Set.univ (l.format.shade col).toUInt32
  | .fillRect x y w h col => pic.paint l (rectangle x y w h) (l.format.shade col).toUInt32
  | .pixel x y col => pic.paint l {(x, y)} (l.format.shade col).toUInt32
  | .hline x y w col => pic.paint l (rectangle x y w 1) (l.format.shade col).toUInt32
  | .vline x y h col => pic.paint l (rectangle x y 1 h) (l.format.shade col).toUInt32
  | .rect x y w h col true => pic.paint l (rectangle x y w h) (l.format.shade col).toUInt32
  | .rect x y w h col false =>
      pic.paint l (rectangle x y w 1 ∪ rectangle x (y + h - 1) w 1 ∪ rectangle x y 1 h ∪ rectangle (x + w - 1) y 1 h)
        (l.format.shade col).toUInt32
  | .line x1 y1 x2 y2 col => pic.paint l {q | q ∈ FrameBuffer.linePixels x1 y1 x2 y2} (l.format.shade col).toUInt32
  | .text str x0 y0 col => pic.paint l {q | q ∈ FrameBuffer.textPixels str x0 y0} (l.format.shade col).toUInt32
  | .scroll xstep ystep => pic.shift l xstep ystep
  | .blit source x y key palette => pic.copy l source x y key palette

variable {l : Layout} {pic : Picture} {P Q : Set (Int × Int)} {v : UInt32}

open Classical in
theorem paint_congr (h : ∀ x y : ℕ, x < l.width → y < l.height → (((x : Int), (y : Int)) ∈ P ↔ ((x : Int), (y : Int)) ∈ Q)) :
    pic.paint l P v = pic.paint l Q v := by
  funext p
  unfold paint
  apply if_congr _ rfl rfl
  constructor
  · rintro ⟨hx, hy, hp⟩
    exact ⟨hx, hy, (h _ _ hx hy).mp hp⟩
  · rintro ⟨hx, hy, hp⟩
    exact ⟨hx, hy, (h _ _ hx hy).mpr hp⟩

theorem paint_empty : pic.paint l ∅ v = pic := by
  funext p
  simp [paint]

theorem paint_paint : (pic.paint l P v).paint l Q v = pic.paint l (P ∪ Q) v := by
  funext p
  unfold paint
  by_cases hQ : p.1 < l.width ∧ p.2 < l.height ∧ ((p.1 : Int), (p.2 : Int)) ∈ Q
  · rw [if_pos hQ, if_pos ⟨hQ.1, hQ.2.1, Or.inr hQ.2.2⟩]
  · rw [if_neg hQ]
    by_cases hP : p.1 < l.width ∧ p.2 < l.height ∧ ((p.1 : Int), (p.2 : Int)) ∈ P
    · rw [if_pos hP, if_pos ⟨hP.1, hP.2.1, Or.inl hP.2.2⟩]
    · rw [if_neg hP, if_neg]
      rintro ⟨hx, hy, hmem | hmem⟩
      · exact hP ⟨hx, hy, hmem⟩
      · exact hQ ⟨hx, hy, hmem⟩

end Picture

/-- A call that returned: the buffer then shows a picture, and the memory behind it is as it was. -/
def Shows (l : Layout) (d : Drawing) (result : Except Py.Err Drawing) (pic : Picture) : Prop :=
  ∃ d', result = .ok d' ∧ picture l d' = pic ∧ ∀ i, l.len ≤ i → d'.buf i = d.buf i

variable {l : Layout} {d : Drawing} {x y : ℕ}

theorem Shows.refl (l : Layout) (d : Drawing) : Shows l d (.ok d) (picture l d) := ⟨d, rfl, rfl, fun _ _ => rfl⟩

/-- The next call starts from the picture the last one left. -/
theorem Shows.bind {result : Except Py.Err Drawing} {f : Drawing → Except Py.Err Drawing} {pic : Picture}
    {F : Picture → Picture} (h : Shows l d result pic) (hf : ∀ d, Shows l d (f d) (F (picture l d))) :
    Shows l d (result >>= f) (F pic) := by
  obtain ⟨d', rfl, rfl, houtside⟩ := h
  obtain ⟨d'', hok, hpic, houtside'⟩ := hf d'
  exact ⟨d'', hok, hpic, fun i hi => (houtside' i hi).trans (houtside i hi)⟩

/-- A loop, turn by turn. -/
theorem Shows.foldlM {κ : Type} {step : Drawing → κ → Except Py.Err Drawing} {F : Picture → κ → Picture}
    (inputs : List κ) (hstep : ∀ d, ∀ k ∈ inputs, Shows l d (step d k) (F (picture l d) k)) (d : Drawing) :
    Shows l d (inputs.foldlM step d) (inputs.foldl F (picture l d)) := by
  induction inputs generalizing d with
  | nil => exact Shows.refl l d
  | cons k inputs ih =>
      obtain ⟨d', hok, hpic, houtside⟩ := hstep d k List.mem_cons_self
      obtain ⟨d'', hok', hpic', houtside'⟩ := ih (fun d k hk => hstep d k (List.mem_cons_of_mem _ hk)) d'
      refine ⟨d'', ?_, ?_, fun i hi => (houtside' i hi).trans (houtside i hi)⟩
      · rw [List.foldlM_cons, hok]
        exact hok'
      · rw [hpic', hpic, List.foldl_cons]

/-- Writing the bits of a pixel changes that pixel. -/
theorem Layout.Sound.write_shows (h : l.Sound) (hx : x < l.width) (hy : y < l.height) {v : UInt8}
    (hv : v &&& mask l.format.depth = v) {d' : Drawing} (hbuf : d'.buf = write l.format.depth d.buf (l.place x y) v) :
    Shows l d (.ok d') (Function.update (picture l d) (x, y) v.toUInt32) := by
  refine ⟨d', rfl, ?_, fun i hi => ?_⟩
  · funext p
    by_cases hp : p = (x, y)
    · subst hp
      rw [Function.update_self, picture, if_pos ⟨hx, hy⟩, getpixel_eq h.packed, hbuf,
        read_write_self (place_shift_lt _ _ _) (place_within _ _ _), hv]
    · rw [Function.update_of_ne hp, picture, picture]
      split_ifs with hon
      · have hapart : Apart l.format.depth (l.place x y) (l.place p.1 p.2) := h.apart hx hon.1 (Ne.symm hp)
        rw [getpixel_eq h.packed, getpixel_eq h.packed, hbuf,
          read_write_of_apart (place_shift_lt _ _ _) (place_shift_lt _ _ _) hapart]
      · rfl
  · rw [hbuf, write_of_ne]
    exact (h.room x y hx hy).trans_le hi |>.ne'

theorem Layout.Sound.setpixel_shows (h : l.Sound) (d : Drawing) (hx : x < l.width) (hy : y < l.height) (col : UInt32) :
    Shows l d (setpixel l d x y col) (Function.update (picture l d) (x, y) (l.format.shade col).toUInt32) := by
  rw [setpixel_eq h.packed d hx hy]
  exact h.write_shows hx hy (shade_masked _ _) rfl

/-- One visible pixel painted. -/
theorem Picture.paint_singleton {pic : Picture} {v : UInt32} (hx : x < l.width) (hy : y < l.height) :
    pic.paint l {((x : Int), (y : Int))} v = Function.update pic (x, y) v := by
  funext p
  unfold Picture.paint
  by_cases hp : p = (x, y)
  · subst hp
    rw [Function.update_self, if_pos ⟨hx, hy, rfl⟩]
  · rw [Function.update_of_ne hp, if_neg]
    rintro ⟨-, -, hmem⟩
    apply hp
    simp only [Set.mem_singleton_iff, Prod.mk.injEq, Nat.cast_inj] at hmem
    exact Prod.ext hmem.1 hmem.2

theorem Layout.Sound.setpixelChecked_shows (h : l.Sound) (d : Drawing) (col : UInt32) (q : Int × Int) :
    Shows l d (setpixelChecked l d col q) ((picture l d).paint l {q} (l.format.shade col).toUInt32) := by
  unfold setpixelChecked
  split_ifs with hon
  · obtain ⟨hx0, hx, hy0, hy⟩ := hon
    have hq : q = ((q.1.toNat : Int), (q.2.toNat : Int)) := Prod.ext (by simp [hx0]) (by simp [hy0])
    have hx' : q.1.toNat < l.width := by omega
    have hy' : q.2.toNat < l.height := by omega
    have hshows := h.setpixel_shows d hx' hy' col
    rwa [← Picture.paint_singleton hx' hy', ← hq] at hshows
  · have hnone : (picture l d).paint l {q} (l.format.shade col).toUInt32 = picture l d := by
      refine (Picture.paint_congr ?_).trans (Picture.paint_empty (l := l) (v := (l.format.shade col).toUInt32))
      rintro x y hx hy
      simp only [Set.mem_empty_iff_false, Set.mem_singleton_iff, iff_false]
      rintro rfl
      exact hon ⟨by omega, by simpa using hx, by omega, by simpa using hy⟩
    rw [hnone]
    exact Shows.refl l d

theorem Picture.foldl_paint {l : Layout} {v : UInt32} (pixels : List (Int × Int)) (pic : Picture) :
    pixels.foldl (fun pic q => pic.paint l {q} v) pic = pic.paint l {q | q ∈ pixels} v := by
  induction pixels generalizing pic with
  | nil => simp [Picture.paint_empty]
  | cons q pixels ih =>
      rw [List.foldl_cons, ih, Picture.paint_paint]
      apply Picture.paint_congr
      intro x y _ _
      simp

/-- Pixels set one after the other. -/
theorem Layout.Sound.setpixels_shows (h : l.Sound) (d : Drawing) (pixels : List (Int × Int)) (col : UInt32) :
    Shows l d (setpixels l d pixels col) ((picture l d).paint l {q | q ∈ pixels} (l.format.shade col).toUInt32) := by
  rw [← Picture.foldl_paint]
  exact Shows.foldlM (F := fun pic q => pic.paint l {q} (l.format.shade col).toUInt32) pixels
    (fun d q _ => h.setpixelChecked_shows d col q) d

end CalSci.Framebuf
