import CalSci.FramebufRects
import Mathlib.Data.List.Range

/-! Whole runs of drawing calls. `scroll` moves the picture in place, so it depends on the order of its loops that no
pixel is overwritten before it has been copied; with it and `blit` every call does to the picture what it says, and so
does every run of calls, for any arguments. -/

namespace CalSci.Framebuf

open PackedCells

/-! ### Copies within one memory -/

section InPlace

variable {ι V : Type} [DecidableEq ι]

/-- Copying in place, when no place is read after it has been written. -/
theorem foldl_move (src : ι → ι) (order : List ι) (horder : order.Pairwise fun p q => src q ≠ p) (m : ι → V) (p : ι) :
    (p ∈ order → order.foldl (fun m p => Function.update m p (m (src p))) m p = m (src p)) ∧
      (p ∉ order → order.foldl (fun m p => Function.update m p (m (src p))) m p = m p) := by
  -- the last turn reads a place that no turn before it has written
  induction order using List.reverseRecOn generalizing p with
  | nil => simp
  | append_singleton order q ih =>
      obtain ⟨hbefore, -, hlast⟩ := List.pairwise_append.mp horder
      have hsrc : src q ∉ order := fun hmem => hlast _ hmem q (List.mem_singleton_self q) rfl
      rw [List.foldl_append, List.foldl_cons, List.foldl_nil, (ih hbefore (src q)).2 hsrc]
      by_cases hp : p = q
      · subst hp
        simp
      · rw [Function.update_of_ne hp]
        simpa [hp] using ih hbefore p

/-- Writing values that do not depend on the memory, some of them left out. -/
theorem foldl_stamp (value : ι → V) (skip : ι → Prop) [DecidablePred skip] (order : List ι) (m : ι → V) (p : ι) :
    (p ∈ order ∧ ¬ skip p →
        order.foldl (fun m p => if skip p then m else Function.update m p (value p)) m p = value p) ∧
      (¬ (p ∈ order ∧ ¬ skip p) →
        order.foldl (fun m p => if skip p then m else Function.update m p (value p)) m p = m p) := by
  induction order using List.reverseRecOn generalizing p with
  | nil => simp
  | append_singleton order q ih =>
      rw [List.foldl_append, List.foldl_cons, List.foldl_nil]
      obtain ⟨hin, hout⟩ := ih p
      by_cases hp : p = q
      · subst hp
        split_ifs with hskip
        · exact ⟨fun h => absurd hskip h.2, fun _ => hout fun h => h.2 hskip⟩
        · simp [hskip]
      · have hmem : p ∈ order ++ [q] ↔ p ∈ order := by simp [hp]
        rw [hmem]
        split_ifs with hskip
        · exact ⟨hin, hout⟩
        · rw [Function.update_of_ne hp]
          exact ⟨hin, hout⟩

end InPlace

/-! ### Scrolling -/

variable {l : Layout} {d : Drawing}

theorem mem_sweep {size : ℕ} {step : Int} {x : ℕ} :
    x ∈ sweep size step ↔ x < size ∧ 0 ≤ x - step ∧ x - step < size := by
  unfold sweep
  split_ifs with hstep
  · rw [List.mem_range]
    omega
  · rw [List.mem_map]
    refine ⟨?_, ?_⟩
    · rintro ⟨k, hk, rfl⟩
      rw [List.mem_range] at hk
      omega
    · intro hx
      exact ⟨size - 1 - x, by rw [List.mem_range]; omega, by omega⟩

/-- The loops go in the direction the pixels come from. -/
theorem sweep_pairwise (size : ℕ) (step : Int) :
    (sweep size step).Pairwise fun p q => step < 0 ∧ p < q ∨ 0 ≤ step ∧ q < p := by
  unfold sweep
  split_ifs with hstep
  · exact List.pairwise_lt_range.imp fun hlt => Or.inl ⟨hstep, hlt⟩
  · rw [List.pairwise_map]
    apply List.pairwise_lt_range.imp_of_mem
    intro a b ha hb hlt
    rw [List.mem_range] at ha hb
    exact Or.inr ⟨by omega, by omega⟩

def scrollOrder (l : Layout) (xstep ystep : Int) : List (ℕ × ℕ) :=
  (sweep l.height ystep).flatMap fun y => (sweep l.width xstep).map fun x => (x, y)

theorem mem_scrollOrder {xstep ystep : Int} {p : ℕ × ℕ} :
    p ∈ scrollOrder l xstep ystep ↔ p.1 < l.width ∧ p.2 < l.height ∧ l.Onscreen (p.1 - xstep) (p.2 - ystep) := by
  obtain ⟨x, y⟩ := p
  simp only [scrollOrder, List.mem_flatMap, List.mem_map, Prod.mk.injEq, mem_sweep, Layout.Onscreen]
  refine ⟨?_, ?_⟩
  · rintro ⟨y', hy, x', hx, rfl, rfl⟩
    exact ⟨hx.1, hy.1, hx.2.1, hx.2.2, hy.2.1, hy.2.2⟩
  · rintro ⟨hx, hy, hx0, hx1, hy0, hy1⟩
    exact ⟨y, ⟨hy, hy0, hy1⟩, x, ⟨hx, hx0, hx1⟩, rfl, rfl⟩

/-- Where `scroll` reads the pixel it writes. -/
def scrollSource (xstep ystep : Int) (p : ℕ × ℕ) : ℕ × ℕ := ((p.1 - xstep).toNat, (p.2 - ystep).toNat)

theorem scrollOrder_pairwise (l : Layout) (xstep ystep : Int) :
    (scrollOrder l xstep ystep).Pairwise fun p q => scrollSource xstep ystep q ≠ p := by
  unfold scrollOrder
  rw [List.pairwise_flatMap]
  refine ⟨?_, ?_⟩
  · intro y _
    rw [List.pairwise_map]
    apply (sweep_pairwise l.width xstep).imp_of_mem
    intro a b ha hb hdir heq
    have hcol := congrArg Prod.fst heq
    rw [mem_sweep] at ha hb
    simp only [scrollSource] at hcol
    omega
  · apply (sweep_pairwise l.height ystep).imp_of_mem
    intro y y' hy hy' hdir p hp q hq heq
    rw [List.mem_map] at hp hq
    obtain ⟨a, -, rfl⟩ := hp
    obtain ⟨b, -, rfl⟩ := hq
    have hrow := congrArg Prod.snd heq
    rw [mem_sweep] at hy hy'
    simp only [scrollSource] at hrow
    omega

/-- A colour that was read is stored as it is. -/
theorem shade_getpixel (hpacked : l.format.Packed) (d : Drawing) (x y : ℕ) :
    (l.format.shade (getpixel l d x y)).toUInt32 = getpixel l d x y := by
  rw [getpixel_eq hpacked]
  have hmono : ∀ b : UInt8, (lit (b &&& mask 1).toUInt32).toUInt32 = (b &&& mask 1).toUInt32 := by
    intro b
    have htake : b &&& mask 1 = take 1 0 b := by simp [take]
    rw [htake, take_one (by decide)]
    cases b.toNat.testBit 0 <;> rfl
  have hnibble : ∀ b : UInt8, ((b &&& mask 4).toUInt32 &&& 0x0f).toUInt8.toUInt32 = (b &&& mask 4).toUInt32 := by
    intro b
    rw [UInt32.toUInt8_and, UInt8.toUInt8_toUInt32, UInt8.and_assoc]
    rfl
  cases hformat : l.format <;>
    simp only [hformat, Format.Packed, Format.shade, Format.depth, PackedCells.read, take,
      UInt8.toUInt8_toUInt32] at hpacked ⊢
  case gs4Hmsb => exact hnibble _
  all_goals exact hmono _

theorem Layout.Sound.scroll_shows (hl : l.Sound) (d : Drawing) (xstep ystep : Int) :
    Shows l d (scroll l d xstep ystep) ((picture l d).shift l xstep ystep) := by
  have hturn : ∀ y ∈ sweep l.height ystep, ∀ d, ∀ x ∈ sweep l.width xstep,
      Shows l d (scrollPixel l d xstep ystep y x)
        (Function.update (picture l d) (x, y) (picture l d (scrollSource xstep ystep (x, y)))) := by
    intro y hy d x hx
    rw [mem_sweep] at hx hy
    have hsource : picture l d (scrollSource xstep ystep (x, y)) =
        getpixel l d (x - xstep).toNat (y - ystep).toNat := by
      rw [picture, scrollSource, if_pos ⟨by omega, by omega⟩]
    have hset := hl.setpixel_shows d hx.1 hy.1 (getpixel l d (x - xstep).toNat (y - ystep).toNat)
    rw [shade_getpixel hl.packed] at hset
    rw [hsource]
    exact hset
  have hloops := Shows.foldlM (l := l)
    (F := fun pic y => (sweep l.width xstep).foldl
      (fun pic x => Function.update pic (x, y) (pic (scrollSource xstep ystep (x, y)))) pic)
    (sweep l.height ystep) (fun d y hy => Shows.foldlM
      (F := fun pic x => Function.update pic (x, y) (pic (scrollSource xstep ystep (x, y)))) _ (hturn y hy) d) d
  have hpicture : (sweep l.height ystep).foldl (fun pic y => (sweep l.width xstep).foldl
      (fun pic x => Function.update pic (x, y) (pic (scrollSource xstep ystep (x, y)))) pic) (picture l d) =
        (picture l d).shift l xstep ystep := by
    funext p
    obtain ⟨hin, hout⟩ := foldl_move (scrollSource xstep ystep) _ (scrollOrder_pairwise l xstep ystep) (picture l d) p
    rw [mem_scrollOrder, scrollOrder, List.foldl_flatMap] at hin hout
    simp only [List.foldl_map] at hin hout
    rw [Picture.shift]
    split_ifs with hmem
    · exact hin hmem
    · exact hout hmem
  rw [← hpicture]
  exact hloops

/-! ### Copying another buffer -/

theorem mem_range' {a b x : ℕ} : x ∈ List.range' a (b - a) ↔ a ≤ x ∧ x < b := by
  rw [List.mem_range'_1]
  omega

def blitOrder (l : Layout) (source : Source) (x y : Int) : List (ℕ × ℕ) :=
  let x0 := (max 0 x).toNat
  let y0 := (max 0 y).toNat
  let x0end := (min (l.width : Int) (x + source.layout.width)).toNat
  let y0end := (min (l.height : Int) (y + source.layout.height)).toNat
  (List.range' y0 (y0end - y0)).flatMap fun y0 => (List.range' x0 (x0end - x0)).map fun x0 => (x0, y0)

theorem mem_blitOrder {source : Source} {x y : Int} {p : ℕ × ℕ} :
    p ∈ blitOrder l source x y ↔
      p.1 < l.width ∧ p.2 < l.height ∧ source.layout.Onscreen (p.1 - x) (p.2 - y) := by
  obtain ⟨a, b⟩ := p
  simp only [blitOrder, List.mem_flatMap, List.mem_map, Prod.mk.injEq, mem_range', Layout.Onscreen]
  refine ⟨?_, ?_⟩
  · rintro ⟨b', hb, a', ha, rfl, rfl⟩
    omega
  · intro hp
    exact ⟨b, by omega, a, by omega, rfl, rfl⟩

theorem Layout.Sound.blit_shows (hl : l.Sound) (d : Drawing) (source : Source) (x y : Int) (key : UInt32)
    (palette : Option Source) :
    Shows l d (blit l d source x y key palette) ((picture l d).copy l source x y key palette) := by
  let col : ℕ × ℕ → UInt32 := fun p => source.pixel palette (p.1 - x).toNat (p.2 - y).toNat
  let stamp : Picture → ℕ × ℕ → Picture := fun pic p =>
    if col p = key then pic else Function.update pic p (l.format.shade (col p)).toUInt32
  have hcopy : (blitOrder l source x y).foldl stamp (picture l d) = (picture l d).copy l source x y key palette := by
    funext p
    obtain ⟨hin, hout⟩ := foldl_stamp (fun p => (l.format.shade (col p)).toUInt32) (fun p => col p = key)
      (blitOrder l source x y) (picture l d) p
    rw [mem_blitOrder, and_assoc, and_assoc] at hin hout
    rw [Picture.copy]
    split_ifs with hmem
    · exact hin hmem
    · exact hout hmem
  have hturn : ∀ d, ∀ p : ℕ × ℕ, p.1 < l.width → p.2 < l.height →
      Shows l d (blitPixel l d source palette key x y p.2 p.1) (stamp (picture l d) p) := by
    intro d p hx hy
    change Shows l d (if col p = key then .ok d else setpixel l d p.1 p.2 (col p))
      (if col p = key then picture l d else _)
    split_ifs with hkey
    · exact Shows.refl l d
    · exact hl.setpixel_shows d hx hy (col p)
  rw [← hcopy]
  unfold blit
  split_ifs with hnone
  · have hempty : blitOrder l source x y = [] := by
      apply List.eq_nil_iff_forall_not_mem.mpr
      intro p hp
      rw [mem_blitOrder, Layout.Onscreen] at hp
      omega
    rw [hempty]
    exact ⟨d.clearLog, rfl, rfl, fun _ _ => rfl⟩
  · rw [blitOrder, List.foldl_flatMap]
    simp only [List.foldl_map]
    have hloops := Shows.foldlM (l := l)
      (F := fun pic y0 => (List.range' (max 0 x).toNat
        ((min (l.width : Int) (x + source.layout.width)).toNat - (max 0 x).toNat)).foldl
        (fun pic x0 => stamp pic (x0, y0)) pic)
      (List.range' (max 0 y).toNat ((min (l.height : Int) (y + source.layout.height)).toNat - (max 0 y).toNat))
      (fun d y0 hy0 => Shows.foldlM (F := fun pic x0 => stamp pic (x0, y0)) _ (fun d x0 hx0 => by
        rw [mem_range'] at hx0 hy0
        exact hturn d (x0, y0) (by dsimp only; omega) (by dsimp only; omega)) d) d.clearLog
    exact hloops

/-! ### Runs -/

/-- Every call does to the bytes what it does to the picture. -/
theorem Layout.Sound.call_shows (hl : l.Sound) (d : Drawing) (c : Call) :
    Shows l d (call l d c) ((picture l d).call l c) := by
  cases c with
  | fill col =>
      obtain ⟨d', hok, hpic, houtside⟩ :=
        hl.formatFillRect_shows (x := 0) (y := 0) (w := l.width) (h := l.height) (by omega) (by omega) col
          { d with changed := [], changedCleared := false }
      refine ⟨d', hok, hpic.trans ?_, houtside⟩
      apply Picture.paint_congr
      intro a b ha hb
      simp only [rectangle, Set.mem_ofPred_eq, Set.mem_univ, iff_true]
      omega
  | fillRect x y w h col => exact hl.fillRect_shows x y w h col d
  | pixel x y col => exact hl.setpixelChecked_shows d col (x, y)
  | hline x y w col => exact hl.fillRect_shows x y w 1 col d
  | vline x y h col => exact hl.fillRect_shows x y 1 h col d
  | rect x y w h col filled =>
      cases filled with
      | true => exact hl.fillRect_shows x y w h col d
      | false =>
          rw [Picture.call, ← Picture.paint_paint, ← Picture.paint_paint, ← Picture.paint_paint]
          let shade := (l.format.shade col).toUInt32
          refine (hl.fillRect_shows x y w 1 col d).bind (F := fun pic => ((pic.paint l (rectangle x (y + h - 1) w 1)
            shade).paint l (rectangle x y 1 h) shade).paint l (rectangle (x + w - 1) y 1 h) shade) fun d => ?_
          refine (hl.fillRect_shows x (y + h - 1) w 1 col d).bind (F := fun pic => (pic.paint l (rectangle x y 1 h)
            shade).paint l (rectangle (x + w - 1) y 1 h) shade) fun d => ?_
          exact (hl.fillRect_shows x y 1 h col d).bind (F := fun pic => pic.paint l (rectangle (x + w - 1) y 1 h) shade)
            (hl.fillRect_shows (x + w - 1) y 1 h col)
  | line x1 y1 x2 y2 col => exact hl.setpixels_shows d _ col
  | text str x0 y0 col => exact hl.setpixels_shows d _ col
  | scroll xstep ystep => exact hl.scroll_shows d xstep ystep
  | blit source x y key palette => exact hl.blit_shows d source x y key palette

/-- Any calls on a buffer the constructor accepted: none raises, the bytes show the picture the calls describe, and the
memory behind the buffer is as it was. -/
theorem drawing_refines_picture (len : ℕ) (width height format stride : Int) (l : Layout)
    (hnew : makeNew len width height format stride = .ok l) (hpacked : l.format.Packed)
    (hbits : l.format.bits width.toNat height.toNat stride.toNat < 2 ^ 32) (d : Drawing) (calls : List Call) :
    ∃ d', calls.foldlM (call l) d = .ok d' ∧ picture l d' = calls.foldl (Picture.call l) (picture l d) ∧
      ∀ i, len ≤ i → d'.buf i = d.buf i := by
  obtain ⟨hl, hlen⟩ := makeNew_sound hnew hpacked hbits
  rw [← hlen]
  exact Shows.foldlM calls (fun d c _ => hl.call_shows d c) d

/-- Thirteen by nine pixels of four bits, rows of fifteen given: rounded up to sixteen, in 71 bytes. -/
def oddLayout : Layout := ⟨.gs4Hmsb, 13, 9, 16, 71⟩

theorem drawing_refines_picture_odd :
    makeNew 71 13 9 2 15 = .ok oddLayout ∧
      ∃ d', [Call.fill 7, .rect (-2) 1 7 30 12 false, .line 0 8 12 0 3, .scroll 1 (-2)].foldlM (call oddLayout)
          { buf := fun _ => 0xff } = .ok d' ∧
        picture oddLayout d' = [Call.fill 7, .rect (-2) 1 7 30 12 false, .line 0 8 12 0 3, .scroll 1 (-2)].foldl
          (Picture.call oddLayout) (picture oddLayout { buf := fun _ => 0xff }) ∧
        ∀ i, 71 ≤ i → d'.buf i = 0xff :=
  ⟨rfl, drawing_refines_picture 71 13 9 2 15 oddLayout rfl (by decide) (by decide) { buf := fun _ => 0xff } _⟩

end CalSci.Framebuf
