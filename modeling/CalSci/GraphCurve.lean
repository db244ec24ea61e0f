import CalSci.GraphPlot

/-! The lines of a curve. `x_past` and `y_past` hold the last drawn column as long as no sample has left the window
since, and a product of zero stands for no point at all. From this the lines that are drawn are read off: exactly when
they join neighbouring columns, and when none is missing. -/

namespace CalSci.Graph

open CalSci.FrameBuffer

variable {V : Type} [Arithmetic V] {f : V → Option V} {w : Window V}

/-- No column before `n` raises. -/
def Running (f : V → Option V) (w : Window V) (n : Nat) : Prop :=
  ∀ k < n, ∃ y, sample f w k = some y ∧ ¬ w.Raises y

def Sampled (f : V → Option V) (w : Window V) (x : Nat) (y : V) : Prop :=
  Running f w x ∧ sample f w x = some y ∧ ¬ w.Raises y

def Dotted (f : V → Option V) (w : Window V) (x : Nat) (y : V) : Prop := Sampled f w x y ∧ w.Accepts y

/-- Column `p` is drawn, and every later column before `x` has its value inside the window and yet is not drawn. -/
def Awaits (f : V → Option V) (w : Window V) (p : Nat) (y : V) (x : Nat) : Prop :=
  p < x ∧ Dotted f w p y ∧ ∀ k, p < k → k < x → ∃ z, Sampled f w k z ∧ w.Inside z ∧ ¬ w.Accepts z

theorem Sampled.unique {x : Nat} {y z : V} (hy : Sampled f w x y) (hz : Sampled f w x z) : y = z :=
  Option.some.inj (hy.2.1.symm.trans hz.2.1)

theorem Sampled.running {x : Nat} {y : V} (h : Sampled f w x y) : Running f w (x + 1) := by
  intro k hk
  rcases Nat.lt_succ_iff_lt_or_eq.mp hk with hlt | rfl
  · exact h.1 k hlt
  · exact ⟨y, h.2⟩

theorem Running.of_succ {n : Nat} (h : Running f w (n + 1)) : Running f w n :=
  fun k hk => h k (hk.trans n.lt_succ_self)

theorem Running.sampled {n : Nat} (h : Running f w (n + 1)) : ∃ y, Sampled f w n y := by
  obtain ⟨y, hy⟩ := h n n.lt_succ_self
  exact ⟨y, h.of_succ, hy⟩

/-- At most one column is waited for. -/
theorem Awaits.unique {p q x : Nat} {y z : V} (hp : Awaits f w p y x) (hq : Awaits f w q z x) : p = q ∧ y = z := by
  -- a drawn column strictly between `p` and `x` would contradict the clause about the columns between
  have hle : ∀ {p q : Nat} {y z : V}, Awaits f w p y x → Awaits f w q z x → q ≤ p := by
    intro p q y z hp hq
    by_contra hlt
    obtain ⟨v, hv, -, hrejected⟩ := hp.2.2 q (not_le.mp hlt) hq.1
    exact hrejected (hv.unique hq.2.1.1 ▸ hq.2.1.2)
  obtain rfl : p = q := le_antisymm (hle hq hp) (hle hp hq)
  exact ⟨rfl, hp.2.1.1.unique hq.2.1.1⟩

theorem awaits_succ_of_dotted {n : Nat} {y : V} (hn : Dotted f w n y) : Awaits f w n y (n + 1) :=
  ⟨n.lt_succ_self, hn, fun k hk hk' => by omega⟩

theorem Awaits.of_succ {p n : Nat} {y : V} (h : Awaits f w p y (n + 1)) (hp : p ≠ n) : Awaits f w p y n :=
  ⟨by have := h.1; omega, h.2.1, fun k hk hk' => h.2.2 k hk (hk'.trans n.lt_succ_self)⟩

theorem Awaits.succ {p n : Nat} {y z : V} (h : Awaits f w p y n) (hz : Sampled f w n z) (hinside : w.Inside z)
    (hrejected : ¬ w.Accepts z) : Awaits f w p y (n + 1) := by
  refine ⟨h.1.trans n.lt_succ_self, h.2.1, fun k hk hk' => ?_⟩
  rcases Nat.lt_succ_iff_lt_or_eq.mp hk' with hlt | rfl
  · exact h.2.2 k hk hlt
  · exact ⟨z, hz, hinside, hrejected⟩

/-- After a column outside the window nothing is waited for, unless that column itself is drawn. -/
theorem not_awaits_succ_of_outside {p n : Nat} {y z : V} (hz : Sampled f w n z) (houtside : ¬ w.Inside z)
    (hp : p ≠ n) :
    ¬ Awaits f w p y (n + 1) := by
  intro h
  obtain ⟨v, hv, hinside, -⟩ := h.2.2 n (by have := h.1; omega) n.lt_succ_self
  exact houtside (hv.unique hz ▸ hinside)

/-- What the past variables hold before column `n`. -/
def Past (f : V → Option V) (w : Window V) (n : Nat) (pen : Pen) : Prop :=
  (∃ p y, Awaits f w p y n ∧ pen.xPast = p - 1 ∧ pen.yPast = w.drawnRow y) ∨
    (∀ p y, ¬ Awaits f w p y n) ∧ pen.xPast = 0 ∧ pen.yPast = 0

/-- A line is drawn at column `x` back to column `p`. -/
def Chord (f : V → Option V) (w : Window V) (p : Nat) (y : V) (x : Nat) (z : V) : Prop :=
  Awaits f w p y x ∧ Dotted f w x z ∧ w.Inside z ∧ p ≠ 1 ∧ w.yPixel y ≠ 1

/-- A line call of the curve: its ends are the points of a chord that ends before column `n`. -/
def ChordBefore (f : V → Option V) (w : Window V) (n : Nat) (call : Command) : Prop :=
  ∃ p y x z, x < n ∧ Chord f w p y x z ∧ call = .line (p - 1) (w.drawnRow y) (x - 1) (w.drawnRow z)

/-- What the loop over the columns before `n` leaves. -/
structure Follows (f : V → Option V) (w : Window V) (n : Nat) (pen : Pen) : Prop where
  raised : pen.raised = true ↔ ¬ Running f w n
  past : Running f w n → Past f w n pen
  lines : ∀ a b c d, .line a b c d ∈ pen.curve ↔ ChordBefore f w n (.line a b c d)

@[simp]
theorem Pen.lift_curve (pen : Pen) : pen.lift.curve = pen.curve := rfl

@[simp]
theorem Pen.lift_raised (pen : Pen) : pen.lift.raised = pen.raised := rfl

@[simp]
theorem Pen.mark_raised (pen : Pen) (x y : Int) : (pen.mark x y).raised = pen.raised := rfl

theorem Pen.line_mem_mark {pen : Pen} {x y a b c d : Int} :
    .line a b c d ∈ (pen.mark x y).curve ↔
      .line a b c d ∈ pen.curve ∨ pen.xPast * pen.yPast ≠ 0 ∧ a = pen.xPast ∧ b = pen.yPast ∧ c = x ∧ d = y := by
  unfold Pen.mark
  dsimp only
  split <;> simp_all

theorem column_of_raised {pen : Pen} {x : Nat} (h : pen.raised = true) : column f w pen x = pen := if_pos h

theorem column_of_sampled {pen : Pen} {x : Nat} {y : V} (hpen : pen.raised = false) (hy : Sampled f w x y) :
    column f w pen x =
      if w.Accepts y then (if w.Inside y then pen else pen.lift).mark (x - 1) (w.drawnRow y)
      else if w.Inside y then pen else pen.lift := by
  simp only [column, hpen, hy.2.1, if_neg hy.2.2, if_false, Bool.false_eq_true]

/-- A column that is not reached, or whose sample raises, draws nothing. -/
theorem column_of_not_running {pen : Pen} {n : Nat} (hpen : pen.raised = true ↔ ¬ Running f w n)
    (h : ¬ Running f w (n + 1)) : (column f w pen n).curve = pen.curve ∧ (column f w pen n).raised = true := by
  by_cases hraised : pen.raised = true
  · rw [column_of_raised hraised]
    exact ⟨rfl, hraised⟩
  · have hrunning : Running f w n := not_not.mp (fun hn => hraised (hpen.mpr hn))
    unfold column
    rw [if_neg hraised]
    split
    next => exact ⟨rfl, rfl⟩
    next y hy =>
      split
      next => exact ⟨rfl, rfl⟩
      next hraises => exact absurd (Sampled.running ⟨hrunning, hy, hraises⟩) h

/-- The chords before `n + 1` are those before `n` and the one that ends at `n`. -/
theorem chordBefore_succ {n : Nat} {call : Command} :
    ChordBefore f w (n + 1) call ↔ ChordBefore f w n call ∨
      ∃ p y z, Chord f w p y n z ∧ call = .line (p - 1) (w.drawnRow y) (n - 1) (w.drawnRow z) := by
  refine ⟨?_, ?_⟩
  · rintro ⟨p, y, x, z, hx, hchord, hcall⟩
    rcases Nat.lt_succ_iff_lt_or_eq.mp hx with hlt | rfl
    · exact Or.inl ⟨p, y, x, z, hlt, hchord, hcall⟩
    · exact Or.inr ⟨p, y, z, hchord, hcall⟩
  · rintro (⟨p, y, x, z, hx, hchord, hcall⟩ | ⟨p, y, z, hchord, hcall⟩)
    · exact ⟨p, y, x, z, hx.trans n.lt_succ_self, hchord, hcall⟩
    · exact ⟨p, y, n, z, n.lt_succ_self, hchord, hcall⟩

/-- The test `x_past * y_past != 0` finds the column waited for, unless its point is in column or row zero. -/
theorem Past.line_iff {n : Nat} {pen : Pen} {z : V} (hpast : Past f w n pen) (hz : Dotted f w n z)
    (hinside : w.Inside z) {a b c d : Int} :
    (pen.xPast * pen.yPast ≠ 0 ∧ a = pen.xPast ∧ b = pen.yPast ∧ c = n - 1 ∧ d = w.drawnRow z) ↔
      ∃ p y z, Chord f w p y n z ∧
        Command.line a b c d = .line (p - 1) (w.drawnRow y) (n - 1) (w.drawnRow z) := by
  refine ⟨?_, ?_⟩
  · rintro ⟨hproduct, rfl, rfl, rfl, rfl⟩
    rcases hpast with ⟨p, y, hp, hx, hy⟩ | ⟨-, hx, -⟩
    · rw [hx, hy] at hproduct ⊢
      have hcolumn : p ≠ 1 := by
        rintro rfl
        exact hproduct (by simp)
      have hrow : w.yPixel y ≠ 1 := by
        intro hone
        exact hproduct (by simp [Window.drawnRow, hone])
      exact ⟨p, y, z, ⟨hp, hz, hinside, hcolumn, hrow⟩, rfl⟩
    · exact absurd (by rw [hx, zero_mul]) hproduct
  · rintro ⟨p, y, z', ⟨hp, hz', -, hcolumn, hrow⟩, hcall⟩
    obtain rfl : z = z' := hz.1.unique hz'.1
    injection hcall with ha hb hc hd
    rcases hpast with ⟨q, v, hq, hx, hy⟩ | ⟨hnone, -⟩
    · obtain ⟨rfl, rfl⟩ := hp.unique hq
      rw [hx, hy]
      refine ⟨mul_ne_zero (by omega) (by rw [Window.drawnRow]; omega), ha, hb, hc, hd⟩
    · exact absurd hp (hnone p y)

theorem Past.of_inside {n : Nat} {pen : Pen} {z : V} (hpast : Past f w n pen) (hz : Sampled f w n z)
    (hinside : w.Inside z) (hrejected : ¬ w.Accepts z) : Past f w (n + 1) pen := by
  rcases hpast with ⟨p, y, hp, hxy⟩ | ⟨hnone, hxy⟩
  · exact Or.inl ⟨p, y, hp.succ hz hinside hrejected, hxy⟩
  · refine Or.inr ⟨fun p y hp => hnone p y (hp.of_succ ?_), hxy⟩
    rintro rfl
    exact hrejected (hz.unique hp.2.1.1 ▸ hp.2.1.2)

theorem past_of_outside {n : Nat} {pen : Pen} {z : V} (hz : Sampled f w n z) (houtside : ¬ w.Inside z)
    (hrejected : ¬ w.Accepts z) : Past f w (n + 1) pen.lift := by
  refine Or.inr ⟨fun p y hp => not_awaits_succ_of_outside hz houtside ?_ hp, rfl, rfl⟩
  rintro rfl
  exact hrejected (hz.unique hp.2.1.1 ▸ hp.2.1.2)

theorem follows_succ {n : Nat} {pen : Pen} (h : Follows f w n pen) : Follows f w (n + 1) (column f w pen n) := by
  by_cases hrunning : Running f w (n + 1)
  case neg =>
    obtain ⟨hcurve, hraised⟩ := column_of_not_running h.raised hrunning
    refine ⟨iff_of_true hraised hrunning, fun hr => absurd hr hrunning, fun a b c d => ?_⟩
    rw [hcurve, h.lines, chordBefore_succ]
    refine (or_iff_left ?_).symm
    rintro ⟨p, y, z, hchord, -⟩
    exact hrunning hchord.2.1.1.running
  case pos =>
    obtain ⟨y, hy⟩ := hrunning.sampled
    have hpen : pen.raised = false := by
      rw [← Bool.not_eq_true, h.raised, not_not]
      exact hy.1
    have hpast := h.past hy.1
    rw [column_of_sampled hpen hy]
    by_cases haccepts : w.Accepts y
    · rw [if_pos haccepts]
      have hnext : ∀ kept : Pen, Past f w (n + 1) (kept.mark (n - 1) (w.drawnRow y)) := fun kept =>
        Or.inl ⟨n, y, awaits_succ_of_dotted ⟨hy, haccepts⟩, rfl, rfl⟩
      by_cases hinside : w.Inside y
      · rw [if_pos hinside]
        refine ⟨iff_of_false (by simp [hpen]) (not_not.mpr hrunning), fun _ => hnext pen, fun a b c d => ?_⟩
        rw [Pen.line_mem_mark, h.lines, chordBefore_succ, hpast.line_iff ⟨hy, haccepts⟩ hinside]
      · rw [if_neg hinside]
        refine ⟨iff_of_false (by simp [hpen]) (not_not.mpr hrunning), fun _ => hnext pen.lift, fun a b c d => ?_⟩
        rw [Pen.line_mem_mark, Pen.lift_curve, h.lines, chordBefore_succ]
        apply or_congr_right
        apply iff_of_false (fun hline => hline.1 (zero_mul _))
        rintro ⟨p, y', z, hchord, -⟩
        exact hinside (hchord.2.1.1.unique hy ▸ hchord.2.2.1)
    · rw [if_neg haccepts]
      have hnone : ∀ call : Command, ¬ ∃ p y z, Chord f w p y n z ∧
          call = .line (p - 1) (w.drawnRow y) (n - 1) (w.drawnRow z) := by
        rintro call ⟨p, y', z, hchord, -⟩
        exact haccepts (hchord.2.1.1.unique hy ▸ hchord.2.1.2)
      by_cases hinside : w.Inside y
      · rw [if_pos hinside]
        refine ⟨iff_of_false (by simp [hpen]) (not_not.mpr hrunning),
          fun _ => hpast.of_inside hy hinside haccepts, fun a b c d => ?_⟩
        rw [h.lines, chordBefore_succ, or_iff_left (hnone _)]
      · rw [if_neg hinside]
        refine ⟨iff_of_false (by simp [hpen]) (not_not.mpr hrunning),
          fun _ => past_of_outside hy hinside haccepts, fun a b c d => ?_⟩
        rw [Pen.lift_curve, h.lines, chordBefore_succ, or_iff_left (hnone _)]

theorem follows (f : V → Option V) (w : Window V) (n : Nat) : Follows f w n (columns f w n) := by
  induction n with
  | zero =>
      refine ⟨by simp [columns, Running], fun _ => Or.inr ⟨?_, rfl, rfl⟩, ?_⟩
      · intro p y hp
        exact Nat.not_lt_zero p hp.1
      · intro a b c d
        simp [columns, ChordBefore]
  | succ n ih =>
      rw [columns_succ]
      exact follows_succ ih

def curveLines (f : V → Option V) (w : Window V) (a b c d : Int) : Prop :=
  .line a b c d ∈ (columns f w 128).curve

/-- Every line joins the points of two neighbouring columns. -/
def LinesJoin (f : V → Option V) (w : Window V) : Prop :=
  ∀ a b c d, curveLines f w a b c d → ∃ x y z, x + 1 < 128 ∧ Dotted f w x y ∧ Dotted f w (x + 1) z ∧
    a = x - 1 ∧ b = w.drawnRow y ∧ c = x ∧ d = w.drawnRow z

/-- Neighbouring columns inside the window that are both drawn are joined. -/
def NoGaps (f : V → Option V) (w : Window V) : Prop :=
  ∀ x y z, x + 1 < 128 → Dotted f w x y → w.Inside y → Dotted f w (x + 1) z → w.Inside z →
    curveLines f w (x - 1) (w.drawnRow y) x (w.drawnRow z)

/-- Between two drawn columns that are not neighbours some value leaves the window (or the first of the two, in column
or row zero, counts as no point). -/
def NothingClipped (f : V → Option V) (w : Window V) : Prop :=
  ∀ p y x z, p + 1 < x → x < 128 → Awaits f w p y x → Dotted f w x z → w.Inside z → p = 1 ∨ w.yPixel y = 1

/-- No drawn column with a drawn neighbour after it has its point in column or row zero. -/
def NoZeroPoint (f : V → Option V) (w : Window V) : Prop :=
  ∀ x y z, x + 1 < 128 → Dotted f w x y → w.Inside y → Dotted f w (x + 1) z → w.Inside z → x ≠ 1 ∧ w.yPixel y ≠ 1

theorem linesJoin_iff : LinesJoin f w ↔ NothingClipped f w := by
  refine ⟨?_, ?_⟩
  · intro hjoin p y x z hpx hx hp hz hinside
    by_contra hpoint
    rw [not_or] at hpoint
    have hchord : Chord f w p y x z := ⟨hp, hz, hinside, hpoint⟩
    have hline : curveLines f w (p - 1) (w.drawnRow y) (x - 1) (w.drawnRow z) :=
      ((follows f w 128).lines _ _ _ _).mpr ⟨p, y, x, z, hx, hchord, rfl⟩
    obtain ⟨k, -, -, -, -, -, hfirst, -, hlast, -⟩ := hjoin _ _ _ _ hline
    omega
  · intro hclipped a b c d hline
    obtain ⟨p, y, x, z, hx, ⟨hp, hz, hinside, hcolumn, hrow⟩, hcall⟩ := ((follows f w 128).lines _ _ _ _).mp hline
    injection hcall with ha hb hc hd
    have hnext : x = p + 1 := by
      by_contra hne
      have hlt : p + 1 < x := by
        have := hp.1
        omega
      rcases hclipped p y x z hlt hx hp hz hinside with hone | hone
      · exact hcolumn hone
      · exact hrow hone
    subst hnext
    exact ⟨p, y, z, hx, hp.2.1, hz, ha, hb, by rw [hc]; push_cast; ring, hd⟩

theorem noGaps_iff : NoGaps f w ↔ NoZeroPoint f w := by
  refine ⟨?_, ?_⟩
  · intro hgaps x y z hx hy hyin hz hzin
    obtain ⟨p, v, k, u, -, ⟨-, -, -, hcolumn, hrow⟩, hcall⟩ :=
      ((follows f w 128).lines _ _ _ _).mp (hgaps x y z hx hy hyin hz hzin)
    injection hcall with ha hb hc hd
    rw [Window.drawnRow, Window.drawnRow] at hb
    exact ⟨by omega, by omega⟩
  · intro hpoint x y z hx hy hyin hz hzin
    refine ((follows f w 128).lines _ _ _ _).mpr ⟨x, y, x + 1, z, hx, ?_, ?_⟩
    · exact ⟨awaits_succ_of_dotted hy, hz, hzin, hpoint x y z hx hy hyin hz hzin⟩
    · push_cast
      rw [add_sub_cancel_right]

/-- The lines of a curve join neighbouring columns and leave no gap exactly when no value between two drawn columns is
clipped inside the window and no drawn column that has a drawn neighbour is kept as a point in column or row zero. -/
theorem curve_joins_neighbours_iff (f : V → Option V) (w : Window V) :
    LinesJoin f w ∧ NoGaps f w ↔ NothingClipped f w ∧ NoZeroPoint f w :=
  and_congr linesJoin_iff noGaps_iff

/-- The function `10-20*fabs(x)/(fabs(x)+3)`. -/
def peak (x : ℚ) : Option ℚ := some (10 - 20 * |x| / (|x| + 3))

/-- With the start window the curve of the peak has a chord across its clipped top, from column 62 to column 66, which
lights the pixel between them although no column there is drawn; and columns 1 and 2, both drawn, are not joined. -/
theorem peak_curve_broken :
    curveLines peak startWindow 61 2 65 2 ∧ Lights [.line 61 2 65 2] (63, 2) ∧ ¬ curveLines peak startWindow 0 46 1 46 ∧
      ¬ LinesJoin peak startWindow ∧ ¬ NoGaps peak startWindow := by
  have hchord : curveLines peak startWindow 61 2 65 2 := by
    unfold curveLines
    decide +kernel
  have hgap : ¬ curveLines peak startWindow 0 46 1 46 := by
    unfold curveLines
    decide +kernel
  refine ⟨hchord, by decide +kernel, hgap, ?_, ?_⟩
  · intro hjoin
    obtain ⟨x, -, -, -, -, -, hfirst, -, hlast, -⟩ := hjoin _ _ _ _ hchord
    omega
  · intro hgaps
    have hraises : ∀ y, ¬ startWindow.Raises y := by
      intro y hy
      rw [Window.raises_iff] at hy
      revert hy
      norm_num [Window.yScale_eq, startWindow]
    have hrunning : ∀ n, Running peak startWindow n := fun n k _ => ⟨_, rfl, hraises _⟩
    have hdotted : ∀ x y, sample peak startWindow x = some y → startWindow.Accepts y → Dotted peak startWindow x y :=
      fun x y hsample haccepts => ⟨⟨hrunning x, hsample, hraises y⟩, haccepts⟩
    have hline := hgaps 1 (-890 / 121) (-1310 / 179) (by decide) (hdotted _ _ (by decide +kernel) (by decide +kernel))
      (by decide +kernel) (hdotted _ _ (by decide +kernel) (by decide +kernel)) (by decide +kernel)
    have hrows : startWindow.drawnRow (-890 / 121) = 46 ∧ startWindow.drawnRow (-1310 / 179) = 46 := by decide +kernel
    rw [hrows.1, hrows.2] at hline
    exact hgap hline

end CalSci.Graph
