import CalSci.GridMatrix
import CalSci.OrthogonalIteration
import CalSci.Runs
import Mathlib.Analysis.Real.Sqrt
import Mathlib.Data.Matrix.Basic

/-! `qr_decomposition_finder` of `apps/scientific_calculator/qr_decomposition.py`: modified Gram-Schmidt. Turn
`j` normalises what is left of column `j` and takes its part out of the columns after it; a column that is
numerically zero is left out. The square root is a parameter, which is the real one in the results. -/

namespace CalSci.Qr

open GridRows Matrix

/-! ### The turns -/

section Model

variable {K : Type} [DivisionRing K] [LinearOrder K]

/-- `1e-10`. -/
def tolerance : K := 1 / 10 ^ 10

/-- What is left of the matrix, and the two factors. -/
structure QrState (K : Type) where
  A : Grid K
  Q : Grid K
  R : Grid K

/-- The length of column `j`, with the square root `root`. -/
def columnNorm (root : K → K) (rows : Nat) (A : Grid K) (j : Nat) : K :=
  root ((List.range rows).foldl (fun norm i => norm + entry A i j ^ 2) 0)

namespace QrState

def start (rows cols : Nat) (matrix : Grid K) : QrState K where
  A := matrix
  Q := tabulate rows cols fun _ _ => 0
  R := tabulate cols cols fun _ _ => 0

def normalise (rows j : Nat) (norm : K) (s : QrState K) : QrState K where
  A := s.A
  Q := (List.range rows).foldl (fun Q i => setEntry Q i j (entry s.A i j / norm)) s.Q
  R := setEntry s.R j j norm

def project (rows j : Nat) (s : QrState K) (k : Nat) : QrState K :=
  let dot := (List.range rows).foldl (fun dot i => dot + entry s.A i k * entry s.Q i j) 0
  { A := (List.range rows).foldl (fun A i => setEntry A i k (entry A i k - dot * entry s.Q i j)) s.A
    Q := s.Q
    R := setEntry s.R j k dot }

def step (root : K → K) (rows cols : Nat) (s : QrState K) (j : Nat) : QrState K :=
  let norm := columnNorm root rows s.A j
  if |norm| < tolerance then s
  else (List.range' (j + 1) (cols - (j + 1))).foldl (project rows j) (s.normalise rows j norm)

/-- The first `j` turns. -/
def run (root : K → K) (rows cols : Nat) (matrix : Grid K) (j : Nat) : QrState K :=
  (List.range j).foldl (step root rows cols) (start rows cols matrix)

end QrState

/-- `qr_decomposition_finder`; what `is_valid_matrix` says is not used. -/
def qrDecompositionFinder (root : K → K) (matrix : Grid K) (rows cols : Nat) : Grid K × Grid K :=
  let s := QrState.run root rows cols matrix cols
  (s.Q, s.R)

/-- The norm test leaves column `j` out. -/
def Skipped (root : K → K) (rows cols : Nat) (matrix : Grid K) (j : Nat) : Prop :=
  |columnNorm root rows (QrState.run root rows cols matrix j).A j| < tolerance

end Model

/-! ### One turn, column by column -/

variable {rows cols j : Nat} {s : QrState ℝ}

structure Shaped (rows cols : Nat) (s : QrState ℝ) : Prop where
  A : Rect s.A rows cols
  Q : Rect s.Q rows cols
  R : Rect s.R cols cols

theorem columnNorm_eq (A : Grid ℝ) (j : Nat) :
    columnNorm Real.sqrt rows A j = √(colVec rows A j ⬝ᵥ colVec rows A j) := by
  simp only [columnNorm, pow_two, foldl_dotProduct]

theorem normalise_spec (h : Shaped rows cols s) (hj : j < cols) (norm : ℝ) :
    Shaped rows cols (s.normalise rows j norm) ∧
      (∀ c, colVec rows (s.normalise rows j norm).Q c =
        if c = j then norm⁻¹ • colVec rows s.A j else colVec rows s.Q c) ∧
      ∀ t c, entry (s.normalise rows j norm).R t c = if t = j ∧ c = j then norm else entry s.R t c := by
  obtain ⟨hrect, hentry⟩ := foldl_fillColumn (fun i => entry s.A i j / norm)
    (fun Q i => setEntry Q i j (entry s.A i j / norm)) h.Q hj fun _ _ _ _ _ => rfl
  refine ⟨⟨h.A, hrect, h.R.setEntry j j norm⟩, fun c => ?_, entry_setEntry h.R hj hj norm⟩
  funext i
  rw [apply_ite (fun v : Fin rows → ℝ => v i), Pi.smul_apply, smul_eq_mul, ← div_eq_inv_mul]
  apply (hentry i c).trans
  by_cases hc : c = j
  · rw [if_pos ⟨i.isLt, hc⟩, if_pos hc]
    rfl
  · rw [if_neg fun hab => hc hab.2, if_neg hc]
    rfl

theorem project_spec (h : Shaped rows cols s) (hj : j < cols) {k : Nat} (hk : k < cols) :
    Shaped rows cols (s.project rows j k) ∧ (s.project rows j k).Q = s.Q ∧
      (∀ c, colVec rows (s.project rows j k).A c =
        if c = k then colVec rows s.A k - (colVec rows s.A k ⬝ᵥ colVec rows s.Q j) • colVec rows s.Q j
        else colVec rows s.A c) ∧
      ∀ t c, entry (s.project rows j k).R t c =
        if t = j ∧ c = k then colVec rows s.A k ⬝ᵥ colVec rows s.Q j else entry s.R t c := by
  simp only [QrState.project, foldl_dotProduct]
  obtain ⟨hrect, hentry⟩ := foldl_fillColumn
    (fun i => entry s.A i k - colVec rows s.A k ⬝ᵥ colVec rows s.Q j * entry s.Q i j)
    (fun A i => setEntry A i k (entry A i k - colVec rows s.A k ⬝ᵥ colVec rows s.Q j * entry s.Q i j)) h.A hk
    fun m' i _ _ hsame => by rw [hsame]
  refine ⟨⟨hrect, h.Q, h.R.setEntry j k _⟩, trivial, fun c => ?_, entry_setEntry h.R hj hk _⟩
  funext i
  rw [apply_ite (fun v : Fin rows → ℝ => v i)]
  apply (hentry i c).trans
  by_cases hc : c = k
  · rw [if_pos ⟨i.isLt, hc⟩, if_pos hc]
    rfl
  · rw [if_neg fun hab => hc hab.2, if_neg hc]
    rfl

/-- The columns `indices`, each for itself. -/
theorem project_all (h : Shaped rows cols s) (hj : j < cols) {indices : List Nat}
    (hindices : ∀ k ∈ indices, k < cols) (hnodup : indices.Nodup) :
    Shaped rows cols (indices.foldl (QrState.project rows j) s) ∧
      (indices.foldl (QrState.project rows j) s).Q = s.Q ∧
      (∀ c, colVec rows (indices.foldl (QrState.project rows j) s).A c =
        if c ∈ indices then colVec rows s.A c - (colVec rows s.A c ⬝ᵥ colVec rows s.Q j) • colVec rows s.Q j
        else colVec rows s.A c) ∧
      ∀ t c, entry (indices.foldl (QrState.project rows j) s).R t c =
        if t = j ∧ c ∈ indices then colVec rows s.A c ⬝ᵥ colVec rows s.Q j else entry s.R t c := by
  induction indices generalizing s with
  | nil => exact ⟨h, rfl, fun _ => (if_neg (by simp)).symm, fun _ _ => (if_neg (by simp)).symm⟩
  | cons k indices ih =>
      obtain ⟨hk, hrest⟩ := List.forall_mem_cons.mp hindices
      obtain ⟨hnot, hnodup'⟩ := List.nodup_cons.mp hnodup
      obtain ⟨hshaped, hQ, hA, hR⟩ := project_spec h hj hk
      obtain ⟨hshaped', hQ', hA', hR'⟩ := ih hshaped hrest hnodup'
      rw [List.foldl_cons]
      refine ⟨hshaped', hQ'.trans hQ, fun c => ?_, fun t c => ?_⟩
      · rw [hA', hA, hQ]
        by_cases hc : c = k
        · subst hc
          simp [hnot]
        · simp [hc]
      · rw [hR', hA, hR, hQ]
        by_cases hc : c = k
        · subst hc
          simp [hnot]
        · simp [hc]

/-- A turn that does not leave its column out. -/
theorem step_spec (h : Shaped rows cols s) (hj : j < cols)
    (hnorm : ¬ |columnNorm Real.sqrt rows s.A j| < tolerance) :
    ∃ norm, norm = √(colVec rows s.A j ⬝ᵥ colVec rows s.A j) ∧ norm ≠ 0 ∧
      Shaped rows cols (s.step Real.sqrt rows cols j) ∧
      (∀ c, colVec rows (s.step Real.sqrt rows cols j).Q c =
        if c = j then norm⁻¹ • colVec rows s.A j else colVec rows s.Q c) ∧
      (∀ c, colVec rows (s.step Real.sqrt rows cols j).A c =
        if j < c ∧ c < cols then colVec rows s.A c -
          (colVec rows s.A c ⬝ᵥ norm⁻¹ • colVec rows s.A j) • norm⁻¹ • colVec rows s.A j
        else colVec rows s.A c) ∧
      ∀ t c, entry (s.step Real.sqrt rows cols j).R t c =
        if t = j ∧ c = j then norm
        else if t = j ∧ j < c ∧ c < cols then colVec rows s.A c ⬝ᵥ norm⁻¹ • colVec rows s.A j
        else entry s.R t c := by
  obtain ⟨norm, heq⟩ : ∃ norm, columnNorm Real.sqrt rows s.A j = norm := ⟨_, rfl⟩
  obtain ⟨hshaped, hQ, hR⟩ := normalise_spec h hj norm
  have hindices : ∀ k ∈ List.range' (j + 1) (cols - (j + 1)), k < cols := fun k hk => (mem_range'_sub.mp hk).2
  obtain ⟨hshaped', hQ', hA', hR'⟩ := project_all hshaped hj hindices List.nodup_range'
  have hne : norm ≠ 0 := by
    intro hzero
    rw [heq, hzero, abs_zero, tolerance] at hnorm
    exact hnorm (by positivity)
  have hcolumn : colVec rows (s.normalise rows j norm).Q j = norm⁻¹ • colVec rows s.A j := by
    rw [hQ, if_pos rfl]
  rw [QrState.step, heq, if_neg (heq ▸ hnorm)]
  refine ⟨norm, by rw [← heq, columnNorm_eq], hne, hshaped', fun c => ?_, fun c => ?_, fun t c => ?_⟩
  · rw [hQ', hQ]
  · rw [hA', hcolumn]
    simp only [mem_range'_sub, Nat.succ_le_iff]
    rfl
  · rw [hR', hR, hcolumn]
    simp only [mem_range'_sub, Nat.succ_le_iff]
    by_cases ht : t = j
    · subst ht
      by_cases hc : c = t
      · subst hc
        simp
      · simp only [true_and, hc, if_false]
        rfl
    · simp [ht]

/-! ### Whole runs -/

/-- After `j` turns, on the matrix `m`: the columns of `Q` are orthogonal and zero or of length one, what is left
of the later columns is orthogonal to them, and together with `R` they give the matrix but for what is left. -/
structure Orthogonalised (rows cols : Nat) (m : Grid ℝ) (j : Nat) (s : QrState ℝ) : Prop where
  shaped : Shaped rows cols s
  orthogonal : ∀ t u, t ≠ u → colVec rows s.Q t ⬝ᵥ colVec rows s.Q u = 0
  unit : ∀ t, colVec rows s.Q t = 0 ∨ colVec rows s.Q t ⬝ᵥ colVec rows s.Q t = 1
  later : ∀ t, j ≤ t → colVec rows s.Q t = 0
  rest : ∀ t c, j ≤ c → c < cols → colVec rows s.A c ⬝ᵥ colVec rows s.Q t = 0
  upper : ∀ t c, c < t ∨ j ≤ t → entry s.R t c = 0
  diagonal : ∀ t, 0 ≤ entry s.R t t
  open_column : ∀ c, j ≤ c → c < cols →
    colVec rows m c = (∑ t ∈ Finset.range j, entry s.R t c • colVec rows s.Q t) + colVec rows s.A c
  done : ∀ c, c < j → ∃ v, colVec rows m c = (∑ t ∈ Finset.range j, entry s.R t c • colVec rows s.Q t) + v ∧
    √(v ⬝ᵥ v) < tolerance ∧ (¬ Skipped Real.sqrt rows cols m c → v = 0) ∧
    (Skipped Real.sqrt rows cols m c → v = colVec rows (QrState.run Real.sqrt rows cols m c).A c)

theorem orthogonalised_start {m : Grid ℝ} (h : Rect m rows cols) :
    Orthogonalised rows cols m 0 (QrState.start rows cols m) := by
  have hR : ∀ t c, entry (QrState.start rows cols m).R t c = 0 := entry_tabulate_zero cols cols
  have hQ : ∀ t, colVec rows (QrState.start rows cols m).Q t = 0 :=
    fun t => funext fun i => entry_tabulate_zero rows cols i t
  refine ⟨⟨h, Rect.tabulate _ _ _, Rect.tabulate _ _ _⟩, fun t u _ => ?_, fun t => .inl (hQ t), fun t _ => hQ t,
    fun t c _ _ => ?_, fun t c _ => hR t c, fun t => (hR t t).ge, fun c _ _ => ?_, nofun⟩
  · rw [hQ, zero_dotProduct]
  · rw [hQ, dotProduct_zero]
  · rw [Finset.sum_range_zero, zero_add]
    rfl

/-- A turn that leaves its column out. -/
theorem Orthogonalised.skip {m : Grid ℝ}
    (h : Orthogonalised rows cols m j (QrState.run Real.sqrt rows cols m j)) (hj : j < cols)
    (hskipped : Skipped Real.sqrt rows cols m j) :
    Orthogonalised rows cols m (j + 1) (QrState.run Real.sqrt rows cols m j) := by
  obtain ⟨s, hs⟩ : ∃ s, QrState.run Real.sqrt rows cols m j = s := ⟨_, rfl⟩
  have hnorm : |columnNorm Real.sqrt rows (QrState.run Real.sqrt rows cols m j).A j| < tolerance := hskipped
  rw [columnNorm_eq, abs_of_nonneg (Real.sqrt_nonneg _), hs] at hnorm
  rw [hs] at h ⊢
  have hsum : ∀ c, ∑ t ∈ Finset.range (j + 1), entry s.R t c • colVec rows s.Q t =
      ∑ t ∈ Finset.range j, entry s.R t c • colVec rows s.Q t := by
    intro c
    rw [Finset.sum_range_succ, h.upper j c (.inr (le_refl j)), zero_smul, add_zero]
  refine ⟨h.shaped, h.orthogonal, h.unit, fun t ht => h.later t (by omega),
    fun t c hc => h.rest t c (by omega), fun t c htc => h.upper t c (by omega), h.diagonal,
    fun c hc hcols => ?_, fun c hc => ?_⟩
  · rw [hsum, h.open_column c (by omega) hcols]
  · rw [hsum]
    rcases Nat.lt_succ_iff_lt_or_eq.mp hc with hlt | rfl
    · exact h.done c hlt
    · exact ⟨colVec rows s.A c, h.open_column c (le_refl c) hj, hnorm, fun hnot => absurd hskipped hnot,
        fun _ => by rw [hs]⟩

/-- What is left of a column, divided by its length, has length one. -/
theorem normalised_dotProduct {v : Fin rows → ℝ} {norm : ℝ} (hnorm : norm = √(v ⬝ᵥ v)) (hne : norm ≠ 0) :
    norm⁻¹ • v ⬝ᵥ norm⁻¹ • v = 1 := by
  have hnonneg : 0 ≤ v ⬝ᵥ v := Finset.sum_nonneg fun i _ => mul_self_nonneg (v i)
  have hsquare : v ⬝ᵥ v = norm * norm := by rw [hnorm, Real.mul_self_sqrt hnonneg]
  rw [smul_dotProduct, dotProduct_smul, hsquare, smul_eq_mul, smul_eq_mul]
  field_simp

/-- Orthogonal columns stay so with one more that is orthogonal to all of them. -/
theorem orthogonal_update {columns : Nat → Fin rows → ℝ} {q : Fin rows → ℝ}
    (horthogonal : ∀ t u, t ≠ u → columns t ⬝ᵥ columns u = 0) (hperp : ∀ t, q ⬝ᵥ columns t = 0) {t u : Nat}
    (htu : t ≠ u) : (if t = j then q else columns t) ⬝ᵥ (if u = j then q else columns u) = 0 := by
  by_cases ht : t = j
  · rw [if_pos ht, if_neg (by omega), hperp]
  · by_cases hu : u = j
    · rw [if_neg ht, if_pos hu, dotProduct_comm, hperp]
    · rw [if_neg ht, if_neg hu, horthogonal t u htu]

/-- A turn that normalises its column. -/
theorem Orthogonalised.step {m : Grid ℝ}
    (h : Orthogonalised rows cols m j (QrState.run Real.sqrt rows cols m j)) (hj : j < cols)
    (hnorm : ¬ Skipped Real.sqrt rows cols m j) :
    Orthogonalised rows cols m (j + 1) ((QrState.run Real.sqrt rows cols m j).step Real.sqrt rows cols j) := by
  obtain ⟨norm, heq, hne, hshaped, hQ, hA, hR⟩ := step_spec h.shaped hj hnorm
  generalize QrState.run Real.sqrt rows cols m j = s at *
  obtain ⟨q, hq⟩ : ∃ q, norm⁻¹ • colVec rows s.A j = q := ⟨_, rfl⟩
  have hunit : q ⬝ᵥ q = 1 := by
    rw [← hq]
    exact normalised_dotProduct heq hne
  have hperp : ∀ t, q ⬝ᵥ colVec rows s.Q t = 0 := by
    intro t
    rw [← hq, smul_dotProduct, h.rest t j (le_refl j) hj, smul_zero]
  have hback : norm • q = colVec rows s.A j := by
    rw [← hq, smul_smul, mul_inv_cancel₀ hne, one_smul]
  simp only [hq] at hQ hA hR
  -- up to turn `j` the sum is the old one
  have hsum : ∀ c, ∑ t ∈ Finset.range (j + 1),
      entry (s.step Real.sqrt rows cols j).R t c • colVec rows (s.step Real.sqrt rows cols j).Q t =
        (∑ t ∈ Finset.range j, entry s.R t c • colVec rows s.Q t) +
          entry (s.step Real.sqrt rows cols j).R j c • q := by
    intro c
    rw [Finset.sum_range_succ, hQ j, if_pos rfl]
    congr 1
    apply Finset.sum_congr rfl
    intro t ht
    have hlt := Finset.mem_range.mp ht
    rw [hR, hQ, if_neg (by omega), if_neg (by omega), if_neg (by omega)]
  refine ⟨hshaped, fun t u htu => ?_, fun t => ?_, fun t ht => ?_, fun t c hc hcols => ?_, fun t c htc => ?_,
    fun t => ?_, fun c hc hcols => ?_, fun c hc => ?_⟩
  · rw [hQ, hQ]
    exact orthogonal_update h.orthogonal hperp htu
  · rw [hQ]
    by_cases ht : t = j
    · rw [if_pos ht]
      exact .inr hunit
    · rw [if_neg ht]
      exact h.unit t
  · rw [hQ, if_neg (by omega), h.later t (by omega)]
  · rw [hA, if_pos ⟨by omega, hcols⟩, hQ, sub_dotProduct, smul_dotProduct, smul_eq_mul]
    by_cases ht : t = j
    · rw [if_pos ht, hunit, mul_one, sub_self]
    · rw [if_neg ht, h.rest t c (by omega) hcols, hperp, mul_zero, sub_zero]
  · rw [hR, if_neg (by omega), if_neg (by omega), h.upper t c (by omega)]
  · rw [hR]
    split
    · rw [heq]
      exact Real.sqrt_nonneg _
    · rw [if_neg (by omega)]
      exact h.diagonal t
  · rw [hsum, hR, if_neg (by omega), if_pos ⟨rfl, by omega, hcols⟩, hA, if_pos ⟨by omega, hcols⟩,
      h.open_column c (by omega) hcols]
    abel
  · rw [hsum]
    rcases Nat.lt_succ_iff_lt_or_eq.mp hc with hlt | rfl
    · rw [hR, if_neg (by omega), if_neg (by omega), h.upper j c (.inl hlt), zero_smul, add_zero]
      exact h.done c hlt
    · refine ⟨0, ?_, ?_, fun _ => rfl, fun hskipped => absurd hskipped hnorm⟩
      · rw [hR, if_pos ⟨rfl, rfl⟩, hback, add_zero, h.open_column c (le_refl c) hj]
      · rw [zero_dotProduct, Real.sqrt_zero, tolerance]
        positivity

theorem run_succ (root : ℝ → ℝ) (m : Grid ℝ) (j : Nat) :
    QrState.run root rows cols m (j + 1) = (QrState.run root rows cols m j).step root rows cols j := by
  rw [QrState.run, List.range_succ, List.foldl_append]
  rfl

theorem run_orthogonalised {m : Grid ℝ} (h : Rect m rows cols) (hj : j ≤ cols) :
    Orthogonalised rows cols m j (QrState.run Real.sqrt rows cols m j) := by
  induction j with
  | zero => exact orthogonalised_start h
  | succ j ih =>
      rw [run_succ]
      by_cases hskipped : Skipped Real.sqrt rows cols m j
      · have hsame : (QrState.run Real.sqrt rows cols m j).step Real.sqrt rows cols j =
            QrState.run Real.sqrt rows cols m j := if_pos hskipped
        rw [hsame]
        exact (ih (by omega)).skip hj hskipped
      · exact (ih (by omega)).step hj hskipped

/-! ### Square matrices

When only columns of zeros are left out, a factorisation is a turn of an orthogonal iteration. -/

section Square

variable {n : Nat}

/-- A column of `Q` that was left out is zero and has a row of zeros in `R`; another one has length one, and `R` has
its norm on the diagonal. -/
theorem run_paired {A : Grid ℝ} (h : Rect A n n) {j : Nat} (hj : j ≤ n) (t : Nat) :
    (colVec n (QrState.run Real.sqrt n n A j).Q t = 0 ∧ ∀ c, entry (QrState.run Real.sqrt n n A j).R t c = 0) ∨
      (entry (QrState.run Real.sqrt n n A j).R t t ≠ 0 ∧
        colVec n (QrState.run Real.sqrt n n A j).Q t ⬝ᵥ colVec n (QrState.run Real.sqrt n n A j).Q t = 1) := by
  induction j with
  | zero =>
      have hstart : Orthogonalised n n A 0 (QrState.start n n A) := orthogonalised_start h
      exact .inl ⟨hstart.later t (Nat.zero_le t), fun c => hstart.upper t c (.inr (Nat.zero_le t))⟩
  | succ j ih =>
      rw [run_succ]
      by_cases hskipped : Skipped Real.sqrt n n A j
      · have hsame : (QrState.run Real.sqrt n n A j).step Real.sqrt n n j = QrState.run Real.sqrt n n A j :=
          if_pos hskipped
        rw [hsame]
        exact ih (by omega)
      · have hbefore := run_orthogonalised h (show j ≤ n by omega)
        obtain ⟨norm, heq, hne, -, hQ, -, hR⟩ := step_spec hbefore.shaped (show j < n by omega) hskipped
        by_cases ht : t = j
        · subst ht
          refine .inr ⟨?_, ?_⟩
          · rwa [hR, if_pos ⟨rfl, rfl⟩]
          · rw [hQ, if_pos rfl]
            exact normalised_dotProduct heq hne
        · rw [hQ, if_neg ht]
          simp only [hR, ht, false_and, if_false]
          exact ih (by omega)

/-- The turns that are still to come add nothing. -/
theorem sum_turns {m : Grid ℝ} {j : Nat} {s : QrState ℝ} (h : Orthogonalised n n m j s) (hj : j ≤ n) (c : Nat) :
    ∑ t ∈ Finset.range j, entry s.R t c • colVec n s.Q t = ∑ t : Fin n, entry s.R t c • colVec n s.Q t := by
  rw [← Finset.sum_range fun t => entry s.R t c • colVec n s.Q t,
    Finset.sum_subset (Finset.range_subset_range.mpr hj)]
  intro t _ ht
  rw [h.upper t c (.inr (not_lt.mp fun hlt => ht (Finset.mem_range.mpr hlt))), zero_smul]

/-- Before turn `j` of a factorisation that left out zero columns only, each column is a sum of columns of `Q`. -/
theorem col_eq_sum {A : Grid ℝ} (h : Rect A n n) {j : Nat} (hj : j ≤ n)
    (hzero : ∀ c, c < j → Skipped Real.sqrt n n A c → colVec n (QrState.run Real.sqrt n n A c).A c = 0)
    (c : Fin n) (hc : c < j) : (toMatrix n n A).col c = ∑ t : Fin n,
      entry (QrState.run Real.sqrt n n A j).R t c • colVec n (QrState.run Real.sqrt n n A j).Q t := by
  have hrun := run_orthogonalised h hj
  obtain ⟨v, hv, -, hexact, hskipped⟩ := hrun.done c hc
  have hnone : v = 0 := by
    by_cases hskip : Skipped Real.sqrt n n A c
    · rw [hskipped hskip, hzero c hc hskip]
    · exact hexact hskip
  rw [hnone, add_zero, sum_turns hrun hj] at hv
  exact hv

/-- What is left of a column at its turn is the image of a vector that ends in a one at that place. -/
theorem exists_residual {A : Grid ℝ} (h : Rect A n n) (j : Fin n)
    (hzero : ∀ c, c < j.val → Skipped Real.sqrt n n A c → colVec n (QrState.run Real.sqrt n n A c).A c = 0) :
    ∃ u : Fin n → ℝ, (∀ i, j < i → u i = 0) ∧ u j = 1 ∧
      toMatrix n n A *ᵥ u = colVec n (QrState.run Real.sqrt n n A j).A j := by
  have hj : (j : Nat) ≤ n := j.isLt.le
  have hrun := run_orthogonalised h hj
  have hpaired := run_paired h hj
  have hcol := col_eq_sum h hj hzero
  generalize QrState.run Real.sqrt n n A j = s at hrun hpaired hcol ⊢
  choose! u hu hAu using OrthogonalIteration.exists_combination (A := toMatrix n n A) (j := j)
    (q := fun t => colVec n s.Q t) (r := fun t c => entry s.R t c) hcol (fun t c hct => hrun.upper t c (.inl hct))
    (fun t _ => (hpaired t).imp And.left And.left)
  have hopen : (toMatrix n n A).col j = ∑ t ∈ Finset.Iio j, entry s.R t j • colVec n s.Q t + colVec n s.A j := by
    apply (hrun.open_column j (le_refl _) j.isLt).trans
    rw [sum_turns hrun hj, ← Finset.sum_subset (Finset.subset_univ (Finset.Iio j))]
    intro t _ ht
    rw [hrun.upper t j (.inr (not_lt.mp fun hlt => ht (Finset.mem_Iio.mpr hlt))), zero_smul]
  refine ⟨Pi.single j 1 - ∑ t ∈ Finset.Iio j, entry s.R t j • u t, fun i hi => ?_, ?_, ?_⟩
  · have hbefore : ∀ t ∈ Finset.Iio j, (entry s.R t j • u t) i = 0 := by
      intro t ht
      have htj := Finset.mem_Iio.mp ht
      rw [Pi.smul_apply, hu t htj i (htj.trans hi), smul_zero]
    rw [Pi.sub_apply, Finset.sum_apply, Finset.sum_eq_zero hbefore, Pi.single_eq_of_ne hi.ne', sub_zero]
  · have hbefore : ∀ t ∈ Finset.Iio j, (entry s.R t j • u t) j = 0 := by
      intro t ht
      have htj := Finset.mem_Iio.mp ht
      rw [Pi.smul_apply, hu t htj j htj, smul_zero]
    rw [Pi.sub_apply, Finset.sum_apply, Finset.sum_eq_zero hbefore, Pi.single_eq_same, sub_zero]
  · have hparts : ∑ t ∈ Finset.Iio j, toMatrix n n A *ᵥ (entry s.R t j • u t) =
        ∑ t ∈ Finset.Iio j, entry s.R t j • colVec n s.Q t :=
      Finset.sum_congr rfl fun t ht => by
        have htj := Finset.mem_Iio.mp ht
        rw [mulVec_smul, hAu t htj]
    rw [mulVec_sub, mulVec_single_one, mulVec_sum, hparts, hopen, add_sub_cancel_left]

/-- Nothing is left of a column of zeros. -/
theorem residual_eq_zero {A : Grid ℝ} (h : Rect A n n) {j : Nat} (hj : j < n)
    (hzero : (toMatrix n n A).col ⟨j, hj⟩ = 0) : colVec n (QrState.run Real.sqrt n n A j).A j = 0 := by
  have hrun := run_orthogonalised h hj.le
  have hopen := hrun.open_column j (le_refl j) hj
  have hrest := hrun.rest
  generalize QrState.run Real.sqrt n n A j = s at hopen hrest ⊢
  have hnone : colVec n A j = 0 := hzero
  rw [hnone] at hopen
  apply dotProduct_self_eq_zero.mp
  calc colVec n s.A j ⬝ᵥ colVec n s.A j
      = colVec n s.A j ⬝ᵥ (∑ t ∈ Finset.range j, entry s.R t j • colVec n s.Q t + colVec n s.A j) := by
        rw [dotProduct_add, dotProduct_sum, Finset.sum_eq_zero, zero_add]
        intro t _
        rw [dotProduct_smul, hrest t j (le_refl j) hj, smul_zero]
    _ = 0 := by rw [← hopen, dotProduct_zero]

/-- The factors of a turn that leaves out zero columns only. -/
theorem factors_of_run {A : Grid ℝ} (h : Rect A n n)
    (hzero : ∀ j, j < n → Skipped Real.sqrt n n A j → colVec n (QrState.run Real.sqrt n n A j).A j = 0) :
    OrthogonalIteration.Factors (toMatrix n n A) (toMatrix n n (QrState.run Real.sqrt n n A n).Q)
      (toMatrix n n (QrState.run Real.sqrt n n A n).R) := by
  have hrun := run_orthogonalised h (le_refl n)
  have hpaired := run_paired h (le_refl n)
  have hgram : ∀ i j : Fin n, ((toMatrix n n (QrState.run Real.sqrt n n A n).Q)ᵀ *
      toMatrix n n (QrState.run Real.sqrt n n A n).Q) i j =
        colVec n (QrState.run Real.sqrt n n A n).Q i ⬝ᵥ colVec n (QrState.run Real.sqrt n n A n).Q j := fun _ _ => rfl
  refine .of_paired ?_ (fun i j hij => hrun.upper i j (.inl hij)) ⟨fun i j hij => ?_, fun i => ?_⟩ fun t => ?_
  · ext i c
    have hc := congrFun (col_eq_sum h (le_refl n) hzero c c.isLt) i
    rw [Matrix.col_apply] at hc
    rw [hc, Finset.sum_apply, Matrix.mul_apply]
    exact Finset.sum_congr rfl fun t _ => mul_comm _ _
  · rw [hgram, hrun.orthogonal i j (Fin.val_ne_of_ne hij)]
  · rw [hgram]
    exact (hrun.unit i).imp (fun hnone => by rw [hnone, zero_dotProduct]) id
  · rw [hgram]
    exact (hpaired t).imp (fun hnone => ⟨hnone.1, fun c => hnone.2 c⟩) id

end Square

/-! ### The factors -/

/-- A matrix of integers, in real arithmetic. -/
def ofInts (matrix : Grid Int) : Grid ℝ := matrix.map (List.map fun x : Int => (x : ℝ))

/-- Column `j` of the product of the factors. -/
theorem colVec_product (Q R : Grid ℝ) (j : Fin cols) :
    (fun i => (toMatrix rows cols Q * toMatrix cols cols R) i j) =
      ∑ t ∈ Finset.range cols, entry R t j • colVec rows Q t := by
  funext i
  rw [mul_apply, Finset.sum_apply, Finset.sum_range]
  exact Finset.sum_congr rfl fun t _ => mul_comm _ _

/-- `R` is upper triangular without negative entries on the diagonal; the columns of `Q` are orthogonal, each
zero or of length one; and the product is the matrix up to the tolerance in each column, exactly so in those that
the norm test does not leave out. -/
theorem qr_decomposition_correct {matrix : Grid Int} (h : Rect matrix rows cols) :
    ∃ Q R, qrDecompositionFinder Real.sqrt (ofInts matrix) rows cols = (Q, R) ∧
      Rect Q rows cols ∧ Rect R cols cols ∧
      (∀ i j : Fin cols, j < i → toMatrix cols cols R i j = 0) ∧ (∀ i, 0 ≤ toMatrix cols cols R i i) ∧
      (∀ j k : Fin cols, j ≠ k → ∑ i, toMatrix rows cols Q i j * toMatrix rows cols Q i k = 0) ∧
      (∀ j, (∀ i, toMatrix rows cols Q i j = 0) ∨ √(∑ i, toMatrix rows cols Q i j ^ 2) = 1) ∧
      ∀ j, √(∑ i, (toMatrix rows cols (ofInts matrix) -
          toMatrix rows cols Q * toMatrix cols cols R) i j ^ 2) < tolerance ∧
        (¬ Skipped Real.sqrt rows cols (ofInts matrix) j → ∀ i, (toMatrix rows cols (ofInts matrix) -
          toMatrix rows cols Q * toMatrix cols cols R) i j = 0) := by
  have hrun := run_orthogonalised (Rect.map h fun x : Int => (x : ℝ)) (le_refl cols)
  change Orthogonalised rows cols (ofInts matrix) cols
    (QrState.run Real.sqrt rows cols (ofInts matrix) cols) at hrun
  refine ⟨_, _, rfl, hrun.shaped.Q, hrun.shaped.R, fun i j hij => hrun.upper i j (.inl hij),
    fun i => hrun.diagonal i, fun j k hjk => hrun.orthogonal j k (Fin.val_ne_of_ne hjk), fun j => ?_, fun j => ?_⟩
  · rcases hrun.unit j with hzero | hone
    · exact .inl fun i => congrFun hzero i
    · refine .inr ?_
      have hsquares :
          ∑ i, toMatrix rows cols (QrState.run Real.sqrt rows cols (ofInts matrix) cols).Q i j ^ 2 = 1 := by
        simp only [pow_two]
        exact hone
      rw [hsquares, Real.sqrt_one]
  · obtain ⟨v, hv, hsmall, hexact, -⟩ := hrun.done j j.isLt
    have hleft : ∀ i, (toMatrix rows cols (ofInts matrix) -
        toMatrix rows cols (QrState.run Real.sqrt rows cols (ofInts matrix) cols).Q *
          toMatrix cols cols (QrState.run Real.sqrt rows cols (ofInts matrix) cols).R) i j = v i := by
      intro i
      rw [← colVec_product] at hv
      have hi := congrFun hv i
      rw [Pi.add_apply] at hi
      rw [Matrix.sub_apply, sub_eq_iff_eq_add']
      exact hi
    constructor
    · have hsquares : (fun i => (toMatrix rows cols (ofInts matrix) -
          toMatrix rows cols (QrState.run Real.sqrt rows cols (ofInts matrix) cols).Q *
            toMatrix cols cols (QrState.run Real.sqrt rows cols (ofInts matrix) cols).R) i j ^ 2) =
          fun i => v i * v i := funext fun i => by rw [hleft, pow_two]
      exact lt_of_eq_of_lt (congrArg (fun f : Fin rows → ℝ => √(∑ i, f i)) hsquares) hsmall
    · intro hnot i
      rw [hleft i, hexact hnot]
      rfl

theorem qr_decomposition_correct_skewed :
    ∃ Q R, qrDecompositionFinder Real.sqrt (ofInts [[3, 1], [4, 2], [0, 2]]) 3 2 = (Q, R) ∧ Rect Q 3 2 ∧ Rect R 2 2 ∧
      (∀ i j : Fin 2, j < i → toMatrix 2 2 R i j = 0) ∧
      (∀ j k : Fin 2, j ≠ k → ∑ i, toMatrix 3 2 Q i j * toMatrix 3 2 Q i k = 0) ∧
      ∀ j, √(∑ i, (toMatrix 3 2 (ofInts [[3, 1], [4, 2], [0, 2]]) - toMatrix 3 2 Q * toMatrix 2 2 R) i j ^ 2) <
        tolerance := by
  have hrect : Rect ([[3, 1], [4, 2], [0, 2]] : Grid Int) 3 2 := ⟨rfl, by decide⟩
  obtain ⟨Q, R, hQR, hQ, hR, hupper, -, horthogonal, -, hproduct⟩ := qr_decomposition_correct hrect
  exact ⟨Q, R, hQR, hQ, hR, hupper, horthogonal, fun j => (hproduct j).1⟩

end CalSci.Qr
