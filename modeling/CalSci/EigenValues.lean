import CalSci.QrDecomposition
import Mathlib.Algebra.Polynomial.Splits
import Mathlib.LinearAlgebra.Matrix.Charpoly.Coeff
import Mathlib.LinearAlgebra.Matrix.ToLinearEquiv

/-! `eigenvalues_finder` of `apps/scientific_calculator/eigen_values.py`: two hundred turns of the QR iteration
`A = R * Q`, without shifts and without a test of convergence, and the diagonal at the end. Exactly factored, each
iterate has the characteristic polynomial of the matrix, so that the diagonal keeps its sum; the values on it are
eigenvalues as far as the entries below it have become small, which they need not. -/

namespace CalSci.Qr

open GridRows Matrix Polynomial OrthogonalIteration

/-! ### eigen_values.py -/

section Model

variable {K : Type} [DivisionRing K] [LinearOrder K]

def isValidMatrix (matrix : Grid K) (rows cols : Nat) : Bool :=
  match matrix with
  | [] => false
  | [] :: _ => false
  | _ => decide (matrix.length = rows) && decide (rows = cols) && matrix.all fun row => decide (row.length = cols)

/-- `qr_decomposition`, which is `qr_decomposition_finder` for a square matrix. -/
def qrDecomposition (root : K → K) (matrix : Grid K) (n : Nat) : Grid K × Grid K :=
  qrDecompositionFinder root matrix n n

def matrixMultiply (A B : Grid K) (n : Nat) : Grid K := productLoops n n n A B

/-- The body of the loop of `eigenvalues_finder`. -/
def iterate (root : K → K) (n : Nat) (A : Grid K) : Grid K :=
  matrixMultiply (qrDecomposition root A n).2 (qrDecomposition root A n).1 n

/-- `A` after `k` turns. -/
def iterates (root : K → K) (n : Nat) (matrix : Grid K) (k : Nat) : Grid K := (iterate root n)^[k] matrix

def maxIterations : Nat := 200

/-- `0.0 if abs(val) < 1e-10 else val`. -/
def flush (val : K) : K := if |val| < tolerance then 0 else val

/-- `eigenvalues_finder`; nothing for a matrix that is not valid. -/
def eigenvaluesFinder (root : K → K) (matrix : Grid K) (rows cols : Nat) : Option (List K) :=
  if isValidMatrix matrix rows cols then
    let n := rows
    let A := iterates root n matrix maxIterations
    some ((List.range n).map fun i => flush (entry A i i))
  else none

end Model

/-! ### The norm test -/

variable {n : Nat}

/-- In the first `k` turns the norm test leaves out columns only of which nothing at all is left. -/
def OnlyZeroSkipped (n : Nat) (matrix : Grid ℝ) (k : Nat) : Prop :=
  ∀ i, i < k → ∀ j, j < n → Skipped Real.sqrt n n (iterates Real.sqrt n matrix i) j →
    colVec n (QrState.run Real.sqrt n n (iterates Real.sqrt n matrix i) j).A j = 0

/-- The factors of a matrix of which only zero columns are left out. -/
theorem qrDecomposition_factors {A : Grid ℝ} (h : Rect A n n)
    (hzero : ∀ j, j < n → Skipped Real.sqrt n n A j → colVec n (QrState.run Real.sqrt n n A j).A j = 0) :
    Factors (toMatrix n n A) (toMatrix n n (qrDecomposition Real.sqrt A n).1)
      (toMatrix n n (qrDecomposition Real.sqrt A n).2) := factors_of_run h hzero

theorem rect_iterate (A : Grid ℝ) : Rect (iterate Real.sqrt n A) n n := (productLoops_spec n n n _ _).1

theorem rect_iterates {matrix : Grid ℝ} (h : Rect matrix n n) (k : Nat) :
    Rect (iterates Real.sqrt n matrix k) n n := by
  cases k with
  | zero => exact h
  | succ k =>
      rw [iterates, Function.iterate_succ_apply']
      exact rect_iterate _

/-- After `k` turns that left out zero columns only. -/
theorem exists_reached {matrix : Grid ℝ} (h : Rect matrix n n) {k : Nat} (hzero : OnlyZeroSkipped n matrix k) :
    ∃ P, Reached (toMatrix n n matrix) k P (toMatrix n n (iterates Real.sqrt n matrix k)) := by
  induction k with
  | zero => exact ⟨1, reached_start _⟩
  | succ k ih =>
      obtain ⟨P, hP⟩ := ih fun i hi => hzero i (by omega)
      have hfactors := qrDecomposition_factors (rect_iterates h k) (hzero k (Nat.lt_succ_self k))
      have hnext : iterates Real.sqrt n matrix (k + 1) = iterate Real.sqrt n (iterates Real.sqrt n matrix k) :=
        Function.iterate_succ_apply' _ k matrix
      refine ⟨P * toMatrix n n (qrDecomposition Real.sqrt (iterates Real.sqrt n matrix k) n).1, ?_⟩
      rw [hnext, iterate, matrixMultiply, toMatrix_productLoops]
      exact hP.step hfactors

/-- What keeps the norm test from taking a column for zero that is not: in the first turn no column comes within the
tolerance of a combination of those before it without being one, and later the matrix does not shrink its own images
that far. -/
structure Resolved (A : Matrix (Fin n) (Fin n) ℝ) : Prop where
  columns : ∀ (l : Fin n) (u : Fin n → ℝ), (∀ i, l < i → u i = 0) → u l = 1 → A *ᵥ u ≠ 0 →
    tolerance ^ 2 ≤ A *ᵥ u ⬝ᵥ A *ᵥ u
  images : ∀ u, A *ᵥ (A *ᵥ u) ≠ 0 →
    tolerance ^ 2 * (A *ᵥ u ⬝ᵥ A *ᵥ u) ≤ A *ᵥ (A *ᵥ u) ⬝ᵥ A *ᵥ (A *ᵥ u)

/-- A column whose rest is at least as long as the tolerance is not left out. -/
theorem not_skipped {A : Grid ℝ} {j : Nat}
    (h : tolerance ^ 2 ≤ colVec n (QrState.run Real.sqrt n n A j).A j ⬝ᵥ colVec n (QrState.run Real.sqrt n n A j).A j) :
    ¬ Skipped Real.sqrt n n A j := by
  have htolerance : (0 : ℝ) ≤ tolerance := by
    rw [tolerance]
    positivity
  rw [Skipped, columnNorm_eq, abs_of_nonneg (Real.sqrt_nonneg _), not_lt]
  exact Real.le_sqrt_of_sq_le h

/-- The rest of a column in a later turn is not shorter than the tolerance, unless it is zero. -/
theorem Resolved.later {matrix B P : Matrix (Fin n) (Fin n) ℝ} {k : Nat} (hresolved : Resolved matrix)
    (h : Reached matrix (k + 1) P B) {j : Fin n} (hone : (Pᵀ * P) j j = 1) {u : Fin n → ℝ} (hu : u j = 1)
    (hne : B *ᵥ u ≠ 0) : tolerance ^ 2 ≤ B *ᵥ u ⬝ᵥ B *ᵥ u := by
  obtain ⟨U, -, hspan⟩ := h.span
  have himage : P *ᵥ u = matrix *ᵥ ((matrix ^ k * U) *ᵥ u) := by
    rw [mulVec_mulVec, ← Matrix.mul_assoc, ← pow_succ', ← hspan]
  have hlong : 1 ≤ P *ᵥ u ⬝ᵥ P *ᵥ u := by
    rw [h.orthogonal.lengths]
    calc (1 : ℝ) = (Pᵀ * P) j j * u j ^ 2 := by rw [hone, hu, one_pow, mul_one]
      _ ≤ ∑ i, (Pᵀ * P) i i * u i ^ 2 := by
        refine Finset.single_le_sum (f := fun i => (Pᵀ * P) i i * u i ^ 2) (fun i _ => ?_) (Finset.mem_univ j)
        rcases h.orthogonal.unit i with hi | hi
        · rw [hi, zero_mul]
        · rw [hi, one_mul]
          positivity
  have hlengths := h.lengths u
  have hnot : matrix *ᵥ (P *ᵥ u) ≠ 0 := by
    intro hnone
    rw [hnone, zero_dotProduct] at hlengths
    exact hne (dotProduct_self_eq_zero.mp hlengths)
  rw [hlengths, himage]
  rw [himage] at hlong hnot
  calc tolerance ^ 2 ≤ tolerance ^ 2 * (matrix *ᵥ ((matrix ^ k * U) *ᵥ u) ⬝ᵥ matrix *ᵥ ((matrix ^ k * U) *ᵥ u)) :=
        le_mul_of_one_le_right (sq_nonneg _) hlong
    _ ≤ _ := hresolved.images _ hnot

/-- The norm test leaves out zero columns only, in every turn. -/
theorem Resolved.onlyZeroSkipped {matrix : Grid ℝ} (hresolved : Resolved (toMatrix n n matrix))
    (h : Rect matrix n n) (k : Nat) : OnlyZeroSkipped n matrix k := by
  induction k with
  | zero => exact nofun
  | succ k ih =>
      intro i hi j hj hskipped
      rcases Nat.lt_succ_iff_lt_or_eq.mp hi with hlt | rfl
      · exact ih i hlt j hj hskipped
      · obtain ⟨P, hP⟩ := exists_reached h ih
        have hrect := rect_iterates h i
        -- the columns from the left
        induction j using Nat.strong_induction_on with
        | _ j ihj =>
            obtain ⟨u, hafter, hu, hresidual⟩ := exists_residual hrect ⟨j, hj⟩
              fun c hc hskippedc => ihj c hc (hc.trans hj) hskippedc
            by_contra hne
            refine not_skipped ?_ hskipped
            change _ = colVec n (QrState.run Real.sqrt n n (iterates Real.sqrt n matrix i) j).A j at hresidual
            rw [← hresidual] at hne ⊢
            cases i with
            | zero => exact hresolved.columns ⟨j, hj⟩ u hafter hu hne
            | succ i =>
                rcases hP.orthogonal.unit ⟨j, hj⟩ with hnone | hone
                · exact absurd (residual_eq_zero hrect hj (hP.col_eq_zero hnone)) (hresidual ▸ hne)
                · exact hresolved.later hP hone hu hne

/-! ### The spectrum of the iterates -/

/-- One turn: the factors change places. -/
theorem charpoly_iterate {A : Grid ℝ} (h : Rect A n n)
    (hzero : ∀ j, j < n → Skipped Real.sqrt n n A j → colVec n (QrState.run Real.sqrt n n A j).A j = 0) :
    (toMatrix n n (iterate Real.sqrt n A)).charpoly = (toMatrix n n A).charpoly := by
  rw [iterate, matrixMultiply, toMatrix_productLoops, charpoly_mul_comm, (qrDecomposition_factors h hzero).product]

theorem charpoly_iterates {matrix : Grid ℝ} (h : Rect matrix n n) {k : Nat}
    (hzero : OnlyZeroSkipped n matrix k) :
    (toMatrix n n (iterates Real.sqrt n matrix k)).charpoly = (toMatrix n n matrix).charpoly := by
  induction k with
  | zero => rfl
  | succ k ih =>
      rw [← ih fun i hi => hzero i (by omega), iterates, Function.iterate_succ_apply']
      exact charpoly_iterate (rect_iterates h k) (hzero k (Nat.lt_succ_self k))

/-- The QR iteration keeps the characteristic polynomial, whatever the rank of the matrix, and with it the sum of
the diagonal. -/
theorem qr_iteration_keeps_spectrum {matrix : Grid Int} (hn : 1 ≤ n) (h : Rect matrix n n) (k : Nat)
    (hzero : OnlyZeroSkipped n (ofInts matrix) k) :
    (toMatrix n n (iterates Real.sqrt n (ofInts matrix) k)).charpoly =
        (toMatrix n n (ofInts matrix)).charpoly ∧
      ∑ i : Fin n, entry (iterates Real.sqrt n (ofInts matrix) k) i i =
        ∑ i : Fin n, entry (ofInts matrix) i i := by
  have hcharpoly := charpoly_iterates (Rect.map h fun x : Int => (x : ℝ)) hzero
  have : Nonempty (Fin n) := ⟨⟨0, hn⟩⟩
  refine ⟨hcharpoly, ?_⟩
  have htrace := congrArg (fun p : ℝ[X] => -p.coeff (Fintype.card (Fin n) - 1)) hcharpoly
  simp only [← trace_eq_neg_charpoly_coeff] at htrace
  exact htrace

/-- The matrix with 20 on the diagonal and 1 beside it: the eigenvalues are 21 and 19. -/
theorem toMatrix_symmetric : toMatrix 2 2 (ofInts [[20, 1], [1, 20]]) = !![20, 1; 1, 20] := by
  ext i j
  fin_cases i <;> fin_cases j <;> simp [ofInts, entry]

theorem resolved_symmetric : Resolved (toMatrix 2 2 (ofInts [[20, 1], [1, 20]])) := by
  -- no vector is shrunk
  have hgrows : ∀ u : Fin 2 → ℝ, u ⬝ᵥ u ≤ !![20, 1; 1, 20] *ᵥ u ⬝ᵥ !![20, 1; 1, 20] *ᵥ u := by
    intro u
    simp only [dotProduct, mulVec, Fin.sum_univ_two, of_apply, cons_val_zero, cons_val_one]
    nlinarith [sq_nonneg (u 0 + u 1), sq_nonneg (u 0), sq_nonneg (u 1)]
  have htolerance : (tolerance : ℝ) ^ 2 ≤ 1 := by
    rw [tolerance]
    norm_num
  rw [toMatrix_symmetric]
  refine ⟨fun l u _ hu _ => ?_, fun u _ => ?_⟩
  · calc (tolerance : ℝ) ^ 2 ≤ u l * u l := by rwa [hu, one_mul]
      _ ≤ u ⬝ᵥ u := Finset.single_le_sum (fun i _ => mul_self_nonneg (u i)) (Finset.mem_univ l)
      _ ≤ _ := hgrows u
  · exact (mul_le_of_le_one_left (Finset.sum_nonneg fun i _ => mul_self_nonneg _) htolerance).trans (hgrows _)

theorem qr_iteration_keeps_spectrum_symmetric :
    (toMatrix 2 2 (iterates Real.sqrt 2 (ofInts [[20, 1], [1, 20]]) 200)).charpoly =
      (toMatrix 2 2 (ofInts [[20, 1], [1, 20]])).charpoly := by
  have hrect : Rect ([[20, 1], [1, 20]] : Grid Int) 2 2 := ⟨rfl, by decide⟩
  exact (qr_iteration_keeps_spectrum (by decide) hrect 200
    (resolved_symmetric.onlyZeroSkipped (Rect.map hrect fun x : Int => (x : ℝ)) 200)).1

/-! ### The reported values -/

/-- An eigenvalue of the matrix of a grid. -/
def Eigenvalue (n : Nat) (m : Grid ℝ) (r : ℝ) : Prop := ∃ v : Fin n → ℝ, v ≠ 0 ∧ toMatrix n n m *ᵥ v = r • v

theorem isValidMatrix_of_rect {m : Grid ℝ} (hn : 1 ≤ n) (h : Rect m n n) : isValidMatrix m n n = true := by
  have hall : (m.all fun row => decide (row.length = n)) = true :=
    List.all_eq_true.mpr fun row hrow => decide_eq_true (h.row_length row hrow)
  match m, h, hall with
  | [], h, _ => exact absurd h.length (by rw [List.length_nil]; omega)
  | [] :: _, h, _ => exact absurd (h.row_length [] List.mem_cons_self) (by rw [List.length_nil]; omega)
  | (x :: row) :: others, h, hall =>
      rw [isValidMatrix, hall, decide_eq_true h.length, decide_eq_true rfl]
      · rfl
      · exact nofun
      · exact nofun

theorem eigenvaluesFinder_of_rect {m : Grid ℝ} (hn : 1 ≤ n) (h : Rect m n n) : eigenvaluesFinder Real.sqrt m n n =
    some ((List.range n).map fun i => flush (entry (iterates Real.sqrt n m maxIterations) i i)) :=
  if_pos (isValidMatrix_of_rect hn h)

theorem abs_flush_sub_le (val : ℝ) : |flush val - val| ≤ tolerance := by
  rw [flush]
  split
  · next hlt =>
      rw [zero_sub, abs_neg]
      exact hlt.le
  · rw [sub_self, abs_zero, tolerance]
    positivity

/-- An eigenvector is not zero. -/
theorem eigenvalue_values {m : Grid ℝ} (E : Eigenbasis (toMatrix n n m)) (p : Fin n) : Eigenvalue n m (E.values p) := by
  refine ⟨E.vectors.col p, fun hzero => ?_, ?_⟩
  · have hone := congrFun (congrFun E.inverse p) p
    rw [Matrix.mul_apply, one_apply_eq] at hone
    have hnone : ∀ i, E.vectors i p = 0 := fun i => congrFun hzero i
    simp [hnone] at hone
  · funext i
    have hcolumn := congrFun (congrFun E.eigen i) p
    rw [Matrix.mul_apply, mul_diagonal, mul_comm] at hcolumn
    exact hcolumn

/-- A zero column of `P` is only there when zero is an eigenvalue. -/
theorem eigenvalue_zero {m : Grid ℝ} {k : Nat} {P B : Matrix (Fin n) (Fin n) ℝ} (h : Reached (toMatrix n n m) k P B)
    {l : Fin n} (hl : (Pᵀ * P) l l = 0) : Eigenvalue n m 0 := by
  obtain ⟨R, -, hpower⟩ := h.power
  have hcolumn : P *ᵥ Pi.single l 1 = 0 := by
    rw [mulVec_single_one]
    exact dotProduct_self_eq_zero.mp hl
  have hP : P.det = 0 := exists_mulVec_eq_zero_iff.mp ⟨Pi.single l 1, by simp, hcolumn⟩
  have hdet : (toMatrix n n m).det = 0 := by
    have hpow := congrArg det hpower
    rw [det_pow, det_mul, hP, zero_mul] at hpow
    by_contra hne
    exact pow_ne_zero k hne hpow
  obtain ⟨v, hv, hzero⟩ := exists_mulVec_eq_zero_iff.mpr hdet
  exact ⟨v, hv, by rw [hzero, zero_smul]⟩

/-- The eigenvalues of a matrix are reported, when their absolute values are apart and two hundred turns are enough for
their quotients: every reported value is within the displayed precision of one of them. -/
theorem reported_eigenvalues_close {matrix : Grid Int} (hn : 1 ≤ n) (h : Rect matrix n n) {eigenvalues : Fin n → ℝ}
    (heigen : ∀ p, Eigenvalue n (ofInts matrix) (eigenvalues p))
    (hapart : ∀ p q, q < p → |eigenvalues p| < |eigenvalues q|) :
    (∃ E : Eigenbasis (toMatrix n n (ofInts matrix)), E.values = eigenvalues) ∧
    ∀ (E : Eigenbasis (toMatrix n n (ofInts matrix))) (spread growth long dual ratio : ℝ),
      E.Within spread growth long dual ratio →
      (n - 1 : ℕ) * (spread * ((n - 1 : ℕ) * (growth * ratio ^ 200 * (long * dual)))) ≤ 1 / 10 ^ 4 - tolerance →
      Resolved (toMatrix n n (ofInts matrix)) →
      ∃ values, eigenvaluesFinder Real.sqrt (ofInts matrix) n n = some values ∧ values.length = n ∧
        ∀ v ∈ values, ∃ r, Eigenvalue n (ofInts matrix) r ∧ |v - r| ≤ 1 / 10 ^ 4 := by
  refine ⟨Eigenbasis.exists_of_eigenvectors heigen hapart, fun E spread growth long dual ratio hE hturns hresolved => ?_⟩
  have hrect : Rect (ofInts matrix) n n := Rect.map h fun x : Int => (x : ℝ)
  obtain ⟨P, hP⟩ := exists_reached hrect (hresolved.onlyZeroSkipped hrect maxIterations)
  refine ⟨_, eigenvaluesFinder_of_rect hn hrect, by rw [List.length_map, List.length_range], ?_⟩
  intro v hv
  obtain ⟨i, hi, rfl⟩ := List.mem_map.mp hv
  obtain ⟨l, rfl⟩ : ∃ l : Fin n, l.val = i := ⟨⟨i, List.mem_range.mp hi⟩, rfl⟩
  obtain ⟨r, heigen, hnear⟩ : ∃ r, Eigenvalue n (ofInts matrix) r ∧
      |entry (iterates Real.sqrt n (ofInts matrix) maxIterations) l l - r| ≤ 1 / 10 ^ 4 - tolerance := by
    rcases hP.orthogonal.unit l with hnone | hone
    · refine ⟨0, eigenvalue_zero hP hnone, ?_⟩
      have hcolumn := congrFun (hP.col_eq_zero hnone) l
      change entry (iterates Real.sqrt n (ofInts matrix) maxIterations) l l = 0 at hcolumn
      rw [hcolumn, sub_zero, abs_zero, tolerance]
      norm_num
    · exact ⟨_, eigenvalue_values E (E.order l), (hE.diagonal_close (k := 199) hP hone).trans hturns⟩
  refine ⟨r, heigen, ?_⟩
  have hflush := abs_flush_sub_le (entry (iterates Real.sqrt n (ofInts matrix) maxIterations) l l)
  calc |flush (entry (iterates Real.sqrt n (ofInts matrix) maxIterations) l l) - r|
      ≤ |flush (entry (iterates Real.sqrt n (ofInts matrix) maxIterations) l l) -
            entry (iterates Real.sqrt n (ofInts matrix) maxIterations) l l| +
          |entry (iterates Real.sqrt n (ofInts matrix) maxIterations) l l - r| := abs_sub_le _ _ _
    _ ≤ tolerance + (1 / 10 ^ 4 - tolerance) := add_le_add hflush hnear
    _ = 1 / 10 ^ 4 := add_sub_cancel _ _

theorem eq_of_lt_two : ∀ p q : Fin 2, q < p → q = 0 ∧ p = 1 := by decide

/-- The eigenvectors of the matrix with 20 on the diagonal. -/
noncomputable def symmetricBasis : Eigenbasis (toMatrix 2 2 (ofInts [[20, 1], [1, 20]])) where
  values := ![21, 19]
  vectors := !![1, 1; 1, -1]
  covectors := !![1 / 2, 1 / 2; 1 / 2, -1 / 2]
  eliminate := !![1, 0; -1, 1]
  restore := !![1, 0; 1, 1]
  order := Equiv.refl _
  eigen := by
    rw [toMatrix_symmetric]
    ext i j
    fin_cases i <;> fin_cases j <;> norm_num [Matrix.mul_apply, Fin.sum_univ_two, diagonal_apply]
  inverse := by
    ext i j
    fin_cases i <;> fin_cases j <;> norm_num [Matrix.mul_apply, Fin.sum_univ_two]
  apart := by
    intro p q hqp
    obtain ⟨rfl, rfl⟩ := eq_of_lt_two p q hqp
    norm_num
  eliminate_lower := ⟨fun p q hpq => by fin_cases p <;> fin_cases q <;> simp at hpq ⊢, fun p => by fin_cases p <;> rfl⟩
  restore_lower := ⟨fun p q hpq => by fin_cases p <;> fin_cases q <;> simp at hpq ⊢, fun p => by fin_cases p <;> rfl⟩
  restored := by
    ext i j
    fin_cases i <;> fin_cases j <;> norm_num [Matrix.mul_apply, Fin.sum_univ_two]
  staircase := by
    intro j c hcj
    obtain ⟨rfl, rfl⟩ := eq_of_lt_two j c hcj
    norm_num [Matrix.mul_apply, Fin.sum_univ_two]

theorem within_symmetric : symmetricBasis.Within 2 1 (3 / 2) 1 (19 / 21) where
  values := by
    intro p q
    fin_cases p <;> fin_cases q <;> norm_num [symmetricBasis]
  eliminate := by
    intro p q
    fin_cases p <;> fin_cases q <;> norm_num [symmetricBasis]
  restore := by
    intro p q
    fin_cases p <;> fin_cases q <;> norm_num [symmetricBasis]
  vectors := by
    intro p
    fin_cases p <;> norm_num [symmetricBasis, Fin.sum_univ_two]
  covectors := by
    intro p
    fin_cases p <;> norm_num [symmetricBasis, Fin.sum_univ_two]
  long_nonneg := by norm_num
  dual_nonneg := by norm_num
  ratio_nonneg := by norm_num
  ratio := by
    intro p q hqp
    obtain ⟨rfl, rfl⟩ := eq_of_lt_two p q hqp
    norm_num [symmetricBasis]

theorem reported_eigenvalues_close_symmetric :
    ∃ values, eigenvaluesFinder Real.sqrt (ofInts [[20, 1], [1, 20]]) 2 2 = some values ∧ values.length = 2 ∧
      ∀ v ∈ values, ∃ r, Eigenvalue 2 (ofInts [[20, 1], [1, 20]]) r ∧ |v - r| ≤ 1 / 10 ^ 4 := by
  have hrect : Rect ([[20, 1], [1, 20]] : Grid Int) 2 2 := ⟨rfl, by decide⟩
  obtain ⟨-, hclose⟩ := reported_eigenvalues_close (by decide) hrect (eigenvalue_values symmetricBasis)
    symmetricBasis.apart
  refine hclose symmetricBasis _ _ _ _ _ within_symmetric ?_ resolved_symmetric
  rw [tolerance]
  norm_num

theorem isRoot_of_eigenvalue {m : Grid ℝ} {r : ℝ} (h : Eigenvalue n m r) :
    (toMatrix n n m).charpoly.IsRoot r := by
  obtain ⟨v, hv, heigen⟩ := h
  rw [IsRoot.def, eval_charpoly]
  refine exists_mulVec_eq_zero_iff.mp ⟨v, hv, ?_⟩
  rw [sub_mulVec, heigen, scalar_apply, ← smul_one_eq_diagonal, smul_mulVec, one_mulVec, sub_self]

/-- A matrix of order two with eigenvalues that are not small. -/
theorem splits_far_from_zero {m : Grid ℝ} {a b : ℝ} (htrace : (toMatrix 2 2 m).trace = a + b)
    (hdet : (toMatrix 2 2 m).det = a * b) (ha : 1 ≤ |a|) (hb : 1 ≤ |b|) :
    (toMatrix 2 2 m).charpoly.Splits ∧ ¬ ∃ r, Eigenvalue 2 m r ∧ |0 - r| ≤ 1 / 10 ^ 4 := by
  have hcharpoly : (toMatrix 2 2 m).charpoly = (X - C a) * (X - C b) := by
    rw [charpoly_fin_two, htrace, hdet, C_add, C_mul]
    ring
  refine ⟨hcharpoly ▸ (Splits.X_sub_C a).mul (Splits.X_sub_C b), ?_⟩
  rintro ⟨r, heigen, hnear⟩
  have hroot := isRoot_of_eigenvalue heigen
  rw [hcharpoly, IsRoot.def, eval_mul, eval_sub, eval_sub, eval_X, eval_C, eval_C] at hroot
  have hlarge : 1 ≤ |r| := by
    rcases mul_eq_zero.mp hroot with hr | hr
    · rwa [sub_eq_zero.mp hr]
    · rwa [sub_eq_zero.mp hr]
  rw [zero_sub, abs_neg] at hnear
  have hsmall := hlarge.trans hnear
  norm_num at hsmall

theorem iterates_of_fixed {m : Grid ℝ} (h : iterate Real.sqrt n m = m) (k : Nat) :
    iterates Real.sqrt n m k = m := Function.iterate_fixed h k

/-! ### Eigenvalues lost by the norm test -/

/-- A matrix with one entry, which stays. -/
theorem iterate_corner {z : ℝ} (hz : 1 < z) : iterate Real.sqrt 2 [[z, 0], [0, 0]] = [[z, 0], [0, 0]] := by
  have hpos : 0 < z := by linarith
  have hnorm : √(z ^ 2) = z := Real.sqrt_sq hpos.le
  have hnot : ¬ |z| < (10 ^ 10)⁻¹ := by
    rw [abs_of_pos hpos]
    have : ((10 : ℝ) ^ 10)⁻¹ < 1 := by norm_num
    linarith
  simp [iterate, qrDecomposition, qrDecompositionFinder, matrixMultiply, productLoops, QrState.run,
    QrState.step, QrState.start, columnNorm, entry, tabulate, tolerance, List.range_succ, QrState.normalise,
    QrState.project, setEntry, hnorm, hnot, hpos.ne']

/-- After the first column of `[[N, 3 N - N² - 2], [1, 3 - N]]` what is left of the second has the length `2 / w`. -/
theorem run_lost_one {N w : ℝ} (hw : √(N ^ 2 + 1) = w) (hsq : w ^ 2 = N ^ 2 + 1) (hlarge : 1 < w) :
    QrState.run Real.sqrt 2 2 [[N, 3 * N - N ^ 2 - 2], [1, 3 - N]] 1 =
      ⟨[[N, -2 / w ^ 2], [1, 2 * N / w ^ 2]], [[N / w, 0], [1 / w, 0]], [[w, (3 - N) * w - 2 * N / w], [0, 0]]⟩ := by
  have hpos : w ≠ 0 := by positivity
  have hnorm : ¬ |w| < (10 ^ 10)⁻¹ := by
    rw [abs_of_pos (by linarith)]
    have : ((10 : ℝ) ^ 10)⁻¹ < 1 := by norm_num
    linarith
  simp [QrState.run, QrState.step, QrState.start, columnNorm, entry, tabulate, tolerance, List.range_succ,
    QrState.normalise, QrState.project, setEntry, hw, hnorm]
  refine ⟨⟨?_, ?_⟩, ?_⟩
  · field_simp
    rw [hsq]
    ring
  · field_simp
    rw [hsq]
    ring
  · field_simp
    rw [hsq]
    ring

/-- The second column is left out, and one entry remains. -/
theorem iterate_lost {N w : ℝ} (hw : √(N ^ 2 + 1) = w) (hsq : w ^ 2 = N ^ 2 + 1) (hlarge : 2 * 10 ^ 10 < w) :
    iterate Real.sqrt 2 [[N, 3 * N - N ^ 2 - 2], [1, 3 - N]] = [[3 - 2 * N / w ^ 2, 0], [0, 0]] := by
  have hpos : 0 < w := by linarith
  have hnorm : √((-2 / w ^ 2) ^ 2 + (2 * N / w ^ 2) ^ 2) = 2 / w := by
    rw [show (-2 / w ^ 2) ^ 2 + (2 * N / w ^ 2) ^ 2 = (2 / w) ^ 2 by field_simp; rw [hsq]; ring]
    exact Real.sqrt_sq (by positivity)
  have hsmall : |2 / w| < (10 ^ 10)⁻¹ := by
    rw [abs_of_pos (by positivity), div_lt_iff₀ hpos]
    linarith
  have hrun : QrState.run Real.sqrt 2 2 [[N, 3 * N - N ^ 2 - 2], [1, 3 - N]] 2 =
      ⟨[[N, -2 / w ^ 2], [1, 2 * N / w ^ 2]], [[N / w, 0], [1 / w, 0]], [[w, (3 - N) * w - 2 * N / w], [0, 0]]⟩ := by
    rw [run_succ, run_lost_one hw hsq (by linarith), QrState.step, if_pos]
    simp only [columnNorm, entry, List.range_succ]
    simpa [tolerance, hnorm] using hsmall
  simp only [iterate, qrDecomposition, qrDecompositionFinder, hrun, matrixMultiply]
  simp [productLoops, tabulate, entry, setEntry, List.range_succ]
  field_simp
  ring

/-- A matrix with the eigenvalues 1 and 2, one of which the norm test loses: in the first turn the second column is left
out though it is not zero. -/
theorem eigenvalues_lost {N : Int} (hN : 2 * 10 ^ 10 < N) :
    eigenvaluesFinder Real.sqrt (ofInts [[N, 3 * N - N ^ 2 - 2], [1, 3 - N]]) 2 2 =
        some [3 - 2 * N / ((N : ℝ) ^ 2 + 1), 0] ∧
      ¬ ∃ r, Eigenvalue 2 (ofInts [[N, 3 * N - N ^ 2 - 2], [1, 3 - N]]) r ∧ |0 - r| ≤ 1 / 10 ^ 4 := by
  have hcast : ofInts [[N, 3 * N - N ^ 2 - 2], [1, 3 - N]] =
      ([[(N : ℝ), 3 * (N : ℝ) - (N : ℝ) ^ 2 - 2], [1, 3 - (N : ℝ)]] : Grid ℝ) := by
    simp [ofInts]
  have hreal : 2 * (10 : ℝ) ^ 10 < N := by exact_mod_cast hN
  have hsq : √((N : ℝ) ^ 2 + 1) ^ 2 = (N : ℝ) ^ 2 + 1 := Real.sq_sqrt (by positivity)
  have hlarge : 2 * (10 : ℝ) ^ 10 < √((N : ℝ) ^ 2 + 1) := hreal.trans (Real.lt_sqrt_of_sq_lt (lt_add_one _))
  have hcorner : (1 : ℝ) < 3 - 2 * N / ((N : ℝ) ^ 2 + 1) := by
    have : 2 * (N : ℝ) / ((N : ℝ) ^ 2 + 1) < 2 := by
      rw [div_lt_iff₀ (by positivity)]
      nlinarith
    linarith
  have hlast : iterates Real.sqrt 2 (ofInts [[N, 3 * N - N ^ 2 - 2], [1, 3 - N]]) maxIterations =
      [[3 - 2 * N / ((N : ℝ) ^ 2 + 1), 0], [0, 0]] := by
    rw [hcast, maxIterations, iterates, Function.iterate_succ_apply, iterate_lost rfl hsq hlarge, hsq]
    exact iterates_of_fixed (iterate_corner hcorner) 199
  have hrect : Rect (ofInts [[N, 3 * N - N ^ 2 - 2], [1, 3 - N]]) 2 2 := Rect.map ⟨rfl, by simp⟩ _
  refine ⟨?_, (splits_far_from_zero (a := 1) (b := 2) ?_ ?_ ?_ ?_).2⟩
  · have hkept : ¬ |3 - 2 * N / ((N : ℝ) ^ 2 + 1)| < (10 ^ 10)⁻¹ := by
      rw [abs_of_pos (by linarith)]
      have : ((10 : ℝ) ^ 10)⁻¹ < 1 := by norm_num
      linarith
    rw [eigenvaluesFinder_of_rect (by decide) hrect, hlast]
    simp [List.range_succ, entry, flush, tolerance, hkept]
  · simp [trace_fin_two, ofInts, entry]
    ring
  · simp [det_fin_two, ofInts, entry]
    ring
  · norm_num
  · norm_num

/-! ### Eigenvalues that are not reported -/

/-- The matrix that exchanges the coordinates has the eigenvalues 1 and -1 and is left as it is by every turn: its
diagonal, twice zero, is reported. With large entries the norm test alone can lose one of two eigenvalues that are
apart. -/
theorem reported_eigenvalues_wrong :
    ((toMatrix 2 2 (ofInts [[0, 1], [1, 0]])).charpoly.Splits ∧
      eigenvaluesFinder Real.sqrt (ofInts [[0, 1], [1, 0]]) 2 2 = some [0, 0] ∧
      ¬ ∃ r, Eigenvalue 2 (ofInts [[0, 1], [1, 0]]) r ∧ |0 - r| ≤ 1 / 10 ^ 4) ∧
    let m := ofInts [[10 ^ 11, 3 * 10 ^ 11 - (10 ^ 11) ^ 2 - 2], [1, 3 - 10 ^ 11]]
    ∃ z, eigenvaluesFinder Real.sqrt m 2 2 = some [z, 0] ∧ ¬ ∃ r, Eigenvalue 2 m r ∧ |0 - r| ≤ 1 / 10 ^ 4 := by
  have hrect : Rect (ofInts [[0, 1], [1, 0]]) 2 2 := Rect.map ⟨rfl, by decide⟩ _
  have hnorm : ¬ (1 : ℝ) < (10 ^ 10)⁻¹ := by norm_num
  have hfixed : iterate Real.sqrt 2 (ofInts [[0, 1], [1, 0]]) = ofInts [[0, 1], [1, 0]] := by
    simp [iterate, qrDecomposition, qrDecompositionFinder, matrixMultiply, productLoops, QrState.run,
      QrState.step, QrState.start, columnNorm, ofInts, entry, tabulate, tolerance, List.range_succ, QrState.normalise,
      QrState.project, setEntry, hnorm]
  obtain ⟨hsplits, hfar⟩ := splits_far_from_zero (m := ofInts [[0, 1], [1, 0]]) (a := 1) (b := -1)
    (by simp [trace_fin_two, ofInts, entry]) (by simp [det_fin_two, ofInts, entry]) (by simp) (by simp)
  refine ⟨⟨hsplits, ?_, hfar⟩, _, eigenvalues_lost (N := 10 ^ 11) (by norm_num)⟩
  rw [eigenvaluesFinder_of_rect (by decide) hrect, iterates_of_fixed hfixed]
  simp [List.range_succ, entry, ofInts, flush]

end CalSci.Qr
