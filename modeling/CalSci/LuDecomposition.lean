import CalSci.Determinants
import CalSci.MatrixAgree
import CalSci.RaggedRows
import Mathlib.LinearAlgebra.Matrix.Block

/-! `lu_decomposition_finder` of `apps/scientific_calculator/lu_decomposition.py`. It works on a copy of the
matrix, row by row below the diagonal, and fills `L` and `U` on the way. When it raises depends on the pivots alone, in
whatever arithmetic they are computed; in exact arithmetic the matrix is after `k` turns the product of what has been
filled so far and, from row `k` on, what is left of the copy. -/

namespace CalSci.Lu

open GridRows RowObjects Matrix CalSci.Echelon

/-- `abs(x) < 1e-10`, in the arithmetic of the numbers; their zero is that small. -/
class PivotTest (N : Type) [Zero N] where
  Small : N → Prop
  decideSmall : DecidablePred Small
  small_zero : Small 0

export PivotTest (Small small_zero)

instance {N : Type} [Zero N] [PivotTest N] : DecidablePred (Small : N → Prop) := PivotTest.decideSmall

instance : PivotTest ℚ where
  Small x := |x| < tolerance
  decideSmall x := inferInstanceAs (Decidable (|x| < tolerance))
  small_zero := by
    rw [abs_zero]
    exact tolerance_pos

/-! ### The turns over grids -/

structure LuState (N : Type) where
  matrix : Grid N
  L : Grid N
  U : Grid N

section Turns

variable {N : Type} [Zero N]

/-- Row `k` of `U`: the diagonal first, then what is to the right of it. -/
def LuState.fillRow (n k : Nat) (s : LuState N) : LuState N where
  matrix := s.matrix
  L := s.L
  U := (List.range' (k + 1) (n - (k + 1))).foldl (fun U j => setEntry U k j (entry s.matrix k j))
    (setEntry s.U k k (entry s.matrix k k))

variable {n k : Nat} {s : LuState N}

structure Shaped (n : Nat) (s : LuState N) : Prop where
  matrix : Rect s.matrix n n
  L : Rect s.L n n
  U : Rect s.U n n

theorem fillRow_spec (h : Shaped n s) (hk : k < n) : Shaped n (s.fillRow n k) ∧
    ∀ a b, entry (s.fillRow n k).U a b = if a = k ∧ k ≤ b ∧ b < n then entry s.matrix k b else entry s.U a b := by
  obtain ⟨hrect, hentry⟩ := foldl_fillRow (fun j => entry s.matrix k j)
    (fun U j => setEntry U k j (entry s.matrix k j)) (h.U.setEntry k k (entry s.matrix k k)) hk
    (fun j hj => (mem_range'_sub.mp hj).2) List.nodup_range' fun _ _ _ _ _ _ => rfl
  refine ⟨⟨h.matrix, h.L, hrect⟩, fun a b => (hentry a b).trans ?_⟩
  rw [entry_setEntry h.U hk hk]
  by_cases ha : a = k
  · subst ha
    simp only [true_and, mem_range'_sub]
    rcases Nat.lt_trichotomy b a with hlt | rfl | hgt
    · rw [if_neg (by omega), if_neg (by omega), if_neg (by omega)]
    · rw [if_neg (by omega), if_pos rfl, if_pos ⟨le_refl b, hk⟩]
    · by_cases hb : b < n
      · rw [if_pos ⟨hgt, hb⟩, if_pos ⟨hgt.le, hb⟩]
      · rw [if_neg (by omega), if_neg (by omega), if_neg (by omega)]
  · rw [if_neg fun hab => ha hab.1, if_neg fun hab => ha hab.1, if_neg fun hab => ha hab.1]

/-- `L` with ones on the diagonal, `U` with zeros. -/
def LuState.start [One N] (n : Nat) (matrix : Grid N) : LuState N where
  matrix := matrix
  L := (List.range n).foldl (fun L i => setEntry L i i 1) (tabulate n n fun _ _ => 0)
  U := tabulate n n fun _ _ => 0

theorem start_shaped [One N] {a : Grid N} (h : Rect a n n) : Shaped n (LuState.start n a) := by
  have hzeros : Rect (tabulate n n fun _ _ => (0 : N)) n n := Rect.tabulate n n _
  obtain ⟨hrect, -⟩ := foldl_fill (fun i => (i, i)) (fun _ => (1 : N)) (fun L i => setEntry L i i 1) hzeros
    (fun i (hi : i ∈ List.range n) => ⟨List.mem_range.mp hi, List.mem_range.mp hi⟩)
    (List.nodup_range.map fun i j hij => (Prod.mk.inj hij).1) fun _ _ _ _ _ => rfl
  exact ⟨h, hrect, hzeros⟩

/-- `for j in range(k + 1, n): U[k][j] = matrix[k][j]`, after `U[k][k] = matrix[k][k]`. -/
def fillRowObject (matrix n k : Nat) (U : Grid N) : Program N (Grid N) := do
  let x ← getItem matrix k k
  forEach (fun U j => do return setEntry U k j (← getItem matrix k j)) (List.range' (k + 1) (n - (k + 1)))
    (setEntry U k k x)

variable {base : Heap N} {matrix : Nat} {m : Grid N}

theorem fillRowObject_does (h : Rect s.matrix n n) (hm : s.matrix = trim n m) (hk : k < n) :
    Does base matrix m (fillRowObject matrix n k s.U) (s.fillRow n k).U m := by
  rw [hm] at h
  rw [LuState.fillRow, hm]
  refine (Does.getItem_trim h hk hk).bind (Does.forEach_value (fun U j hj => ?_) _)
  exact (Does.getItem_trim h hk (mem_range'_sub.mp hj).2).bind (.pure _)

omit [Zero N] in
/-- Turn `k` reads row `k` up to the last column. -/
theorem fillRowObject_yields (hk : k < n) (U : Grid N) :
    Yields base matrix m (fillRowObject matrix n k U) fun _ => Reaches (m.map List.length) k (n - 1) := by
  rcases Nat.lt_or_ge (k + 1) n with hlt | hge
  · apply (Yields.getItem k k).bind
    intro _ m' hsame _
    refine (Yields.forEach (P := fun j => Reaches (m'.map List.length) k j) (fun _ m'' j _ hsame' => ?_) _).mono
      fun _ hall => ?_
    · exact (Yields.getItem k j).bind fun _ _ _ hreach => .pure (hsame' ▸ hreach)
    · rw [← hsame]
      exact hall (n - 1) (mem_range'_sub.mpr (by omega))
  · obtain rfl : n = k + 1 := by omega
    apply (Yields.getItem k k).bind
    intro _ m' _ hreach
    exact (Yields.forEach_keeps (fun _ m'' j => (Yields.getItem k j).bind fun _ _ _ _ => .pure trivial) _).mono
      fun _ _ => hreach

variable [Sub N] [Mul N] [Div N]

/-- What `k` turns leave of the entry in row `i` and column `j`, both from `k` on. -/
def eliminated (a : Grid N) : Nat → Nat → Nat → N
  | 0, i, j => entry a i j
  | k + 1, i, j => eliminated a k i j - eliminated a k i k / eliminated a k k k * eliminated a k k j

def pivot (a : Grid N) (k : Nat) : N := eliminated a k k k

/-- The pivots are those of the first columns. -/
theorem eliminated_trim (a : Grid N) {i j : Nat} (hk : k < n) (hj : j < n) :
    eliminated (trim n a) k i j = eliminated a k i j := by
  induction k generalizing i j with
  | zero => exact entry_trim a i hj
  | succ k ih => rw [eliminated, eliminated, ih (by omega) hj, ih (by omega) (by omega), ih (by omega) (by omega),
      ih (by omega) hj]

theorem pivot_trim (a : Grid N) (hk : k < n) : pivot (trim n a) k = pivot a k := eliminated_trim a hk hk

variable [PivotTest N]

namespace LuState

def eliminate (n k : Nat) (s : LuState N) (i : Nat) : Except Fault (LuState N) :=
  if Small (entry s.U k k) then .error .valueError
  else
    let L := setEntry s.L i k (entry s.matrix i k / entry s.U k k)
    .ok {
      matrix := (List.range' k (n - k)).foldl
        (fun matrix j => setEntry matrix i j (entry matrix i j - entry L i k * entry s.U k j)) s.matrix
      L := L
      U := s.U }

def step (n : Nat) (s : LuState N) (k : Nat) : Except Fault (LuState N) :=
  (List.range' (k + 1) (n - (k + 1))).foldlM (eliminate n k) (fillRow n k s)

end LuState

/-- One row below the diagonal, with a pivot that is large enough. -/
theorem eliminate_spec (h : Shaped n s) (hk : k < n) {i : Nat} (hi : i < n)
    (hpivot : ¬ Small (entry s.U k k)) :
    ∃ s', s.eliminate n k i = .ok s' ∧ Shaped n s' ∧ s'.U = s.U ∧
      (∀ a b, entry s'.L a b = if a = i ∧ b = k then entry s.matrix i k / entry s.U k k else entry s.L a b) ∧
      ∀ a b, entry s'.matrix a b = if a = i ∧ k ≤ b ∧ b < n then
        entry s.matrix i b - entry s.matrix i k / entry s.U k k * entry s.U k b else entry s.matrix a b := by
  have hL := entry_setEntry h.L hi hk (entry s.matrix i k / entry s.U k k)
  obtain ⟨hrect, hentry⟩ := foldl_fillRow
    (fun j => entry s.matrix i j - entry s.matrix i k / entry s.U k k * entry s.U k j)
    (fun matrix j => setEntry matrix i j (entry matrix i j -
      entry (setEntry s.L i k (entry s.matrix i k / entry s.U k k)) i k * entry s.U k j)) h.matrix hi
    (fun j hj => (mem_range'_sub.mp hj).2) (List.nodup_range' (s := k)) fun m' j _ _ _ hsame => by
      rw [hsame, hL, if_pos ⟨rfl, rfl⟩]
  refine ⟨_, if_neg hpivot, ⟨hrect, h.L.setEntry i k _, h.U⟩, rfl, hL, fun a b => (hentry a b).trans ?_⟩
  simp only [mem_range'_sub]

/-- The rows `indices`, with a pivot that is large enough. -/
theorem eliminate_all (h : Shaped n s) (hk : k < n) {indices : List Nat} (hindices : ∀ i ∈ indices, i < n ∧ i ≠ k)
    (hnodup : indices.Nodup) (hpivot : ¬ Small (entry s.U k k)) :
    ∃ s', indices.foldlM (LuState.eliminate n k) s = .ok s' ∧ Shaped n s' ∧ s'.U = s.U ∧
      (∀ a b, entry s'.L a b =
        if a ∈ indices ∧ b = k then entry s.matrix a k / entry s.U k k else entry s.L a b) ∧
      ∀ a b, entry s'.matrix a b = if a ∈ indices ∧ k ≤ b ∧ b < n then
        entry s.matrix a b - entry s.matrix a k / entry s.U k k * entry s.U k b else entry s.matrix a b := by
  induction indices generalizing s with
  | nil => exact ⟨s, rfl, h, rfl, fun _ _ => (if_neg (by simp)).symm, fun _ _ => (if_neg (by simp)).symm⟩
  | cons i indices ih =>
      obtain ⟨⟨hi, -⟩, hrest⟩ := List.forall_mem_cons.mp hindices
      obtain ⟨hnot, hnodup'⟩ := List.nodup_cons.mp hnodup
      obtain ⟨s₁, heq, hshaped, hU, hL, hM⟩ := eliminate_spec h hk hi hpivot
      obtain ⟨s₂, heq', hshaped', hU', hL', hM'⟩ := ih hshaped hrest hnodup' (by rwa [hU])
      refine ⟨s₂, ?_, hshaped', hU'.trans hU, fun a b => ?_, fun a b => ?_⟩
      · rw [List.foldlM_cons, heq]
        exact heq'
      · rw [hL', hL, hM, hU]
        by_cases ha : a = i
        · subst ha
          simp [hnot]
        · simp [ha]
      · rw [hM', hM, hM, hU]
        by_cases ha : a = i
        · subst ha
          simp [hnot]
        · simp [ha]

/-- Turn `k`: it raises when there are rows below and the pivot is too small, and otherwise fills column `k` of
`L` and row `k` of `U` and clears column `k` of the copy. -/
theorem step_spec (h : Shaped n s) (hk : k < n) :
    (k + 1 < n ∧ Small (entry s.matrix k k) ∧ s.step n k = .error .valueError) ∨
      (k + 1 < n → ¬ Small (entry s.matrix k k)) ∧ ∃ s', s.step n k = .ok s' ∧ Shaped n s' ∧
        (∀ a b, entry s'.U a b = if a = k ∧ k ≤ b ∧ b < n then entry s.matrix k b else entry s.U a b) ∧
        (∀ a b, entry s'.L a b =
          if (k < a ∧ a < n) ∧ b = k then entry s.matrix a k / entry s.matrix k k else entry s.L a b) ∧
        ∀ a b, entry s'.matrix a b = if (k < a ∧ a < n) ∧ k ≤ b ∧ b < n then
          entry s.matrix a b - entry s.matrix a k / entry s.matrix k k * entry s.matrix k b
          else entry s.matrix a b := by
  obtain ⟨hshaped, hU⟩ := fillRow_spec h hk
  have hpivot : entry (s.fillRow n k).U k k = entry s.matrix k k := by
    rw [hU, if_pos ⟨rfl, le_refl k, hk⟩]
  by_cases hlast : k + 1 < n
  · by_cases hsmall : Small (entry s.matrix k k)
    · refine .inl ⟨hlast, hsmall, ?_⟩
      rw [LuState.step, show n - (k + 1) = n - (k + 2) + 1 by omega, List.range'_succ, List.foldlM_cons,
        LuState.eliminate, hpivot, if_pos hsmall]
      rfl
    · refine .inr ⟨fun _ => hsmall, ?_⟩
      have hindices : ∀ i ∈ List.range' (k + 1) (n - (k + 1)), i < n ∧ i ≠ k := by
        intro i hi
        have := mem_range'_sub.mp hi
        omega
      obtain ⟨s', heq, hshaped', hU', hL', hM'⟩ :=
        eliminate_all hshaped hk hindices List.nodup_range' (by rwa [hpivot])
      refine ⟨s', heq, hshaped', fun a b => ?_, fun a b => ?_, fun a b => ?_⟩
      · rw [hU', hU]
      · rw [hL', hpivot]
        simp only [mem_range'_sub, Nat.succ_le_iff]
        rfl
      · rw [hM', hpivot]
        simp only [mem_range'_sub, Nat.succ_le_iff]
        by_cases hab : (k < a ∧ a < n) ∧ k ≤ b ∧ b < n
        · rw [if_pos hab, if_pos hab, hU, if_pos ⟨rfl, hab.2⟩]
          rfl
        · rw [if_neg hab, if_neg hab]
          rfl
  · refine .inr ⟨fun hlt => absurd hlt hlast, s.fillRow n k, ?_, hshaped, hU, fun a b => ?_, fun a b => ?_⟩
    · rw [LuState.step, Nat.sub_eq_zero_of_le (by omega)]
      rfl
    · rw [if_neg (by omega)]
      rfl
    · rw [if_neg (by omega)]
      rfl

/-! ### The pivots -/

section Pivots

variable [One N]

def LuState.run (n : Nat) (matrix : Grid N) (k : Nat) : Except Fault (LuState N) :=
  (List.range k).foldlM (step n) (start n matrix)

theorem run_succ (n : Nat) (a : Grid N) (k : Nat) :
    LuState.run n a (k + 1) = LuState.run n a k >>= fun s => s.step n k := by
  rw [LuState.run, List.range_succ, List.foldlM_append]
  simp only [List.foldlM_cons, List.foldlM_nil, bind_pure]
  rfl

/-- After `k` turns, on the matrix `a`. -/
structure Eliminated (n k : Nat) (a : Grid N) (s : LuState N) : Prop where
  shaped : Shaped n s
  rest : ∀ i j, k ≤ i → i < n → k ≤ j → j < n → entry s.matrix i j = eliminated a k i j

/-- The pivot that turn `k` reaches, with rows still below it, is too small. -/
def SmallPivot (n : Nat) (a : Grid N) (k : Nat) : Prop :=
  k + 1 < n ∧ ∃ s, LuState.run n a k = .ok s ∧ Small (entry s.matrix k k)

/-- The turns raise exactly when one of them reaches a pivot that is too small. -/
theorem run_spec {a : Grid N} (h : Rect a n n) (hk : k ≤ n) :
    (∃ s, LuState.run n a k = .ok s ∧ Eliminated n k a s ∧ ∀ t, t < k → ¬ SmallPivot n a t) ∨
      LuState.run n a k = .error .valueError ∧ ∃ t, t < k ∧ SmallPivot n a t := by
  induction k with
  | zero => exact .inl ⟨_, rfl, ⟨start_shaped h, fun _ _ _ _ _ _ => rfl⟩, nofun⟩
  | succ k ih =>
      rw [run_succ]
      rcases ih (by omega) with ⟨s, hrun, heliminated, hlarge⟩ | ⟨hrun, t, ht, hsmall⟩
      · rw [hrun]
        rcases step_spec heliminated.shaped hk with ⟨hlast, hsmall, herror⟩ | ⟨hpivot, s', hstep, hshaped, -, -, hM⟩
        · exact .inr ⟨herror, k, Nat.lt_succ_self k, hlast, s, hrun, hsmall⟩
        · refine .inl ⟨s', hstep, ⟨hshaped, fun i j hki hi hkj hj => ?_⟩, fun t ht hsmall => ?_⟩
          · rw [hM, if_pos ⟨⟨hki, hi⟩, by omega, hj⟩, heliminated.rest i j (by omega) hi (by omega) hj,
              heliminated.rest i k (by omega) hi (le_refl k) hk, heliminated.rest k k (le_refl k) hk (le_refl k) hk,
              heliminated.rest k j (le_refl k) hk (by omega) hj]
            rfl
          · rcases Nat.lt_succ_iff_lt_or_eq.mp ht with hlt | rfl
            · exact hlarge t hlt hsmall
            · obtain ⟨hlast, s₁, hrun₁, hlt⟩ := hsmall
              obtain rfl : s = s₁ := Except.ok.inj (hrun.symm.trans hrun₁)
              exact hpivot hlast hlt
      · rw [hrun]
        exact .inr ⟨rfl, t, by omega, hsmall⟩

/-- Whether a turn reaches a pivot that is too small is seen from the pivots of the matrix. -/
theorem smallPivot_iff_pivot {a : Grid N} (h : Rect a n n) :
    (∃ k, SmallPivot n a k) ↔ ∃ k, k + 1 < n ∧ Small (pivot a k) := by
  constructor
  · rintro ⟨k, hlast, s, hrun, hsmall⟩
    rcases run_spec h (by omega : k ≤ n) with ⟨s', hrun', heliminated, -⟩ | ⟨herror, -⟩
    · obtain rfl : s' = s := Except.ok.inj (hrun'.symm.trans hrun)
      rw [heliminated.rest k k (le_refl k) (by omega) (le_refl k) (by omega)] at hsmall
      exact ⟨k, hlast, hsmall⟩
    · rw [herror] at hrun
      cases hrun
  · rintro ⟨k, hlast, hsmall⟩
    rcases run_spec h (by omega : k ≤ n) with ⟨s, hrun, heliminated, -⟩ | ⟨-, t, -, ht⟩
    · refine ⟨k, hlast, s, hrun, ?_⟩
      rwa [heliminated.rest k k (le_refl k) (by omega) (le_refl k) (by omega)]
    · exact ⟨t, ht⟩

/-! ### On list objects -/

end Pivots

/-! ### The turns on list objects -/

variable [DecidableEq N]

def eliminateObject (matrix n k : Nat) (U L : Grid N) (i : Nat) : Program N (Grid N) :=
  if Small (entry U k k) then throw .valueError
  else do
    let x ← getItem matrix i k
    let y ← divide x (entry U k k)
    let L := setEntry L i k y
    forEach (fun _ j => do
      let x ← getItem matrix i j
      setItem matrix i j (x - entry L i k * entry U k j)) (List.range' k (n - k)) ()
    pure L

def stepObject (matrix n : Nat) (factors : Grid N × Grid N) (k : Nat) : Program N (Grid N × Grid N) := do
  let U ← fillRowObject matrix n k factors.2
  let L ← forEach (eliminateObject matrix n k U) (List.range' (k + 1) (n - (k + 1))) factors.1
  pure (L, U)

/-- One row on the copy follows one row of the grid; entries beyond column `n` do not matter. -/
theorem eliminateObject_follows (h : Shaped n s) (hm : s.matrix = trim n m) (hk : k < n) {i : Nat} (hi : i < n) :
    Follows base matrix m (eliminateObject matrix n k s.U s.L i) (s.eliminate n k i)
      fun t L m => Shaped n t ∧ t.U = s.U ∧ t.L = L ∧ t.matrix = trim n m := by
  by_cases hsmall : Small (entry s.U k k)
  · rw [eliminateObject, LuState.eliminate, if_pos hsmall, if_pos hsmall]
    exact .throw _
  · have hne : entry s.U k k ≠ 0 := by
      intro hzero
      rw [hzero] at hsmall
      exact hsmall small_zero
    obtain ⟨s', heq, hshaped, hU, -, -⟩ := eliminate_spec h hk hi hsmall
    have hcut : Rect (trim n m) n n := hm ▸ h.matrix
    rw [heq]
    rw [LuState.eliminate, if_neg hsmall] at heq
    obtain rfl := Except.ok.inj heq
    rw [eliminateObject, if_neg hsmall, hm]
    refine .after (Does.getItem_trim hcut hi hk) (.after (Does.divide _ hne) ?_)
    obtain ⟨m', hdoes, -, hcopy⟩ := Does.updateItems_trim (fun _ => i) (fun j => j)
      (fun j x => x - entry (setEntry s.L i k (entry (trim n m) i k / entry s.U k k)) i k * entry s.U k j)
      (fun j (hj : j ∈ List.range' k (n - k)) => ⟨hi, (mem_range'_sub.mp hj).2⟩) hcut
    exact .after hdoes (.of_does (.pure _) ⟨hm ▸ hshaped, rfl, rfl, hcopy.symm⟩)

/-- A turn on the copy follows a turn over grids. -/
theorem stepObject_follows (h : Shaped n s) (hm : s.matrix = trim n m) (hk : k < n) :
    Follows base matrix m (stepObject matrix n (s.L, s.U) k) (s.step n k)
      fun t factors m => Shaped n t ∧ factors = (t.L, t.U) ∧ t.matrix = trim n m := by
  have hfill := (fillRow_spec h hk).1
  refine .after (fillRowObject_does h.matrix hm hk) ?_
  have hrows : Follows base matrix m
      (forEach (eliminateObject matrix n k (s.fillRow n k).U) (List.range' (k + 1) (n - (k + 1))) s.L)
      (s.step n k) fun t L m => Shaped n t ∧ t.U = (s.fillRow n k).U ∧ t.L = L ∧ t.matrix = trim n m := by
    refine Follows.forEach (LuState.eliminate n k) _ (fun t L m i hi hrel => ?_) ⟨hfill, rfl, rfl, hm⟩
    obtain ⟨hshaped, hU, rfl, hm'⟩ := hrel
    have hlt := (mem_range'_sub.mp hi).2
    rw [← hU]
    exact eliminateObject_follows hshaped hm' hk hlt
  apply hrows.before
  intro t L m hrel
  obtain ⟨hshaped, hU, rfl, hm'⟩ := hrel
  exact ⟨(t.L, (s.fillRow n k).U), m, .pure _, hshaped, by rw [hU], hm'⟩

theorem eliminateObject_yields (U L : Grid N) (i : Nat) :
    Yields base matrix m (eliminateObject matrix n k U L i) fun _ => True := by
  rw [eliminateObject]
  split
  · exact .throw _
  · refine (Yields.getItem i k).bind fun _ _ _ _ => (Yields.divide _ _).bind fun _ m' _ _ => ?_
    refine (Yields.forEach_keeps (fun _ m'' j => ?_) _).bind fun _ _ _ _ => .pure trivial
    exact (Yields.getItem i j).bind fun _ _ _ _ => Yields.setItem i j _

/-- When all turns have returned, every row had `n` entries at least. -/
theorem turns_yield (factors : Grid N × Grid N) :
    Yields base matrix m (forEach (stepObject matrix n) (List.range n) factors) fun _ =>
      ∀ k ∈ List.range n, Reaches (m.map List.length) k (n - 1) := by
  refine Yields.forEach (fun factors m' k hk hsame => ?_) factors
  apply (fillRowObject_yields (List.mem_range.mp hk) factors.2).bind
  intro U m'' hsame' hreach
  refine (Yields.forEach_keeps (fun L _ i => eliminateObject_yields U L i) factors.1).bind fun _ _ _ _ => .pure ?_
  rwa [hsame] at hreach

/-! ### The finder -/

variable [One N]

/-- `lu_decomposition_finder` on the matrix object `matrix`. What `is_valid_matrix` says is not used; `L` and `U`
are lists that nothing else refers to. -/
def luDecompositionFinder (matrix rows _cols : Nat) : Program N (Grid N × Grid N) := do
  let n := rows
  let L := (List.range n).foldl (fun L i => setEntry L i i 1) (tabulate n n fun _ _ => 0)
  let U := tabulate n n fun _ _ => 0
  let copy ← copyRows matrix
  forEach (stepObject copy n) (List.range n) (L, U)

/-- All turns. -/
theorem turns_follow (h : Rect (trim n m) n n) :
    Follows base matrix m (forEach (stepObject matrix n) (List.range n)
      ((LuState.start n (trim n m)).L, (LuState.start n (trim n m)).U))
      (LuState.run n (trim n m) n) fun t factors m => Shaped n t ∧ factors = (t.L, t.U) ∧ t.matrix = trim n m := by
  refine Follows.forEach (LuState.step n) _ (fun t factors m k hk hrel => ?_)
    ⟨start_shaped h, rfl, rfl⟩
  obtain ⟨hshaped, rfl, hm⟩ := hrel
  exact stepObject_follows hshaped hm (List.mem_range.mp hk)

/-- On rows that are long enough the finder returns two factors, or raises for a pivot of their first entries. -/
theorem luDecompositionFinder_run {h : Heap N} {ref : Nat} {m : Grid N} (hshows : h.Shows ref m)
    (hrect : Rect (trim n m) n n) (cols : Nat) :
    (∃ L U h', exec (luDecompositionFinder ref n cols) h = (.ok (L, U), h') ∧ Rect L n n ∧ Rect U n n ∧
      ¬ ∃ k, SmallPivot n (trim n m) k) ∨
    (∃ h', exec (luDecompositionFinder ref n cols) h = (.error .valueError, h')) ∧
      ∃ k, SmallPivot n (trim n m) k := by
  obtain ⟨h₁, hcopy, hold⟩ := exec_copyRows hshows
  have hfollows : Follows h h.matrices.length m _ _ _ := turns_follow hrect
  rw [luDecompositionFinder, exec_bind_ok hcopy]
  rcases run_spec hrect (le_refl n) with ⟨s, hrun, -, hlarge⟩ | ⟨hrun, t, -, hsmall⟩
  · rw [hrun] at hfollows
    obtain ⟨factors, m', hdoes, hshaped, rfl, -⟩ := hfollows
    obtain ⟨h', hexec, -⟩ := hdoes h₁ hold
    refine .inl ⟨s.L, s.U, h', hexec, hshaped.L, hshaped.U, fun ⟨t, ht⟩ => ?_⟩
    exact hlarge t ((Nat.lt_succ_self t).trans ht.1) ht
  · rw [hrun] at hfollows
    obtain ⟨h', m', hexec, -⟩ := hfollows h₁ hold
    exact .inr ⟨⟨h', hexec⟩, t, hsmall⟩

/-- Where the finder has returned, every row had `n` entries at least. -/
theorem luDecompositionFinder_reaches {h h' : Heap N} {ref cols : Nat} {m : Grid N} {factors : Grid N × Grid N}
    (hshows : h.Shows ref m) (hexec : exec (luDecompositionFinder ref n cols) h = (.ok factors, h')) {k : Nat}
    (hk : k < n) : Reaches (m.map List.length) k (n - 1) := by
  obtain ⟨h₁, hcopy, hold⟩ := exec_copyRows hshows
  rw [luDecompositionFinder, exec_bind_ok hcopy] at hexec
  exact (turns_yield _ h₁ hold factors h' hexec).1 k (List.mem_range.mpr hk)

end Turns

/-! ### What has been factored -/

section Exact

variable {n k : Nat} {s : LuState ℚ}

/-- After `k` turns, on the matrix `a`: `L` is complete up to column `k` and `U` up to row `k`, and from there on
the copy holds what their product lacks. -/
structure Factored (n k : Nat) (a : Grid ℚ) (s : LuState ℚ) : Prop where
  shaped : Shaped n s
  diagonal : ∀ i, i < n → entry s.L i i = 1
  lower : ∀ i j, i ≠ j → i < j ∨ k ≤ j → entry s.L i j = 0
  upper : ∀ i j, j < i ∨ k ≤ i → entry s.U i j = 0
  cleared : ∀ i j, k ≤ i → j < k → entry s.matrix i j = 0
  product : ∀ i j, i < n → j < n → entry a i j =
    (∑ t ∈ Finset.range k, entry s.L i t * entry s.U t j) + if k ≤ i then entry s.matrix i j else 0

theorem factored_start {a : Grid ℚ} (h : Rect a n n) : Factored n 0 a (LuState.start n a) := by
  have hzeros : Rect (tabulate n n fun _ _ => (0 : ℚ)) n n := Rect.tabulate n n _
  obtain ⟨hrect, hones, hother⟩ := foldl_fill (fun i => (i, i)) (fun _ => (1 : ℚ))
    (fun L i => setEntry L i i 1) hzeros
    (fun i (hi : i ∈ List.range n) => ⟨List.mem_range.mp hi, List.mem_range.mp hi⟩)
    (List.nodup_range.map fun i j hij => (Prod.mk.inj hij).1) fun _ _ _ _ _ => rfl
  refine ⟨⟨h, hrect, hzeros⟩, fun i hi => hones i (List.mem_range.mpr hi), fun i j hne _ => ?_,
    fun i j _ => entry_tabulate_zero n n i j, nofun, fun i j _ _ => ?_⟩
  · refine (hother i j fun hmem => ?_).trans (entry_tabulate_zero n n i j)
    obtain ⟨t, -, heq⟩ := List.mem_map.mp hmem
    obtain ⟨rfl, rfl⟩ := Prod.mk.inj heq
    exact hne rfl
  · rw [Finset.sum_range_zero, zero_add, if_pos (Nat.zero_le i)]
    rfl

/-- A turn that does not raise. -/
theorem Factored.step {a : Grid ℚ} (h : Factored n k a s) (hk : k < n) {s' : LuState ℚ}
    (hstep : s.step n k = .ok s') : Factored n (k + 1) a s' := by
  rcases step_spec h.shaped hk with ⟨-, -, herror⟩ | ⟨hpivot, s'', heq, hshaped, hU, hL, hM⟩
  · rw [herror] at hstep
    cases hstep
  · obtain rfl : s'' = s' := Except.ok.inj (heq.symm.trans hstep)
    have hne : k + 1 < n → entry s.matrix k k ≠ 0 := by
      intro hlt hzero
      apply hpivot hlt
      rw [hzero]
      exact small_zero
    have hrow : ∀ j, j < n → entry s''.U k j = entry s.matrix k j := by
      intro j hj
      rw [hU]
      by_cases hkj : k ≤ j
      · rw [if_pos ⟨rfl, hkj, hj⟩]
      · rw [if_neg (by omega), h.upper k j (.inl (by omega)), h.cleared k j (le_refl k) (by omega)]
    refine ⟨hshaped, fun i hi => ?_, fun i j hij hcase => ?_, fun i j hcase => ?_, fun i j hi hj => ?_,
      fun i j hi hj => ?_⟩
    · rw [hL, if_neg (by omega), h.diagonal i hi]
    · rw [hL, if_neg (by omega), h.lower i j hij (by omega)]
    · rw [hU, if_neg (by omega), h.upper i j (by omega)]
    · rcases Nat.lt_or_ge i n with hin | hin
      · rcases Nat.lt_succ_iff_lt_or_eq.mp hj with hlt | rfl
        · rw [hM, if_neg (by omega), h.cleared i j (by omega) hlt]
        · rw [hM, if_pos (by omega), div_mul_cancel₀ _ (hne (by omega)), sub_self]
      · exact entry_of_row_le hshaped.matrix hin j
    · -- the sum grows by the new column of `L` times the new row of `U`
      have hsum : (∑ t ∈ Finset.range k, entry s''.L i t * entry s''.U t j) =
          ∑ t ∈ Finset.range k, entry s.L i t * entry s.U t j := by
        apply Finset.sum_congr rfl
        intro t ht
        have hlt := Finset.mem_range.mp ht
        rw [hL, hU, if_neg (by omega), if_neg (by omega)]
      rw [Finset.sum_range_succ, hsum, hrow j hj, h.product i j hi hj, add_assoc]
      congr 1
      rcases Nat.lt_trichotomy i k with hlt | rfl | hgt
      · rw [if_neg (by omega), if_neg (by omega), hL, if_neg (by omega), h.lower i k hlt.ne (.inl hlt)]
        ring
      · rw [if_pos (le_refl i), if_neg (by omega), hL, if_neg (by omega), h.diagonal i hi]
        ring
      · rw [if_pos hgt.le, if_pos (by omega), hL, if_pos ⟨⟨hgt, hi⟩, rfl⟩, hM]
        by_cases hkj : k ≤ j
        · rw [if_pos ⟨⟨hgt, hi⟩, hkj, hj⟩]
          ring
        · rw [if_neg (by omega), h.cleared k j (le_refl k) (by omega)]
          ring

theorem factored_of_run {a : Grid ℚ} (h : Rect a n n) (hk : k ≤ n) (hrun : LuState.run n a k = .ok s) :
    Factored n k a s := by
  induction k generalizing s with
  | zero =>
      obtain rfl := Except.ok.inj hrun
      exact factored_start h
  | succ k ih =>
      rw [run_succ] at hrun
      obtain ⟨s', hrun', hstep⟩ := Runs.ok_of_bind hrun
      exact (ih (by omega) hrun').step hk hstep

/-! ### The factors -/

theorem Factored.isLowerTriangular {a : Grid ℚ} (h : Factored n n a s) :
    (toMatrix n n s.L).IsLowerTriangular := by
  intro i j hij
  have hlt : (i : Nat) < j := hij
  exact h.lower i j hlt.ne (.inl hlt)

theorem Factored.isUpperTriangular {a : Grid ℚ} (h : Factored n n a s) :
    (toMatrix n n s.U).IsUpperTriangular := by
  intro i j hij
  have hlt : (j : Nat) < i := hij
  exact h.upper i j (.inl hlt)

theorem Factored.mul_eq {a : Grid ℚ} (h : Factored n n a s) :
    toMatrix n n s.L * toMatrix n n s.U = toMatrix n n a := by
  ext i j
  rw [toMatrix_apply, h.product i j i.isLt j.isLt, if_neg (Nat.not_le.mpr i.isLt), add_zero, mul_apply,
    Finset.sum_range]
  rfl

/-- The determinant of a product of a unit lower and an upper triangular matrix. -/
theorem det_of_factors {b : Matrix (Fin k) (Fin k) ℚ} (lower upper : Matrix (Fin k) (Fin k) ℚ)
    (hmul : lower * upper = b) (hlower : lower.IsLowerTriangular) (hones : ∀ i, lower i i = 1)
    (hupper : upper.IsUpperTriangular) : b.det = ∏ i, upper i i := by
  rw [← hmul, det_mul, det_of_isLowerTriangular _ hlower, det_of_isUpperTriangular hupper,
    Finset.prod_eq_one fun i _ => hones i, one_mul]

/-- The diagonal of `L` is one, so that the determinant is the product of the diagonal of `U`. -/
theorem Factored.prod_diagonal {a : Grid ℚ} (h : Factored n n a s) :
    ∏ i : Fin n, entry s.U i i = (toMatrix n n a).det :=
  (det_of_factors _ _ h.mul_eq h.isLowerTriangular (fun i => h.diagonal i i.isLt) h.isUpperTriangular).symm

/-- `lu_decomposition_finder` raises `ValueError` exactly when a turn before the last reaches a pivot below the
tolerance, and otherwise returns a unit lower and an upper triangular matrix whose product is the matrix; the
diagonal of the second one multiplies to the determinant. The caller's matrix stays as it is either way. -/
theorem lu_decomposition_correct {h : Heap ℚ} {ref : Nat} {matrix : Grid Int} (hn : 1 ≤ n)
    (hshows : h.Shows ref (ofInts matrix)) (hrect : Rect matrix n n) :
    ∃ outcome h', exec (luDecompositionFinder ref n n) h = (outcome, h') ∧
      h'.Shows ref (ofInts matrix) ∧ h.rows <+: h'.rows ∧ h.matrices <+: h'.matrices ∧
      (outcome = .error .valueError ↔ ∃ k, SmallPivot n (ofInts matrix) k) ∧
      ((¬ ∃ k, SmallPivot n (ofInts matrix) k) → ∃ L U, outcome = .ok (L, U) ∧ Rect L n n ∧ Rect U n n ∧
        (toMatrix n n L).IsLowerTriangular ∧ (∀ i, toMatrix n n L i i = 1) ∧
        (toMatrix n n U).IsUpperTriangular ∧
        toMatrix n n L * toMatrix n n U = toMatrix n n (ofInts matrix) ∧
        ∏ i, toMatrix n n U i i = (Determinants.detCal matrix n : ℚ)) := by
  have hrect' : Rect (ofInts matrix) n n := hrect.map _
  obtain ⟨h₁, hcopy, hold⟩ := exec_copyRows hshows
  have hcut : trim n (ofInts matrix) = ofInts matrix := trim_of_rect hrect'
  have hfollows : Follows h h.matrices.length (ofInts matrix) _ _ _ := turns_follow (by rwa [hcut])
  rw [hcut] at hfollows
  have hbefore : ∀ t, SmallPivot n (ofInts matrix) t → t < n := fun t ht => (Nat.lt_succ_self t).trans ht.1
  rw [luDecompositionFinder, exec_bind_ok hcopy]
  rcases run_spec hrect' (le_refl n) with ⟨s, hrun, -, hlarge⟩ | ⟨hrun, t, -, hsmall⟩
  · have hfactored := factored_of_run hrect' (le_refl n) hrun
    rw [hrun] at hfollows
    obtain ⟨factors, m, hdoes, -, rfl, -⟩ := hfollows
    obtain ⟨h', hexec, hold'⟩ := hdoes h₁ hold
    refine ⟨_, h', hexec, hshows.mono hold'.oldRows hold'.oldMatrices, hold'.oldRows, hold'.oldMatrices, ?_, ?_⟩
    · exact iff_of_false nofun fun ⟨t, ht⟩ => hlarge t (hbefore t ht) ht
    · intro _
      refine ⟨s.L, s.U, rfl, hfactored.shaped.L, hfactored.shaped.U, hfactored.isLowerTriangular,
        fun i => hfactored.diagonal i i.isLt, hfactored.isUpperTriangular, hfactored.mul_eq, ?_⟩
      obtain ⟨k, rfl⟩ := Nat.exists_eq_add_of_le' hn
      rw [Determinants.detCal_eq_det, ← Determinants.det_ofInts]
      exact hfactored.prod_diagonal
  · rw [hrun] at hfollows
    obtain ⟨h', m, hexec, hold'⟩ := hfollows h₁ hold
    refine ⟨_, h', hexec, hshows.mono hold'.oldRows hold'.oldMatrices, hold'.oldRows, hold'.oldMatrices, ?_, ?_⟩
    · exact iff_of_true rfl ⟨t, hsmall⟩
    · exact fun hnone => absurd ⟨t, hsmall⟩ hnone

theorem lu_decomposition_correct_two :
    ∃ L U h', exec (luDecompositionFinder 0 2 2) ⟨[[2, 1], [4, 5]], [[0, 1]]⟩ = (.ok (L, U), h') ∧
      toMatrix 2 2 L * toMatrix 2 2 U = toMatrix 2 2 (ofInts [[2, 1], [4, 5]]) := by
  have hshows : (⟨[[2, 1], [4, 5]], [[0, 1]]⟩ : Heap ℚ).Shows 0 (ofInts [[2, 1], [4, 5]]) := ⟨[0, 1], rfl, rfl⟩
  have hrect : Rect ([[2, 1], [4, 5]] : Grid Int) 2 2 := ⟨rfl, by decide⟩
  have hlarge : ¬ ∃ k, SmallPivot 2 (ofInts [[2, 1], [4, 5]]) k := by
    rintro ⟨k, hlt, s, hrun, hsmall⟩
    obtain rfl : k = 0 := by omega
    obtain rfl := Except.ok.inj hrun
    exact absurd hsmall (by decide +kernel)
  obtain ⟨outcome, h', hexec, -, -, -, -, hfactors⟩ := lu_decomposition_correct (by decide) hshows hrect
  obtain ⟨L, U, rfl, -, -, -, -, -, hproduct, -⟩ := hfactors hlarge
  exact ⟨L, U, h', hexec, hproduct⟩

end Exact

end CalSci.Lu
