import Mathlib.Algebra.Field.Rat
import Mathlib.Data.List.Find
import Mathlib.Data.List.GetD
import Mathlib.Logic.Equiv.Basic
import Mathlib.Tactic.Ring

/-! Grids of numbers as lists of rows, and the row operations of an elimination: rows are exchanged, divided
by a number, and cleared in one column by a multiple of another row. Each operation is described entry by
entry. -/

namespace GridRows

variable {K : Type}

abbrev Grid (K : Type) := List (List K)

/-- The grid has `rows` rows of `cols` entries. -/
structure Rect (m : Grid K) (rows cols : Nat) : Prop where
  length : m.length = rows
  row_length : ∀ row ∈ m, row.length = cols

/-- The entry in row `i` and column `j`. -/
def entry [Zero K] (m : Grid K) (i j : Nat) : K := (m.getD i []).getD j 0

def swapRows (m : Grid K) (i k : Nat) : Grid K := (m.set i (m.getD k [])).set k (m.getD i [])

def scaleRow [Div K] (m : Grid K) (i : Nat) (p : K) : Grid K := m.set i ((m.getD i []).map fun x => x / p)

def subRow [Sub K] [Mul K] (m : Grid K) (i k : Nat) (factor : K) : Grid K :=
  m.set i (List.zipWith (fun x y => x - factor * y) (m.getD i []) (m.getD k []))

/-- One after the other, the rows `indices` whose entry in column `col` passes the test are cleared there
by row `k`. -/
def clearRows [Field K] (test : K → Bool) (k col : Nat) (indices : List Nat) (m : Grid K) : Grid K :=
  indices.foldl (fun m i => if test (entry m i col) then subRow m i k (entry m i col) else m) m

/-- The first row from `start` on whose entry in column `col` passes the test. -/
def firstRow [Zero K] (test : K → Bool) (m : Grid K) (col start rows : Nat) : Option Nat :=
  (List.range' start (rows - start)).find? fun i => test (entry m i col)

/-! ### One operation -/

section Operations

variable {m : Grid K} {rows cols i k : Nat}

theorem Rect.getD_length (h : Rect m rows cols) (hi : i < rows) : (m.getD i []).length = cols := by
  have hlt : i < m.length := by rwa [h.length]
  rw [List.getD_eq_getElem _ _ hlt]
  exact h.row_length _ (List.getElem_mem hlt)

/-- Replacing a row by one of the same length. -/
theorem Rect.set (h : Rect m rows cols) (i : Nat) {row : List K} (hrow : i < rows → row.length = cols) :
    Rect (m.set i row) rows cols := by
  refine ⟨by rw [List.length_set, h.length], fun r hr => ?_⟩
  by_cases hi : i < rows
  · rcases List.mem_or_eq_of_mem_set hr with hmem | rfl
    · exact h.row_length r hmem
    · exact hrow hi
  · rw [List.set_eq_of_length_le (by rw [h.length]; omega)] at hr
    exact h.row_length r hr

theorem entry_set [Zero K] (h : Rect m rows cols) (hi : i < rows) (row : List K) (a j : Nat) :
    entry (m.set i row) a j = if a = i then row.getD j 0 else entry m a j := by
  have hlt : i < m.length := by rwa [h.length]
  simp only [entry, List.getD_eq_getElem?_getD, List.getElem?_set]
  by_cases ha : a = i
  · subst ha
    rw [if_pos rfl, if_pos rfl, if_pos hlt]
    rfl
  · rw [if_neg (Ne.symm ha), if_neg ha]

theorem Rect.swapRows (h : Rect m rows cols) (hi : i < rows) (hk : k < rows) :
    Rect (swapRows m i k) rows cols :=
  (h.set i fun _ => h.getD_length hk).set k fun _ => h.getD_length hi

theorem entry_swapRows [Zero K] (h : Rect m rows cols) (hi : i < rows) (hk : k < rows) (a j : Nat) :
    entry (swapRows m i k) a j = entry m (Equiv.swap i k a) j := by
  rw [GridRows.swapRows, entry_set (h.set i fun _ => h.getD_length hk) hk, entry_set h hi]
  by_cases hak : a = k
  · rw [if_pos hak, hak, Equiv.swap_apply_right]
    rfl
  · rw [if_neg hak]
    by_cases hai : a = i
    · rw [if_pos hai, hai, Equiv.swap_apply_left]
      rfl
    · rw [if_neg hai, Equiv.swap_apply_of_ne_of_ne hai hak]

variable [Field K]

theorem Rect.scaleRow (h : Rect m rows cols) (i : Nat) (p : K) : Rect (scaleRow m i p) rows cols :=
  h.set i fun hi => by rw [List.length_map, h.getD_length hi]

theorem entry_scaleRow (h : Rect m rows cols) (hi : i < rows) (p : K) (a j : Nat) :
    entry (scaleRow m i p) a j = if a = i then entry m a j / p else entry m a j := by
  rw [GridRows.scaleRow, entry_set h hi]
  by_cases ha : a = i
  · have hmap := List.getD_map (l := m.getD i []) (d := (0 : K)) (n := j) fun x => x / p
    rw [zero_div] at hmap
    rw [if_pos ha, if_pos ha, ha, hmap]
    rfl
  · rw [if_neg ha, if_neg ha]

theorem Rect.subRow (h : Rect m rows cols) (hk : k < rows) (i : Nat) (factor : K) :
    Rect (subRow m i k factor) rows cols :=
  h.set i fun hi => by rw [List.length_zipWith, h.getD_length hi, h.getD_length hk, Nat.min_self]

theorem entry_subRow (h : Rect m rows cols) (hi : i < rows) (hk : k < rows) (factor : K) (a j : Nat) :
    entry (subRow m i k factor) a j =
      if a = i then entry m a j - factor * entry m k j else entry m a j := by
  rw [GridRows.subRow, entry_set h hi]
  by_cases ha : a = i
  · rw [if_pos ha, if_pos ha, ha, entry, entry]
    have hlen := (h.getD_length hi).trans (h.getD_length hk).symm
    generalize m.getD i [] = x at hlen
    generalize m.getD k [] = y at hlen
    rcases Nat.lt_or_ge j x.length with hj | hj
    · have hj' : j < y.length := by omega
      rw [List.getD_eq_getElem _ _ (by rw [List.length_zipWith]; omega), List.getElem_zipWith,
        List.getD_eq_getElem _ _ hj, List.getD_eq_getElem _ _ hj']
    · rw [List.getD_eq_default _ _ (by rw [List.length_zipWith]; omega), List.getD_eq_default _ _ hj,
        List.getD_eq_default _ _ (by omega)]
      ring
  · rw [if_neg ha, if_neg ha]

/-! ### Clearing a column -/

/-- Rows are cleared one after the other without touching each other or the row that clears them. -/
theorem clearRows_spec (test : K → Bool) (hk : k < rows) (col : Nat) {indices : List Nat}
    (hlt : ∀ i ∈ indices, i < rows ∧ i ≠ k) (hnodup : indices.Nodup) (h : Rect m rows cols) :
    Rect (clearRows test k col indices m) rows cols ∧ ∀ a j, entry (clearRows test k col indices m) a j =
      if a ∈ indices ∧ test (entry m a col) = true then entry m a j - entry m a col * entry m k j
      else entry m a j := by
  induction indices generalizing m with
  | nil => exact ⟨h, fun a j => (if_neg fun ha => List.not_mem_nil ha.1).symm⟩
  | cons i indices ih =>
      obtain ⟨⟨hi, hik⟩, hrest⟩ := List.forall_mem_cons.mp hlt
      obtain ⟨hnot, hnodup'⟩ := List.nodup_cons.mp hnodup
      obtain ⟨m', hm'⟩ : ∃ m', (if test (entry m i col) then subRow m i k (entry m i col) else m) = m' :=
        ⟨_, rfl⟩
      have hstep : Rect m' rows cols ∧ ∀ a j, entry m' a j =
          if a = i ∧ test (entry m i col) = true then entry m a j - entry m i col * entry m k j
          else entry m a j := by
        rw [← hm']
        by_cases htest : test (entry m i col) = true
        · rw [if_pos htest]
          refine ⟨h.subRow hk i _, fun a j => ?_⟩
          rw [entry_subRow h hi hk]
          simp only [htest, and_true]
        · rw [if_neg htest]
          exact ⟨h, fun a j => (if_neg fun ha => htest ha.2).symm⟩
      have hother : ∀ a j, a ≠ i → entry m' a j = entry m a j := fun a j ha => by
        rw [hstep.2, if_neg fun hai => ha hai.1]
      obtain ⟨hrect, hentry⟩ := ih hrest hnodup' hstep.1
      rw [clearRows, List.foldl_cons, hm']
      refine ⟨hrect, fun a j => (hentry a j).trans ?_⟩
      rw [hother k j (Ne.symm hik)]
      by_cases ha : a = i
      · subst ha
        rw [if_neg fun hmem => hnot hmem.1, hstep.2]
        simp
      · rw [hother a col ha, hother a j ha]
        simp [ha]

end Operations

/-! ### Looking for a pivot -/

section Pivot

variable {m m' : Grid K} {rows cols col start i : Nat} {test test' : K → Bool}

theorem firstRow_some [Zero K] (h : firstRow test m col start rows = some i) :
    (start ≤ i ∧ i < rows) ∧ test (entry m i col) = true := by
  have hmem := List.mem_range'_1.mp (List.mem_of_find?_eq_some h)
  have htest := List.find?_some (p := fun i => test (entry m i col)) h
  exact ⟨by omega, htest⟩

theorem firstRow_none [Zero K] (h : firstRow test m col start rows = none) (hi : start ≤ i)
    (hlt : i < rows) : test (entry m i col) = false := by
  have hall := List.find?_eq_none.mp h i (List.mem_range'_1.mpr (by omega))
  exact Bool.not_eq_true _ ▸ hall

/-- Grids that test alike from a row on have the same first row. -/
theorem firstRow_congr [Zero K]
    (h : ∀ i, start ≤ i → i < rows → test (entry m i col) = test' (entry m' i col)) :
    firstRow test m col start rows = firstRow test' m' col start rows := by
  apply List.find?_congr
  intro i hi
  have hmem := List.mem_range'_1.mp hi
  exact h i hmem.1 (by omega)

variable [Field K]

def liftRow (m : Grid K) (k i : Nat) : Grid K := if i ≠ k then swapRows m k i else m

/-- Row `i` is brought to place `k` and divided by its entry in column `col`. -/
def raiseRow (m : Grid K) (k i col : Nat) : Grid K :=
  scaleRow (liftRow m k i) k (entry (liftRow m k i) k col)

variable {k : Nat}

theorem liftRow_spec (h : Rect m rows cols) (hk : k ≤ i) (hi : i < rows) :
    Rect (liftRow m k i) rows cols ∧ ∀ a j, entry (liftRow m k i) a j = entry m (Equiv.swap k i a) j := by
  rw [liftRow]
  by_cases heq : i = k
  · subst heq
    rw [if_neg (not_not.mpr rfl), Equiv.swap_self]
    exact ⟨h, fun _ _ => rfl⟩
  · rw [if_pos heq]
    exact ⟨h.swapRows (by omega) hi, entry_swapRows h (by omega) hi⟩

theorem entry_liftRow_self (h : Rect m rows cols) (hk : k ≤ i) (hi : i < rows) (j : Nat) :
    entry (liftRow m k i) k j = entry m i j := by
  rw [(liftRow_spec h hk hi).2, Equiv.swap_apply_left]

theorem raiseRow_spec (h : Rect m rows cols) (hk : k ≤ i) (hi : i < rows) :
    Rect (raiseRow m k i col) rows cols ∧
      (∀ j, entry (raiseRow m k i col) k j = entry m i j / entry m i col) ∧
      ∀ a j, a ≠ k → entry (raiseRow m k i col) a j = entry m (Equiv.swap k i a) j := by
  obtain ⟨hrect, hentry⟩ := liftRow_spec h hk hi
  refine ⟨hrect.scaleRow k _, fun j => ?_, fun a j ha => ?_⟩
  · rw [raiseRow, entry_scaleRow hrect (by omega), if_pos rfl, entry_liftRow_self h hk hi,
      entry_liftRow_self h hk hi]
  · rw [raiseRow, entry_scaleRow hrect (by omega), if_neg ha, hentry]

/-- A whole step of an elimination: row `i` becomes the pivot row `k`, and the rows `indices` are cleared
in column `col`. A test that only lets zeros pass uncleared does not matter. -/
theorem clearRows_raiseRow (test : K → Bool) (col : Nat) (h : Rect m rows cols) (hk : k ≤ i) (hi : i < rows)
    {indices : List Nat} (hlt : ∀ a ∈ indices, a < rows ∧ a ≠ k) (hnodup : indices.Nodup)
    (htest : ∀ a ∈ indices, test (entry m (Equiv.swap k i a) col) = false →
      entry m (Equiv.swap k i a) col = 0) :
    Rect (clearRows test k col indices (raiseRow m k i col)) rows cols ∧
      (∀ j, entry (clearRows test k col indices (raiseRow m k i col)) k j = entry m i j / entry m i col) ∧
      (∀ a j, a ∈ indices → entry (clearRows test k col indices (raiseRow m k i col)) a j =
        entry m (Equiv.swap k i a) j - entry m (Equiv.swap k i a) col * (entry m i j / entry m i col)) ∧
      ∀ a j, a ≠ k → a ∉ indices →
        entry (clearRows test k col indices (raiseRow m k i col)) a j = entry m (Equiv.swap k i a) j := by
  obtain ⟨hrect, hpivot, hother⟩ := raiseRow_spec h hk hi
  obtain ⟨hrect', hentry⟩ := clearRows_spec test (by omega) col hlt hnodup hrect
  refine ⟨hrect', fun j => ?_, fun a j ha => ?_, fun a j ha hnot => ?_⟩
  · rw [hentry, if_neg fun hmem => (hlt k hmem.1).2 rfl, hpivot]
  · rw [hentry, hother a j (hlt a ha).2, hother a col (hlt a ha).2, hpivot]
    cases hpass : test (entry m (Equiv.swap k i a) col) with
    | true => rw [if_pos ⟨ha, rfl⟩]
    | false =>
        rw [if_neg fun hmem => Bool.false_ne_true hmem.2, htest a ha hpass]
        ring
  · rw [hentry, if_neg fun hmem => hnot hmem.1, hother a j ha]

end Pivot

/-! ### Every entry -/

/-- The same function on every entry. -/
theorem entry_map {L : Type} [Zero K] [Zero L] (f : K → L) (hf : f 0 = 0) (m : Grid K) (i j : Nat) :
    entry (m.map (List.map f)) i j = f (entry m i j) := by
  have hrow := List.getD_map (l := m) (d := []) (n := i) (List.map f)
  have hentry := List.getD_map (l := m.getD i []) (d := 0) (n := j) f
  rw [hf] at hentry
  rw [List.map_nil] at hrow
  rw [entry, hrow, hentry]
  rfl

theorem Rect.map {L : Type} {m : Grid K} {rows cols : Nat} (h : Rect m rows cols) (f : K → L) :
    Rect (m.map (List.map f)) rows cols := by
  refine ⟨by rw [List.length_map, h.length], fun row hrow => ?_⟩
  obtain ⟨row', hmem, rfl⟩ := List.mem_map.mp hrow
  rw [List.length_map, h.row_length row' hmem]

/-! ### Places outside the grid -/

theorem entry_of_row_le [Zero K] {m : Grid K} {rows cols : Nat} (h : Rect m rows cols) {i : Nat}
    (hi : rows ≤ i) (j : Nat) : entry m i j = 0 := by
  have hrow : m.getD i [] = [] := List.getD_eq_default _ _ (by rw [h.length]; exact hi)
  rw [entry, hrow]
  rfl

theorem entry_of_col_le [Zero K] {m : Grid K} {rows cols : Nat} (h : Rect m rows cols) (i : Nat) {j : Nat}
    (hj : cols ≤ j) : entry m i j = 0 := by
  rcases Nat.lt_or_ge i rows with hi | hi
  · rw [entry, List.getD_eq_default _ _ (by rw [h.getD_length hi]; exact hj)]
  · exact entry_of_row_le h hi j

end GridRows
