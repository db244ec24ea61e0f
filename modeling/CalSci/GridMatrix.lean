import CalSci.GridRows
import Mathlib.Algebra.BigOperators.Fin
import Mathlib.Algebra.BigOperators.Ring.Finset
import Mathlib.Data.Fin.SuccPred
import Mathlib.Data.Matrix.Mul

/-! Grids as matrices: grids built entry by entry, parts of a grid, loops that add to entries in place, and
the matrix that a grid stands for. -/

namespace GridRows

open Matrix

variable {K : Type}

/-! ### Grids built entry by entry -/

/-- `[[f i j for j in range(cols)] for i in range(rows)]`. -/
def tabulate (rows cols : Nat) (f : Nat → Nat → K) : Grid K :=
  (List.range rows).map fun i => (List.range cols).map (f i)

theorem Rect.tabulate (rows cols : Nat) (f : Nat → Nat → K) : Rect (tabulate rows cols f) rows cols := by
  refine ⟨by rw [GridRows.tabulate, List.length_map, List.length_range], fun row hrow => ?_⟩
  obtain ⟨i, -, rfl⟩ := List.mem_map.mp hrow
  rw [List.length_map, List.length_range]

theorem entry_of_getElem? [Zero K] {m : Grid K} {i j : Nat} {row : List K} {x : K} (hrow : m[i]? = some row)
    (hx : row[j]? = some x) : entry m i j = x := by
  simp only [entry, List.getD_eq_getElem?_getD, hrow, hx, Option.getD_some]

theorem entry_tabulate [Zero K] {rows cols i j : Nat} (f : Nat → Nat → K) (hi : i < rows) (hj : j < cols) :
    entry (tabulate rows cols f) i j = f i j := by
  have hrow : (tabulate rows cols f)[i]? = some ((List.range cols).map (f i)) := by
    rw [tabulate, List.getElem?_map, List.getElem?_range hi, Option.map_some]
  apply entry_of_getElem? hrow
  rw [List.getElem?_map, List.getElem?_range hj, Option.map_some]

theorem entry_tabulate_zero [Zero K] (rows cols i j : Nat) :
    entry (tabulate rows cols fun _ _ => (0 : K)) i j = 0 := by
  rcases Nat.lt_or_ge i rows with hi | hi
  · rcases Nat.lt_or_ge j cols with hj | hj
    · rw [entry_tabulate _ hi hj]
    · exact entry_of_col_le (Rect.tabulate rows cols _) i hj
  · exact entry_of_row_le (Rect.tabulate rows cols _) hi j

/-- The entries of the rows `is` in the columns `js`. -/
def subgrid [Zero K] (is js : List Nat) (m : Grid K) : Grid K := is.map fun i => js.map (entry m i)

theorem Rect.subgrid [Zero K] (is js : List Nat) (m : Grid K) :
    Rect (subgrid is js m) is.length js.length := by
  refine ⟨by rw [GridRows.subgrid, List.length_map], fun row hrow => ?_⟩
  obtain ⟨i, -, rfl⟩ := List.mem_map.mp hrow
  rw [List.length_map]

theorem entry_subgrid [Zero K] {is js : List Nat} (m : Grid K) {a b i j : Nat} (hi : is[a]? = some i)
    (hj : js[b]? = some j) : entry (subgrid is js m) a b = entry m i j := by
  have hrow : (subgrid is js m)[a]? = some (js.map (entry m i)) := by
    rw [subgrid, List.getElem?_map, hi, Option.map_some]
  apply entry_of_getElem? hrow
  rw [List.getElem?_map, hj, Option.map_some]

/-- All indices below `n + 1` but one. -/
theorem filter_range_ne {n j : Nat} (hj : j ≤ n) :
    (List.range (n + 1)).filter (fun x => x ≠ j) = List.range j ++ List.range' (j + 1) (n - j) := by
  have hsplit : List.range (n + 1) = List.range j ++ j :: List.range' (j + 1) (n - j) := by
    rw [List.range_eq_range', List.range_eq_range', ← List.range'_succ,
      show n + 1 = j + (n - j + 1) by omega, ← List.range'_append_1, Nat.zero_add]
  have hbelow : ∀ x ∈ List.range j, decide (x ≠ j) = true := by
    intro x hx
    exact decide_eq_true (List.mem_range.mp hx).ne
  have habove : ∀ x ∈ List.range' (j + 1) (n - j), decide (x ≠ j) = true := by
    intro x hx
    have hmem := List.mem_range'_1.mp hx
    exact decide_eq_true (by omega)
  rw [hsplit, List.filter_append, List.filter_cons_of_neg (by simp), List.filter_eq_self.mpr hbelow,
    List.filter_eq_self.mpr habove]

/-- Up to `j` the other indices are in their place, and from there on moved by one. -/
theorem getElem?_filter_range {n j k : Nat} (hj : j ≤ n) (hk : k < n) :
    ((List.range (n + 1)).filter fun x => x ≠ j)[k]? = some (if k < j then k else k + 1) := by
  rw [filter_range_ne hj]
  by_cases hkj : k < j
  · rw [List.getElem?_append_left (by rwa [List.length_range]), List.getElem?_range hkj, if_pos hkj]
  · rw [List.getElem?_append_right (by rw [List.length_range]; omega), List.length_range,
      List.getElem?_range' (by omega), if_neg hkj]
    congr 1
    omega

/-! ### Loops in place -/

/-- `s += f i` for each `i` of a range. -/
theorem foldl_range_add [AddCommMonoid K] (f : Nat → K) (s : K) (n : Nat) :
    (List.range n).foldl (fun s i => s + f i) s = s + ∑ i ∈ Finset.range n, f i := by
  induction n with
  | zero => rw [Finset.sum_range_zero, add_zero]; rfl
  | succ n ih =>
      rw [List.range_succ, List.foldl_append, ih, Finset.sum_range_succ, ← add_assoc]
      rfl

/-- `m[i][j] = x`. -/
def setEntry (m : Grid K) (i j : Nat) (x : K) : Grid K := m.set i ((m.getD i []).set j x)

theorem Rect.setEntry {m : Grid K} {rows cols : Nat} (h : Rect m rows cols) (i j : Nat) (x : K) :
    Rect (setEntry m i j x) rows cols :=
  h.set i fun hi => by rw [List.length_set, h.getD_length hi]

theorem entry_setEntry [Zero K] {m : Grid K} {rows cols i j : Nat} (h : Rect m rows cols) (hi : i < rows)
    (hj : j < cols) (x : K) (a b : Nat) :
    entry (setEntry m i j x) a b = if a = i ∧ b = j then x else entry m a b := by
  rw [GridRows.setEntry, entry_set h hi]
  by_cases ha : a = i
  · subst ha
    have hlen : j < (m.getD a []).length := by rwa [h.getD_length hi]
    rw [if_pos rfl, List.getD_eq_getElem?_getD, List.getElem?_set]
    by_cases hb : b = j
    · rw [if_pos hb.symm, if_pos hlen, if_pos ⟨rfl, hb⟩, Option.getD_some]
    · rw [if_neg (Ne.symm hb), if_neg fun hab => hb hab.2, ← List.getD_eq_getElem?_getD]
      rfl
  · rw [if_neg ha, if_neg fun hab => ha hab.1]

/-- Grids of one shape are equal when their entries are. -/
theorem Rect.ext [Zero K] {m m' : Grid K} {rows cols : Nat} (h : Rect m rows cols) (h' : Rect m' rows cols)
    (hentry : ∀ i j, i < rows → j < cols → entry m i j = entry m' i j) : m = m' := by
  apply List.ext_getElem (by rw [h.length, h'.length])
  intro i hi hi'
  have hlength := h.row_length _ (List.getElem_mem hi)
  have hlength' := h'.row_length _ (List.getElem_mem hi')
  apply List.ext_getElem (by rw [hlength, hlength'])
  intro j hj hj'
  have heq := hentry i j (by rw [← h.length]; exact hi) (by rw [← hlength]; exact hj)
  rwa [entry_of_getElem? (List.getElem?_eq_getElem hi) (List.getElem?_eq_getElem hj),
    entry_of_getElem? (List.getElem?_eq_getElem hi') (List.getElem?_eq_getElem hj')] at heq

/-- A loop that assigns each of its places once, with values that only depend on what the loop has not
touched or is about to replace. -/
theorem foldl_fill [Zero K] {ι : Type} {rows cols : Nat} (place : ι → Nat × Nat) (v : ι → K)
    (step : Grid K → ι → Grid K) {m : Grid K} (h : Rect m rows cols) {xs : List ι}
    (hinside : ∀ x ∈ xs, (place x).1 < rows ∧ (place x).2 < cols) (hnodup : (xs.map place).Nodup)
    (hstep : ∀ m' x, x ∈ xs → Rect m' rows cols →
      (∀ a b, (a, b) ∉ xs.map place ∨ (a, b) = place x → entry m' a b = entry m a b) →
      step m' x = setEntry m' (place x).1 (place x).2 (v x)) :
    Rect (xs.foldl step m) rows cols ∧
      (∀ x ∈ xs, entry (xs.foldl step m) (place x).1 (place x).2 = v x) ∧
      ∀ a b, (a, b) ∉ xs.map place → entry (xs.foldl step m) a b = entry m a b := by
  induction xs using List.reverseRecOn with
  | nil => exact ⟨h, nofun, fun _ _ _ => rfl⟩
  | append_singleton xs x ih =>
      rw [List.map_append, List.map_singleton] at hnodup
      obtain ⟨hxs, -, hdisjoint⟩ := List.nodup_append.mp hnodup
      have hx : place x ∉ xs.map place := fun hmem => hdisjoint _ hmem _ (List.mem_singleton_self _) rfl
      obtain ⟨hrect, hfilled, hother⟩ := ih (fun y hy => hinside y (List.mem_append_left _ hy)) hxs
        fun m' y hy hrect' hsame => hstep m' y (List.mem_append_left _ hy) hrect' fun a b hab =>
          hsame a b (hab.imp_left fun hnot hmem => hnot (by
            rw [List.map_append]
            exact List.mem_append_left _ hmem))
      have hlast : x ∈ xs ++ [x] := List.mem_append_right _ (List.mem_singleton_self x)
      have hset := hstep (xs.foldl step m) x hlast hrect fun a b hab => by
        apply hother a b
        rcases hab with hnot | heq
        · exact fun hmem => hnot (by rw [List.map_append]; exact List.mem_append_left _ hmem)
        · rwa [heq]
      obtain ⟨hrow, hcol⟩ := hinside x hlast
      rw [List.foldl_append, List.foldl_cons, List.foldl_nil, hset]
      refine ⟨hrect.setEntry _ _ _, fun y hy => ?_, fun a b hab => ?_⟩
      · rw [entry_setEntry hrect hrow hcol]
        rcases List.mem_append.mp hy with hold | hnew
        · rw [if_neg, hfilled y hold]
          rintro ⟨hfst, hsnd⟩
          exact hx (Prod.ext hfst hsnd ▸ List.mem_map_of_mem hold)
        · rw [List.mem_singleton.mp hnew, if_pos ⟨rfl, rfl⟩]
      · rw [List.map_append, List.map_singleton, List.mem_append, List.mem_singleton, not_or] at hab
        rw [entry_setEntry hrect hrow hcol, if_neg, hother a b hab.1]
        rintro ⟨rfl, rfl⟩
        exact hab.2 rfl

/-- A loop along row `i`. -/
theorem foldl_fillRow [Zero K] {rows cols i : Nat} (v : Nat → K) (step : Grid K → Nat → Grid K) {m : Grid K}
    (h : Rect m rows cols) (hi : i < rows) {js : List Nat} (hjs : ∀ j ∈ js, j < cols) (hnodup : js.Nodup)
    (hstep : ∀ m' j, j ∈ js → Rect m' rows cols → (∀ a b, a ≠ i → entry m' a b = entry m a b) →
      entry m' i j = entry m i j → step m' j = setEntry m' i j (v j)) :
    Rect (js.foldl step m) rows cols ∧
      ∀ a b, entry (js.foldl step m) a b = if a = i ∧ b ∈ js then v b else entry m a b := by
  have hmem : ∀ a b, (a, b) ∈ js.map (fun j => (i, j)) ↔ a = i ∧ b ∈ js := by
    intro a b
    rw [List.mem_map]
    constructor
    · rintro ⟨j, hj, heq⟩
      obtain ⟨rfl, rfl⟩ := Prod.mk.inj heq
      exact ⟨rfl, hj⟩
    · rintro ⟨rfl, hb⟩
      exact ⟨b, hb, rfl⟩
  obtain ⟨hrect, hfilled, hother⟩ := foldl_fill (fun j => (i, j)) v step h
    (fun j hj => ⟨hi, hjs j hj⟩) (hnodup.map fun j k hjk => (Prod.mk.inj hjk).2)
    fun m' j hj hrect' hsame => hstep m' j hj hrect'
      (fun a b ha => hsame a b (.inl fun hab => ha ((hmem a b).mp hab).1)) (hsame i j (.inr rfl))
  refine ⟨hrect, fun a b => ?_⟩
  split
  · next hab =>
      rw [hab.1]
      exact hfilled b hab.2
  · next hab => exact hother a b fun hin => hab ((hmem a b).mp hin)

/-- A loop down column `j`. -/
theorem foldl_fillColumn [Zero K] {rows cols j : Nat} (v : Nat → K) (step : Grid K → Nat → Grid K) {m : Grid K}
    (h : Rect m rows cols) (hj : j < cols)
    (hstep : ∀ m' i, i < rows → (∀ a b, b ≠ j → entry m' a b = entry m a b) → entry m' i j = entry m i j →
      step m' i = setEntry m' i j (v i)) :
    Rect ((List.range rows).foldl step m) rows cols ∧
      ∀ a b, entry ((List.range rows).foldl step m) a b = if a < rows ∧ b = j then v a else entry m a b := by
  have hmem : ∀ a b, (a, b) ∈ (List.range rows).map (fun i => (i, j)) ↔ a < rows ∧ b = j := by
    intro a b
    rw [List.mem_map]
    constructor
    · rintro ⟨i, hi, heq⟩
      obtain ⟨rfl, rfl⟩ := Prod.mk.inj heq
      exact ⟨List.mem_range.mp hi, rfl⟩
    · rintro ⟨ha, rfl⟩
      exact ⟨a, List.mem_range.mpr ha, rfl⟩
  obtain ⟨hrect, hfilled, hother⟩ := foldl_fill (fun i => (i, j)) v step h
    (fun i hi => ⟨List.mem_range.mp hi, hj⟩) (List.nodup_range.map fun i k hik => (Prod.mk.inj hik).1)
    fun m' i hi _ hsame => hstep m' i (List.mem_range.mp hi)
      (fun a b hb => hsame a b (.inl fun hab => hb ((hmem a b).mp hab).2)) (hsame i j (.inr rfl))
  refine ⟨hrect, fun a b => ?_⟩
  split
  · next hab =>
      rw [hab.2]
      exact hfilled a (List.mem_range.mpr hab.1)
  · next hab => exact hother a b fun hin => hab ((hmem a b).mp hin)

section RowLoops

variable [Field K] {m : Grid K} {rows cols i k : Nat}

theorem mem_range'_sub {start b : Nat} : b ∈ List.range' start (cols - start) ↔ start ≤ b ∧ b < cols := by
  rw [List.mem_range'_1]
  omega

/-- Dividing a row in place, from a column on before which it is zero. -/
theorem foldl_scaleRow_from (h : Rect m rows cols) (hi : i < rows) {col : Nat}
    (hleft : ∀ j, j < col → entry m i j = 0) (p : K) :
    (List.range' col (cols - col)).foldl (fun m j => setEntry m i j (entry m i j / p)) m = scaleRow m i p := by
  obtain ⟨hrect, hentry⟩ := foldl_fillRow (fun j => entry m i j / p)
    (fun m j => setEntry m i j (entry m i j / p)) h hi (fun j hj => (mem_range'_sub.mp hj).2)
    List.nodup_range' fun m' j _ _ _ hsame => by rw [hsame]
  apply hrect.ext (h.scaleRow i p)
  intro a b _ hb
  rw [hentry, entry_scaleRow h hi]
  by_cases ha : a = i
  · subst ha
    rw [if_pos rfl]
    rcases Nat.lt_or_ge b col with hlt | hge
    · rw [if_neg fun hab => absurd (mem_range'_sub.mp hab.2).1 (by omega), hleft b hlt, zero_div]
    · rw [if_pos ⟨rfl, mem_range'_sub.mpr ⟨hge, hb⟩⟩]
  · rw [if_neg ha, if_neg fun hab => ha hab.1]

/-- Subtracting a multiple of another row in place, from a column on before which that row is zero. -/
theorem foldl_subRow_from (h : Rect m rows cols) (hi : i < rows) (hk : k < rows) (hik : i ≠ k) {col : Nat}
    (hleft : ∀ j, j < col → entry m k j = 0) (factor : K) :
    (List.range' col (cols - col)).foldl (fun m j => setEntry m i j (entry m i j - factor * entry m k j)) m =
      subRow m i k factor := by
  obtain ⟨hrect, hentry⟩ := foldl_fillRow (fun j => entry m i j - factor * entry m k j)
    (fun m j => setEntry m i j (entry m i j - factor * entry m k j)) h hi
    (fun j hj => (mem_range'_sub.mp hj).2) List.nodup_range'
    fun m' j _ _ hother hsame => by rw [hsame, hother k j (Ne.symm hik)]
  apply hrect.ext (h.subRow hk i factor)
  intro a b _ hb
  rw [hentry, entry_subRow h hi hk]
  by_cases ha : a = i
  · subst ha
    rw [if_pos rfl]
    rcases Nat.lt_or_ge b col with hlt | hge
    · rw [if_neg fun hab => absurd (mem_range'_sub.mp hab.2).1 (by omega), hleft b hlt, mul_zero, sub_zero]
    · rw [if_pos ⟨rfl, mem_range'_sub.mpr ⟨hge, hb⟩⟩]
  · rw [if_neg ha, if_neg fun hab => ha hab.1]

/-- Dividing a whole row in place. -/
theorem foldl_scaleRow (h : Rect m rows cols) (hi : i < rows) (p : K) :
    (List.range cols).foldl (fun m j => setEntry m i j (entry m i j / p)) m = scaleRow m i p := by
  rw [List.range_eq_range']
  exact foldl_scaleRow_from h hi (fun j hj => absurd hj (Nat.not_lt_zero j)) p

/-- Subtracting a multiple of a whole row in place. -/
theorem foldl_subRow (h : Rect m rows cols) (hi : i < rows) (hk : k < rows) (hik : i ≠ k) (factor : K) :
    (List.range cols).foldl (fun m j => setEntry m i j (entry m i j - factor * entry m k j)) m =
      subRow m i k factor := by
  rw [List.range_eq_range']
  exact foldl_subRow_from h hi hk hik (fun j hj => absurd hj (Nat.not_lt_zero j)) factor

end RowLoops

/-- A loop each turn of which adds to the entries. -/
theorem foldl_adds [AddCommMonoid K] {rows cols n : Nat} {step : Grid K → Nat → Grid K}
    {g : Nat → Nat → Nat → K}
    (hstep : ∀ m x, x < n → Rect m rows cols →
      Rect (step m x) rows cols ∧ ∀ a b, entry (step m x) a b = entry m a b + g x a b)
    {m : Grid K} (h : Rect m rows cols) : Rect ((List.range n).foldl step m) rows cols ∧
      ∀ a b, entry ((List.range n).foldl step m) a b = entry m a b + ∑ x ∈ Finset.range n, g x a b := by
  induction n with
  | zero => exact ⟨h, fun a b => by rw [Finset.sum_range_zero, add_zero]; rfl⟩
  | succ n ih =>
      obtain ⟨hrect, hentry⟩ := ih fun m x hx => hstep m x (by omega)
      obtain ⟨hrect', hentry'⟩ := hstep _ n (by omega) hrect
      rw [List.range_succ, List.foldl_append]
      refine ⟨hrect', fun a b => (hentry' a b).trans ?_⟩
      rw [hentry, Finset.sum_range_succ, add_assoc]

/-- The product of two grids, summed up in place: `result[i][j] += left[i][k] * right[k][j]`. -/
def productLoops [Semiring K] (rows inner cols : Nat) (left right : Grid K) : Grid K :=
  (List.range rows).foldl (fun result i =>
    (List.range cols).foldl (fun result j =>
      (List.range inner).foldl (fun result k =>
        setEntry result i j (entry result i j + entry left i k * entry right k j)) result) result)
    (tabulate rows cols fun _ _ => 0)

theorem productLoops_spec [Semiring K] (rows inner cols : Nat) (left right : Grid K) :
    Rect (productLoops rows inner cols left right) rows cols ∧
      ∀ i j, i < rows → j < cols → entry (productLoops rows inner cols left right) i j =
        ∑ k ∈ Finset.range inner, entry left i k * entry right k j := by
  -- each loop adds the sum over its own turns, at the entry it is at
  have hk : ∀ i, i < rows → ∀ j, j < cols → ∀ m k, k < inner → Rect m rows cols →
      Rect (setEntry m i j (entry m i j + entry left i k * entry right k j)) rows cols ∧
        ∀ a b, entry (setEntry m i j (entry m i j + entry left i k * entry right k j)) a b =
          entry m a b + if a = i ∧ b = j then entry left i k * entry right k j else 0 := by
    intro i hi j hj m k _ h
    refine ⟨h.setEntry i j _, fun a b => ?_⟩
    rw [entry_setEntry h hi hj]
    split
    · next hab => rw [hab.1, hab.2]
    · rw [add_zero]
  have hj := fun i hi j hj m h => foldl_adds (m := m) (hk i hi j hj) h
  have hi := fun i hi m h => foldl_adds (m := m) (fun m j hjlt h => hj i hi j hjlt m h) h
  obtain ⟨hrect, hentry⟩ := foldl_adds (fun m i hilt h => hi i hilt m h)
    (Rect.tabulate rows cols fun _ _ => (0 : K))
  refine ⟨hrect, fun i j hilt hjlt => (hentry i j).trans ?_⟩
  rw [entry_tabulate _ hilt hjlt, zero_add, Finset.sum_eq_single i, Finset.sum_eq_single j]
  · exact Finset.sum_congr rfl fun k _ => if_pos ⟨rfl, rfl⟩
  · exact fun b _ hb => Finset.sum_eq_zero fun k _ => if_neg fun h => hb h.2.symm
  · exact fun hnot => absurd (Finset.mem_range.mpr hjlt) hnot
  · exact fun a _ ha => Finset.sum_eq_zero fun b _ => Finset.sum_eq_zero fun k _ =>
      if_neg fun h => ha h.1.symm
  · exact fun hnot => absurd (Finset.mem_range.mpr hilt) hnot

/-! ### The matrix of a grid -/

/-- The first `rows` rows and `cols` columns, as a matrix. -/
def toMatrix [Zero K] (rows cols : Nat) (m : Grid K) : Matrix (Fin rows) (Fin cols) K :=
  .of fun i j => entry m i j

@[simp] theorem toMatrix_apply [Zero K] {rows cols : Nat} (m : Grid K) (i : Fin rows) (j : Fin cols) :
    toMatrix rows cols m i j = entry m i j := rfl

def colVec [Zero K] (rows : Nat) (m : Grid K) (j : Nat) : Fin rows → K := fun i => entry m i j

/-- `s += a[i][k] * b[i][j]` down two columns. -/
theorem foldl_dotProduct [CommSemiring K] (rows : Nat) (a b : Grid K) (k j : Nat) :
    (List.range rows).foldl (fun s i => s + entry a i k * entry b i j) 0 =
      colVec rows a k ⬝ᵥ colVec rows b j := by
  rw [foldl_range_add, zero_add, Finset.sum_range]
  rfl

theorem toMatrix_productLoops [Semiring K] (rows inner cols : Nat) (left right : Grid K) :
    toMatrix rows cols (productLoops rows inner cols left right) =
      toMatrix rows inner left * toMatrix inner cols right := by
  ext i j
  rw [toMatrix_apply, (productLoops_spec rows inner cols left right).2 i j i.isLt j.isLt,
    Finset.sum_range, mul_apply]
  rfl

/-- A minor without its row and column, as a grid and as a matrix. -/
theorem toMatrix_subgrid_ne [Zero K] {n : Nat} (m : Grid K) (i j : Fin (n + 1)) :
    toMatrix n n (subgrid ((List.range (n + 1)).filter fun x => x ≠ i) ((List.range (n + 1)).filter
      fun x => x ≠ j) m) = (toMatrix (n + 1) (n + 1) m).submatrix i.succAbove j.succAbove := by
  have hplace : ∀ (p : Fin (n + 1)) (a : Fin n),
      ((List.range (n + 1)).filter fun x => x ≠ (p : Nat))[(a : Nat)]? = some (p.succAbove a : Nat) := by
    intro p a
    rw [getElem?_filter_range (by omega) a.isLt, Fin.succAbove]
    simp only [Fin.lt_def, Fin.val_castSucc]
    split <;> rfl
  ext a b
  exact entry_subgrid m (hplace i a) (hplace j b)

end GridRows
