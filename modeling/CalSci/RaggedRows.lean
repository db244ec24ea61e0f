import CalSci.RowObjects

/-! Matrices whose rows need not be of one length. A program that only uses the columns before some number works on
longer rows as on the rows cut off there; and from what a program has read once it has returned, one sees how long
the rows were at least. -/

namespace RowObjects

open GridRows

variable {K : Type}

/-! ### Rows cut off -/

def trim (cols : Nat) (m : Grid K) : Grid K := m.map (List.take cols)

theorem trim_rect_iff {m : Grid K} {rows cols : Nat} :
    Rect (trim cols m) rows cols ↔ m.length = rows ∧ ∀ row ∈ m, cols ≤ row.length := by
  constructor
  · rintro ⟨hlength, hrows⟩
    refine ⟨by rw [← hlength, trim, List.length_map], fun row hrow => ?_⟩
    have hcut := hrows _ (List.mem_map_of_mem hrow)
    rw [List.length_take] at hcut
    omega
  · rintro ⟨hlength, hrows⟩
    refine ⟨by rw [trim, List.length_map, hlength], fun row hrow => ?_⟩
    obtain ⟨whole, hmem, rfl⟩ := List.mem_map.mp hrow
    rw [List.length_take, Nat.min_eq_left (hrows whole hmem)]

theorem trim_of_rect {m : Grid K} {rows cols : Nat} (h : Rect m rows cols) : trim cols m = m := by
  refine (List.map_congr_left fun row hrow => ?_).trans (List.map_id m)
  exact List.take_of_length_le (h.row_length row hrow).le

theorem entry_trim [Zero K] (m : Grid K) (i : Nat) {j cols : Nat} (hj : j < cols) :
    entry (trim cols m) i j = entry m i j := by
  have hrow : (trim cols m).getD i [] = (m.getD i []).take cols := by
    simpa [trim] using List.getD_map (l := m) (d := []) (n := i) (List.take cols)
  calc entry (trim cols m) i j = ((m.getD i []).take cols).getD j 0 := by rw [entry, hrow]
    _ = (m.getD i [])[j]?.getD 0 := by rw [List.getD_eq_getElem?_getD, List.getElem?_take_of_lt hj]
    _ = entry m i j := (List.getD_eq_getElem?_getD).symm

theorem trim_setEntry (m : Grid K) (i j cols : Nat) (x : K) :
    trim cols (setEntry m i j x) = setEntry (trim cols m) i j x := by
  have hrow : (trim cols m).getD i [] = (m.getD i []).take cols := by
    simpa [trim] using List.getD_map (l := m) (d := []) (n := i) (List.take cols)
  rw [setEntry, setEntry, hrow, trim, List.map_set, List.take_set]
  rfl

/-- Where a row is long enough, the entry can be read. -/
theorem getElem?_of_trim_rect [Zero K] {m : Grid K} {rows cols i j : Nat} (h : Rect (trim cols m) rows cols)
    (hi : i < rows) (hj : j < cols) :
    ∃ row, m[i]? = some row ∧ row[j]? = some (entry (trim cols m) i j) ∧ j < row.length := by
  obtain ⟨hlength, hrows⟩ := trim_rect_iff.mp h
  have hlt : i < m.length := by rwa [hlength]
  have hrow := List.getElem?_eq_getElem hlt
  have hlen : j < m[i].length := Nat.lt_of_lt_of_le hj (hrows _ (List.getElem_mem hlt))
  have hx := List.getElem?_eq_getElem hlen
  exact ⟨m[i], hrow, by rw [hx, entry_trim m i hj, entry_of_getElem? hrow hx], hlen⟩

/-! ### Programs on longer rows -/

section Longer

variable {base : Heap K} {ref : Nat} {m : Grid K} {rows cols : Nat}

theorem Does.getItem_trim [Zero K] (h : Rect (trim cols m) rows cols) {i j : Nat} (hi : i < rows) (hj : j < cols) :
    Does base ref m (RowObjects.getItem ref i j) (entry (trim cols m) i j) m := by
  obtain ⟨row, hrow, hx, -⟩ := getElem?_of_trim_rect h hi hj
  exact Does.getItem_of hrow hx

theorem Does.setItem_trim [Zero K] (h : Rect (trim cols m) rows cols) {i j : Nat} (hi : i < rows) (hj : j < cols)
    (x : K) : Does base ref m (RowObjects.setItem ref i j x) () (setEntry m i j x) := by
  obtain ⟨row, hrow, -, hlt⟩ := getElem?_of_trim_rect h hi hj
  exact Does.setItem_of hrow hlt x

def updateItem (ref i j : Nat) (f : K → K) : Program K Unit := do
  let x ← RowObjects.getItem ref i j
  RowObjects.setItem ref i j (f x)

/-- A loop that assigns to one place of the copy after the other, each time from what stands there. -/
theorem Does.updateItems_trim [Zero K] {ι : Type} (row col : ι → Nat) (f : ι → K → K) {xs : List ι}
    (hplaces : ∀ x ∈ xs, row x < rows ∧ col x < cols) (h : Rect (trim cols m) rows cols) :
    ∃ m', Does base ref m (RowObjects.forEach (fun _ x => updateItem ref (row x) (col x) (f x)) xs ()) () m' ∧
      Rect (trim cols m') rows cols ∧
      trim cols m' = xs.foldl (fun t x => setEntry t (row x) (col x) (f x (entry t (row x) (col x))))
        (trim cols m) := by
  have hbody : ∀ (t : Grid K) (s : Unit) (m : Grid K) (x : ι), x ∈ xs →
      Rect (trim cols m) rows cols ∧ trim cols m = t → ∃ s' m',
        Does base ref m (updateItem ref (row x) (col x) (f x)) s' m' ∧ Rect (trim cols m') rows cols ∧
          trim cols m' = setEntry t (row x) (col x) (f x (entry t (row x) (col x))) := by
    rintro t s m x hx ⟨hrect, rfl⟩
    obtain ⟨hrow, hcol⟩ := hplaces x hx
    refine ⟨(), _, (Does.getItem_trim hrect hrow hcol).bind (Does.setItem_trim hrect hrow hcol _), ?_, ?_⟩
    · rw [trim_setEntry]
      exact hrect.setEntry _ _ _
    · rw [trim_setEntry]
  obtain ⟨⟨⟩, m', hdoes, hrect, heq⟩ := Does.forEach _ _ hbody (s := ()) ⟨h, rfl⟩
  exact ⟨m', hdoes, hrect, heq⟩

end Longer

/-! ### What a program has read -/

/-- Whenever the program returns, from a heap that holds `m`, it leaves a grid with rows of the same lengths, and
the condition holds of what it returns. -/
def Yields {α : Type} (base : Heap K) (ref : Nat) (m : Grid K) (program : Program K α) (Q : α → Prop) : Prop :=
  ∀ h, Holds base ref m h → ∀ a h', exec program h = (.ok a, h') →
    Q a ∧ ∃ m', Holds base ref m' h' ∧ m'.map List.length = m.map List.length

def Reaches (lengths : List Nat) (i j : Nat) : Prop := ∃ length, lengths[i]? = some length ∧ j < length

section Rules

variable {base : Heap K} {ref : Nat} {m : Grid K}

theorem Yields.pure {α : Type} {Q : α → Prop} {a : α} (h : Q a) : Yields base ref m (pure a) Q := by
  intro heap hold b heap' hexec
  obtain ⟨hok, rfl⟩ := Prod.mk.inj hexec
  obtain rfl := Except.ok.inj hok
  exact ⟨h, m, hold, rfl⟩

theorem Yields.throw {α : Type} {Q : α → Prop} (e : Fault) : Yields base ref m (throw e : Program K α) Q := by
  intro heap hold b heap' hexec
  cases (Prod.mk.inj hexec).1

theorem Yields.bind {α β : Type} {program : Program K α} {next : α → Program K β} {Q : α → Prop} {R : β → Prop}
    (hfirst : Yields base ref m program Q)
    (hnext : ∀ a m', m'.map List.length = m.map List.length → Q a → Yields base ref m' (next a) R) :
    Yields base ref m (program >>= next) R := by
  intro heap hold b heap'' hexec
  cases hrun : exec program heap with
  | mk outcome heap' =>
      cases outcome with
      | error e =>
          rw [exec_bind_error hrun] at hexec
          cases (Prod.mk.inj hexec).1
      | ok a =>
          rw [exec_bind_ok hrun] at hexec
          obtain ⟨hQ, m', hold', hsame⟩ := hfirst heap hold a heap' hrun
          obtain ⟨hR, m'', hold'', hsame'⟩ := hnext a m' hsame hQ heap' hold' b heap'' hexec
          exact ⟨hR, m'', hold'', hsame'.trans hsame⟩

theorem Yields.mono {α : Type} {program : Program K α} {Q R : α → Prop} (h : Yields base ref m program Q)
    (hle : ∀ a, Q a → R a) : Yields base ref m program R := by
  intro heap hold a heap' hexec
  obtain ⟨hQ, hrest⟩ := h heap hold a heap' hexec
  exact ⟨hle a hQ, hrest⟩

theorem Holds.rowAt_none {h : Heap K} (hold : Holds base ref m h) {i : Nat} (hi : m[i]? = none) :
    rowAt h ref i = .error .indexError := by
  obtain ⟨refs, hrefs, -, -, hrows⟩ := hold.own
  have hlength : refs.length = m.length := by
    rw [← List.length_map (f := fun r => h.rows[r]?), hrows, List.length_map]
  have hnone : refs[i]? = none := by
    rw [List.getElem?_eq_none_iff] at hi ⊢
    rwa [hlength]
  rw [rowAt, hrefs]
  simp only [hnone]

/-- What has been read stands in the grid. -/
theorem Holds.getItem_inv {h h' : Heap K} (hold : Holds base ref m h) {i j : Nat} {x : K}
    (hexec : exec (getItem ref i j) h = (.ok x, h')) :
    ∃ row, m[i]? = some row ∧ row[j]? = some x ∧ h' = h := by
  rw [getItem, exec_act] at hexec
  cases hrow : m[i]? with
  | none =>
      rw [hold.rowAt_none hrow] at hexec
      cases (Prod.mk.inj hexec).1
  | some row =>
      obtain ⟨r, hat, -⟩ := hold.row hrow
      rw [hat] at hexec
      cases hx : row[j]? with
      | none =>
          simp only [hx] at hexec
          cases (Prod.mk.inj hexec).1
      | some y =>
          simp only [hx] at hexec
          obtain ⟨hok, rfl⟩ := Prod.mk.inj hexec
          obtain rfl := Except.ok.inj hok
          exact ⟨row, rfl, hx, rfl⟩

/-- What has been assigned to was there. -/
theorem Holds.setItem_inv {h h' : Heap K} (hold : Holds base ref m h) {i j : Nat} {x : K} {u : Unit}
    (hexec : exec (setItem ref i j x) h = (.ok u, h')) :
    ∃ row, m[i]? = some row ∧ Holds base ref (m.set i (row.set j x)) h' := by
  rw [setItem, exec_act] at hexec
  cases hrow : m[i]? with
  | none =>
      rw [hold.rowAt_none hrow] at hexec
      cases (Prod.mk.inj hexec).1
  | some row =>
      obtain ⟨r, hat, -, hr⟩ := hold.row hrow
      rw [hat] at hexec
      by_cases hj : j < row.length
      · simp only [hj, if_true] at hexec
        obtain ⟨-, rfl⟩ := Prod.mk.inj hexec
        exact ⟨row, rfl, hold.setRow (row.set j x) hr⟩
      · simp only [hj, if_false] at hexec
        cases (Prod.mk.inj hexec).1

theorem Yields.getItem (i j : Nat) :
    Yields base ref m (getItem ref i j) fun _ => Reaches (m.map List.length) i j := by
  intro heap hold a heap' hexec
  obtain ⟨row, hrow, hx, rfl⟩ := hold.getItem_inv hexec
  refine ⟨⟨row.length, ?_, (List.getElem?_eq_some_iff.mp hx).1⟩, m, hold, rfl⟩
  rw [List.getElem?_map, hrow, Option.map_some]

theorem Yields.setItem (i j : Nat) (x : K) : Yields base ref m (setItem ref i j x) fun _ => True := by
  intro heap hold a heap' hexec
  obtain ⟨row, hrow, hold'⟩ := hold.setItem_inv hexec
  refine ⟨trivial, m.set i (row.set j x), hold', ?_⟩
  obtain ⟨hlt, rfl⟩ := List.getElem?_eq_some_iff.mp hrow
  rw [List.map_set, List.length_set, ← List.getElem_map List.length (h := by rwa [List.length_map]),
    List.set_getElem_self]

theorem Yields.divide [Div K] [Zero K] [DecidableEq K] (x y : K) :
    Yields base ref m (divide x y) fun _ => True := by
  rw [RowObjects.divide]
  split
  · exact .throw _
  · exact .pure trivial

/-- Every turn of a loop that has come to its end has returned. -/
theorem Yields.forEach {σ ι : Type} {body : σ → ι → Program K σ} {P : ι → Prop} {xs : List ι}
    (hbody : ∀ s m' x, x ∈ xs → m'.map List.length = m.map List.length →
      Yields base ref m' (body s x) fun _ => P x) (s : σ) :
    Yields base ref m (forEach body xs s) fun _ => ∀ x ∈ xs, P x := by
  induction xs generalizing m s with
  | nil => exact .pure nofun
  | cons x xs ih =>
      apply (hbody s m x List.mem_cons_self rfl).bind
      intro s' m' hsame hP
      have hrest := ih (m := m') (fun s'' m'' y hy hsame' =>
        hbody s'' m'' y (List.mem_cons_of_mem x hy) (hsame'.trans hsame)) s'
      exact hrest.mono fun _ hall => List.forall_mem_cons.mpr ⟨hP, hall⟩

/-- A loop whose turns only need to keep the lengths of the rows. -/
theorem Yields.forEach_keeps {σ ι : Type} {body : σ → ι → Program K σ} {xs : List ι}
    (hbody : ∀ s m' x, Yields base ref m' (body s x) fun _ => True) (s : σ) :
    Yields base ref m (RowObjects.forEach body xs s) fun _ => True :=
  (Yields.forEach (P := fun _ => True) (fun s m' x _ _ => hbody s m' x) s).mono fun _ _ => trivial

end Rules

/-- Rows that reach the last column are long enough. -/
theorem trim_rect_of_reaches {m : Grid K} {rows cols : Nat} (hlength : m.length = rows)
    (hreach : ∀ i, i < rows → 0 < cols → Reaches (m.map List.length) i (cols - 1)) :
    Rect (trim cols m) rows cols := by
  refine trim_rect_iff.mpr ⟨hlength, fun row hrow => ?_⟩
  obtain ⟨i, hi⟩ := List.mem_iff_getElem?.mp hrow
  rcases Nat.eq_zero_or_pos cols with rfl | hpos
  · exact Nat.zero_le _
  · have hlt : i < rows := by
      rw [← hlength]
      exact (List.getElem?_eq_some_iff.mp hi).1
    obtain ⟨length, hat, hlast⟩ := hreach i hlt hpos
    rw [List.getElem?_map, hi, Option.map_some] at hat
    obtain rfl := Option.some.inj hat
    omega

/-! ### Reading only -/

/-- `m[i][j]` of a matrix that nothing assigns to. -/
def item (m : Grid K) (i j : Nat) : Except Fault K :=
  match m[i]? with
  | none => .error .indexError
  | some row =>
      match row[j]? with
      | none => .error .indexError
      | some x => .ok x

theorem item_reaches {m : Grid K} {i j : Nat} {x : K} (h : item m i j = .ok x) :
    Reaches (m.map List.length) i j := by
  unfold item at h
  cases hrow : m[i]? with
  | none =>
      rw [hrow] at h
      cases h
  | some row =>
      cases hx : row[j]? with
      | none =>
          simp only [hrow, hx] at h
          cases h
      | some y =>
          refine ⟨row.length, ?_, (List.getElem?_eq_some_iff.mp hx).1⟩
          rw [List.getElem?_map, hrow, Option.map_some]

theorem item_of_trim_rect [Zero K] {m : Grid K} {rows cols i j : Nat} (h : Rect (trim cols m) rows cols)
    (hi : i < rows) (hj : j < cols) : item m i j = .ok (entry (trim cols m) i j) := by
  obtain ⟨row, hrow, hx, -⟩ := getElem?_of_trim_rect h hi hj
  simp only [item, hrow, hx]

end RowObjects
