import CalSci.TinyDbTable

/-! Each call of a `Table` that is the only one to write its table does to the documents what the specification says.
Two facts about the object carry this from call to call: the id it will give next is above all ids in the file, and
what it remembers of a search is what the search would find now. -/

namespace CalSci.TinyDb

variable {κ ν : Type} {order : List ℤ → List ℤ} {rows : Dict ℤ (Doc ν)}

/-! ### Reading -/

theorem mem_order (horder : ∀ keys, (order keys).Perm keys) {id : ℤ} : id ∈ order rows.keys ↔ view rows id ≠ none := by
  rw [(horder rows.keys).mem_iff, ← AList.mem_keys, mem_iff_view]

theorem mem_items (horder : ∀ keys, (order keys).Perm keys) {id : ℤ} {doc : Doc ν} :
    (id, doc) ∈ Opened.items order rows ↔ view rows id = some doc := by
  rw [Opened.items, List.mem_filterMap]
  constructor
  · rintro ⟨id', -, hdoc⟩
    rw [Option.map_eq_some_iff] at hdoc
    obtain ⟨doc', hdoc', heq⟩ := hdoc
    cases heq
    exact hdoc'
  · intro hdoc
    refine ⟨id, (mem_order horder).mpr (by rw [hdoc]; exact Option.some_ne_none doc), ?_⟩
    have hlookup : rows.lookup id = some doc := hdoc
    rw [hlookup, Option.map_some]

theorem items_map_fst (horder : ∀ keys, (order keys).Perm keys) :
    (Opened.items order rows).map Prod.fst = order rows.keys := by
  have hall : ∀ id ∈ order rows.keys, view rows id ≠ none := fun id hid => (mem_order horder).mp hid
  rw [Opened.items]
  revert hall
  generalize order rows.keys = keys
  intro hall
  induction keys with
  | nil => rfl
  | cons id ids ih =>
      rw [List.forall_mem_cons] at hall
      obtain ⟨doc, hdoc⟩ := Option.ne_none_iff_exists'.mp hall.1
      have hlookup : rows.lookup id = some doc := hdoc
      rw [List.filterMap_cons, hlookup, Option.map_some, List.map_cons, ih hall.2]

theorem nodup_order (horder : ∀ keys, (order keys).Perm keys) : (order rows.keys).Nodup :=
  (horder rows.keys).nodup_iff.mpr rows.keys_nodup

/-- The loop of `search`. -/
theorem matching_cases (test : Doc ν → Except Raised Bool) (docs : List (ℤ × Doc ν)) :
    (∃ hits, Opened.matching test docs = .ok hits ∧ hits.Sublist docs ∧ (∀ p ∈ docs, (test p.2).isOk = true) ∧
      ∀ p, p ∈ hits ↔ p ∈ docs ∧ test p.2 = .ok true) ∨
    ∃ e, ∃ p ∈ docs, test p.2 = .error e ∧ Opened.matching test docs = .error e := by
  induction docs with
  | nil => exact Or.inl ⟨[], rfl, List.Sublist.refl _, nofun, by simp⟩
  | cons doc docs ih =>
      rw [Opened.matching]
      cases htest : test doc.2 with
      | error e => exact Or.inr ⟨e, doc, List.mem_cons_self, htest, rfl⟩
      | ok hit =>
          obtain ⟨hits, hok, hsub, hall, hmem⟩ | ⟨e, p, hp, herror, hmatching⟩ := ih
          · refine Or.inl ⟨if hit then doc :: hits else hits, ?_, ?_, ?_, ?_⟩
            · rw [hok]
              rfl
            · split_ifs
              · exact hsub.cons_cons doc
              · exact hsub.cons doc
            · rw [List.forall_mem_cons]
              exact ⟨by rw [htest]; rfl, hall⟩
            · intro p
              rw [List.mem_cons]
              cases hit with
              | true =>
                  rw [if_pos rfl, List.mem_cons, hmem]
                  constructor
                  · rintro (rfl | ⟨hp, hptest⟩)
                    · exact ⟨Or.inl rfl, htest⟩
                    · exact ⟨Or.inr hp, hptest⟩
                  · rintro ⟨rfl | hp, hptest⟩
                    · exact Or.inl rfl
                    · exact Or.inr ⟨hp, hptest⟩
              | false =>
                  rw [if_neg Bool.false_ne_true, hmem]
                  constructor
                  · rintro ⟨hp, hptest⟩
                    exact ⟨Or.inr hp, hptest⟩
                  · rintro ⟨rfl | hp, hptest⟩
                    · rw [htest] at hptest
                      cases hptest
                    · exact ⟨hp, hptest⟩
          · refine Or.inr ⟨e, p, List.mem_cons_of_mem _ hp, herror, ?_⟩
            rw [hmatching]
            rfl

theorem matching_spec (horder : ∀ keys, (order keys).Perm keys) (cond : QueryInstance κ ν) :
    SearchSpec (view rows) cond (Opened.matching cond.test (Opened.items order rows)) := by
  obtain ⟨hits, hok, hsub, hall, hmem⟩ | ⟨e, p, hp, herror, hmatching⟩ :=
    matching_cases cond.test (Opened.items order rows)
  · refine Or.inl ⟨hits, hok, ?_, ?_, ?_⟩
    · have hnodup : ((Opened.items order rows).map Prod.fst).Nodup := by
        rw [items_map_fst horder]
        exact nodup_order horder
      exact (hsub.map Prod.fst).nodup hnodup
    · intro id doc hdoc
      exact hall (id, doc) ((mem_items horder).mpr hdoc)
    · intro id doc
      rw [hmem, mem_items horder]
  · exact Or.inr ⟨e, p.1, p.2, (mem_items horder).mp hp, herror, hmatching⟩

/-- The loop of `get`. -/
theorem first_cases (test : Doc ν → Except Raised Bool) (docs : List (ℤ × Doc ν)) :
    (Opened.first test docs = .ok none ∧ ∀ p ∈ docs, test p.2 = .ok false) ∨
    (∃ p ∈ docs, Opened.first test docs = .ok (some p) ∧ test p.2 = .ok true) ∨
    ∃ e, ∃ p ∈ docs, Opened.first test docs = .error e ∧ test p.2 = .error e := by
  induction docs with
  | nil => exact Or.inl ⟨rfl, nofun⟩
  | cons doc docs ih =>
      rw [Opened.first]
      cases htest : test doc.2 with
      | error e => exact Or.inr (Or.inr ⟨e, doc, List.mem_cons_self, rfl, htest⟩)
      | ok hit =>
          cases hit with
          | true => exact Or.inr (Or.inl ⟨doc, List.mem_cons_self, rfl, htest⟩)
          | false =>
              obtain ⟨hnone, hall⟩ | ⟨p, hp, hsome, hptest⟩ | ⟨e, p, hp, herror, hptest⟩ := ih
              · refine Or.inl ⟨hnone, ?_⟩
                rw [List.forall_mem_cons]
                exact ⟨htest, hall⟩
              · exact Or.inr (Or.inl ⟨p, List.mem_cons_of_mem _ hp, hsome, hptest⟩)
              · exact Or.inr (Or.inr ⟨e, p, List.mem_cons_of_mem _ hp, herror, hptest⟩)

theorem get_spec (horder : ∀ keys, (order keys).Perm keys) (o : Opened κ ν) (cond : Option (QueryInstance κ ν))
    (docId : Option ℤ) : GetSpec (view o.rows) (o.get order cond docId) cond docId := by
  cases docId with
  | some id =>
      cases cond <;> rfl
  | none =>
      cases cond with
      | none => rfl
      | some cond =>
          obtain ⟨hnone, hall⟩ | ⟨p, hp, hsome, hptest⟩ | ⟨e, p, hp, herror, hptest⟩ :=
            first_cases cond.test (Opened.items order o.rows)
          · exact Or.inl ⟨hnone, fun id doc hdoc => hall (id, doc) ((mem_items horder).mpr hdoc)⟩
          · exact Or.inr (Or.inl ⟨p.1, p.2, hsome, (mem_items horder).mp hp, hptest⟩)
          · exact Or.inr (Or.inr ⟨e, p.1, p.2, herror, (mem_items horder).mp hp, hptest⟩)

/-! ### Ids -/

/-- Taking documents away keeps an id above all. -/
theorem AboveAll.mono {M M' : View ν} {n : ℤ} (h : AboveAll M n) (hsub : ∀ id, M id = none → M' id = none) :
    AboveAll M' n := fun id hid => h id fun hnone => hid (hsub id hnone)

theorem AboveAll.le {M : View ν} {n m : ℤ} (h : AboveAll M n) (hle : n ≤ m) : AboveAll M m :=
  fun id hid => (h id hid).trans_le hle

theorem AboveAll.none {M : View ν} {n : ℤ} (h : AboveAll M n) : M n = none := by
  by_contra hne
  exact lt_irrefl n (h n hne)

theorem AboveAll.update {M : View ν} {n : ℤ} (h : AboveAll M n) (doc : Doc ν) :
    AboveAll (Function.update M n (some doc)) (n + 1) := by
  intro id hid
  by_cases heq : id = n
  · omega
  · rw [Function.update_of_ne heq] at hid
    have hlt := h id hid
    omega

theorem AboveAll.placed {M : View ν} {n : ℤ} (h : AboveAll M n) (given : List (Mapping ν)) :
    AboveAll (placed M n given) (n + given.length) := by
  induction given generalizing M n with
  | nil =>
      have hzero : n + (([] : List (Mapping ν)).length : ℤ) = n := Int.add_zero n
      rw [hzero]
      exact h
  | cons document given ih =>
      have hrest := ih (h.update document.doc)
      have hlen : n + ((document :: given).length : ℤ) = n + 1 + given.length := by
        rw [List.length_cons]
        omega
      rw [hlen]
      exact hrest

/-- The id an object gives next is above all, when the one it remembers is. -/
theorem getNextId_above {nextId : Option ℤ} (h : ∀ n, nextId = some n → AboveAll (view rows) n) :
    AboveAll (view rows) (getNextId rows nextId).1 := by
  cases nextId with
  | some n => exact h n rfl
  | none =>
      rw [getNextId]
      intro id hid
      have hmem : id ∈ rows.keys := AList.mem_keys.mp (mem_iff_view.mpr hid)
      cases hmax : rows.keys.max? with
      | none =>
          rw [List.max?_eq_none_iff] at hmax
          rw [hmax] at hmem
          cases hmem
      | some maxId =>
          have hle := (List.max?_eq_some_iff.mp hmax).2 id hmem
          dsimp only
          omega

theorem getNextId_snd (nextId : Option ℤ) : (getNextId rows nextId).2 = some ((getNextId rows nextId).1 + 1) := by
  cases nextId with
  | some n => rfl
  | none =>
      rw [getNextId]
      cases rows.keys.max? <;> rfl

/-- The loop of `insert_multiple`. -/
theorem insertLoop_cases (rows : Dict ℤ (Doc ν)) (documents : List (Option (Mapping ν))) (nextId : Option ℤ) (table : Dict ℤ (Doc ν))
    (ids : List ℤ) :
    (∃ given table', documents = given.map some ∧
      Opened.insertLoop rows documents nextId table ids =
        (if given = [] then nextId else some ((getNextId rows nextId).1 + given.length),
          .ok (table', ids ++ (List.range given.length).map fun k : ℕ => (getNextId rows nextId).1 + k)) ∧
      view table' = placed (view table) (getNextId rows nextId).1 given) ∨
    (none ∈ documents ∧ ∃ nextId', Opened.insertLoop rows documents nextId table ids =
        (nextId', .error (.valueError "Document is not a Mapping")) ∧
      (nextId' = nextId ∨ ∃ n, (getNextId rows nextId).1 ≤ n ∧ nextId' = some n)) := by
  induction documents generalizing nextId table ids with
  | nil => exact Or.inl ⟨[], table, rfl, by simp [Opened.insertLoop], rfl⟩
  | cons document documents ih =>
      cases document with
      | none => exact Or.inr ⟨List.mem_cons_self, nextId, rfl, Or.inl rfl⟩
      | some document =>
          rw [Opened.insertLoop]
          dsimp only
          rw [getNextId_snd]
          generalize (getNextId rows nextId).1 = n
          have hnext : (getNextId rows (some (n + 1))).1 = n + 1 := rfl
          obtain ⟨given, table', rfl, hloop, hview⟩ | ⟨hnone, nextId', hloop, hnextId'⟩ :=
            ih (some (n + 1)) (table.insert n document.doc) (ids ++ [n])
          · refine Or.inl ⟨document :: given, table', rfl, ?_, ?_⟩
            · have hlast : (if given = [] then some (n + 1) else some (n + 1 + (given.length : ℤ))) =
                  some (n + ((document :: given).length : ℤ)) := by
                rw [List.length_cons]
                split_ifs with hgiven
                · rw [hgiven]
                  rfl
                · congr 1
                  omega
              have hids : ids ++ [n] ++ (List.range given.length).map (fun k : ℕ => n + 1 + (k : ℤ)) =
                  ids ++ (List.range (document :: given).length).map (fun k : ℕ => n + (k : ℤ)) := by
                rw [List.length_cons, List.range_succ_eq_map, List.map_cons, List.map_map, List.append_assoc,
                  List.singleton_append]
                congr 1
                refine List.cons_eq_cons.mpr ⟨(Int.add_zero n).symm, List.map_congr_left fun k _ => ?_⟩
                simp only [Function.comp_apply]
                omega
              rw [hloop, hnext, hlast, hids, if_neg (List.cons_ne_nil _ _)]
            · rw [hview, hnext, view_insert]
              rfl
          · refine Or.inr ⟨List.mem_cons_of_mem _ hnone, nextId', hloop, Or.inr ?_⟩
            obtain rfl | ⟨m, hle, rfl⟩ := hnextId'
            · exact ⟨n + 1, by omega, rfl⟩
            · rw [hnext] at hle
              exact ⟨m, by omega, rfl⟩

/-! ### The object from call to call -/

theorem readTable_writeTable (file : File ν) (name : String) (rows : Dict ℤ (Doc ν)) :
    readTable (writeTable file name rows) name = rows := by
  rw [writeTable, readTable, AList.lookup_insert, Option.getD_some]

theorem readTable_writeTable_of_ne (file : File ν) {name other : String} (hother : other ≠ name)
    (rows : Dict ℤ (Doc ν)) : readTable (writeTable file name rows) other = readTable file other := by
  rw [writeTable, readTable, AList.lookup_insert_ne hother]
  cases file with
  | none => rfl
  | some tables => rfl

/-- What an object relies on: its next id is above all ids, and what it remembers of a search is what it would find.
`meaning` is the test behind a hash. -/
structure Tracks (order : List ℤ → List ℤ) (meaning : κ → Doc ν → Except Raised Bool) (o : Opened κ ν) : Prop where
  fresh : ∀ n, o.table.nextId = some n → AboveAll (view o.rows) n
  coherent : ∀ e ∈ o.table.queryCache.cache, Opened.matching (meaning e.1) (Opened.items order o.rows) = .ok e.2

/-- What a call leaves alone: the name of the table, and every other table of the file. -/
def Elsewhere (o o' : Opened κ ν) : Prop :=
  o'.table.name = o.table.name ∧ ∀ name, name ≠ o.table.name → readTable o'.file name = readTable o.file name

theorem Elsewhere.refl (o : Opened κ ν) : Elsewhere o o := ⟨rfl, fun _ _ => rfl⟩

theorem Elsewhere.trans {o o' o'' : Opened κ ν} (h : Elsewhere o o') (h' : Elsewhere o' o'') : Elsewhere o o'' := by
  refine ⟨h'.1.trans h.1, fun name hname => ?_⟩
  rw [h'.2 name (by rwa [h.1]), h.2 name hname]

variable {meaning : κ → Doc ν → Except Raised Bool} {o : Opened κ ν} {α : Type}

/-- The object with another next id. -/
theorem Tracks.next (h : Tracks order meaning o) (nextId : Option ℤ)
    (hnext : ∀ n, nextId = some n → AboveAll (view o.rows) n) :
    Tracks order meaning { o with table := { o.table with nextId } } := ⟨hnext, h.coherent⟩

/-- The object after a write: it has forgotten its searches. -/
def Opened.written (o : Opened κ ν) (rows : Dict ℤ (Doc ν)) : Opened κ ν :=
  ⟨{ o.table with queryCache := o.table.queryCache.clear }, writeTable o.file o.table.name rows⟩

theorem updateTable_ok {updater : Dict ℤ (Doc ν) → Except Raised (Dict ℤ (Doc ν) × α)} {rows : Dict ℤ (Doc ν)} {a : α}
    (hok : updater o.rows = .ok (rows, a)) : o.updateTable updater = (.ok a, o.written rows) := by
  rw [Opened.updateTable, hok]
  rfl

theorem updateTable_error {updater : Dict ℤ (Doc ν) → Except Raised (Dict ℤ (Doc ν) × α)} {e : Raised}
    (herror : updater o.rows = .error e) : o.updateTable updater = (.error e, o) := by
  rw [Opened.updateTable, herror]

theorem rows_written (o : Opened κ ν) (rows : Dict ℤ (Doc ν)) : (o.written rows).rows = rows :=
  readTable_writeTable o.file o.table.name rows

/-- A write of documents below the next id. -/
theorem Tracks.written {rows : Dict ℤ (Doc ν)} (hbelow : ∀ n, o.table.nextId = some n → AboveAll (view rows) n) :
    Tracks order meaning (o.written rows) := by
  refine ⟨?_, nofun⟩
  rw [rows_written]
  exact hbelow

theorem elsewhere_written (o : Opened κ ν) (rows : Dict ℤ (Doc ν)) : Elsewhere o (o.written rows) :=
  ⟨rfl, fun _ hname => readTable_writeTable_of_ne o.file hname rows⟩

/-- A call of an object went as it should: it did to the documents what `spec` says, the object can be used further,
and the other tables are as they were. -/
structure Done (order : List ℤ → List ℤ) (meaning : κ → Doc ν → Except Raised Bool) (o : Opened κ ν)
    (result : Except Raised α × Opened κ ν) (spec : Except Raised α → View ν → Prop) : Prop where
  meets : spec result.1 (view result.2.rows)
  tracks : Tracks order meaning result.2
  elsewhere : Elsewhere o result.2

/-- `_update_table`, for an updater that raises or gives documents below the next id. -/
theorem updateTable_done {updater : Dict ℤ (Doc ν) → Except Raised (Dict ℤ (Doc ν) × α)} (h : Tracks order meaning o)
    {spec : Except Raised α → View ν → Prop}
    (hupdater : (∃ rows a, updater o.rows = .ok (rows, a) ∧ spec (.ok a) (view rows) ∧
        ∀ n, o.table.nextId = some n → AboveAll (view rows) n) ∨
      ∃ e, updater o.rows = .error e ∧ spec (.error e) (view o.rows)) :
    Done order meaning o (o.updateTable updater) spec := by
  obtain ⟨rows, a, hok, hspec, hbelow⟩ | ⟨e, herror, hspec⟩ := hupdater
  · rw [updateTable_ok hok]
    refine ⟨?_, Tracks.written hbelow, elsewhere_written o rows⟩
    rw [rows_written]
    exact hspec
  · rw [updateTable_error herror]
    exact ⟨hspec, h, Elsewhere.refl o⟩

/-- A sweep takes documents away at most. -/
theorem Sweep.sub {M M' : View ν} {treat : Treatment ν} {r : Except Raised (List ℤ)} (h : Sweep M treat r M') :
    ∀ id, M id = none → M' id = none := by
  obtain ⟨ids, -, heach⟩ | ⟨e, id, doc, -, -, -, rfl⟩ := h
  · exact fun id hid => ((heach id).1 hid).1
  · exact fun id hid => hid

theorem sweep_done (horder : ∀ keys, (order keys).Perm keys) (h : Tracks order meaning o) {treat : Treatment ν}
    {turn : Dict ℤ (Doc ν) × List ℤ → ℤ → Except Raised (Dict ℤ (Doc ν) × List ℤ)} (hturns : Turns treat turn) :
    Done order meaning o (o.updateTable fun table => (order table.keys).foldlM turn (table, []))
      (Sweep (view o.rows) treat) := by
  apply updateTable_done h
  obtain ⟨rows, ids, hok, hsweep⟩ | ⟨e, herror, hsweep⟩ := hturns.sweep horder o.rows
  · exact Or.inl ⟨rows, ids, hok, hsweep, fun n hn => (h.fresh n hn).mono hsweep.sub⟩
  · exact Or.inr ⟨e, herror, hsweep⟩

/-- A turn of a loop over given ids that puts no document where none was. -/
theorem Listed.sub {M M' : View ν} {turn : View ν → ℤ → Except Raised (View ν)} {ids : List ℤ}
    {r : Except Raised (List ℤ)}
    (hturn : ∀ M M' id, turn M id = .ok M' → ∀ j, M j = none → M' j = none) (h : Listed M turn ids r M') :
    ∀ id, M id = none → M' id = none := by
  unfold Listed at h
  cases hfold : ids.foldlM turn M with
  | error e =>
      rw [hfold] at h
      rw [h.2]
      exact fun id hid => hid
  | ok M'' =>
      rw [hfold] at h
      rw [h.2]
      clear h
      induction ids generalizing M with
      | nil =>
          cases hfold
          exact fun id hid => hid
      | cons id ids ih =>
          rw [List.foldlM_cons] at hfold
          obtain ⟨M₁, hM₁, hrest⟩ := Runs.ok_of_bind hfold
          exact fun j hj => ih hrest j (hturn M M₁ id hM₁ j hj)

theorem performAt_sub {fields : Fields ν} {M M' : View ν} {id : ℤ} (h : performAt fields M id = .ok M') :
    ∀ j, M j = none → M' j = none := by
  intro j hj
  unfold performAt at h
  cases hdoc : M id with
  | none =>
      rw [hdoc] at h
      cases h
  | some doc =>
      rw [hdoc] at h
      obtain ⟨changed, -, hM'⟩ := Runs.ok_of_bind h
      cases hM'
      have hne : j ≠ id := by
        rintro rfl
        rw [hj] at hdoc
        cases hdoc
      rw [Function.update_of_ne hne, hj]

theorem popAt_sub {M M' : View ν} {id : ℤ} (h : popAt M id = .ok M') : ∀ j, M j = none → M' j = none := by
  intro j hj
  unfold popAt at h
  cases hdoc : M id with
  | none =>
      rw [hdoc] at h
      cases h
  | some doc =>
      rw [hdoc] at h
      cases h
      by_cases hne : j = id
      · rw [hne, Function.update_self]
      · rw [Function.update_of_ne hne, hj]

theorem listed_done (h : Tracks order meaning o) {turn : Dict ℤ (Doc ν) → ℤ → Except Raised (Dict ℤ (Doc ν))}
    {step : View ν → ℤ → Except Raised (View ν)} (hview : ∀ rows id, (turn rows id).map view = step (view rows) id)
    (hstep : ∀ M M' id, step M id = .ok M' → ∀ j, M j = none → M' j = none) (ids : List ℤ) :
    Done order meaning o (o.updateTable fun table => do
      let table ← ids.foldlM turn table
      pure (table, ids)) (Listed (view o.rows) step ids) := by
  apply updateTable_done h
  obtain ⟨rows, hok, hlisted⟩ | ⟨e, herror, hlisted⟩ := listed_spec hview ids o.rows
  · refine Or.inl ⟨rows, ids, ?_, hlisted, fun n hn => (h.fresh n hn).mono (hlisted.sub hstep)⟩
    rw [hok]
    rfl
  · refine Or.inr ⟨e, ?_, hlisted⟩
    rw [herror]
    rfl

/-! ### The calls one by one -/

/-- A call as its answer. -/
theorem Done.answered {f : α → Answer ν} {result : Except Raised α × Opened κ ν} {spec : Except Raised α → View ν → Prop}
    (h : Done order meaning o result spec) :
    Done order meaning o (answered f result) fun r M' => ∃ r', r = r'.map f ∧ spec r' M' :=
  ⟨⟨result.1, rfl, h.meets⟩, h.tracks, h.elsewhere⟩

/-- A call that reads the documents and leaves the object alone. -/
theorem Tracks.reads (h : Tracks order meaning o) {r : Except Raised α} {spec : Except Raised α → View ν → Prop}
    (hspec : spec r (view o.rows)) : Done order meaning o (r, o) spec := ⟨hspec, h, Elsewhere.refl o⟩

/-- `_update_table` after the object has taken another next id. -/
theorem updateTable_next_done {updater : Dict ℤ (Doc ν) → Except Raised (Dict ℤ (Doc ν) × α)}
    (h : Tracks order meaning o) {nextId : Option ℤ} (hnext : ∀ n, nextId = some n → AboveAll (view o.rows) n)
    {spec : Except Raised α → View ν → Prop}
    (hupdater : (∃ rows a, updater o.rows = .ok (rows, a) ∧ spec (.ok a) (view rows) ∧
        ∀ n, nextId = some n → AboveAll (view rows) n) ∨
      ∃ e, updater o.rows = .error e ∧ spec (.error e) (view o.rows)) :
    Done order meaning o (Opened.updateTable { o with table := { o.table with nextId } } updater) spec := by
  have hdone := updateTable_done (h.next nextId hnext) hupdater
  exact ⟨hdone.meets, hdone.tracks, hdone.elsewhere⟩

/-- `insert` with an id. -/
theorem insert_some (o : Opened κ ν) (document : Mapping ν) :
    o.insert (some document) = Opened.updateTable
      { o with table := { o.table with
          nextId := match document with
            | .document _ _ => none
            | .plain _ => (getNextId o.rows o.table.nextId).2 } }
      fun table =>
        let docId := match document with
          | .document docId _ => docId
          | .plain _ => (getNextId o.rows o.table.nextId).1
        if docId ∈ table then .error (.assertionError docId) else .ok (table.insert docId document.doc, docId) := by
  cases document <;> rfl

theorem insert_done (h : Tracks order meaning o) (document : Option (Mapping ν)) :
    Done order meaning o (o.insert document) fun r M' => InsertSpec (view o.rows) r M' document := by
  cases document with
  | none => exact h.reads ⟨rfl, rfl⟩
  | some document =>
      cases document with
      | plain doc =>
          have habove := getNextId_above h.fresh
          have hmem : (getNextId o.rows o.table.nextId).1 ∉ o.rows := by
            rw [mem_iff_view, habove.none]
            exact fun hne => hne rfl
          rw [insert_some]
          refine updateTable_next_done h ?_ (Or.inl ⟨_, _, if_neg hmem, ?_, ?_⟩)
          · intro n hn
            rw [getNextId_snd] at hn
            rw [← Option.some.inj hn]
            exact habove.le (by omega)
          · exact ⟨_, habove, rfl, view_insert _ _ _⟩
          · intro n hn
            rw [getNextId_snd] at hn
            rw [← Option.some.inj hn, view_insert]
            exact habove.update doc
      | document id doc =>
          rw [insert_some]
          refine updateTable_next_done h ?_ ?_
          · intro n hn
            cases hn
          by_cases hmem : id ∈ o.rows
          · exact Or.inr ⟨_, if_pos hmem, Or.inr ⟨mem_iff_view.mp hmem, rfl, rfl⟩⟩
          · have hnone : view o.rows id = none := by
              by_contra hne
              exact hmem (mem_iff_view.mpr hne)
            exact Or.inl ⟨_, _, if_neg hmem, Or.inl ⟨hnone, rfl, view_insert _ _ _⟩, fun n hn => nomatch hn⟩

theorem insertMultiple_done (h : Tracks order meaning o) (documents : List (Option (Mapping ν))) :
    Done order meaning o (o.insertMultiple documents) fun r M' =>
      (∃ given id, documents = given.map some ∧ AboveAll (view o.rows) id ∧
        r = .ok ((List.range given.length).map fun k : ℕ => id + (k : ℤ)) ∧ M' = placed (view o.rows) id given) ∨
      (none ∈ documents ∧ r = .error (.valueError "Document is not a Mapping") ∧ M' = view o.rows) := by
  have habove := getNextId_above h.fresh
  rw [Opened.insertMultiple]
  obtain ⟨given, rows, rfl, hloop, hview⟩ | ⟨hnone, nextId, hloop, hnextId⟩ :=
    insertLoop_cases o.rows documents o.table.nextId o.rows []
  · rw [hloop]
    refine updateTable_next_done h ?_ (Or.inl ⟨rows, _, rfl, ?_, ?_⟩)
    · intro n hn
      split_ifs at hn
      · exact h.fresh n hn
      · rw [← Option.some.inj hn]
        exact habove.le (by omega)
    · exact Or.inl ⟨given, _, rfl, habove, rfl, hview⟩
    · intro n hn
      rw [hview]
      split_ifs at hn with hgiven
      · rw [hgiven]
        exact h.fresh n hn
      · rw [← Option.some.inj hn]
        exact habove.placed given
  · rw [hloop]
    refine updateTable_next_done h ?_ (Or.inr ⟨_, rfl, Or.inr ⟨hnone, rfl, rfl⟩⟩)
    intro n hn
    obtain rfl | ⟨m, hle, rfl⟩ := hnextId
    · exact h.fresh n hn
    · rw [← Option.some.inj hn]
      exact habove.le hle

/-- After a miss, `set` adds the entry and may drop the oldest. -/
theorem mem_set [DecidableEq κ] {ε : Type} {c : LRUCache κ ε} {key : κ} {value : List ε}
    (hmiss : c.cache.find key = none) {e : κ × List ε} (he : e ∈ (c.set key value).cache) :
    e ∈ c.cache ∨ e = (key, value) := by
  have hassign : LRUCache.assign c.cache key value = c.cache ++ [(key, value)] := by
    rw [LRUCache.assign, hmiss]
    rfl
  have hmem : e ∈ c.cache ++ [(key, value)] := by
    simp only [LRUCache.set, hmiss, hassign] at he
    cases hcapacity : c.capacity with
    | none =>
        rw [hcapacity] at he
        exact he
    | some capacity =>
        rw [hcapacity] at he
        dsimp only at he
        split_ifs at he
        · exact List.mem_of_mem_drop he
        · exact he
  rwa [List.mem_append, List.mem_singleton] at hmem

/-- The object with another cache. -/
theorem Tracks.recache (h : Tracks order meaning o) (queryCache : LRUCache κ (ℤ × Doc ν))
    (hcoherent : ∀ e ∈ queryCache.cache, Opened.matching (meaning e.1) (Opened.items order o.rows) = .ok e.2)
    {r : Except Raised α} {spec : Except Raised α → View ν → Prop} (hspec : spec r (view o.rows)) :
    Done order meaning o (r, { o with table := { o.table with queryCache } }) spec :=
  ⟨hspec, ⟨h.fresh, hcoherent⟩, rfl, fun _ _ => rfl⟩

/-- Searching gives what the documents give now, whether it is remembered or not. -/
theorem search_done [DecidableEq κ] (horder : ∀ keys, (order keys).Perm keys) (h : Tracks order meaning o)
    {cond : QueryInstance κ ν} (hcond : cond.test = meaning cond.hash) :
    Done order meaning o (o.search order cond) fun r M' => M' = view o.rows ∧ SearchSpec (view o.rows) cond r := by
  have hspec : SearchSpec (view o.rows) cond (Opened.matching cond.test (Opened.items order o.rows)) :=
    matching_spec horder cond
  unfold Opened.search LRUCache.get
  cases hfind : o.table.queryCache.cache.find cond.hash with
  | some docs =>
      have hdocs : Opened.matching cond.test (Opened.items order o.rows) = .ok docs := by
        rw [hcond]
        exact h.coherent _ (QueryCache.Cache.mem_of_find hfind)
      refine h.recache _ ?_ ⟨rfl, hdocs ▸ hspec⟩
      intro e he
      rcases List.mem_append.mp he with hold | hnew
      · exact h.coherent e (List.mem_of_mem_filter hold)
      · rw [List.mem_singleton.mp hnew, ← hcond]
        exact hdocs
  | none =>
      cases hmatching : Opened.matching cond.test (Opened.items order o.rows) with
      | error e =>
          exact h.recache _ h.coherent ⟨rfl, hmatching ▸ hspec⟩
      | ok docs =>
          refine h.recache _ ?_ ⟨rfl, hmatching ▸ hspec⟩
          intro e he
          obtain hold | rfl := mem_set hfind he
          · exact h.coherent e hold
          · rw [← hcond]
            exact hmatching

theorem update_done (horder : ∀ keys, (order keys).Perm keys) (h : Tracks order meaning o) (fields : Fields ν)
    (cond : Option (QueryInstance κ ν)) (docIds : Option (List ℤ)) :
    Done order meaning o (o.update order fields cond docIds) (UpdateSpec (view o.rows) fields cond docIds) := by
  cases docIds with
  | some ids => exact listed_done h (performUpdate_view fields) (fun _ _ _ => performAt_sub) ids
  | none => exact sweep_done horder h (turns_updateWhere cond fields)

/-- The insertion at the end of `upsert`. -/
theorem insert_after {o₁ : Opened κ ν} (htracks : Tracks order meaning o₁) (helsewhere : Elsewhere o o₁)
    (document : Mapping ν) {spec : Except Raised (List ℤ) → View ν → Prop}
    (hspec : ∀ r M', InsertSpec (view o₁.rows) r M' (some document) → spec (r.map fun docId => [docId]) M') :
    Done order meaning o ((o₁.insert (some document)).1.map (fun docId => [docId]), (o₁.insert (some document)).2) spec := by
  have hinsert := insert_done htracks (some document)
  exact ⟨hspec _ _ hinsert.meets, hinsert.tracks, helsewhere.trans hinsert.elsewhere⟩

theorem upsert_done (horder : ∀ keys, (order keys).Perm keys) (h : Tracks order meaning o) (document : Mapping ν)
    (cond : Option (QueryInstance κ ν)) :
    Done order meaning o (o.upsert order document cond) fun r M' => UpsertSpec (view o.rows) r M' document cond := by
  cases document with
  | plain doc =>
      cases cond with
      | none => exact h.reads ⟨rfl, rfl⟩
      | some cond =>
          rw [Opened.upsert]
          have hupdate := update_done horder h (.data doc) (some cond) none
          generalize o.update order (.data doc) (some cond) none = result at hupdate ⊢
          obtain ⟨found, o₁⟩ := result
          have hinsert : found = .ok [] ∨ found = .error .keyError →
              Done order meaning o ((o₁.insert (some (.plain doc))).1.map (fun docId => [docId]),
                (o₁.insert (some (.plain doc))).2)
                fun r M' => UpsertSpec (view o.rows) r M' (.plain doc) (some cond) := by
            intro hfound
            apply insert_after hupdate.tracks hupdate.elsewhere (.plain doc)
            rintro r M' ⟨id, habove, rfl, hM'⟩
            exact ⟨found, view o₁.rows, hupdate.meets, Or.inl ⟨hfound, id, rfl, id, habove, rfl, hM'⟩⟩
          have hkeep : found ≠ .ok [] → found ≠ .error .keyError →
              Done order meaning o (found, o₁) fun r M' => UpsertSpec (view o.rows) r M' (.plain doc) (some cond) :=
            fun hnil hkey => ⟨⟨found, view o₁.rows, hupdate.meets, Or.inr ⟨hnil, hkey, rfl, rfl⟩⟩, hupdate.tracks,
              hupdate.elsewhere⟩
          match found with
          | .ok [] => exact hinsert (Or.inl rfl)
          | .ok (id :: ids) => exact hkeep (by simp) (by simp)
          | .error .keyError => exact hinsert (Or.inr rfl)
          | .error (.valueError text) => exact hkeep (by simp) (by simp)
          | .error (.runtimeError text) => exact hkeep (by simp) (by simp)
          | .error (.assertionError id) => exact hkeep (by simp) (by simp)
          | .error (.raised text) => exact hkeep (by simp) (by simp)
  | document id doc =>
      rw [Opened.upsert]
      have hupdate := update_done horder h (.data doc) cond (some [id])
      generalize o.update order (.data doc) cond (some [id]) = result at hupdate ⊢
      obtain ⟨found, o₁⟩ := result
      have hlisted : Listed (view o.rows) (performAt (.data doc)) [id] found (view o₁.rows) := hupdate.meets
      rw [Listed, List.foldlM_cons, performAt] at hlisted
      cases hold : view o.rows id with
      | some old =>
          rw [hold] at hlisted
          obtain ⟨rfl, hview⟩ := hlisted
          refine ⟨⟨rfl, ?_⟩, hupdate.tracks, hupdate.elsewhere⟩
          rw [hold]
          exact hview
      | none =>
          rw [hold] at hlisted
          obtain ⟨rfl, hview⟩ := hlisted
          apply insert_after hupdate.tracks hupdate.elsewhere (.document id doc)
          rw [hview]
          rintro r M' (⟨-, rfl, hM'⟩ | ⟨hne, -, -⟩)
          · refine ⟨rfl, ?_⟩
            rw [hold]
            exact hM'
          · exact absurd hold hne

theorem remove_done (horder : ∀ keys, (order keys).Perm keys) (h : Tracks order meaning o) (cond : QueryInstance κ ν)
    (docIds : Option (List ℤ)) :
    Done order meaning o (o.remove order (some cond) docIds) (Sweep (view o.rows) (Treatment.remove cond)) :=
  sweep_done horder h (turns_removeWhere cond)

theorem truncate_done (o : Opened κ ν) :
    Done order meaning o o.truncate fun r M' => r = .ok () ∧ M' = fun _ => none := by
  refine ⟨⟨rfl, ?_⟩, ⟨nofun, nofun⟩, rfl, fun name hname => readTable_writeTable_of_ne o.file hname ∅⟩
  exact congrArg view (rows_written o ∅)

/-- The queries of a call mean what their hash says. -/
def Call.Means (meaning : κ → Doc ν → Except Raised Bool) : Call κ ν → Prop
  | .search cond => cond.test = meaning cond.hash
  | .count cond => cond.test = meaning cond.hash
  | _ => True

/-- Every call does what the specification says. -/
theorem call_done [DecidableEq κ] (horder : ∀ keys, (order keys).Perm keys) (h : Tracks order meaning o) (c : Call κ ν)
    (hc : c.Means meaning) : Done order meaning o (o.call order c) fun r M' => c.Spec (view o.rows) r M' := by
  cases c with
  | insert document => exact (insert_done h document).answered
  | insertMultiple documents =>
      have hdone := (insertMultiple_done h documents).answered (f := .ids)
      refine ⟨?_, hdone.tracks, hdone.elsewhere⟩
      obtain ⟨r, hr, ⟨given, id, hgiven, habove, rfl, hM'⟩ | ⟨hnone, rfl, hM'⟩⟩ := hdone.meets
      · exact Or.inl ⟨given, id, hgiven, habove, hr, hM'⟩
      · exact Or.inr ⟨hnone, hr, hM'⟩
  | all =>
      refine h.reads ⟨rfl, _, rfl, ?_, fun id doc => mem_items horder⟩
      rw [items_map_fst horder]
      exact nodup_order horder
  | search cond =>
      have hdone := (search_done horder h hc).answered (f := .docs)
      refine ⟨?_, hdone.tracks, hdone.elsewhere⟩
      obtain ⟨r, hr, hM', hspec⟩ := hdone.meets
      exact ⟨hM', r, hr, hspec⟩
  | get cond docId => exact h.reads ⟨rfl, _, rfl, get_spec horder o cond docId⟩
  | contains cond docId => exact h.reads ⟨rfl, _, rfl, get_spec horder o cond docId⟩
  | update fields cond docIds => exact (update_done horder h fields cond docIds).answered
  | updateMultiple updates => exact (sweep_done horder h (turns_updates updates)).answered
  | upsert document cond => exact (upsert_done horder h document cond).answered
  | remove cond docIds =>
      cases cond with
      | some cond => exact (remove_done horder h cond docIds).answered
      | none =>
          cases docIds with
          | some ids => exact (listed_done h pop_view (fun _ _ _ => popAt_sub) ids).answered
          | none => exact h.reads ⟨rfl, rfl⟩
  | truncate =>
      have hdone : Done order meaning o o.truncate _ := truncate_done o
      exact ⟨⟨rfl, hdone.meets.2⟩, hdone.tracks, hdone.elsewhere⟩
  | count cond =>
      have hdone := (search_done horder h hc).answered (f := fun docs => .number docs.length)
      refine ⟨?_, hdone.tracks, hdone.elsewhere⟩
      obtain ⟨r, hr, hM', hspec⟩ := hdone.meets
      exact ⟨hM', r, hr, hspec⟩
  | len =>
      refine h.reads ⟨rfl, o.rows.keys.toFinset, ?_, fun id => ?_⟩
      · rw [List.toFinset_card_of_nodup o.rows.keys_nodup]
      · rw [List.mem_toFinset, ← AList.mem_keys, mem_iff_view]
  | clearCache => exact h.recache _ (List.forall_mem_nil _) ⟨rfl, rfl⟩

end CalSci.TinyDb
