import CalSci.TinyDbModel
import CalSci.Runs
import Mathlib.Data.Finset.Card
import Mathlib.Logic.Function.Basic

/-! What a table is for: a map from ids to documents. `Call.Spec` says what each call does to the map and what it
returns, with no cache, no counter and no file. A `Table` object that is the only one to write its table does just
that, whatever its cache holds and whatever order the interpreter goes through a dict in. -/

namespace CalSci.TinyDb

variable {κ ν : Type}

abbrev View (ν : Type) := ℤ → Option (Doc ν)

/-- What a loop over all documents does to each: the document afterwards, if it is still there, and how often its id is
reported. -/
abbrev Treatment (ν : Type) := Doc ν → Except Raised (Option (Doc ν) × ℕ)

/-- An update of the documents that meet a condition. -/
def Treatment.update (cond : Option (QueryInstance κ ν)) (fields : Fields ν) : Treatment ν := fun doc => do
  if ← Opened.meets cond doc then
    let doc ← fields.perform doc
    pure (some doc, 1)
  else pure (some doc, 0)

/-- Several updates on a document, one after the other. -/
def Treatment.updates : List (Fields ν × QueryInstance κ ν) → Treatment ν
  | [], doc => pure (some doc, 0)
  | update :: updates, doc => do
      let (changed, hits) ← Treatment.update (some update.2) update.1 doc
      let (last, more) ← Treatment.updates updates (changed.getD doc)
      pure (last, hits + more)

/-- The removal of the documents that meet a condition. -/
def Treatment.remove (cond : QueryInstance κ ν) : Treatment ν := fun doc => do
  if ← cond.test doc then pure (none, 1) else pure (some doc, 0)

/-- A loop over all documents: each is treated, or one of them raises and nothing changes. -/
def Sweep (M : View ν) (treat : Treatment ν) (r : Except Raised (List ℤ)) (M' : View ν) : Prop :=
  (∃ ids, r = .ok ids ∧ ∀ id, (M id = none → M' id = none ∧ ids.count id = 0) ∧
    ∀ doc, M id = some doc → ∃ n, treat doc = .ok (M' id, n) ∧ ids.count id = n) ∨
  ∃ e id doc, M id = some doc ∧ treat doc = .error e ∧ r = .error e ∧ M' = M

/-- No document has this id or a higher one. -/
def AboveAll (M : View ν) (id : ℤ) : Prop := ∀ j, M j ≠ none → j < id

/-- `insert`: an id that brings no document is new and above all others. -/
def InsertSpec (M : View ν) (r : Except Raised ℤ) (M' : View ν) : Option (Mapping ν) → Prop
  | none => r = .error (.valueError "Document is not a Mapping") ∧ M' = M
  | some (.plain doc) => ∃ id, AboveAll M id ∧ r = .ok id ∧ M' = Function.update M id (some doc)
  | some (.document id doc) =>
      (M id = none ∧ r = .ok id ∧ M' = Function.update M id (some doc)) ∨
      (M id ≠ none ∧ r = .error (.assertionError id) ∧ M' = M)

def placed (M : View ν) (id : ℤ) : List (Mapping ν) → View ν
  | [] => M
  | document :: documents => placed (Function.update M id (some document.doc)) (id + 1) documents

/-- `search`: the documents that meet the condition, or the exception of one that raises. -/
def SearchSpec (M : View ν) (cond : QueryInstance κ ν) (r : Except Raised (List (ℤ × Doc ν))) : Prop :=
  (∃ docs, r = .ok docs ∧ (docs.map Prod.fst).Nodup ∧ (∀ id doc, M id = some doc → (cond.test doc).isOk = true) ∧
    ∀ id doc, (id, doc) ∈ docs ↔ M id = some doc ∧ cond.test doc = .ok true) ∨
  ∃ e id doc, M id = some doc ∧ cond.test doc = .error e ∧ r = .error e

/-- `get`. -/
def GetSpec (M : View ν) (r : Except Raised (Option (ℤ × Doc ν))) :
    Option (QueryInstance κ ν) → Option ℤ → Prop
  | _, some id => r = .ok ((M id).map fun doc => (id, doc))
  | none, none => r = .error (.runtimeError "You have to pass either cond or doc_id")
  | some cond, none =>
      (r = .ok none ∧ ∀ id doc, M id = some doc → cond.test doc = .ok false) ∨
      (∃ id doc, r = .ok (some (id, doc)) ∧ M id = some doc ∧ cond.test doc = .ok true) ∨
      ∃ e id doc, r = .error e ∧ M id = some doc ∧ cond.test doc = .error e

/-- `perform_update` on the map. -/
def performAt (fields : Fields ν) (M : View ν) (id : ℤ) : Except Raised (View ν) :=
  match M id with
  | none => .error .keyError
  | some doc => do
      let doc ← fields.perform doc
      pure (Function.update M id (some doc))

def popAt (M : View ν) (id : ℤ) : Except Raised (View ν) :=
  match M id with
  | none => .error .keyError
  | some _ => .ok (Function.update M id none)

/-- A loop over given ids: a missing one, or an exception, leaves the map as it was. -/
def Listed (M : View ν) (turn : View ν → ℤ → Except Raised (View ν)) (ids : List ℤ) (r : Except Raised (List ℤ))
    (M' : View ν) : Prop :=
  match ids.foldlM turn M with
  | .ok M'' => r = .ok ids ∧ M' = M''
  | .error e => r = .error e ∧ M' = M

/-- `update`. -/
def UpdateSpec (M : View ν) (fields : Fields ν) (cond : Option (QueryInstance κ ν)) (docIds : Option (List ℤ))
    (r : Except Raised (List ℤ)) (M' : View ν) : Prop :=
  match docIds with
  | some ids => Listed M (performAt fields) ids r M'
  | none => Sweep M (Treatment.update cond fields) r M'

/-- `upsert`: an update, and where it has found nothing an insertion. -/
def UpsertSpec (M : View ν) (r : Except Raised (List ℤ)) (M' : View ν) :
    Mapping ν → Option (QueryInstance κ ν) → Prop
  | .plain _, none => M' = M ∧ r = .error (.valueError
      "If you don't specify a search query, you must specify a doc_id. Hint: use a table.Document object.")
  | .plain doc, some cond => ∃ found M₁, Sweep M (Treatment.update (some cond) (.data doc)) found M₁ ∧
      ((found = .ok [] ∨ found = .error .keyError) ∧
          (∃ id, r = .ok [id] ∧ InsertSpec M₁ (.ok id) M' (some (.plain doc))) ∨
        found ≠ .ok [] ∧ found ≠ .error .keyError ∧ r = found ∧ M' = M₁)
  | .document id doc, _ => r = .ok [id] ∧ M' = Function.update M id (some ((M id).elim doc fun old => doc ∪ old))

/-- What a call does to the map, and what it returns. -/
def Call.Spec (M : View ν) (r : Except Raised (Answer ν)) (M' : View ν) : Call κ ν → Prop
  | .insert document => ∃ r', r = r'.map (fun id => .ids [id]) ∧ InsertSpec M r' M' document
  | .insertMultiple documents =>
      (∃ given id, documents = given.map some ∧ AboveAll M id ∧
        r = .ok (.ids ((List.range given.length).map fun k : ℕ => id + k)) ∧ M' = placed M id given) ∨
      (none ∈ documents ∧ r = .error (.valueError "Document is not a Mapping") ∧ M' = M)
  | .all => M' = M ∧ ∃ docs, r = .ok (.docs docs) ∧ (docs.map Prod.fst).Nodup ∧
      ∀ id doc, (id, doc) ∈ docs ↔ M id = some doc
  | .search cond => M' = M ∧ ∃ r', r = r'.map .docs ∧ SearchSpec M cond r'
  | .get cond docId => M' = M ∧ ∃ r', r = r'.map .doc ∧ GetSpec M r' cond docId
  | .contains cond docId => M' = M ∧ ∃ r', r = r'.map (fun doc => .flag doc.isSome) ∧ GetSpec M r' cond docId
  | .update fields cond docIds => ∃ r', r = r'.map .ids ∧ UpdateSpec M fields cond docIds r' M'
  | .updateMultiple updates => ∃ r', r = r'.map .ids ∧ Sweep M (Treatment.updates updates) r' M'
  | .upsert document cond => ∃ r', r = r'.map .ids ∧ UpsertSpec M r' M' document cond
  | .remove (some cond) _ => ∃ r', r = r'.map .ids ∧ Sweep M (Treatment.remove cond) r' M'
  | .remove none (some ids) => ∃ r', r = r'.map .ids ∧ Listed M popAt ids r' M'
  | .remove none none => r = .error (.runtimeError "Use truncate() to remove all documents") ∧ M' = M
  | .truncate => r = .ok .nothing ∧ M' = fun _ => none
  | .count cond => M' = M ∧ ∃ r', r = r'.map (fun docs => .number docs.length) ∧ SearchSpec M cond r'
  | .len => M' = M ∧ ∃ ids : Finset ℤ, r = .ok (.number ids.card) ∧ ∀ id, id ∈ ids ↔ M id ≠ none
  | .clearCache => r = .ok .nothing ∧ M' = M

/-! ### Loops over a dict -/

/-- The documents of a dict. -/
def view (rows : Dict ℤ (Doc ν)) : View ν := fun id => rows.lookup id

theorem view_insert (rows : Dict ℤ (Doc ν)) (id : ℤ) (doc : Doc ν) :
    view (rows.insert id doc) = Function.update (view rows) id (some doc) := by
  funext j
  by_cases hj : j = id
  · subst hj
    rw [Function.update_self, view, AList.lookup_insert]
  · rw [Function.update_of_ne hj, view, view, AList.lookup_insert_ne hj]

theorem view_erase (rows : Dict ℤ (Doc ν)) (id : ℤ) :
    view (rows.erase id) = Function.update (view rows) id none := by
  funext j
  by_cases hj : j = id
  · subst hj
    rw [Function.update_self, view, AList.lookup_erase]
  · rw [Function.update_of_ne hj, view, view, AList.lookup_erase_ne hj]

theorem mem_iff_view {rows : Dict ℤ (Doc ν)} {id : ℤ} : id ∈ rows ↔ view rows id ≠ none := by
  rw [view, ne_eq, AList.lookup_eq_none, not_not]

/-- The turn of a loop at one id: the document there is treated, the others are left alone. -/
def Turns (treat : Treatment ν) (turn : Dict ℤ (Doc ν) × List ℤ → ℤ → Except Raised (Dict ℤ (Doc ν) × List ℤ)) : Prop :=
  ∀ rows ids id doc, view rows id = some doc →
    (∀ e, treat doc = .error e → turn (rows, ids) id = .error e) ∧
    ∀ doc' n, treat doc = .ok (doc', n) → ∃ rows', turn (rows, ids) id = .ok (rows', ids ++ List.replicate n id) ∧
      view rows' = Function.update (view rows) id doc'

/-- The loop over ids that are there: each turn finds its document as the loop found it. -/
theorem Turns.foldlM {treat : Treatment ν} {turn : Dict ℤ (Doc ν) × List ℤ → ℤ → Except Raised (Dict ℤ (Doc ν) × List ℤ)}
    (h : Turns treat turn) {keys : List ℤ} (hkeys : keys.Nodup) (rows : Dict ℤ (Doc ν)) (ids : List ℤ)
    (hrows : ∀ id ∈ keys, view rows id ≠ none) :
    (∃ rows' ids', keys.foldlM turn (rows, ids) = .ok (rows', ids') ∧ ∀ id,
      (id ∉ keys → view rows' id = view rows id ∧ ids'.count id = ids.count id) ∧
      (id ∈ keys → ∀ doc, view rows id = some doc →
        ∃ n, treat doc = .ok (view rows' id, n) ∧ ids'.count id = ids.count id + n)) ∨
    ∃ e, ∃ id ∈ keys, ∃ doc, view rows id = some doc ∧ treat doc = .error e ∧
      keys.foldlM turn (rows, ids) = .error e := by
  induction keys generalizing rows ids with
  | nil => exact Or.inl ⟨rows, ids, rfl, fun id => ⟨fun _ => ⟨rfl, rfl⟩, nofun⟩⟩
  | cons key keys ih =>
      rw [List.nodup_cons] at hkeys
      rw [List.forall_mem_cons] at hrows
      obtain ⟨doc, hdoc⟩ := Option.ne_none_iff_exists'.mp hrows.1
      obtain ⟨herror, hok⟩ := h rows ids key doc hdoc
      rw [List.foldlM_cons]
      cases htreat : treat doc with
      | error e =>
          refine Or.inr ⟨e, key, List.mem_cons_self, doc, hdoc, htreat, ?_⟩
          rw [herror e htreat]
          rfl
      | ok result =>
          obtain ⟨doc', n⟩ := result
          obtain ⟨rows', hturn, hview⟩ := hok doc' n htreat
          rw [hturn]
          have hother : ∀ id, id ≠ key → view rows' id = view rows id := by
            intro id hid
            rw [hview, Function.update_of_ne hid]
          have hne : ∀ id ∈ keys, id ≠ key := fun id hid heq => hkeys.1 (heq ▸ hid)
          have hrows' : ∀ id ∈ keys, view rows' id ≠ none := by
            intro id hid
            rw [hother id (hne id hid)]
            exact hrows.2 id hid
          obtain ⟨rows'', ids'', hloop, heach⟩ | ⟨e, id, hid, doc₁, hdoc₁, htreat₁, hloop⟩ :=
            ih hkeys.2 rows' (ids ++ List.replicate n key) hrows'
          · refine Or.inl ⟨rows'', ids'', hloop, fun id => ⟨fun hid => ?_, fun hid doc₁ hdoc₁ => ?_⟩⟩
            · rw [List.mem_cons, not_or] at hid
              obtain ⟨hsame, hcount⟩ := (heach id).1 hid.2
              rw [hsame, hcount, hother id hid.1, List.count_append, List.count_replicate]
              simp [Ne.symm hid.1]
            · obtain rfl | hid := List.mem_cons.mp hid
              · obtain ⟨hsame, hcount⟩ := (heach id).1 hkeys.1
                rw [Option.some.inj (hdoc₁.symm.trans hdoc)]
                refine ⟨n, ?_, ?_⟩
                · rw [htreat, hsame, hview, Function.update_self]
                · rw [hcount, List.count_append, List.count_replicate_self]
              · rw [← hother id (hne id hid)] at hdoc₁
                obtain ⟨m, htreat₁, hcount⟩ := (heach id).2 hid doc₁ hdoc₁
                refine ⟨m, htreat₁, ?_⟩
                rw [hcount, List.count_append, List.count_replicate]
                simp [Ne.symm (hne id hid)]
          · rw [hother id (hne id hid)] at hdoc₁
            exact Or.inr ⟨e, id, List.mem_cons_of_mem _ hid, doc₁, hdoc₁, htreat₁, hloop⟩

theorem turns_updateWhere (cond : Option (QueryInstance κ ν)) (fields : Fields ν) :
    Turns (Treatment.update cond fields) (Opened.updateWhere cond fields) := by
  intro rows ids id doc hdoc
  have hlookup : rows.lookup id = some doc := hdoc
  have hkeep : view rows = Function.update (view rows) id (some doc) := by
    rw [← hdoc, Function.update_eq_self]
  unfold Opened.updateWhere Treatment.update Opened.performUpdate
  simp only [hlookup]
  cases Opened.meets cond doc with
  | error e => exact ⟨fun e' he' => by cases he'; rfl, nofun⟩
  | ok hit =>
      cases hit with
      | false =>
          refine ⟨nofun, fun doc' n hok => ?_⟩
          cases hok
          exact ⟨rows, by rw [List.replicate_zero, List.append_nil]; rfl, hkeep⟩
      | true =>
          cases hperform : fields.perform doc with
          | error e => exact ⟨fun e' he' => by cases he'; rfl, nofun⟩
          | ok changed =>
              refine ⟨nofun, fun doc' n hok => ?_⟩
              cases hok
              exact ⟨rows.insert id changed, rfl, view_insert rows id changed⟩

/-- An update takes no document away. -/
theorem treatment_update_some {cond : Option (QueryInstance κ ν)} {fields : Fields ν} {doc : Doc ν}
    {doc' : Option (Doc ν)} {n : ℕ} (h : Treatment.update cond fields doc = .ok (doc', n)) :
    ∃ changed, doc' = some changed := by
  unfold Treatment.update at h
  cases hmeets : Opened.meets cond doc with
  | error e =>
      rw [hmeets] at h
      cases h
  | ok hit =>
      rw [hmeets] at h
      cases hit with
      | false =>
          cases h
          exact ⟨doc, rfl⟩
      | true =>
          cases hperform : fields.perform doc with
          | error e =>
              simp only [hperform] at h
              cases h
          | ok changed =>
              simp only [hperform] at h
              cases h
              exact ⟨changed, rfl⟩

theorem turns_updates (updates : List (Fields ν × QueryInstance κ ν)) :
    Turns (Treatment.updates updates) fun state id =>
      updates.foldlM (fun state update => Opened.updateWhere (some update.2) update.1 state id) state := by
  induction updates with
  | nil =>
      intro rows ids id doc hdoc
      refine ⟨nofun, fun doc' n hok => ?_⟩
      cases hok
      refine ⟨rows, by rw [List.replicate_zero, List.append_nil]; rfl, ?_⟩
      rw [← hdoc, Function.update_eq_self]
  | cons update updates ih =>
      intro rows ids id doc hdoc
      obtain ⟨herror, hok⟩ := turns_updateWhere (some update.2) update.1 rows ids id doc hdoc
      simp only [List.foldlM_cons]
      unfold Treatment.updates
      cases htreat : Treatment.update (some update.2) update.1 doc with
      | error e =>
          rw [herror e htreat]
          exact ⟨fun e' he' => by cases he'; rfl, nofun⟩
      | ok result =>
          obtain ⟨doc₁, n₁⟩ := result
          obtain ⟨changed, rfl⟩ := treatment_update_some htreat
          obtain ⟨rows₁, hturn, hview⟩ := hok _ _ htreat
          rw [hturn]
          have hchanged : view rows₁ id = some changed := by rw [hview, Function.update_self]
          obtain ⟨herror', hok'⟩ := ih rows₁ (ids ++ List.replicate n₁ id) id changed hchanged
          cases hrest : Treatment.updates updates changed with
          | error e =>
              refine ⟨fun e' he' => ?_, fun doc' n he' => ?_⟩
              · simp only [Option.getD_some, hrest, Runs.ok_bind] at he'
                cases he'
                exact herror' e hrest
              · simp only [Option.getD_some, hrest, Runs.ok_bind] at he'
                cases he'
          | ok last =>
              obtain ⟨doc₂, n₂⟩ := last
              obtain ⟨rows₂, hloop, hview₂⟩ := hok' _ _ hrest
              refine ⟨fun e' he' => ?_, fun doc' n he' => ?_⟩
              · simp only [Option.getD_some, hrest, Runs.ok_bind] at he'
                cases he'
              · simp only [Option.getD_some, hrest, Runs.ok_bind] at he'
                cases he'
                refine ⟨rows₂, ?_, ?_⟩
                · rw [List.replicate_add, ← List.append_assoc]
                  exact hloop
                · rw [hview₂, hview, Function.update_idem]

theorem turns_removeWhere (cond : QueryInstance κ ν) : Turns (Treatment.remove cond) (Opened.removeWhere cond) := by
  intro rows ids id doc hdoc
  have hlookup : rows.lookup id = some doc := hdoc
  have hkeep : view rows = Function.update (view rows) id (some doc) := by
    rw [← hdoc, Function.update_eq_self]
  unfold Opened.removeWhere Treatment.remove
  simp only [hlookup]
  cases cond.test doc with
  | error e => exact ⟨fun e' he' => by cases he'; rfl, nofun⟩
  | ok hit =>
      cases hit with
      | false =>
          refine ⟨nofun, fun doc' n hok => ?_⟩
          cases hok
          exact ⟨rows, by rw [List.replicate_zero, List.append_nil]; rfl, hkeep⟩
      | true =>
          refine ⟨nofun, fun doc' n hok => ?_⟩
          cases hok
          exact ⟨rows.erase id, rfl, view_erase rows id⟩

variable {order : List ℤ → List ℤ}

/-- A loop over all the keys is a sweep. -/
theorem Turns.sweep {treat : Treatment ν} {turn : Dict ℤ (Doc ν) × List ℤ → ℤ → Except Raised (Dict ℤ (Doc ν) × List ℤ)}
    (h : Turns treat turn) (horder : ∀ keys, (order keys).Perm keys) (rows : Dict ℤ (Doc ν)) :
    (∃ rows' ids, (order rows.keys).foldlM turn (rows, []) = .ok (rows', ids) ∧
      Sweep (view rows) treat (.ok ids) (view rows')) ∨
    ∃ e, (order rows.keys).foldlM turn (rows, []) = .error e ∧ Sweep (view rows) treat (.error e) (view rows) := by
  have hmem : ∀ id, id ∈ order rows.keys ↔ view rows id ≠ none := by
    intro id
    rw [(horder rows.keys).mem_iff, ← AList.mem_keys, mem_iff_view]
  have hnodup : (order rows.keys).Nodup := (horder rows.keys).nodup_iff.mpr rows.keys_nodup
  obtain ⟨rows', ids, hloop, heach⟩ | ⟨e, id, -, doc, hdoc, htreat, hloop⟩ :=
    h.foldlM hnodup rows [] fun id hid => (hmem id).mp hid
  · refine Or.inl ⟨rows', ids, hloop, Or.inl ⟨ids, rfl, fun id => ⟨fun hnone => ?_, fun doc hdoc => ?_⟩⟩⟩
    · have hid : id ∉ order rows.keys := fun hid => (hmem id).mp hid hnone
      obtain ⟨hsame, hcount⟩ := (heach id).1 hid
      exact ⟨hsame.trans hnone, hcount⟩
    · have hid : id ∈ order rows.keys := (hmem id).mpr (by rw [hdoc]; exact Option.some_ne_none doc)
      obtain ⟨n, htreat, hcount⟩ := (heach id).2 hid doc hdoc
      exact ⟨n, htreat, by rw [hcount, List.count_nil, Nat.zero_add]⟩
  · exact Or.inr ⟨e, hloop, Or.inr ⟨e, id, doc, hdoc, htreat, rfl, rfl⟩⟩

/-! ### Loops over given ids -/

/-- A turn at an id that does to the dict what it does to the map. -/
theorem listed_foldlM {turn : Dict ℤ (Doc ν) → ℤ → Except Raised (Dict ℤ (Doc ν))}
    {step : View ν → ℤ → Except Raised (View ν)}
    (h : ∀ rows id, (turn rows id).map view = step (view rows) id) (ids : List ℤ) (rows : Dict ℤ (Doc ν)) :
    (ids.foldlM turn rows).map view = ids.foldlM step (view rows) := by
  induction ids generalizing rows with
  | nil => rfl
  | cons id ids ih =>
      rw [List.foldlM_cons, List.foldlM_cons, ← h]
      cases turn rows id with
      | error e => rfl
      | ok rows' => exact ih rows'

theorem performUpdate_view (fields : Fields ν) (rows : Dict ℤ (Doc ν)) (id : ℤ) :
    (Opened.performUpdate fields rows id).map view = performAt fields (view rows) id := by
  have hview : view rows id = rows.lookup id := rfl
  rw [Opened.performUpdate, performAt, hview]
  cases rows.lookup id with
  | none => rfl
  | some doc =>
      cases hperform : fields.perform doc with
      | error e =>
          simp only [hperform]
          rfl
      | ok changed =>
          simp only [hperform, ← view_insert]
          rfl

theorem pop_view (rows : Dict ℤ (Doc ν)) (id : ℤ) : (Opened.pop rows id).map view = popAt (view rows) id := by
  rw [Opened.pop, popAt]
  cases hdoc : view rows id with
  | none =>
      have hmem : id ∉ rows := by
        rw [mem_iff_view, hdoc]
        exact fun h => h rfl
      rw [if_neg hmem]
      rfl
  | some doc =>
      have hmem : id ∈ rows := by
        rw [mem_iff_view, hdoc]
        exact Option.some_ne_none doc
      simp only [if_pos hmem, ← view_erase]
      rfl

/-- A loop over given ids, with what it returns. -/
theorem listed_spec {turn : Dict ℤ (Doc ν) → ℤ → Except Raised (Dict ℤ (Doc ν))}
    {step : View ν → ℤ → Except Raised (View ν)}
    (h : ∀ rows id, (turn rows id).map view = step (view rows) id) (ids : List ℤ) (rows : Dict ℤ (Doc ν)) :
    (∃ rows', ids.foldlM turn rows = .ok rows' ∧ Listed (view rows) step ids (.ok ids) (view rows')) ∨
    ∃ e, ids.foldlM turn rows = .error e ∧ Listed (view rows) step ids (.error e) (view rows) := by
  have hfold := listed_foldlM h ids rows
  unfold Listed
  rw [← hfold]
  cases ids.foldlM turn rows with
  | error e => exact Or.inr ⟨e, rfl, rfl, rfl⟩
  | ok rows' => exact Or.inl ⟨rows', rfl, rfl, rfl⟩

end CalSci.TinyDb
