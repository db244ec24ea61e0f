import CalSci.QueryCache
import Mathlib.Data.List.AList

/-! The vendored TinyDB: `lib/tinydb/table.py`, the `LRUCache` of `utils.py` and the tables of `database.py`, over a
`JSONStorage`. A file holds named tables of documents by id; every call of a `Table` reads the whole file and, when it
changes something, writes it again. A `Table` object keeps two things of its own: the next id it will give, and the
results of its searches. Ids are integers here and not their texts. The interpreter iterates over a dict in an order of
its own, so the model has the order as a parameter. -/

namespace CalSci.TinyDb

open QueryCache (Cache)

abbrev Dict (κ ν : Type) := AList fun _ : κ => ν

/-- A document: its fields and their values. -/
abbrev Doc (ν : Type) := Dict String ν

/-- What the storage reads; `None` for an empty file. -/
abbrev File (ν : Type) := Option (Dict String (Dict ℤ (Doc ν)))

/-- The exceptions: those of TinyDB, and those of the functions it is given. -/
inductive Raised where
  | valueError (text : String)
  | runtimeError (text : String)
  | assertionError (docId : ℤ)
  | keyError
  | raised (text : String)
  deriving DecidableEq, Repr

/-- A `QueryInstance`: two of them are equal when their `_hash` is. -/
structure QueryInstance (κ ν : Type) where
  hash : κ
  test : Doc ν → Except Raised Bool

/-- A document to insert: a `Document`, which brings its id, or another `dict`. -/
inductive Mapping (ν : Type) where
  | plain (doc : Doc ν)
  | document (docId : ℤ) (doc : Doc ν)

/-- `dict(document)`. -/
def Mapping.doc {ν : Type} : Mapping ν → Doc ν
  | .plain doc => doc
  | .document _ doc => doc

/-- What `update` is given: fields to set, or a function that changes the document. -/
inductive Fields (ν : Type) where
  | data (fields : Doc ν)
  | function (transform : Doc ν → Except Raised (Doc ν))

def Fields.perform {ν : Type} : Fields ν → Doc ν → Except Raised (Doc ν)
  | .data fields, doc => .ok (fields ∪ doc)
  | .function transform, doc => transform doc

/-! ### The cache of results -/

/-- `LRUCache`, of results of searches. -/
structure LRUCache (κ ε : Type) where
  capacity : Option ℕ
  cache : Cache κ ε

namespace LRUCache

variable {κ ε : Type} [DecidableEq κ]

/-- `get`: an entry that is found goes to the end. -/
def get (c : LRUCache κ ε) (key : κ) : Option (List ε) × LRUCache κ ε :=
  match c.cache.find key with
  | some value => (some value, { c with cache := c.cache.moveToEnd key value })
  | none => (none, c)

/-- `self.cache[key] = value`. -/
def assign (cache : Cache κ ε) (key : κ) (value : List ε) : Cache κ ε :=
  if (cache.find key).isSome then cache.map fun e => if e.1 = key then (key, value) else e
  else cache ++ [(key, value)]

/-- `set`: a result that is there and is not empty is kept. -/
def set (c : LRUCache κ ε) (key : κ) (value : List ε) : LRUCache κ ε :=
  match c.cache.find key with
  | some (e :: old) => { c with cache := c.cache.moveToEnd key (e :: old) }
  | _ =>
      let cache := assign c.cache key value
      match c.capacity with
      | some capacity => { c with cache := if capacity < cache.length then cache.drop 1 else cache }
      | none => { c with cache }

def clear (c : LRUCache κ ε) : LRUCache κ ε := { c with cache := [] }

end LRUCache

/-! ### A table -/

variable {κ ν : Type}

/-- A `Table`, without the storage. -/
structure Table (κ ν : Type) where
  name : String
  queryCache : LRUCache κ (ℤ × Doc ν)
  nextId : Option ℤ

/-- `__init__`. -/
def Table.init (name : String) (cacheSize : Option ℕ := some 10) : Table κ ν := ⟨name, ⟨cacheSize, []⟩, none⟩

/-- A table and the file it is in. -/
structure Opened (κ ν : Type) where
  table : Table κ ν
  file : File ν

def readTable (file : File ν) (name : String) : Dict ℤ (Doc ν) :=
  match file with
  | none => ∅
  | some tables => (tables.lookup name).getD ∅

def writeTable (file : File ν) (name : String) (table : Dict ℤ (Doc ν)) : File ν :=
  some ((file.getD ∅).insert name table)

/-- `_get_next_id`: the id, and the new `_next_id`. -/
def getNextId (table : Dict ℤ (Doc ν)) : Option ℤ → ℤ × Option ℤ
  | some nextId => (nextId, some (nextId + 1))
  | none =>
      match table.keys.max? with
      | none => (1, some 2)
      | some maxId => (maxId + 1, some (maxId + 1 + 1))

namespace Opened

def rows (o : Opened κ ν) : Dict ℤ (Doc ν) := readTable o.file o.table.name

/-- `_update_table`: when the updater raises nothing is written. -/
def updateTable {α : Type} (o : Opened κ ν) (updater : Dict ℤ (Doc ν) → Except Raised (Dict ℤ (Doc ν) × α)) :
    Except Raised α × Opened κ ν :=
  match updater o.rows with
  | .error e => (.error e, o)
  | .ok (table, answer) =>
      (.ok answer, ⟨{ o.table with queryCache := o.table.queryCache.clear }, writeTable o.file o.table.name table⟩)

/-- `insert`; `none` is a document that is no mapping. -/
def insert (o : Opened κ ν) : Option (Mapping ν) → Except Raised ℤ × Opened κ ν
  | none => (.error (.valueError "Document is not a Mapping"), o)
  | some document =>
      let (docId, nextId) :=
        match document with
        | .document docId _ => (docId, none)
        | .plain _ => getNextId o.rows o.table.nextId
      updateTable { o with table := { o.table with nextId } } fun table =>
        if docId ∈ table then .error (.assertionError docId) else .ok (table.insert docId document.doc, docId)

/-- The loop of `insert_multiple`. The ids are counted from the file, which is not written before the end. -/
def insertLoop (rows : Dict ℤ (Doc ν)) :
    List (Option (Mapping ν)) → Option ℤ → Dict ℤ (Doc ν) → List ℤ → Option ℤ × Except Raised (Dict ℤ (Doc ν) × List ℤ)
  | [], nextId, table, docIds => (nextId, .ok (table, docIds))
  | none :: _, nextId, _, _ => (nextId, .error (.valueError "Document is not a Mapping"))
  | some document :: documents, nextId, table, docIds =>
      let (docId, nextId) := getNextId rows nextId
      insertLoop rows documents nextId (table.insert docId document.doc) (docIds ++ [docId])

def insertMultiple (o : Opened κ ν) (documents : List (Option (Mapping ν))) : Except Raised (List ℤ) × Opened κ ν :=
  let (nextId, result) := insertLoop o.rows documents o.table.nextId o.rows []
  updateTable { o with table := { o.table with nextId } } fun _ => result

/-! ### Reading -/

variable (order : List ℤ → List ℤ)

/-- `iter(self)`: the documents with their ids. -/
def items (rows : Dict ℤ (Doc ν)) : List (ℤ × Doc ν) :=
  (order rows.keys).filterMap fun docId => (rows.lookup docId).map fun doc => (docId, doc)

/-- `[doc for doc in self if cond(doc)]`. -/
def matching (test : Doc ν → Except Raised Bool) : List (ℤ × Doc ν) → Except Raised (List (ℤ × Doc ν))
  | [] => .ok []
  | doc :: docs => do
      let hit ← test doc.2
      let rest ← matching test docs
      pure (if hit then doc :: rest else rest)

def search [DecidableEq κ] (o : Opened κ ν) (cond : QueryInstance κ ν) :
    Except Raised (List (ℤ × Doc ν)) × Opened κ ν :=
  match o.table.queryCache.get cond.hash with
  | (some docs, queryCache) => (.ok docs, { o with table := { o.table with queryCache } })
  | (none, queryCache) =>
      match matching cond.test (items order o.rows) with
      | .error e => (.error e, { o with table := { o.table with queryCache } })
      | .ok docs => (.ok docs, { o with table := { o.table with queryCache := queryCache.set cond.hash docs } })

/-- The loop of `get`: the first document that meets the condition. -/
def first (test : Doc ν → Except Raised Bool) : List (ℤ × Doc ν) → Except Raised (Option (ℤ × Doc ν))
  | [] => .ok none
  | doc :: docs => do
      if ← test doc.2 then pure (some doc) else first test docs

def get (o : Opened κ ν) (cond : Option (QueryInstance κ ν)) (docId : Option ℤ) : Except Raised (Option (ℤ × Doc ν)) :=
  match docId, cond with
  | some docId, _ => .ok ((o.rows.lookup docId).map fun doc => (docId, doc))
  | none, some cond => first cond.test (items order o.rows)
  | none, none => .error (.runtimeError "You have to pass either cond or doc_id")

/-! ### Changing -/

def performUpdate (fields : Fields ν) (table : Dict ℤ (Doc ν)) (docId : ℤ) : Except Raised (Dict ℤ (Doc ν)) :=
  match table.lookup docId with
  | none => .error .keyError
  | some doc => do
      let doc ← fields.perform doc
      pure (table.insert docId doc)

/-- Whether `update` changes a document; without a condition it changes all. -/
def meets (cond : Option (QueryInstance κ ν)) (doc : Doc ν) : Except Raised Bool :=
  match cond with
  | some cond => cond.test doc
  | none => .ok true

/-- The body of the loop of `update` over all documents: those that meet the condition are changed. -/
def updateWhere (cond : Option (QueryInstance κ ν)) (fields : Fields ν) (state : Dict ℤ (Doc ν) × List ℤ) (docId : ℤ) :
    Except Raised (Dict ℤ (Doc ν) × List ℤ) :=
  match state.1.lookup docId with
  | none => .error .keyError
  | some doc => do
      if ← meets cond doc then
        let table ← performUpdate fields state.1 docId
        pure (table, state.2 ++ [docId])
      else pure state

/-- `update`: by ids, by a condition, or all documents. -/
def update (o : Opened κ ν) (fields : Fields ν) (cond : Option (QueryInstance κ ν)) (docIds : Option (List ℤ)) :
    Except Raised (List ℤ) × Opened κ ν :=
  match docIds with
  | some docIds => o.updateTable fun table => do
      let table ← docIds.foldlM (performUpdate fields) table
      pure (table, docIds)
  | none => o.updateTable fun table => (order table.keys).foldlM (updateWhere cond fields) (table, [])

/-- `update_multiple`: on each document the updates one after the other. -/
def updateMultiple (o : Opened κ ν) (updates : List (Fields ν × QueryInstance κ ν)) :
    Except Raised (List ℤ) × Opened κ ν :=
  o.updateTable fun table => (order table.keys).foldlM (fun state docId =>
    updates.foldlM (fun state update => updateWhere (some update.2) update.1 state docId) state) (table, [])

/-- The end of `upsert`: where nothing was updated the document is inserted. A missing id is found out by the
`KeyError`. -/
def insertMissing (document : Mapping ν) : Except Raised (List ℤ) × Opened κ ν → Except Raised (List ℤ) × Opened κ ν
  | (.ok (docId :: updated), o) => (.ok (docId :: updated), o)
  | (.ok [], o) | (.error .keyError, o) => ((o.insert (some document)).1.map fun docId => [docId],
      (o.insert (some document)).2)
  | (.error e, o) => (.error e, o)

def upsert (o : Opened κ ν) (document : Mapping ν) (cond : Option (QueryInstance κ ν)) :
    Except Raised (List ℤ) × Opened κ ν :=
  match document, cond with
  | .plain _, none => (.error (.valueError
      "If you don't specify a search query, you must specify a doc_id. Hint: use a table.Document object."), o)
  | .plain doc, some cond => insertMissing document (o.update order (.data doc) (some cond) none)
  | .document docId doc, cond => insertMissing document (o.update order (.data doc) cond (some [docId]))

/-- The body of the loop of `remove`. -/
def removeWhere (cond : QueryInstance κ ν) (state : Dict ℤ (Doc ν) × List ℤ) (docId : ℤ) :
    Except Raised (Dict ℤ (Doc ν) × List ℤ) :=
  match state.1.lookup docId with
  | none => .error .keyError
  | some doc => do
      if ← cond.test doc then pure (state.1.erase docId, state.2 ++ [docId]) else pure state

def pop (table : Dict ℤ (Doc ν)) (docId : ℤ) : Except Raised (Dict ℤ (Doc ν)) :=
  if docId ∈ table then .ok (table.erase docId) else .error .keyError

def remove (o : Opened κ ν) (cond : Option (QueryInstance κ ν)) (docIds : Option (List ℤ)) :
    Except Raised (List ℤ) × Opened κ ν :=
  match cond, docIds with
  | some cond, _ => o.updateTable fun table => (order table.keys).foldlM (removeWhere cond) (table, [])
  | none, some docIds => o.updateTable fun table => do
      let table ← docIds.foldlM pop table
      pure (table, docIds)
  | none, none => (.error (.runtimeError "Use truncate() to remove all documents"), o)

def truncate (o : Opened κ ν) : Except Raised Unit × Opened κ ν :=
  let (result, o) := o.updateTable fun _ => .ok (∅, ())
  (result, { o with table := { o.table with nextId := none } })

end Opened

/-! ### The calls -/

inductive Call (κ ν : Type) where
  | insert (document : Option (Mapping ν))
  | insertMultiple (documents : List (Option (Mapping ν)))
  | all
  | search (cond : QueryInstance κ ν)
  | get (cond : Option (QueryInstance κ ν)) (docId : Option ℤ)
  | contains (cond : Option (QueryInstance κ ν)) (docId : Option ℤ)
  | update (fields : Fields ν) (cond : Option (QueryInstance κ ν)) (docIds : Option (List ℤ))
  | updateMultiple (updates : List (Fields ν × QueryInstance κ ν))
  | upsert (document : Mapping ν) (cond : Option (QueryInstance κ ν))
  | remove (cond : Option (QueryInstance κ ν)) (docIds : Option (List ℤ))
  | truncate
  | count (cond : QueryInstance κ ν)
  | len
  | clearCache

inductive Answer (ν : Type) where
  | nothing
  | ids (docIds : List ℤ)
  | docs (docs : List (ℤ × Doc ν))
  | doc (doc : Option (ℤ × Doc ν))
  | flag (value : Bool)
  | number (n : ℕ)

def answered {α : Type} (f : α → Answer ν) (result : Except Raised α × Opened κ ν) :
    Except Raised (Answer ν) × Opened κ ν := (result.1.map f, result.2)

def Opened.call [DecidableEq κ] (order : List ℤ → List ℤ) (o : Opened κ ν) : Call κ ν →
    Except Raised (Answer ν) × Opened κ ν
  | .insert document => answered (fun docId => .ids [docId]) (o.insert document)
  | .insertMultiple documents => answered .ids (o.insertMultiple documents)
  | .all => (.ok (.docs (items order o.rows)), o)
  | .search cond => answered .docs (o.search order cond)
  | .get cond docId => ((o.get order cond docId).map .doc, o)
  | .contains cond docId => ((o.get order cond docId).map fun doc => .flag doc.isSome, o)
  | .update fields cond docIds => answered .ids (o.update order fields cond docIds)
  | .updateMultiple updates => answered .ids (o.updateMultiple order updates)
  | .upsert document cond => answered .ids (o.upsert order document cond)
  | .remove cond docIds => answered .ids (o.remove order cond docIds)
  | .truncate => answered (fun _ => .nothing) o.truncate
  | .count cond => answered (fun docs => .number docs.length) (o.search order cond)
  | .len => (.ok (.number o.rows.keys.length), o)
  | .clearCache => (.ok .nothing, { o with table := { o.table with queryCache := o.table.queryCache.clear } })

end CalSci.TinyDb
