import CalSci.QueryCache

/-! `Apps` of `process_modules/app_downloader.py`: the registry of apps in `db/installed_apps.json`,
reached through the vendored TinyDB. A `Table` of TinyDB reads and writes the whole file, and keeps the
results of its searches in an LRU cache of its own, which its writes clear; documents are a list, so that
the ids TinyDB gives them are left out. -/

namespace CalSci

open QueryCache

/-- A document of `db/installed_apps.json`. -/
structure AppDoc where
  appName : List Char
  groupName : List Char
  deriving DecidableEq, Repr

/-- The two conditions the class builds: `App.group_name == g`, and `App.app_name == n` with it. -/
inductive AppQuery where
  | inGroup (groupName : List Char)
  | isApp (appName groupName : List Char)
  deriving DecidableEq, Repr

def AppQuery.holds : AppQuery → AppDoc → Bool
  | .inGroup groupName, doc => doc.groupName = groupName
  | .isApp appName groupName, doc => doc.appName = appName && doc.groupName = groupName

def defaultQueryCacheCapacity : Nat := 10

def installedGroup : List Char := "installed_apps".toList

/-- An `Apps` object together with the file it has open: only the cache is its own. -/
@[ext]
structure Apps where
  file : List AppDoc
  cache : Cache AppQuery AppDoc

namespace Apps

/-- `__init__`: a new `TinyDB` on the file. -/
def init (file : List AppDoc) : Apps := ⟨file, []⟩

/-- `db.search`. -/
def search (a : Apps) (q : AppQuery) : List AppDoc × Apps :=
  let (docs, cache) := a.cache.search defaultQueryCacheCapacity AppQuery.holds a.file q
  (docs, { a with cache })

/-- `_update_table`: the file is written, and the cache cleared. -/
def updateTable (a : Apps) (updater : List AppDoc → List AppDoc) : Apps := ⟨updater a.file, []⟩

def insert (a : Apps) (appName groupName : List Char) : Apps :=
  a.updateTable fun table => table ++ [⟨appName, groupName⟩]

def searchAppName (a : Apps) (appName : List Char) (groupName : List Char := installedGroup) :
    Option (List AppDoc) × Apps :=
  let (r, a) := a.search (.isApp appName groupName)
  (if r.length = 0 then none else some r, a)

def getGroupApps (a : Apps) (groupName : List Char := installedGroup) : List (List Char) × Apps :=
  let (res, a) := a.search (.inGroup groupName)
  (res.map AppDoc.appName, a)

/-- `insert_new_app`: the app is looked up without its group. -/
def insertNewApp (a : Apps) (appName : List Char) (groupName : List Char := installedGroup) :
    Bool × Apps :=
  match a.searchAppName appName with
  | (none, a) => (true, a.insert appName groupName)
  | (some _, a) => (false, a)

/-- `delete_app`: the app is looked up without its group. -/
def deleteApp (a : Apps) (appName : List Char) (groupName : List Char := installedGroup) :
    Bool × Apps :=
  match a.searchAppName appName with
  | (none, a) => (false, a)
  | (some _, a) => (true, a.updateTable fun table =>
      table.filter fun doc => !(AppQuery.isApp appName groupName).holds doc)

/-! ### One call on an object whose cache is right -/

variable {a : Apps}

/-- The cache of the object agrees with the file. -/
def Coherent (a : Apps) : Prop := a.cache.Coherent AppQuery.holds a.file

theorem coherent_init (file : List AppDoc) : (init file).Coherent := Cache.coherent_nil _ _

theorem coherent_updateTable (a : Apps) (updater : List AppDoc → List AppDoc) :
    (a.updateTable updater).Coherent := Cache.coherent_nil _ _

theorem search_eq (h : a.Coherent) (q : AppQuery) :
    (a.search q).1 = a.file.filter q.holds ∧ (a.search q).2.Coherent :=
  Cache.Coherent.search h q

theorem holds_isApp {appName groupName : List Char} {doc : AppDoc} :
    (AppQuery.isApp appName groupName).holds doc = true ↔ doc = ⟨appName, groupName⟩ := by
  cases doc
  simp [AppQuery.holds]

/-- The documents of one app in one group: none exactly when the pair is not stored. -/
theorem filter_isApp_eq_nil {file : List AppDoc} {appName groupName : List Char} :
    (file.filter (AppQuery.isApp appName groupName).holds).length = 0 ↔
      (⟨appName, groupName⟩ : AppDoc) ∉ file := by
  rw [List.length_eq_zero_iff, List.filter_eq_nil_iff]
  simp only [holds_isApp]
  constructor
  · intro h hmem
    exact h _ hmem rfl
  · rintro h doc hmem rfl
    exact h hmem

/-- The look-up of both calls: it reports whether the app is in the default group, and keeps the file. -/
theorem searchAppName_spec (h : a.Coherent) (appName : List Char) :
    ((a.searchAppName appName).1 = none ↔ (⟨appName, installedGroup⟩ : AppDoc) ∉ a.file) ∧
      (a.searchAppName appName).2.file = a.file ∧ (a.searchAppName appName).2.Coherent := by
  obtain ⟨hdocs, hcoherent⟩ := search_eq h (.isApp appName installedGroup)
  refine ⟨?_, rfl, hcoherent⟩
  change (if (a.search _).1.length = 0 then none else some _) = none ↔ _
  rw [hdocs, ← filter_isApp_eq_nil]
  split_ifs with hnil
  · exact ⟨fun _ => hnil, fun _ => rfl⟩
  · exact ⟨nofun, fun hzero => absurd hzero hnil⟩

theorem insertNewApp_of_absent (h : a.Coherent) {appName : List Char} (groupName : List Char)
    (habsent : (⟨appName, installedGroup⟩ : AppDoc) ∉ a.file) :
    (a.insertNewApp appName groupName).1 = true ∧
      (a.insertNewApp appName groupName).2.file = a.file ++ [⟨appName, groupName⟩] ∧
      (a.insertNewApp appName groupName).2.Coherent := by
  obtain ⟨hnone, hfile, -⟩ := searchAppName_spec h appName
  unfold insertNewApp
  rcases hsearch : a.searchAppName appName with ⟨found, b⟩
  rw [hsearch] at hnone hfile
  cases hnone.mpr habsent
  refine ⟨rfl, ?_, coherent_updateTable _ _⟩
  rw [← hfile]
  rfl

theorem insertNewApp_of_present (h : a.Coherent) {appName : List Char} (groupName : List Char)
    (hpresent : (⟨appName, installedGroup⟩ : AppDoc) ∈ a.file) :
    (a.insertNewApp appName groupName).1 = false ∧
      (a.insertNewApp appName groupName).2.file = a.file ∧
      (a.insertNewApp appName groupName).2.Coherent := by
  obtain ⟨hnone, hfile, hcoherent⟩ := searchAppName_spec h appName
  unfold insertNewApp
  rcases hsearch : a.searchAppName appName with ⟨found, b⟩
  rw [hsearch] at hnone hfile hcoherent
  cases found with
  | none => exact absurd hpresent (hnone.mp rfl)
  | some docs => exact ⟨rfl, hfile, hcoherent⟩

theorem deleteApp_of_absent (h : a.Coherent) {appName : List Char} (groupName : List Char)
    (habsent : (⟨appName, installedGroup⟩ : AppDoc) ∉ a.file) :
    (a.deleteApp appName groupName).1 = false ∧ (a.deleteApp appName groupName).2.file = a.file ∧
      (a.deleteApp appName groupName).2.Coherent := by
  obtain ⟨hnone, hfile, hcoherent⟩ := searchAppName_spec h appName
  unfold deleteApp
  rcases hsearch : a.searchAppName appName with ⟨found, b⟩
  rw [hsearch] at hnone hfile hcoherent
  cases hnone.mpr habsent
  exact ⟨rfl, hfile, hcoherent⟩

theorem deleteApp_of_present (h : a.Coherent) {appName : List Char} (groupName : List Char)
    (hpresent : (⟨appName, installedGroup⟩ : AppDoc) ∈ a.file) :
    (a.deleteApp appName groupName).1 = true ∧
      (a.deleteApp appName groupName).2.file =
        a.file.filter (fun doc => !(AppQuery.isApp appName groupName).holds doc) ∧
      (a.deleteApp appName groupName).2.Coherent := by
  obtain ⟨hnone, hfile, -⟩ := searchAppName_spec h appName
  unfold deleteApp
  rcases hsearch : a.searchAppName appName with ⟨found, b⟩
  rw [hsearch] at hnone hfile
  cases found with
  | none => exact absurd hpresent (hnone.mp rfl)
  | some docs =>
      refine ⟨rfl, ?_, coherent_updateTable _ _⟩
      rw [← hfile]
      rfl

/-- The names a group lists. -/
theorem getGroupApps_spec (h : a.Coherent) (groupName : List Char) :
    (a.getGroupApps groupName).1 =
        (a.file.filter fun doc => doc.groupName = groupName).map AppDoc.appName ∧
      (a.getGroupApps groupName).2.file = a.file ∧ (a.getGroupApps groupName).2.Coherent := by
  obtain ⟨hdocs, hcoherent⟩ := search_eq h (.inGroup groupName)
  refine ⟨?_, rfl, hcoherent⟩
  change (a.search _).1.map AppDoc.appName = _
  rw [hdocs]
  rfl

end Apps

end CalSci
