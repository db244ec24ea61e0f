import CalSci.PySequence
import CalSci.Runs
import Mathlib.Data.Finset.Basic

/-! The update feature: `update` of `apps/settings/update.py` hands the server's file name and folder to `app_updater`
or `app_deleter` of `process_modules/update_feature.py`, which keep a list of apps for each folder beside the app files
in it. The list is written first, under a name without `.py`, and the folder must not exist when a file is installed;
a deletion looks for the name with `.py` in the list. Where `os` has no `path`, an installation raises before it does
anything and a deletion between the list and the file. The list and the files agree after an action only in the cases
stated here. -/

namespace CalSci.UpdateFeature

abbrev Name := List Char

/-- `.py`. -/
def py : Name := ".py".toList

/-- An entry of a list of apps. -/
structure Entry where
  name : Name
  folder : Name
  visibility : Bool
  deriving DecidableEq

/-- The file `/database/<folder>_app_list.json`; `broken` is one that does not parse. -/
inductive ListFile
  | missing
  | broken
  | entries (data : List Entry)
  deriving DecidableEq

/-- A folder: its list, and the files in it if it exists. -/
structure Shelf where
  list : ListFile
  files : Option (Finset Name)

/-- The file-system steps at which an action may fail. -/
inductive FsStep
  | createList
  | createWrite
  | readList
  | openList
  | writeList
  | mkdir
  | openApp
  | writeApp
  | removeApp
  deriving DecidableEq

/-- What the actions find on the device: whether `os` has a `path`, and whether a file that could not be written is torn
or holds what it held. -/
structure Port where
  osPath : Bool
  tears : Bool

/-- The firmware: `extmod/modos.c` has no `path`, and `lfs2.c` writes a file in place of the old one when it is closed. -/
def firmware : Port := ⟨false, false⟩

/-- The first half of `add_to_json`; the second component says that it raised. -/
def createIfMissing (port : Port) (fault : Option FsStep) (list : ListFile) : ListFile × Bool :=
  if port.osPath = false then (list, true)
  else
    match list with
    | .missing =>
        if fault = some .createList then (.missing, true)
        -- the file has been made, and stays empty
        else if fault = some .createWrite then (.broken, true)
        else (.entries [], false)
    | list => (list, false)

/-- Reading a list, changing it and writing it back. -/
def rewrite (port : Port) (fault : Option FsStep) (change : List Entry → List Entry) : ListFile → ListFile × Bool
  | .missing => (.missing, true)
  | .broken => (.broken, true)
  | .entries data =>
      if fault = some .readList ∨ fault = some .openList then (.entries data, true)
      else if fault = some .writeList then (if port.tears then .broken else .entries data, true)
      else (.entries (change data), false)

def addToJson (port : Port) (fault : Option FsStep) (newApp : Entry) (list : ListFile) : ListFile × Bool :=
  let (list, raised) := createIfMissing port fault list
  if raised then (list, true) else rewrite port fault (fun data => data ++ [newApp]) list

/-- `create_app_file`: what the folder holds after it. `os.mkdir` raises when the folder exists; a failure to write the
code leaves the file that was opened. -/
def createAppFile (fault : Option FsStep) (appName : Name) : Option (Finset Name) → Option (Finset Name)
  | some files => some files
  | none =>
      if fault = some .mkdir then none
      else if fault = some .openApp then some ∅
      else some {appName ++ py}

def deleteAppFromJson (port : Port) (fault : Option FsStep) (appName : Name) (list : ListFile) : ListFile × Bool :=
  rewrite port fault (fun data => data.filter fun app => app.name ≠ appName) list

/-- `delete_app`: what the folder holds after it. A failing removal is caught, and the missing `path` is not, but it is
the last thing that `app_deleter` does. -/
def deleteApp (port : Port) (fault : Option FsStep) (appName : Name) : Option (Finset Name) → Option (Finset Name)
  | none => none
  | some files =>
      if port.osPath ∧ appName ∈ files ∧ fault ≠ some .removeApp then some (files.erase appName) else some files

def appUpdater (port : Port) (fault : Option FsStep) (appName appFolder : Name) (shelf : Shelf) : Shelf :=
  let appName := Py.sliceTo appName (-3)
  let (list, raised) := addToJson port fault ⟨appName, appFolder, true⟩ shelf.list
  if raised then { shelf with list } else { list, files := createAppFile fault appName shelf.files }

def appDeleter (port : Port) (fault : Option FsStep) (appName : Name) (shelf : Shelf) : Shelf :=
  let (list, raised) := deleteAppFromJson port fault appName shelf.list
  if raised then { shelf with list } else { list, files := deleteApp port fault appName shelf.files }

/-- The answers of the server that lead to an action. -/
inductive Response
  | download
  | update
  | delete
  deriving DecidableEq

/-- A call of `update` with what the server answers, and the file-system step that fails, if one does. -/
structure Action where
  response : Response
  appName : Name
  appFolder : Name
  ends : py <:+ appName
  fault : Option FsStep

def Action.apply (port : Port) (a : Action) (shelf : Shelf) : Shelf :=
  if a.response ≠ .delete then appUpdater port a.fault a.appName a.appFolder shelf
  else appDeleter port a.fault a.appName shelf

/-- The folders and their lists. -/
abbrev Disk := Name → Shelf

/-- `update`: an exception ends it and leaves what has been written. -/
def update (port : Port) (disk : Disk) (a : Action) : Disk :=
  Function.update disk a.appFolder (a.apply port (disk a.appFolder))

/-! ### Agreement -/

/-- The names in a list; a list that is missing has none, a broken one is no list. -/
def ListFile.names : ListFile → Option (List Name)
  | .missing => some []
  | .broken => none
  | .entries data => some (data.map Entry.name)

def Shelf.fileNames (shelf : Shelf) : Finset Name := shelf.files.getD ∅

/-- The list has exactly one entry for every app file, and no other. -/
def Shelf.Agrees (shelf : Shelf) : Prop :=
  ∃ names, shelf.list.names = some names ∧ names.Nodup ∧ ∀ app, app ∈ names ↔ app ++ py ∈ shelf.fileNames

/-- The action fails before it has written the list, or without a trace of what it has written. -/
def Spared (port : Port) (fault : Option FsStep) : Prop :=
  fault = some .readList ∨ fault = some .openList ∨ fault = some .writeList ∧ port.tears = false

/-- An installation fails so. -/
def InstallSpared (port : Port) (fault : Option FsStep) (list : ListFile) : Prop :=
  port.osPath = false ∨ list = .missing ∧ fault = some .createList ∨
    Spared port fault

/-- The list is lost because the installation failed while writing it. -/
def Torn (port : Port) (fault : Option FsStep) (list : ListFile) : Prop :=
  fault = some .writeList ∧ port.tears ∨ list = .missing ∧ fault = some .createWrite

/-- A download or an update keeps the agreement: it fails and leaves the list, or it is the first one into a folder that
does not exist and gets as far as opening the app file. -/
def InstallKeeps (port : Port) (fault : Option FsStep) (shelf : Shelf) : Prop :=
  InstallSpared port fault shelf.list ∨
    shelf.files = none ∧ ¬ Torn port fault shelf.list ∧ fault ≠ some .mkdir ∧ fault ≠ some .openApp

/-- A deletion keeps the agreement: it fails and leaves the list, or there is nothing for it to delete. -/
def DeleteKeeps (port : Port) (fault : Option FsStep) (appName : Name) (shelf : Shelf) : Prop :=
  shelf.list = .missing ∨ Spared port fault ∨
    fault ≠ some .writeList ∧ (∀ data, shelf.list = .entries data → appName ∉ data.map Entry.name) ∧
      (port.osPath = false ∨ appName ∉ shelf.fileNames ∨ fault = some .removeApp)

/-- The condition on an action. -/
def Keeps (port : Port) (disk : Disk) (a : Action) : Prop :=
  if a.response ≠ .delete then InstallKeeps port a.fault (disk a.appFolder)
  else DeleteKeeps port a.fault a.appName (disk a.appFolder)

/-- Every folder's list agrees with its files. -/
def Agree (disk : Disk) : Prop := ∀ folder, (disk folder).Agrees

variable {port : Port} {fault : Option FsStep} {shelf : Shelf} {list : ListFile} {names : List Name}

theorem not_agrees_of_broken (h : shelf.list = .broken) : ¬ shelf.Agrees := by
  rintro ⟨names, hnames, -⟩
  rw [h] at hnames
  cases hnames

theorem agrees_iff (h : shelf.list.names = some names) :
    shelf.Agrees ↔ names.Nodup ∧ ∀ app, app ∈ names ↔ app ++ py ∈ shelf.fileNames := by
  refine ⟨?_, ?_⟩
  · rintro ⟨names', hnames', hagrees⟩
    obtain rfl : names = names' := Option.some.inj (h.symm.trans hnames')
    exact hagrees
  · exact fun hagrees => ⟨names, h, hagrees⟩

/-! ### Installing -/

/-- What a rewriting that fails leaves of the list, where it leaves it. -/
theorem rewrite_spared (h : Spared port fault) (hnames : list.names = some names) (change : List Entry → List Entry) :
    (rewrite port fault change list).1 = list ∧ (rewrite port fault change list).2 = true := by
  cases list with
  | missing => exact ⟨rfl, rfl⟩
  | broken => cases hnames
  | entries data =>
      rcases h with hread | hopen | ⟨hwrite, htears⟩
      · simp only [rewrite, if_pos (Or.inl hread), and_self]
      · simp only [rewrite, if_pos (Or.inr hopen), and_self]
      · simp [rewrite, hwrite, htears]

theorem rewrite_torn (hwrite : fault = some .writeList) (htears : port.tears = true) (data : List Entry)
    (change : List Entry → List Entry) : rewrite port fault change (.entries data) = (.broken, true) := by
  simp [rewrite, hwrite, htears]

theorem rewrite_written (hspared : ¬ Spared port fault) (hkept : ¬ (fault = some .writeList ∧ port.tears))
    (data : List Entry) (change : List Entry → List Entry) :
    rewrite port fault change (.entries data) = (.entries (change data), false) := by
  have hwrite : fault ≠ some .writeList := by
    intro hwrite
    cases htears : port.tears with
    | true => exact hkept ⟨hwrite, htears⟩
    | false => exact hspared (.inr (.inr ⟨hwrite, htears⟩))
  rw [rewrite, if_neg fun hearly => hspared (hearly.imp_right .inl), if_neg hwrite]

theorem addToJson_spared (h : InstallSpared port fault list) (hnames : list.names = some names) (newApp : Entry) :
    (addToJson port fault newApp list).1.names = some names ∧ (addToJson port fault newApp list).2 = true := by
  unfold addToJson createIfMissing
  by_cases hpath : port.osPath = false
  · rw [if_pos hpath]
    exact ⟨hnames, rfl⟩
  rw [if_neg hpath]
  obtain ⟨rfl, rfl⟩ | hspared := h.resolve_left hpath
  · exact ⟨hnames, rfl⟩
  have hnone : fault ≠ some .createList ∧ fault ≠ some .createWrite := by
    rcases hspared with rfl | rfl | ⟨rfl, -⟩ <;> decide
  cases list with
  | missing =>
      obtain rfl : [] = names := Option.some.inj hnames
      have hempty : (ListFile.entries []).names = some [] := rfl
      obtain ⟨hlist, hraised⟩ := rewrite_spared hspared hempty (· ++ [newApp])
      simp only [if_neg hnone.1, if_neg hnone.2, Bool.false_eq_true, if_false, hlist, hraised]
      exact ⟨rfl, trivial⟩
  | broken => cases hnames
  | entries data =>
      obtain ⟨hlist, hraised⟩ := rewrite_spared hspared hnames (· ++ [newApp])
      simp only [Bool.false_eq_true, if_false, hlist, hraised]
      exact ⟨hnames, trivial⟩

theorem addToJson_torn (hspared : ¬ InstallSpared port fault list) (h : Torn port fault list)
    (hnames : list.names = some names) (newApp : Entry) : addToJson port fault newApp list = (.broken, true) := by
  unfold addToJson createIfMissing
  rw [if_neg fun hpath => hspared (.inl hpath)]
  rcases h with ⟨rfl, htears⟩ | ⟨rfl, rfl⟩
  · cases list with
    | missing => exact rewrite_torn rfl htears [] (· ++ [newApp])
    | broken => cases hnames
    | entries data => exact rewrite_torn rfl htears data (· ++ [newApp])
  · rfl

theorem addToJson_written (hspared : ¬ InstallSpared port fault list) (htorn : ¬ Torn port fault list)
    (hnames : list.names = some names) (newApp : Entry) :
    (addToJson port fault newApp list).1.names = some (names ++ [newApp.name]) ∧
      (addToJson port fault newApp list).2 = false := by
  obtain ⟨hpath, hcreate, hrewrite⟩ : port.osPath ≠ false ∧ ¬ (list = .missing ∧ fault = some .createList) ∧
      ¬ Spared port fault := by simpa only [InstallSpared, not_or] using hspared
  obtain ⟨hkept, hempty⟩ := not_or.mp htorn
  have hwritten := rewrite_written hrewrite hkept
  unfold addToJson createIfMissing
  rw [if_neg hpath]
  cases list with
  | missing =>
      obtain rfl : [] = names := Option.some.inj hnames
      simp only [if_neg fun hfault => hcreate ⟨rfl, hfault⟩, if_neg fun hfault => hempty ⟨rfl, hfault⟩,
        Bool.false_eq_true, if_false, hwritten]
      exact ⟨rfl, trivial⟩
  | broken => cases hnames
  | entries data =>
      obtain rfl : data.map Entry.name = names := Option.some.inj hnames
      simp only [Bool.false_eq_true, if_false, hwritten]
      exact ⟨by rw [ListFile.names, List.map_append, List.map_singleton], trivial⟩

theorem base_append {name : Name} (h : py <:+ name) : Py.sliceTo name (-3) ++ py = name := by
  obtain ⟨base, rfl⟩ := h
  have hbound : Py.bound (base ++ py).length (-3) = base.length := by
    rw [List.length_append, show py.length = 3 from rfl, Py.bound]
    split_ifs <;> omega
  rw [Py.sliceTo, hbound, List.take_left]

/-- After the list got its entry, the files agree exactly when the folder did not exist and the app file was opened. -/
theorem installed_agrees_iff (h : shelf.Agrees) (hnames : shelf.list.names = some names) {list : ListFile}
    {appName : Name} (hwritten : list.names = some (names ++ [appName])) :
    (Shelf.mk list (createAppFile fault appName shelf.files)).Agrees ↔
      shelf.files = none ∧ fault ≠ some .mkdir ∧ fault ≠ some .openApp := by
  obtain ⟨hnodup, hfiles⟩ := (agrees_iff hnames).mp h
  rw [agrees_iff hwritten]
  cases hdir : shelf.files with
  | some files =>
      -- the folder exists: the new entry is a second one, or one without a file
      refine iff_of_false ?_ (fun hnone => absurd hnone.1 (by simp))
      rintro ⟨hnodup', hfiles'⟩
      have hfile := (hfiles' appName).mp (List.mem_append_right _ (List.mem_singleton_self appName))
      rw [createAppFile, ← hdir] at hfile
      have hold : appName ∈ names := (hfiles appName).mpr hfile
      exact (List.nodup_append.mp hnodup').2.2 appName hold appName (List.mem_singleton_self appName) rfl
  | none =>
      have hempty : names = [] := by
        rw [List.eq_nil_iff_forall_not_mem]
        intro app hmem
        have hfile := (hfiles app).mp hmem
        rw [Shelf.fileNames, hdir] at hfile
        exact absurd hfile (Finset.notMem_empty _)
      subst hempty
      simp only [createAppFile, List.nil_append, true_and]
      split_ifs with hmkdir hopen
      · refine iff_of_false ?_ (fun hne => hne.1 hmkdir)
        rintro ⟨-, hfiles'⟩
        exact absurd ((hfiles' appName).mp (List.mem_singleton_self appName)) (Finset.notMem_empty _)
      · refine iff_of_false ?_ (fun hne => hne.2 hopen)
        rintro ⟨-, hfiles'⟩
        exact absurd ((hfiles' appName).mp (List.mem_singleton_self appName)) (Finset.notMem_empty _)
      · refine iff_of_true ⟨List.nodup_singleton appName, fun app => ?_⟩ ⟨hmkdir, hopen⟩
        simp [Shelf.fileNames]

theorem appUpdater_agrees_iff (h : shelf.Agrees) (appName appFolder : Name) :
    (appUpdater port fault appName appFolder shelf).Agrees ↔ InstallKeeps port fault shelf := by
  obtain ⟨names, hnames, hagrees⟩ := h
  have h : shelf.Agrees := ⟨names, hnames, hagrees⟩
  unfold InstallKeeps appUpdater
  by_cases hspared : InstallSpared port fault shelf.list
  · obtain ⟨hsame, hraised⟩ := addToJson_spared hspared hnames ⟨Py.sliceTo appName (-3), appFolder, true⟩
    refine iff_of_true ?_ (Or.inl hspared)
    simp only [hraised, if_true]
    exact ⟨names, hsame, hagrees⟩
  · rw [or_iff_right hspared]
    by_cases htorn : Torn port fault shelf.list
    · refine iff_of_false ?_ (fun hkeeps => hkeeps.2.1 htorn)
      simp only [addToJson_torn hspared htorn hnames, if_true]
      exact not_agrees_of_broken rfl
    · obtain ⟨hwritten, hraised⟩ :=
        addToJson_written hspared htorn hnames ⟨Py.sliceTo appName (-3), appFolder, true⟩
      simp only [hraised, Bool.false_eq_true, if_false]
      rw [installed_agrees_iff h hnames hwritten]
      tauto

/-! ### Deleting -/

/-- A name with `.py` added is another name. -/
theorem append_py_ne (name : Name) : name ++ py ≠ name := by
  intro heq
  have hlength := congrArg List.length heq
  rw [List.length_append] at hlength
  have hpy : py.length = 3 := rfl
  omega

/-- A deletion takes away the file of that name, unless it cannot look for it or the removal fails. -/
theorem mem_fileNames_deleteApp (list : ListFile) {appName file : Name} :
    file ∈ (Shelf.mk list (deleteApp port fault appName shelf.files)).fileNames ↔
      file ∈ shelf.fileNames ∧ ¬ (file = appName ∧ port.osPath ∧ fault ≠ some .removeApp) := by
  unfold Shelf.fileNames
  cases hfiles : shelf.files with
  | none => simp [deleteApp]
  | some files =>
      simp only [deleteApp, Option.getD_some]
      split
      · next hdeleted =>
          obtain ⟨hpath, -, hremoved⟩ := hdeleted
          rw [Option.getD_some, Finset.mem_erase, and_comm, not_and_or]
          exact and_congr_right fun _ => ⟨.inl, fun hnot => hnot.resolve_right fun hkept => hkept ⟨hpath, hremoved⟩⟩
      · next hkept =>
          refine (and_iff_left_of_imp ?_).symm
          rintro hmem ⟨rfl, hpath, hremoved⟩
          exact hkept ⟨hpath, hmem, hremoved⟩

theorem mem_names_filter (data : List Entry) (appName app : Name) :
    app ∈ (data.filter fun app => app.name ≠ appName).map Entry.name ↔
      app ∈ data.map Entry.name ∧ app ≠ appName := by
  simp only [List.mem_map, List.mem_filter, decide_eq_true_eq]
  refine ⟨?_, ?_⟩
  · rintro ⟨entry, ⟨hmem, hne⟩, rfl⟩
    exact ⟨⟨entry, hmem, rfl⟩, hne⟩
  · rintro ⟨⟨entry, hmem, rfl⟩, hne⟩
    exact ⟨entry, ⟨hmem, hne⟩, rfl⟩

/-- The list is searched for the whole file name and the folder for the same name: what they lose is not the same
app. -/
theorem deleted_agrees_iff (h : shelf.Agrees) {data : List Entry} (hlist : shelf.list = .entries data)
    {appName : Name} (hends : py <:+ appName) :
    (Shelf.mk (.entries (data.filter fun app => app.name ≠ appName))
      (deleteApp port fault appName shelf.files)).Agrees ↔
      appName ∉ data.map Entry.name ∧ (port.osPath = false ∨ appName ∉ shelf.fileNames ∨ fault = some .removeApp) := by
  have hnames : shelf.list.names = some (data.map Entry.name) := by rw [hlist, ListFile.names]
  obtain ⟨hnodup, hfiles⟩ := (agrees_iff hnames).mp h
  rw [agrees_iff (show ListFile.names (.entries _) = some _ from rfl)]
  refine ⟨?_, ?_⟩
  · rintro ⟨-, hfiles'⟩
    have habsent : appName ∉ data.map Entry.name := by
      intro hmem
      have hfile := (hfiles appName).mp hmem
      have hentry := (hfiles' appName).mpr ((mem_fileNames_deleteApp _).mpr
        ⟨hfile, fun heq => append_py_ne appName heq.1⟩)
      exact ((mem_names_filter data appName appName).mp hentry).2 rfl
    refine ⟨habsent, ?_⟩
    by_contra hall
    obtain ⟨hpath, hboth⟩ := not_or.mp hall
    rw [not_or, not_not] at hboth
    -- the file goes, and its entry stays
    have hbase := base_append hends
    have hentry : Py.sliceTo appName (-3) ∈ data.map Entry.name := by
      rw [hfiles, hbase]
      exact hboth.1
    have hother : Py.sliceTo appName (-3) ≠ appName := fun heq => append_py_ne appName (by rw [← heq, hbase, heq])
    have hfile := (hfiles' _).mp ((mem_names_filter data appName _).mpr ⟨hentry, hother⟩)
    rw [hbase, mem_fileNames_deleteApp] at hfile
    exact hfile.2 ⟨rfl, Bool.not_eq_false _ ▸ hpath, hboth.2⟩
  · rintro ⟨habsent, hkept⟩
    refine ⟨hnodup.sublist (List.filter_sublist.map _), fun app => ?_⟩
    rw [mem_names_filter, mem_fileNames_deleteApp, ← hfiles]
    refine ⟨?_, ?_⟩
    · rintro ⟨hmem, -⟩
      refine ⟨hmem, fun ⟨heq, hpath, hremoved⟩ => ?_⟩
      rw [hfiles, heq] at hmem
      rcases hkept with hnone | hnot | hfails
      · rw [hnone] at hpath
        cases hpath
      · exact hnot hmem
      · exact hremoved hfails
    · rintro ⟨hmem, -⟩
      refine ⟨hmem, ?_⟩
      rintro rfl
      exact habsent hmem

theorem appDeleter_agrees_iff (h : shelf.Agrees) {appName : Name} (hends : py <:+ appName) :
    (appDeleter port fault appName shelf).Agrees ↔ DeleteKeeps port fault appName shelf := by
  unfold DeleteKeeps appDeleter deleteAppFromJson
  cases hlist : shelf.list with
  | missing =>
      refine iff_of_true ?_ (Or.inl rfl)
      simpa only [rewrite, if_true, ← hlist] using h
  | broken => exact absurd h (not_agrees_of_broken hlist)
  | entries data =>
      rw [or_iff_right (by simp)]
      by_cases hspared : Spared port fault
      · have hentries : (ListFile.entries data).names = some (data.map Entry.name) := rfl
        obtain ⟨hsame, hraised⟩ := rewrite_spared hspared hentries fun data => data.filter fun app => app.name ≠ appName
        refine iff_of_true ?_ (Or.inl hspared)
        simp only [hsame, hraised, if_true]
        rw [← hlist]
        exact h
      · rw [or_iff_right hspared]
        by_cases htorn : fault = some .writeList ∧ port.tears = true
        · refine iff_of_false ?_ (fun hkeeps => hkeeps.1 htorn.1)
          simp only [rewrite_torn htorn.1 htorn.2, if_true]
          exact not_agrees_of_broken rfl
        · have hwrite : fault ≠ some .writeList := fun hwrite => by
            cases htears : port.tears with
            | true => exact htorn ⟨hwrite, htears⟩
            | false => exact hspared (.inr (.inr ⟨hwrite, htears⟩))
          simp only [rewrite_written hspared htorn, Bool.false_eq_true, if_false]
          rw [deleted_agrees_iff h hlist hends]
          refine ⟨?_, ?_⟩
          · rintro ⟨habsent, hkept⟩
            refine ⟨hwrite, fun data' heq => ?_, hkept⟩
            cases heq
            exact habsent
          · rintro ⟨-, habsent, hkept⟩
            exact ⟨habsent data rfl, hkept⟩

/-! ### Sequences of actions -/

theorem agree_update_iff {disk : Disk} (h : Agree disk) (a : Action) :
    Agree (update port disk a) ↔ Keeps port disk a := by
  have hfolder : Agree (update port disk a) ↔ (a.apply port (disk a.appFolder)).Agrees := by
    refine ⟨?_, ?_⟩
    · intro hagree
      have hown := hagree a.appFolder
      rwa [update, Function.update_self] at hown
    · intro hown folder
      by_cases heq : folder = a.appFolder
      · rw [heq, update, Function.update_self]
        exact hown
      · rw [update, Function.update_of_ne heq]
        exact h folder
  rw [hfolder]
  unfold Action.apply Keeps
  split
  · exact appUpdater_agrees_iff (h a.appFolder) a.appName a.appFolder
  · exact appDeleter_agrees_iff (h a.appFolder) a.ends

/-- From a disk on which lists and files agree, they agree after every action of a sequence exactly when every action
is an install that does not get to the list or into a folder that does not exist yet, a deletion with nothing to delete,
or one that fails and leaves the list. -/
theorem lists_agree_iff (port : Port) {disk : Disk} (h : Agree disk) (actions : List Action) :
    Runs.Each (update port) (fun disk a => Agree (update port disk a)) disk actions ↔
      Runs.Each (update port) (Keeps port) disk actions := by
  have hstep : ∀ (disk : Disk) (a : Action), Agree disk → (Agree (update port disk a) ↔ Keeps port disk a) :=
    fun _ a hagree => agree_update_iff hagree a
  exact Runs.each_iff hstep (fun disk a hagree hkeeps => (hstep disk a hagree).mpr hkeeps) h actions

def freshDisk : Disk := fun _ => ⟨.missing, none⟩

def oneApp (app : Name) : Disk := fun folder =>
  if folder = "installed_applications".toList then
    ⟨.entries [⟨app, "installed_applications".toList, true⟩], some {app ++ py}⟩
  else ⟨.missing, none⟩

def installedAction (response : Response) (name : Name) (hname : py <:+ name) : Action :=
  ⟨response, name, "installed_applications".toList, hname, none⟩

theorem agrees_fresh : (Shelf.mk .missing none).Agrees := by
  refine ⟨[], rfl, List.nodup_nil, fun app => ?_⟩
  simp [Shelf.fileNames]

theorem agree_oneApp (app : Name) : Agree (oneApp app) := by
  intro folder
  unfold oneApp
  split
  · refine ⟨[app], rfl, List.nodup_singleton _, fun app' => ?_⟩
    rw [Shelf.fileNames, Option.getD_some, Finset.mem_singleton, List.append_left_inj, List.mem_singleton]
  · exact agrees_fresh

/-- Where `os` has a `path` the first download of an app keeps the agreement; on the firmware no download changes
anything. -/
theorem lists_agree_fresh :
    Agree freshDisk ∧ Agree (oneApp "clock".toList) ∧
      Runs.Each (update ⟨true, false⟩) (fun disk a => Agree (update ⟨true, false⟩ disk a)) freshDisk
        [installedAction .download "clock.py".toList (by decide)] ∧
      Runs.Each (update firmware) (fun disk a => Agree (update firmware disk a)) (oneApp "clock".toList)
        [installedAction .download "timer.py".toList (by decide)] := by
  have hfresh : Agree freshDisk := fun _ => agrees_fresh
  have happ := agree_oneApp "clock".toList
  refine ⟨hfresh, happ, (lists_agree_iff _ hfresh _).mpr (Runs.each_singleton.mpr (.inr ?_)),
    (lists_agree_iff _ happ _).mpr (Runs.each_singleton.mpr (.inl (.inl rfl)))⟩
  refine ⟨rfl, ?_, by decide, by decide⟩
  rintro (⟨hfault, -⟩ | ⟨-, hfault⟩) <;> cases hfault

/-- On the firmware, the deletion of `clock.py` takes the entry of the app in `clock.py.py` from the list and leaves its
file. Where `os` has a `path`, a download beside an installed app leaves an entry without a file, an update of the app a
second entry, and its deletion an entry without a file. -/
theorem one_app_disagrees :
    Agree (oneApp "clock.py".toList) ∧ Agree (oneApp "clock".toList) ∧
      ¬ Agree (update firmware (oneApp "clock.py".toList)
        (installedAction .delete "clock.py".toList (by decide))) ∧
      ∀ tears, ¬ Agree (update ⟨true, tears⟩ (oneApp "clock".toList)
          (installedAction .download "timer.py".toList (by decide))) ∧
        ¬ Agree (update ⟨true, tears⟩ (oneApp "clock".toList)
          (installedAction .update "clock.py".toList (by decide))) ∧
        ¬ Agree (update ⟨true, tears⟩ (oneApp "clock".toList)
          (installedAction .delete "clock.py".toList (by decide))) := by
  have happ := agree_oneApp "clock".toList
  have hspared : ∀ port, ¬ Spared port none := by
    rintro port (hfault | hfault | ⟨hfault, -⟩) <;> cases hfault
  have hinstall : ∀ tears response name hname, response ≠ .delete →
      ¬ Agree (update ⟨true, tears⟩ (oneApp "clock".toList) (installedAction response name hname)) := by
    intro tears response name hname hresponse
    have hfirst : (installedAction response name hname).response ≠ .delete := hresponse
    rw [agree_update_iff happ, Keeps, if_pos hfirst]
    rintro ((hpath | ⟨-, hfault⟩ | hspared') | ⟨hfiles, -⟩)
    · cases hpath
    · cases hfault
    · exact hspared _ hspared'
    · cases hfiles
  refine ⟨agree_oneApp _, happ, ?_, fun tears =>
    ⟨hinstall tears _ _ _ (by decide), hinstall tears _ _ _ (by decide), ?_⟩⟩
  · rw [agree_update_iff (agree_oneApp _)]
    rintro (hlist | hspared' | ⟨-, habsent, -⟩)
    · cases hlist
    · exact hspared _ hspared'
    · exact habsent _ rfl (List.mem_singleton_self _)
  · rw [agree_update_iff happ]
    rintro (hlist | hspared' | ⟨-, -, hpath | hfile | hfault⟩)
    · cases hlist
    · exact hspared _ hspared'
    · cases hpath
    · exact hfile (Finset.mem_singleton_self _)
    · cases hfault

end CalSci.UpdateFeature
