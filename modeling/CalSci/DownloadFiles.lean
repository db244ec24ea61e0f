import CalSci.DownloadModel

/-! The files a download writes. `download_app` of `App_downloader` takes the name of the app from the reply
of the server, opens its file for writing and only then looks for the code. What is left of the installed apps when it
raises depends on whether that file was opened, and on what the file system leaves of a file that was opened and not
written to the end. -/

namespace CalSci.Download

/-! ### The reply of the server -/

/-- A value that `json()` returns. Of a float only the printed form is kept. -/
inductive Json where
  | null
  | bool (b : Bool)
  | int (n : Int)
  | float (text : List Char)
  | str (text : List Char)
  | arr (items : List Json)
  | obj (fields : List (List Char × Json))

/-- The exceptions of `download_app`; a request can raise anything. -/
inductive Raised where
  | request
  | keyError
  | typeError
  | osError
  deriving DecidableEq, Repr

namespace Json

/-- The number in hexadecimal, with at least `width` digits. -/
def hex (width n : Nat) : List Char := (Nat.toDigits 16 n).leftpad width '0'

/-- A character inside quotes, as `uni_print_quoted` prints it. -/
def escape (quote chr : Char) : List Char :=
  if chr = quote then ['\\', quote]
  else if chr = '\\' then ['\\', '\\']
  else if 32 ≤ chr.toNat ∧ chr.toNat ≤ 126 then [chr]
  else if chr = '\n' then ['\\', 'n']
  else if chr = '\r' then ['\\', 'r']
  else if chr = '\t' then ['\\', 't']
  else if chr.toNat < 0x100 then ['\\', 'x'] ++ hex 2 chr.toNat
  else if chr.toNat < 0x10000 then ['\\', 'u'] ++ hex 4 chr.toNat
  else ['\\', 'U'] ++ hex 8 chr.toNat

def quoted (text : List Char) : List Char :=
  let quote := if '\x27' ∈ text ∧ '\x22' ∉ text then '\x22' else '\x27'
  [quote] ++ text.flatMap (escape quote) ++ [quote]

mutual

def repr : Json → List Char
  | .null => "None".toList
  | .bool b => if b then "True".toList else "False".toList
  | .int n => (toString n).toList
  | .float text => text
  | .str text => quoted text
  | .arr items => ['['] ++ ", ".toList.intercalate (reprItems items) ++ [']']
  | .obj fields => ['\x7b'] ++ ", ".toList.intercalate (reprFields fields) ++ ['\x7d']

def reprItems : List Json → List (List Char)
  | [] => []
  | item :: items => repr item :: reprItems items

def reprFields : List (List Char × Json) → List (List Char)
  | [] => []
  | (key, value) :: fields => (quoted key ++ ": ".toList ++ repr value) :: reprFields fields

end

/-- The value in an f-string: a string is not quoted. -/
def format : Json → List Char
  | .str text => text
  | value => repr value

/-- `value[key]` with a string for the key: only a dict takes it. -/
def item (value : Json) (key : List Char) : Except Raised Json :=
  match value with
  | .obj fields =>
      match fields.lookup key with
      | some field => .ok field
      | none => .error .keyError
  | _ => .error .typeError

end Json

/-! ### Files -/

/-- How the file system takes the calls. `file` is the file that `open(path, 'w')` opens, nothing when it raises, and
`refused` what is then at the path. An opened file that nothing is written to is `dropped`; `raises` says whether writing
a text to a file or closing it does, and a file is then `torn`. What is left can depend on what the file held. -/
structure Storage where
  file : List Char → Option (List Char)
  refused : List Char → Option (List Char) → Option (List Char)
  dropped : List Char → Option (List Char) → List Char
  raises : List Char → List Char → Bool
  torn : List Char → List Char → Option (List Char) → List Char

/-- LittleFS: `lfs2.c` makes a file when it is opened, puts what was written in place of the old content when it is
closed, and keeps the old content if that fails. A file that was dropped is closed when it is `collected`. -/
def littlefs (collected : Bool) (raises : List Char → List Char → Bool) : Storage where
  file := some
  refused _ old := old
  dropped _ old := if collected then [] else old.getD []
  raises := raises
  torn _ _ old := old.getD []

def installedDir : List Char := "/apps/installed_apps/".toList

/-- `f"/apps/installed_apps/{name}.py"`. -/
def appPath (name : List Char) : List Char := installedDir ++ name ++ ".py".toList

/-- What `download_app` changes: the files, by their place, and `app_name`. -/
structure Downloader where
  files : Files
  appName : Json

namespace Downloader

/-- The files with `text` in one of them, or without it. -/
def put (files : Files) (file : List Char) : Option (List Char) → Files
  | some text => files.insert file text
  | none => files.erase file

def dropFile (d : Downloader) (storage : Storage) (file : List Char) : Downloader :=
  { d with files := d.files.insert file (storage.dropped file (d.files.lookup file)) }

/-- `f.write(code)` and `f.close()`. Only a string has the bytes to write. -/
def writeCode (d : Downloader) (storage : Storage) (file : List Char) :
    Json → Downloader × Except Raised Bool
  | .str text =>
      if storage.raises file text then
        ({ d with files := d.files.insert file (storage.torn file text (d.files.lookup file)) }, .error .osError)
      else ({ d with files := d.files.insert file text }, .ok true)
  | _ => (d.dropFile storage file, .error .typeError)

/-- `download_app`, from what the request gives. -/
def downloadApp (d : Downloader) (storage : Storage) (response : Except Raised Json) :
    Downloader × Except Raised Bool :=
  match response with
  | .error e => (d, .error e)
  | .ok res =>
      match res.item "app_name".toList with
      | .error e => (d, .error e)
      | .ok appName =>
          let d := { d with appName }
          let path := appPath appName.format
          match storage.file path with
          | none => ({ d with files := put d.files path (storage.refused path (d.files.lookup path)) }, .error .osError)
          | some file =>
              match res.item "code".toList with
              | .error e => (d.dropFile storage file, .error e)
              | .ok code => d.writeCode storage file code

/-! ### What a call leaves -/

/-- If the call raises, every file of the installed apps is as it was. -/
def KeepsInstalled (d : Downloader) (storage : Storage) (response : Except Raised Json) : Prop :=
  (∃ e, (d.downloadApp storage response).2 = .error e) → ∀ file, installedDir <+: file →
    (d.downloadApp storage response).1.files.lookup file = d.files.lookup file

/-- The reply names an app, and opening its path raises. -/
def Refuses (storage : Storage) (response : Except Raised Json) (path : List Char) : Prop :=
  ∃ res appName, response = .ok res ∧ res.item "app_name".toList = .ok appName ∧ appPath appName.format = path ∧
    storage.file path = none

/-- The reply names an app, and `file` is opened for it. -/
def Opens (storage : Storage) (response : Except Raised Json) (res : Json) (file : List Char) : Prop :=
  response = .ok res ∧ ∃ appName, res.item "app_name".toList = .ok appName ∧
    storage.file (appPath appName.format) = some file

/-- What is in the opened file after the call, and whether that is the code of the reply: a reply without a string for
it leaves the file dropped. -/
def written (storage : Storage) (res : Json) (file : List Char) (old : Option (List Char)) : List Char × Bool :=
  match res.item "code".toList with
  | .ok (.str text) => if storage.raises file text then (storage.torn file text old, false) else (text, true)
  | _ => (storage.dropped file old, false)

/-- Opening a path that raises leaves it, and a file of the installed apps is opened only if the code can be written to
it, or if what is left otherwise is what the file held. -/
def OpensWritable (d : Downloader) (storage : Storage) (response : Except Raised Json) : Prop :=
  (∀ path, Refuses storage response path → storage.refused path (d.files.lookup path) = d.files.lookup path) ∧
    ∀ res file, Opens storage response res file → installedDir <+: file →
      (written storage res file (d.files.lookup file)).2 = true ∨
        d.files.lookup file = some (written storage res file (d.files.lookup file)).1

variable {d : Downloader} {storage : Storage} {response : Except Raised Json} {res : Json}
  {file : List Char}

theorem lookup_insert_eq (files : Files) (file text other : List Char) :
    (files.insert file text).lookup other = if other = file then some text else files.lookup other := by
  by_cases h : other = file
  · rw [if_pos h, h, AList.lookup_insert]
  · rw [if_neg h, AList.lookup_insert_ne h]

theorem lookup_put (files : Files) (file : List Char) (text : Option (List Char)) (other : List Char) :
    (put files file text).lookup other = if other = file then text else files.lookup other := by
  cases text with
  | some text => exact lookup_insert_eq files file text other
  | none =>
      rw [put]
      by_cases h : other = file
      · rw [if_pos h, h, AList.lookup_erase]
      · rw [if_neg h, AList.lookup_erase_ne h]

/-- A call that gets to no path raises and changes no file. -/
theorem downloadApp_unopened (hrefused : ∀ path, ¬ Refuses storage response path)
    (h : ∀ res file, ¬ Opens storage response res file) :
    (∃ e, (d.downloadApp storage response).2 = .error e) ∧
      (d.downloadApp storage response).1.files = d.files := by
  cases response with
  | error e => exact ⟨⟨e, rfl⟩, rfl⟩
  | ok res =>
      simp only [downloadApp]
      cases hname : res.item "app_name".toList with
      | error e => exact ⟨⟨e, rfl⟩, rfl⟩
      | ok appName =>
          cases hfile : storage.file (appPath appName.format) with
          | none => exact absurd ⟨res, appName, rfl, hname, rfl, hfile⟩ (hrefused _)
          | some file => exact absurd ⟨rfl, appName, hname, hfile⟩ (h res file)

/-- A call that cannot open its path raises and changes at most what is there. -/
theorem downloadApp_refused {path : List Char} (h : Refuses storage response path) :
    (∃ e, (d.downloadApp storage response).2 = .error e) ∧
      ∀ other, (d.downloadApp storage response).1.files.lookup other =
        if other = path then storage.refused path (d.files.lookup path) else d.files.lookup other := by
  obtain ⟨res, appName, rfl, hname, rfl, hfile⟩ := h
  simp only [downloadApp, hname, hfile]
  exact ⟨⟨_, rfl⟩, lookup_put d.files _ _⟩

/-- A call that opens a file raises if it does not write the code, and changes no other file. -/
theorem downloadApp_opened (h : Opens storage response res file) :
    ((∃ e, (d.downloadApp storage response).2 = .error e) ↔
        (written storage res file (d.files.lookup file)).2 = false) ∧
      ∀ other, (d.downloadApp storage response).1.files.lookup other =
        if other = file then some (written storage res file (d.files.lookup file)).1 else d.files.lookup other := by
  obtain ⟨rfl, appName, hname, hfile⟩ := h
  have hinsert : ∀ text other, (d.files.insert file text).lookup other =
      if other = file then some text else d.files.lookup other := lookup_insert_eq d.files file
  simp only [downloadApp, hname, hfile, written]
  cases hcode : res.item "code".toList with
  | error e => exact ⟨iff_of_true ⟨e, rfl⟩ rfl, hinsert _⟩
  | ok code =>
      cases code with
      | str text =>
          simp only [writeCode]
          split
          · exact ⟨iff_of_true ⟨_, rfl⟩ rfl, hinsert _⟩
          · exact ⟨iff_of_false nofun nofun, hinsert text⟩
      | null | bool | int | float | arr | obj => exact ⟨iff_of_true ⟨_, rfl⟩ rfl, hinsert _⟩

/-! ### The session -/

/-- What a session of `download_updates` sees of the call. -/
def pending (storage : Storage) (files : Files) : Except Raised Json → Pending
  | .error _ => .raises
  | .ok res =>
      match res.item "app_name".toList with
      | .error _ => .raises
      | .ok appName =>
          match storage.file (appPath appName.format) with
          | none => .unopened appName.format
          | some file =>
              let left := written storage res file (files.lookup file)
              if left.2 then .saved appName.format left.1 else .unwritten appName.format left.1

theorem pending_opened {files : Files} {appName : Json} {file : List Char}
    (hname : res.item "app_name".toList = .ok appName)
    (hfile : storage.file (appPath appName.format) = some file) : pending storage files (.ok res) =
      if (written storage res file (files.lookup file)).2 then
        .saved appName.format (written storage res file (files.lookup file)).1
      else .unwritten appName.format (written storage res file (files.lookup file)).1 := by
  simp only [pending, hname, hfile]

theorem appPath_inj {name name' : List Char} : appPath name = appPath name' ↔ name = name' := by
  rw [appPath, appPath, List.append_left_inj, List.append_right_inj]

theorem appName_downloadApp {appName : Json} (hname : res.item "app_name".toList = .ok appName) :
    (d.downloadApp storage (.ok res)).1.appName = appName := by
  simp only [downloadApp, hname]
  cases storage.file (appPath appName.format) with
  | none => rfl
  | some file =>
      dsimp only
      cases res.item "code".toList with
      | error e => rfl
      | ok code =>
          cases code with
          | str text =>
              simp only [writeCode]
              split <;> rfl
          | null | bool | int | float | arr | obj => rfl

/-- The session and the call have the same name, and the same files by the names of the apps. -/
structure Mirrors (s : Session) (d : Downloader) : Prop where
  appName : s.appName = d.appName.format
  files : ∀ name, s.files.lookup name = d.files.lookup (appPath name)

/-- `download_app` in a session does what the call does, where a path is opened as the file of that name and one that
is refused stays. -/
theorem Mirrors.downloadApp {s : Session} (h : Mirrors s d)
    (hpath : ∀ path file, storage.file path = some file → file = path)
    (hrefused : ∀ path old, storage.refused path old = old) {reply : Reply}
    (hreply : reply.pending = pending storage d.files response) :
    Mirrors (s.downloadApp reply).1 (d.downloadApp storage response).1 ∧
      ((s.downloadApp reply).2 = .raised ↔ ∃ e, (d.downloadApp storage response).2 = .error e) := by
  rw [Session.downloadApp, hreply]
  cases response with
  | error e => exact ⟨⟨h.appName, h.files⟩, iff_of_true rfl ⟨e, rfl⟩⟩
  | ok res =>
      cases hname : res.item "app_name".toList with
      | error e =>
          have hpending : pending storage d.files (.ok res) = .raises := by simp only [pending, hname]
          have hcall : d.downloadApp storage (.ok res) = (d, .error e) := by
            simp only [Downloader.downloadApp, hname]
          rw [hpending, hcall]
          exact ⟨⟨h.appName, h.files⟩, iff_of_true rfl ⟨e, rfl⟩⟩
      | ok appName =>
          have happ : (d.downloadApp storage (.ok res)).1.appName = appName := appName_downloadApp hname
          cases hfile : storage.file (appPath appName.format) with
          | none =>
              have hpending : pending storage d.files (.ok res) = .unopened appName.format := by
                simp only [pending, hname, hfile]
              obtain ⟨hraises, hfiles⟩ := downloadApp_refused (d := d) (show Refuses storage (.ok res) _ from
                ⟨res, appName, rfl, hname, rfl, hfile⟩)
              rw [hpending]
              refine ⟨⟨by rw [happ]; rfl, fun name => ?_⟩, iff_of_true rfl hraises⟩
              rw [hfiles, hrefused]
              apply (h.files name).trans
              split
              · next heq => rw [heq]
              · rfl
          | some file =>
              obtain ⟨hraises, hfiles⟩ :=
                downloadApp_opened (d := d) (show Opens storage (.ok res) res file from
                  ⟨rfl, appName, hname, hfile⟩)
              obtain rfl := hpath _ _ hfile
              have hsame : ∀ left name, (s.files.insert appName.format left).lookup name =
                  if appPath name = appPath appName.format then some left else d.files.lookup (appPath name) := by
                intro left name
                rw [lookup_insert_eq, h.files]
                simp only [appPath_inj]
              rw [hraises, pending_opened hname hfile]
              cases (written storage res (appPath appName.format)
                (d.files.lookup (appPath appName.format))).2 with
              | true => exact ⟨⟨by rw [happ]; rfl, fun name => by rw [hfiles]; exact hsame _ name⟩, iff_of_false nofun nofun⟩
              | false => exact ⟨⟨by rw [happ]; rfl, fun name => by rw [hfiles]; exact hsame _ name⟩, iff_of_true rfl rfl⟩

/-- For every content of the files, every reply and every behaviour of the file system: a failed download
leaves the installed apps exactly if the path it cannot open stays, and it opens none of their files but one to which the
code can be written or which is left with what it held. -/
theorem download_failed_iff (d : Downloader) (storage : Storage) (response : Except Raised Json) :
    KeepsInstalled d storage response ↔ OpensWritable d storage response := by
  by_cases hopens : ∃ res file, Opens storage response res file
  · obtain ⟨res, file, hopens⟩ := hopens
    have hunrefused : ∀ path, ¬ Refuses storage response path := by
      rintro path ⟨res', appName', hres', hname', rfl, hnone⟩
      obtain ⟨rfl, appName, hname, hfile⟩ := hopens
      obtain rfl := Except.ok.inj hres'
      obtain rfl := Except.ok.inj (hname.symm.trans hname')
      exact absurd (hfile.symm.trans hnone) nofun
    obtain ⟨hraises, hfiles⟩ := downloadApp_opened (d := d) hopens
    constructor
    · intro hkeeps
      refine ⟨fun path hrefuses => absurd hrefuses (hunrefused path), fun res' file' hopens' hdir => ?_⟩
      obtain ⟨hraises', hfiles'⟩ := downloadApp_opened (d := d) hopens'
      cases hall : (written storage res' file' (d.files.lookup file')).2 with
      | true => exact .inl rfl
      | false =>
          refine .inr ?_
          have hsame := hkeeps (hraises'.mpr hall) file' hdir
          rw [hfiles', if_pos rfl] at hsame
          exact hsame.symm
    · rintro ⟨-, hwritable⟩ herror other hdir
      rw [hfiles]
      by_cases hother : other = file
      · rw [if_pos hother]
        subst hother
        rcases hwritable res other hopens hdir with hall | hsame
        · exact absurd ((hraises.mp herror).symm.trans hall) nofun
        · exact hsame.symm
      · rw [if_neg hother]
  · have hnone : ∀ res file, ¬ Opens storage response res file :=
      fun res file h => hopens ⟨res, file, h⟩
    by_cases hrefuses : ∃ path, Refuses storage response path
    · obtain ⟨path, hrefuses⟩ := hrefuses
      obtain ⟨hraises, hfiles⟩ := downloadApp_refused (d := d) hrefuses
      constructor
      · intro hkeeps
        refine ⟨fun path' hrefuses' => ?_, fun res file h => absurd h (hnone res file)⟩
        obtain ⟨-, hfiles'⟩ := downloadApp_refused (d := d) hrefuses'
        obtain ⟨_, appName, -, -, rfl, -⟩ := hrefuses'
        have hsame := hkeeps hraises (appPath appName.format)
          ((List.prefix_append _ _).trans (List.prefix_append _ _))
        rwa [hfiles', if_pos rfl] at hsame
      · rintro ⟨hstays, -⟩ - other -
        rw [hfiles]
        split
        · next heq => rw [heq, hstays path hrefuses]
        · rfl
    · have hunrefused : ∀ path, ¬ Refuses storage response path := fun path h => hrefuses ⟨path, h⟩
      refine iff_of_true (fun _ other _ => ?_)
        ⟨fun path h => absurd h (hunrefused path), fun res file h => absurd h (hnone res file)⟩
      rw [(downloadApp_unopened hunrefused hnone).2]

/-- A reply that names an app and has no code, on LittleFS: an installed app is emptied when the dropped file is
collected, and one that is not installed gets an empty file at once. -/
theorem download_failed_empties :
    let reply : Except Raised Json := .ok (.obj [("app_name".toList, .str "clock".toList)])
    ¬ KeepsInstalled ⟨AList.singleton (appPath "clock".toList) "old".toList, .str []⟩
        (littlefs true fun _ _ => false) reply ∧
      ¬ KeepsInstalled ⟨∅, .str []⟩ (littlefs false fun _ _ => false) reply := by
  intro reply
  constructor
  · intro h
    have hfile := h ⟨.keyError, rfl⟩ (appPath "clock".toList) (by decide)
    revert hfile
    decide +kernel
  · intro h
    have hfile := h ⟨.keyError, rfl⟩ (appPath "clock".toList) (by decide)
    revert hfile
    decide +kernel

end Downloader

end CalSci.Download
