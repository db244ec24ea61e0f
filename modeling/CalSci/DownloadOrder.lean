import CalSci.DownloadModel
import CalSci.MenuRedraw

/-! The order of a download session. The counter tells which operations have returned; the record of the
session is then a first part of one fixed script, and at most the last operation run has failed. -/

namespace CalSci.Download

open RowWindow

/-- The operation raised, or there is nothing to download. -/
def Event.failed : Event → Bool
  | .checkStatus updates => updates ≠ some true
  | .downloadApp saved => saved.isNone
  | .updateAppList _ => false
  | .sendConfirmation answered => !answered
  | .reset => false

/-- The record of a session that gets to its end with the app `appName`. -/
def script (appName code : List Char) : List Event :=
  [.checkStatus (some true), .downloadApp (some (appName, code)), .updateAppList appName,
    .sendConfirmation true, .reset]

/-- An operation that ends the session when it is run after `n` others. -/
def Ends (n : Nat) (e : Event) : Prop :=
  operations[n]? = some e.operation ∧ (e.failed = true ∨ e = .reset)

/-- The registry with an app listed in the default group. -/
def listApp (registry : List AppDoc) (appName : List Char) : List AppDoc :=
  if ⟨appName, installedGroup⟩ ∈ registry then registry else registry ++ [⟨appName, installedGroup⟩]

theorem mem_listApp (registry : List AppDoc) (appName : List Char) :
    (⟨appName, installedGroup⟩ : AppDoc) ∈ listApp registry appName := by
  unfold listApp
  split_ifs with hmem
  · exact hmem
  · exact List.mem_append_right _ (List.mem_singleton_self _)

/-- The first `n` steps of the script are done, on a registry that was `registry` at the start, and
`last` was run after them. -/
structure Progress (registry : List AppDoc) (appName code : List Char) (n : Nat) (last : List Event)
    (s : Session) : Prop where
  trace : s.trace = (script appName code).take n ++ last
  saved : 2 ≤ n → s.appName = appName ∧ s.files.lookup appName = some code
  unlisted : n ≤ 2 → s.apps.file = registry
  listed : 3 ≤ n → s.apps.file = listApp registry appName

/-- A session that takes keys: `n` operations have returned, and the counter shows it. -/
structure Running (registry : List AppDoc) (rows : Int) (s : Session) : Prop where
  exit : s.exit = none
  coherent : s.apps.Coherent
  pane : ∃ w, s.pane.1.Drawable rows w
  progress : ∃ appName code, ∃ n : Nat, n ≤ 4 ∧ s.operationNo = n ∧
    Progress registry appName code n [] s

/-- What the record of a session can be, whether it is over or not. -/
def Ordered (registry : List AppDoc) (s : Session) : Prop :=
  ∃ appName code n last, n ≤ 4 ∧ (last = [] ∨ ∃ e, last = [e] ∧ Ends n e) ∧
    Progress registry appName code n last s

theorem Running.ordered {registry : List AppDoc} {rows : Int} {s : Session}
    (h : Running registry rows s) : Ordered registry s := by
  obtain ⟨appName, code, n, hn, -, hprogress⟩ := h.progress
  exact ⟨appName, code, n, [], hn, .inl rfl, hprogress⟩

/-! ### What the record shows -/

section Record

variable {registry : List AppDoc} {s : Session}

theorem map_operation_script (appName code : List Char) :
    (script appName code).map Event.operation = operations := rfl

theorem Ordered.operations_prefix (h : Ordered registry s) : s.trace.map Event.operation <+: operations := by
  obtain ⟨appName, code, n, last, hn, hlast, hprogress⟩ := h
  rw [hprogress.trace, List.map_append, List.map_take, map_operation_script]
  rcases hlast with rfl | ⟨e, rfl, hop, -⟩
  · rw [List.map_nil, List.append_nil]
    exact List.take_prefix _ _
  · have hlt : n < operations.length := by
      rw [List.getElem?_eq_some_iff] at hop
      exact hop.1
    rw [List.map_singleton, ← Option.toList_some, ← hop, ← List.take_add_one]
    exact List.take_prefix _ _

/-- Each operation is run at most once. -/
theorem Ordered.nodup (h : Ordered registry s) : (s.trace.map Event.operation).Nodup :=
  List.Nodup.sublist h.operations_prefix.sublist (by decide)

theorem not_failed_of_mem_script {appName code : List Char} {e : Event} (h : e ∈ script appName code) :
    e.failed = false := by
  simp only [script, List.mem_cons, List.not_mem_nil, or_false] at h
  rcases h with rfl | rfl | rfl | rfl | rfl <;> rfl

/-- Nothing is run after an operation that failed. -/
theorem Ordered.failed_last (h : Ordered registry s) {before after : List Event} {e : Event}
    (htrace : s.trace = before ++ e :: after) (hfailed : e.failed = true) : after = [] := by
  obtain ⟨appName, code, n, last, hn, hlast, hprogress⟩ := h
  have hlen : before.length + (after.length + 1) = n + last.length := by
    have h' := congrArg List.length (htrace.symm.trans hprogress.trace)
    rw [List.length_append, List.length_cons, List.length_append, List.length_take] at h'
    change _ = min n 5 + _ at h'
    omega
  have hle : last.length ≤ 1 := by
    rcases hlast with rfl | ⟨e', rfl, -⟩
    · exact Nat.zero_le 1
    · exact le_refl 1
  by_contra hne
  have hpos := List.length_pos_of_ne_nil hne
  -- then `e` stands in the part of the script
  have hmem : e ∈ (script appName code).take n := by
    have hget : s.trace[before.length]? = some e := by
      rw [htrace, List.getElem?_append_right (le_refl _), Nat.sub_self]
      rfl
    rw [hprogress.trace, List.getElem?_append_left] at hget
    · exact List.mem_of_getElem? hget
    · rw [List.length_take]
      change _ < min n 5
      omega
  rw [not_failed_of_mem_script (List.mem_of_mem_take hmem)] at hfailed
  cases hfailed

theorem operations_sendConfirmation {i : Nat} (h : operations[i]? = some .sendConfirmation) : i = 3 := by
  have hall : ∀ j : Fin 5, operations[j.val]? = some .sendConfirmation → j.val = 3 := by decide
  exact hall ⟨i, (List.getElem?_eq_some_iff.mp h).1⟩ h

/-- The confirmation is sent after the three operations before it, and the app is saved and listed. -/
theorem Ordered.confirmation (h : Ordered registry s) {before after : List Event} {answered : Bool}
    (htrace : s.trace = before ++ .sendConfirmation answered :: after) :
    ∃ appName code, before = [.checkStatus (some true), .downloadApp (some (appName, code)),
        .updateAppList appName] ∧
      s.files.lookup appName = some code ∧ (⟨appName, installedGroup⟩ : AppDoc) ∈ s.apps.file := by
  have hposition : before.length = 3 := by
    obtain ⟨rest, hrest⟩ := h.operations_prefix
    apply operations_sendConfirmation
    rw [← hrest, htrace, List.map_append, List.append_assoc, List.getElem?_append_right (by simp)]
    simp [Event.operation]
  obtain ⟨appName, code, n, last, hn, hlast, hprogress⟩ := h
  have hle : last.length ≤ 1 := by
    rcases hlast with rfl | ⟨e', rfl, -⟩
    · exact Nat.zero_le 1
    · exact le_refl 1
  have hthree : 3 ≤ n := by
    have h' := congrArg List.length (htrace.symm.trans hprogress.trace)
    rw [List.length_append, List.length_cons, List.length_append, List.length_take] at h'
    change _ = min n 5 + _ at h'
    omega
  refine ⟨appName, code, ?_, (hprogress.saved (by omega)).2, ?_⟩
  swap
  · rw [hprogress.listed hthree]
    exact mem_listApp registry appName
  calc before = s.trace.take 3 := by rw [htrace, ← hposition, List.take_left]
    _ = (script appName code).take 3 := by
        rw [hprogress.trace, List.take_append_of_le_length, List.take_take, Nat.min_eq_left hthree]
        rw [List.length_take]
        change 3 ≤ min n 5
        omega

theorem mem_take_script {appName code name : List Char} {n : Nat} :
    Event.updateAppList name ∈ (script appName code).take n ↔ 3 ≤ n ∧ name = appName := by
  match n with
  | 0 | 1 | 2 => simp [script]
  | n + 3 =>
      have hrest : Event.updateAppList name ∉ [Event.sendConfirmation true, .reset].take n :=
        fun hmem => absurd (List.mem_of_mem_take hmem) (by simp)
      simp [script, hrest]

/-- A session leaves the registry alone, or it lists one new app. -/
theorem Ordered.registry_cases (h : Ordered registry s) :
    (s.apps.file = registry ∧
      ∀ name, .updateAppList name ∈ s.trace → (⟨name, installedGroup⟩ : AppDoc) ∈ registry) ∨
    ∃ name, .updateAppList name ∈ s.trace ∧ (⟨name, installedGroup⟩ : AppDoc) ∉ registry ∧
      s.apps.file = registry ++ [⟨name, installedGroup⟩] := by
  obtain ⟨appName, code, n, last, hn, hlast, hprogress⟩ := h
  have hmem : ∀ name, Event.updateAppList name ∈ s.trace ↔ 3 ≤ n ∧ name = appName := by
    intro name
    have hnot : Event.updateAppList name ∉ last := by
      rcases hlast with rfl | ⟨e, rfl, -, hfailed⟩
      · exact List.not_mem_nil
      · rintro hmem
        rw [← List.mem_singleton.mp hmem] at hfailed
        rcases hfailed with hfailed | hfailed
        · cases hfailed
        · cases hfailed
    rw [hprogress.trace, List.mem_append, mem_take_script]
    exact or_iff_left hnot
  by_cases hthree : 3 ≤ n
  · have hfile := hprogress.listed hthree
    rw [listApp] at hfile
    split_ifs at hfile with hold
    · exact .inl ⟨hfile, fun name hname => ((hmem name).mp hname).2 ▸ hold⟩
    · exact .inr ⟨appName, (hmem appName).mpr ⟨hthree, rfl⟩, hold, hfile⟩
  · exact .inl ⟨hprogress.unlisted (by omega), fun name hname => absurd ((hmem name).mp hname).1 hthree⟩

end Record

/-! ### One key -/

section Step

variable {registry : List AppDoc} {rows : Int} {s : Session}

/-- The end of the loop body returns, and leaves everything but the menu. -/
theorem redraw_spec (inp : List Char) {w : Window} (h : s.pane.1.Drawable rows w) :
    ∃ pane, s.redraw inp = .ok { s with pane } ∧ ∃ w', pane.1.Drawable rows w' := by
  obtain ⟨pane, hpress, -, hdrawable⟩ := MenuPane.press_drawable h (Key.ofText inp)
  refine ⟨pane, ?_, _, hdrawable⟩
  rw [Session.redraw, hpress]
  rfl

theorem Running.redraw (h : Running registry rows s) (inp : List Char) :
    ∃ s', s.redraw inp = .ok s' ∧ Running registry rows s' := by
  obtain ⟨w, hw⟩ := h.pane
  obtain ⟨pane, hredraw, hpane⟩ := redraw_spec inp hw
  obtain ⟨appName, code, n, hn, hcounter, hprogress⟩ := h.progress
  refine ⟨_, hredraw, h.exit, h.coherent, hpane, appName, code, n, hn, hcounter, ?_⟩
  exact ⟨hprogress.trace, hprogress.saved, hprogress.unlisted, hprogress.listed⟩

/-- The screens before the last one have a successor. -/
theorem item_screens {n : Nat} (hn : n ≤ 4) :
    ∃ screen, Py.item screens n = .ok screen ∧ screen ≠ [] := by
  have hlt : n < screens.length := by
    change n < 5
    omega
  refine ⟨_, Py.item_of_lt screens hlt, fun hnil => ?_⟩
  have hmem := List.get_mem screens ⟨n, hlt⟩
  rw [hnil] at hmem
  revert hmem
  decide

/-- After an operation that returned, the next screen is shown and the counter counts it. -/
theorem advance_spec (inp : List Char) {w : Window} (hw : s.pane.1.Drawable rows w) (hrows : 1 ≤ rows)
    {n : Nat} (hn : n ≤ 3) (hcounter : s.operationNo = n) :
    ∃ pane, s.advance inp = .ok { s with operationNo := (n + 1 : Nat), pane } ∧
      ∃ w', pane.1.Drawable rows w' := by
  have hrows' : s.pane.1.rows = rows := hw.shows.rows_eq
  obtain ⟨screen, hscreen, hne⟩ := item_screens (show n + 1 ≤ 4 by omega)
  obtain ⟨pane, w', hassign, -, hdrawable, -⟩ :=
    MenuPane.assign_drawable (p := s.pane) (by rw [hrows']; exact hrows) hne
  rw [hrows'] at hdrawable
  have hnext : s.operationNo + 1 = ((n + 1 : Nat) : Int) := by
    rw [hcounter]
    push_cast
    rfl
  obtain ⟨pane', hredraw, hpane⟩ :=
    redraw_spec (s := { s with operationNo := (n + 1 : Nat), pane }) inp hdrawable
  refine ⟨pane', ?_, hpane⟩
  unfold Session.advance
  change (Py.item screens (s.operationNo + 1) >>= _) = _
  rw [hnext, hscreen]
  change (s.pane.assign screen >>= _) = _
  rw [hassign]
  exact hredraw

/-- What comes of the operation run after `n` others: it returns and makes progress, or it ends the
session. -/
structure Performed (registry : List AppDoc) (s : Session) (n : Nat) (r : Session × Outcome) : Prop where
  exit : r.1.exit = s.exit
  counter : r.1.operationNo = s.operationNo
  pane : r.1.pane = s.pane
  coherent : r.1.apps.Coherent
  result :
    (r.2 = .returned true ∧ n ≤ 3 ∧ ∃ appName code, Progress registry appName code (n + 1) [] r.1) ∨
      ((r.2 = .raised ∨ r.2 = .stopped ∨ (n = 0 ∧ r.2 = .returned false)) ∧ Ordered registry r.1)

variable {appName code : List Char}

/-- An operation that raises, stops or finds nothing stands last in the record. -/
theorem Progress.ended {s' : Session} {n : Nat} {e : Event} (h : Progress registry appName code n [] s) (hn : n ≤ 4)
    (htrace : s'.trace = s.trace ++ [e]) (he : Ends n e) (hname : 2 ≤ n → s'.appName = s.appName)
    (hfiles : 2 ≤ n → s'.files = s.files) (happs : s'.apps = s.apps) : Ordered registry s' := by
  refine ⟨appName, code, n, [e], hn, .inr ⟨e, rfl, he⟩, ?_, ?_, ?_, ?_⟩
  · rw [htrace, h.trace, List.append_nil]
  · intro h2
    rw [hname h2, hfiles h2]
    exact h.saved h2
  · rw [happs]
    exact h.unlisted
  · rw [happs]
    exact h.listed

theorem performed_checkStatus (hcoherent : s.apps.Coherent) (h : Progress registry appName code 0 [] s)
    (reply : Reply) : Performed registry s 0 (s.checkStatus reply) := by
  unfold Session.checkStatus
  cases reply.status with
  | none =>
      refine ⟨rfl, rfl, rfl, hcoherent, .inr ⟨.inl rfl, ?_⟩⟩
      exact h.ended (by omega) rfl ⟨rfl, .inl rfl⟩ nofun nofun rfl
  | some response =>
      by_cases hupdates : response = "true".toList
      · refine ⟨rfl, rfl, rfl, hcoherent, .inl ⟨?_, by omega, appName, code, ?_, nofun,
          fun _ => h.unlisted (by omega), nofun⟩⟩
        · exact congrArg Outcome.returned (decide_eq_true hupdates)
        · change s.trace ++ [Event.checkStatus (some (decide (response = "true".toList)))] = _
          rw [h.trace, decide_eq_true hupdates]
          rfl
      · refine ⟨rfl, rfl, rfl, hcoherent, .inr ⟨.inr (.inr ⟨rfl, ?_⟩), ?_⟩⟩
        · exact congrArg Outcome.returned (decide_eq_false hupdates)
        · refine h.ended (by omega) rfl ⟨rfl, .inl ?_⟩ nofun nofun rfl
          rw [decide_eq_false hupdates]
          rfl

theorem performed_downloadApp (hcoherent : s.apps.Coherent) (h : Progress registry appName code 1 [] s)
    (reply : Reply) : Performed registry s 1 (s.downloadApp reply) := by
  have hend : Ends 1 (.downloadApp none) := ⟨rfl, .inl rfl⟩
  unfold Session.downloadApp
  cases reply.pending with
  | raises =>
      exact ⟨rfl, rfl, rfl, hcoherent, .inr ⟨.inl rfl, h.ended (by omega) rfl hend nofun nofun rfl⟩⟩
  | unopened name =>
      exact ⟨rfl, rfl, rfl, hcoherent, .inr ⟨.inl rfl, h.ended (by omega) rfl hend nofun nofun rfl⟩⟩
  | unwritten name written =>
      exact ⟨rfl, rfl, rfl, hcoherent, .inr ⟨.inl rfl, h.ended (by omega) rfl hend nofun nofun rfl⟩⟩
  | saved name code' =>
      refine ⟨rfl, rfl, rfl, hcoherent, .inl ⟨rfl, by omega, name, code', ?_, fun _ => ⟨rfl, ?_⟩,
        fun _ => h.unlisted (by omega), nofun⟩⟩
      · change s.trace ++ [Event.downloadApp (some (name, code'))] = _
        rw [h.trace]
        rfl
      · exact AList.lookup_insert _

theorem performed_updateAppList (hcoherent : s.apps.Coherent) (h : Progress registry appName code 2 [] s) :
    Performed registry s 2 s.updateAppList := by
  obtain ⟨hname, hfile⟩ := h.saved (le_refl 2)
  unfold Session.updateAppList
  rw [hname]
  have hregistry := h.unlisted (le_refl 2)
  have hcall : (s.apps.insertNewApp appName).2.file = listApp registry appName ∧
      (s.apps.insertNewApp appName).2.Coherent := by
    rw [listApp, ← hregistry]
    by_cases hmem : (⟨appName, installedGroup⟩ : AppDoc) ∈ s.apps.file
    · rw [if_pos hmem]
      exact (Apps.insertNewApp_of_present hcoherent installedGroup hmem).2
    · rw [if_neg hmem]
      exact (Apps.insertNewApp_of_absent hcoherent installedGroup hmem).2
  refine ⟨rfl, rfl, rfl, hcall.2, .inl ⟨rfl, by omega, appName, code, ?_, fun _ => ⟨rfl, hfile⟩,
    fun hle => absurd hle (by omega), fun _ => hcall.1⟩⟩
  change s.trace ++ [Event.updateAppList appName] = _
  rw [h.trace]
  rfl

theorem performed_sendConfirmation (hcoherent : s.apps.Coherent) (h : Progress registry appName code 3 [] s)
    (reply : Reply) : Performed registry s 3 (s.sendConfirmation reply) := by
  unfold Session.sendConfirmation
  cases reply.confirmed with
  | false =>
      refine ⟨rfl, rfl, rfl, hcoherent, .inr ⟨.inl rfl, ?_⟩⟩
      exact h.ended (by omega) rfl ⟨rfl, .inl rfl⟩ (fun _ => rfl) (fun _ => rfl) rfl
  | true =>
      refine ⟨rfl, rfl, rfl, hcoherent, .inl ⟨rfl, le_refl 3, appName, code, ?_,
        fun _ => h.saved (by omega), fun hle => absurd hle (by omega), fun _ => h.listed (by omega)⟩⟩
      change s.trace ++ [Event.sendConfirmation true] = _
      rw [h.trace]
      rfl

theorem performed_reset (hcoherent : s.apps.Coherent) (h : Progress registry appName code 4 [] s) :
    Performed registry s 4 s.reset := by
  refine ⟨rfl, rfl, rfl, hcoherent, .inr ⟨.inr (.inl rfl), ?_⟩⟩
  exact h.ended (by omega) rfl ⟨rfl, .inr rfl⟩ (fun _ => rfl) (fun _ => rfl) rfl

theorem performed_perform (hcoherent : s.apps.Coherent) {n : Nat} (hn : n < operations.length)
    (h : Progress registry appName code n [] s) (reply : Reply) :
    Performed registry s n (s.perform reply (operations.get ⟨n, hn⟩)) := by
  obtain rfl | rfl | rfl | rfl | rfl : n = 0 ∨ n = 1 ∨ n = 2 ∨ n = 3 ∨ n = 4 := by
    change n < 5 at hn
    omega
  · exact performed_checkStatus hcoherent h reply
  · exact performed_downloadApp hcoherent h reply
  · exact performed_updateAppList hcoherent h
  · exact performed_sendConfirmation hcoherent h reply
  · exact performed_reset hcoherent h

/-- Leaving a session does not change its record. -/
theorem Ordered.close (h : Ordered registry s) (exit : Exit) : Ordered registry (s.close exit) := by
  obtain ⟨appName, code, n, last, hn, hlast, hprogress⟩ := h
  exact ⟨appName, code, n, last, hn, hlast, hprogress.trace, hprogress.saved, hprogress.unlisted, hprogress.listed⟩

/-- What holds of a session at any time. -/
def Reached (registry : List AppDoc) (rows : Int) (s : Session) : Prop :=
  Running registry rows s ∨ (s.exit.isSome ∧ Ordered registry s)

/-- The branch of `ok` in a session that takes keys. -/
theorem Running.confirm (hrows : 1 ≤ rows) (h : Running registry rows s) (inp : List Char) (reply : Reply) :
    ∃ s', s.confirm inp reply = .ok s' ∧ Reached registry rows s' := by
  obtain ⟨appName, code, n, hn, hcounter, hprogress⟩ := h.progress
  obtain ⟨w, hw⟩ := h.pane
  have hnot : ¬ s.operationNo = 5 := by omega
  have hlt : n < operations.length := by
    change n < 5
    omega
  have hitem : Py.item operations s.operationNo = .ok (operations.get ⟨n, hlt⟩) := by
    rw [hcounter, Py.item_of_lt operations hlt]
  have hperformed := performed_perform h.coherent hlt hprogress reply
  unfold Session.confirm
  rw [if_neg hnot, hitem]
  change ∃ s', Session.settle inp (s.perform reply (operations.get ⟨n, hlt⟩)) = .ok s' ∧ Reached registry rows s'
  generalize s.perform reply (operations.get ⟨n, hlt⟩) = r at hperformed ⊢
  obtain ⟨s', outcome⟩ := r
  obtain ⟨hexit, hcounter', hpane, hcoherent, hresult⟩ := hperformed
  dsimp only at hexit hcounter' hpane hcoherent hresult
  rcases hresult with ⟨rfl, hle, name, code', hprogress'⟩ | ⟨hend, hordered⟩
  · rw [Session.settle, if_neg (by simp)]
    obtain ⟨pane, hadvance, hpane'⟩ :=
      advance_spec (s := s') inp (hpane ▸ hw) hrows hle (hcounter'.trans hcounter)
    refine ⟨_, hadvance, .inl ⟨hexit.trans h.exit, hcoherent, hpane', name, code', n + 1, by omega, rfl, ?_⟩⟩
    exact ⟨hprogress'.trace, hprogress'.saved, hprogress'.unlisted, hprogress'.listed⟩
  · obtain rfl | rfl | ⟨rfl, rfl⟩ := hend
    · exact ⟨_, rfl, .inr ⟨rfl, hordered.close _⟩⟩
    · exact ⟨_, rfl, .inr ⟨rfl, hordered.close _⟩⟩
    · rw [Session.settle, if_pos ⟨hcounter'.trans hcounter, rfl⟩]
      exact ⟨_, rfl, .inr ⟨rfl, hordered.close _⟩⟩

/-- One key returns, whatever it is and whatever the server answers. -/
theorem Reached.step (hrows : 1 ≤ rows) (h : Reached registry rows s) (input : List Char × Reply) :
    ∃ s', s.step input = .ok s' ∧ Reached registry rows s' := by
  obtain ⟨inp, reply⟩ := input
  unfold Session.step
  dsimp only
  rcases h with hrun | ⟨hexit, hordered⟩
  · rw [if_neg (by rw [hrun.exit]; exact Bool.false_ne_true)]
    split_ifs with hback hmode hoff hok
    · exact ⟨_, rfl, .inr ⟨rfl, hrun.ordered.close _⟩⟩
    · obtain ⟨w, hw⟩ := hrun.pane
      have hrun' : Running registry rows { s with pane := (s.pane.1.updateBuffer (Key.ofText []), s.pane.2) } := by
        obtain ⟨appName, code, n, hn, hcounter, hprogress⟩ := hrun.progress
        refine ⟨hrun.exit, hrun.coherent, ⟨_, hw.updateBuffer (Key.ofText [])⟩, appName,
          code, n, hn, hcounter, ?_⟩
        exact ⟨hprogress.trace, hprogress.saved, hprogress.unlisted, hprogress.listed⟩
      obtain ⟨s', hredraw, hs'⟩ := hrun'.redraw inp
      exact ⟨s', hredraw, .inl hs'⟩
    · exact ⟨_, rfl, .inr ⟨rfl, hrun.ordered.close _⟩⟩
    · exact hrun.confirm hrows inp reply
    · obtain ⟨s', hredraw, hs'⟩ := hrun.redraw inp
      exact ⟨s', hredraw, .inl hs'⟩
  · rw [if_pos hexit]
    exact ⟨s, rfl, .inr ⟨hexit, hordered⟩⟩

theorem Reached.ordered (h : Reached registry rows s) : Ordered registry s := by
  rcases h with hrun | ⟨-, hordered⟩
  · exact hrun.ordered
  · exact hordered

end Step

/-! ### Sessions -/

theorem start_running {pane : MenuPane} (hrows : 1 ≤ pane.1.rows) (files : Files)
    (registry : List AppDoc) : ∃ s, start files registry pane = .ok s ∧ Running registry pane.1.rows s := by
  obtain ⟨screen, hscreen, hne⟩ := item_screens (show 0 ≤ 4 by omega)
  obtain ⟨pane', w, hassign, -, hdrawable, -⟩ := MenuPane.assign_drawable (p := pane.clear) hrows hne
  have hstart : start files registry pane =
      .ok ⟨0, Apps.init registry, [], files, pane', [], none⟩ := by
    unfold start
    change (Py.item screens ((0 : Nat) : Int) >>= _) = _
    rw [hscreen]
    change (pane.clear.assign screen >>= _) = _
    rw [hassign]
    rfl
  exact ⟨_, hstart, rfl, Apps.coherent_init registry, ⟨w, hdrawable⟩, [], [], 0, by omega, rfl, rfl, nofun,
    fun _ => rfl, nofun⟩

/-- A session gets through any sequence of keys and answers. -/
theorem downloadUpdates_reached {p : MenuPane} (hrows : 1 ≤ p.1.rows) (files : Files)
    (registry : List AppDoc) (inputs : List (List Char × Reply)) :
    ∃ s, downloadUpdates files registry p inputs = .ok s ∧ Reached registry p.1.rows s := by
  obtain ⟨s₀, hstart, hrunning⟩ := start_running hrows files registry
  obtain ⟨s, hrun, hs⟩ := Runs.invariant_of_next (C := fun _ _ => True)
    (fun s k hI _ => Reached.step hrows hI k) (Or.inl hrunning) (fun _ _ _ _ _ _ => trivial) inputs
    (List.prefix_refl inputs)
  refine ⟨s, ?_, hs⟩
  unfold downloadUpdates
  rw [hstart]
  exact hrun

/-- The order of every session of `download_updates`: while it takes keys, its counter is a valid index of
both tables; no operation is run twice; nothing is run after an operation that raised or after a
negative check; and the confirmation is sent only after the check was positive, the code of the app
named in the reply was saved and the app listed, in this order. -/
theorem download_in_order (pane : MenuPane) (hrows : 1 ≤ pane.1.rows) (files : Files)
    (registry : List AppDoc) (inputs : List (List Char × Reply)) :
    ∃ s, downloadUpdates files registry pane inputs = .ok s ∧
      (s.exit = none → (∃ operation, Py.item operations s.operationNo = .ok operation) ∧
        ∃ screen, Py.item screens s.operationNo = .ok screen) ∧
      (s.trace.map Event.operation).Nodup ∧
      (∀ before e after, s.trace = before ++ e :: after → e.failed = true → after = []) ∧
      ∀ before answered after, s.trace = before ++ .sendConfirmation answered :: after →
        ∃ appName code, before = [.checkStatus (some true), .downloadApp (some (appName, code)),
            .updateAppList appName] ∧
          s.files.lookup appName = some code ∧
          (⟨appName, installedGroup⟩ : AppDoc) ∈ s.apps.file := by
  obtain ⟨s, hrun, hreached⟩ := downloadUpdates_reached hrows files registry inputs
  have hordered := hreached.ordered
  refine ⟨s, hrun, fun hexit => ?_, hordered.nodup, fun before e after => hordered.failed_last,
    fun before answered after => hordered.confirmation⟩
  rcases hreached with hrunning | ⟨hsome, -⟩
  · obtain ⟨-, -, n, hn, hcounter, -⟩ := hrunning.progress
    obtain ⟨screen, hscreen, -⟩ := item_screens hn
    rw [hcounter]
    exact ⟨⟨_, Py.item_of_lt operations (show n < 5 by omega)⟩, screen, hscreen⟩
  · rw [hexit] at hsome
    cases hsome

/-- Four times `ok`, with a key between that does nothing: the confirmation is sent for a saved and
listed app. -/
theorem download_in_order_clock :
    let pane : MenuPane := (Menu.init 7 21 [[]], fun _ _ => (' ', false))
    let reply : Reply := ⟨some "true".toList, .saved "clock".toList "code".toList, true⟩
    let inputs := [("ok".toList, reply), ("ok".toList, reply), ("nav_d".toList, reply),
      ("ok".toList, reply), ("ok".toList, reply)]
    1 ≤ pane.1.rows ∧ ∃ s, downloadUpdates ∅ [] pane inputs = .ok s ∧
      (s.trace.map Event.operation).Nodup ∧ s.files.lookup "clock".toList = some "code".toList ∧
      (⟨"clock".toList, installedGroup⟩ : AppDoc) ∈ s.apps.file := by
  intro pane reply inputs
  obtain ⟨s, hrun, -, hnodup, -, hconfirmation⟩ := download_in_order pane (by decide) ∅ [] inputs
  have htrace : (downloadUpdates ∅ [] pane inputs).map Session.trace =
      .ok (script "clock".toList "code".toList |>.take 4) := by decide +kernel
  rw [hrun] at htrace
  have htrace' : s.trace = [.checkStatus (some true),
      .downloadApp (some ("clock".toList, "code".toList)), .updateAppList "clock".toList]
      ++ .sendConfirmation true :: [] := Except.ok.inj htrace
  obtain ⟨appName, code, hbefore, hfile, hlisted⟩ := hconfirmation _ _ _ htrace'
  cases hbefore
  exact ⟨by decide, s, hrun, hnodup, hfile, hlisted⟩

end CalSci.Download
