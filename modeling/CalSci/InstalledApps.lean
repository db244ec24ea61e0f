import CalSci.DownloadOrder

/-! The list of `installed_apps` beside `download_updates`. The menu of installed apps is read through
the `apps_installer` that lives as long as the firmware, while each download writes the registry through
an `Apps` object of its own, so that the query cache of the first one is not cleared: the list is right
until a download registers an app after the list was first shown. Where a file that is open shows what it held when it
was opened, the list is right until a download registers an app after the boot. -/

namespace CalSci

open Download QueryCache Runs

/-- What the two apps share: the files, `db/installed_apps.json`, what the file shows that `apps_installer` has open,
if that is not what is in it by now, and the cache of `apps_installer`. -/
structure Device where
  files : Files
  registry : List AppDoc
  handle : Option (List AppDoc)
  cache : Cache AppQuery AppDoc

inductive Visit where
  | installedApps (inputs : List (List Char))
  | downloadUpdates (inputs : List (List Char × Reply))

namespace Device

/-- The device after a boot, which creates `apps_installer` and opens its file. `held` says whether an open file shows
what it held when it was opened; on LittleFS it does, `lfs2.c` reads through what it has loaded then. -/
def booted (held : Bool) (files : Files) (registry : List AppDoc) : Device :=
  ⟨files, registry, if held then some registry else none, []⟩

/-- `apps_installer`. -/
def installer (d : Device) : Apps := ⟨d.handle.getD d.registry, d.cache⟩

/-- The list `installed_apps` shows: `apps_installer.get_group_apps()`. -/
def shown (d : Device) : List (List Char) := d.installer.getGroupApps.1

/-- The apps of the group in the file. -/
def installed (d : Device) : List AppDoc := d.registry.filter (AppQuery.inGroup installedGroup).holds

/-- A redraw inside the `try` of `installed_apps`, whose `except` clause ends the session. -/
def redraw (pane : MenuPane) (inp : List Char) : MenuPane × Option Exit :=
  match pane.press (Key.ofText inp) with
  | .ok pane => (pane, none)
  | .error _ => (pane, some .left)

/-- One key of the loop of `installed_apps`. On `ok` it ends whether or not an app is selected. -/
def installedStep (s : MenuPane × Option Exit) (inp : List Char) : MenuPane × Option Exit :=
  if s.2.isSome then s
  else if inp = "back".toList then (s.1, some .left)
  else if inp = "alpha".toList ∨ inp = "beta".toList then
    redraw (s.1.1.updateBuffer (Key.ofText []), s.1.2) inp
  else if inp = "off".toList then (s.1, some .asleep)
  else if inp = "ok".toList then (s.1, some .left)
  else redraw s.1 inp

/-- A session, and how it ends. A session that raises ends there; a download does not raise
(`downloadUpdates_reached`). -/
def session (d : Device) : Visit → Device × Option Exit
  | .installedApps inputs =>
      ({ d with cache := d.installer.getGroupApps.2.cache },
        match MenuPane.boot.clear.assign d.shown with
        | .ok p => (inputs.foldl installedStep (p, none)).2
        | .error _ => some .left)
  | .downloadUpdates inputs =>
      match downloadUpdates d.files d.registry .boot inputs with
      | .ok s => ({ d with files := s.files, registry := s.apps.file }, s.exit)
      | .error _ => (d, some .left)

/-- The session ends in deep sleep or with a restart, from which the device boots. -/
def Reboots (d : Device) (v : Visit) : Prop :=
  (d.session v).2 = some .asleep ∨ (d.session v).2 = some .restarting

instance (d : Device) (v : Visit) : Decidable (d.Reboots v) := by
  unfold Reboots
  infer_instance

def visit (d : Device) (v : Visit) : Device :=
  if d.Reboots v then booted d.handle.isSome (d.session v).1.files (d.session v).1.registry else (d.session v).1

/-- The session is a download that gets to list an app which is not yet in the group. -/
def Registers (d : Device) : Visit → Prop
  | .installedApps _ => False
  | .downloadUpdates inputs => ∃ s, downloadUpdates d.files d.registry .boot inputs = .ok s ∧
      ∃ name, .updateAppList name ∈ s.trace ∧ (⟨name, installedGroup⟩ : AppDoc) ∉ d.registry

/-- A session of `installed_apps` shows the list of the file. -/
def ShowsInstalled (d : Device) : Visit → Prop
  | .installedApps _ => d.shown = d.installed.map AppDoc.appName
  | .downloadUpdates _ => True

/-! ### One session -/

variable {d : Device} {docs : List AppDoc} {inputs : List (List Char)}

theorem visit_registry (d : Device) (v : Visit) : (d.visit v).registry = (d.session v).1.registry := by
  unfold visit
  split_ifs <;> rfl

theorem visit_of_reboots {v : Visit} (h : d.Reboots v) :
    d.visit v = booted d.handle.isSome (d.session v).1.files (d.session v).1.registry := if_pos h

theorem visit_of_stays {v : Visit} (h : ¬ d.Reboots v) : d.visit v = (d.session v).1 := if_neg h

/-- A download leaves the group as it is, or appends an app to it when it registers one. -/
theorem installed_visit (d : Device) (v : Visit) :
    (¬ d.Registers v ∧ (d.visit v).installed = d.installed) ∨
      (d.Registers v ∧ ∃ doc, (d.visit v).installed = d.installed ++ [doc]) := by
  cases v with
  | installedApps inputs => exact .inl ⟨id, by rw [installed, visit_registry]; rfl⟩
  | downloadUpdates inputs =>
      obtain ⟨s, hrun, hreached⟩ :=
        downloadUpdates_reached (p := MenuPane.boot) (by decide) d.files d.registry inputs
      have hregistry : (d.visit (.downloadUpdates inputs)).registry = s.apps.file := by
        rw [visit_registry, session, hrun]
      rw [installed, hregistry]
      rcases hreached.ordered.registry_cases with ⟨hfile, hold⟩ | ⟨name, hmem, hnew, hfile⟩
      · refine .inl ⟨?_, by rw [hfile]; rfl⟩
        rintro ⟨s', hrun', name, hmem, hnew⟩
        rw [hrun] at hrun'
        cases hrun'
        exact hnew (hold name hmem)
      · refine .inr ⟨⟨s, hrun, name, hmem, hnew⟩, ⟨name, installedGroup⟩, ?_⟩
        rw [hfile, List.filter_append]
        rfl

theorem installed_prefix_visit (d : Device) (v : Visit) : d.installed <+: (d.visit v).installed := by
  rcases d.installed_visit v with ⟨-, heq⟩ | ⟨-, doc, heq⟩
  · rw [heq]
  · rw [heq]
    exact List.prefix_append _ _

/-! ### What is shown whatever the file holds -/

/-- The group as the open file shows it. -/
def held (d : Device) : Option (List AppDoc) := d.handle.map fun docs =>
  docs.filter (AppQuery.inGroup installedGroup).holds

/-- The list that will be shown, if it is settled: the one that is remembered, or else the one of the open file. -/
def settled (d : Device) : Option (List AppDoc) := (d.cache.head?.map Prod.snd).or d.held

/-- The cache holds nothing or the list of the group, and a settled list is the group as it once was. -/
structure Remembers (d : Device) : Prop where
  cache : d.cache = [] ∨ ∃ docs, d.cache = [(.inGroup installedGroup, docs)]
  prefix_of_settled : ∀ docs, d.settled = some docs → docs <+: d.installed
  prefix_of_held : ∀ docs, d.held = some docs → docs <+: d.installed

theorem getGroupApps_installer (h : d.Remembers) :
    d.shown = (d.settled.getD d.installed).map AppDoc.appName ∧
      d.installer.getGroupApps.2.cache = [(.inGroup installedGroup, d.settled.getD d.installed)] := by
  rcases h.cache with hempty | ⟨docs, hcached⟩
  · have hread : d.settled.getD d.installed =
        (d.handle.getD d.registry).filter (AppQuery.inGroup installedGroup).holds := by
      rw [settled, held, hempty, installed]
      cases d.handle <;> rfl
    rw [shown, Apps.getGroupApps, installer, hempty, Apps.search, Cache.search_nil (by decide), hread]
    exact ⟨rfl, rfl⟩
  · rw [shown, Apps.getGroupApps, installer, hcached, Apps.search, Cache.search_remembered, settled, hcached]
    exact ⟨rfl, rfl⟩

theorem settled_booted (held : Bool) (files : Files) (registry : List AppDoc) :
    (booted held files registry).settled = if held then some (booted held files registry).installed else none := by
  cases held <;> rfl

theorem remembers_booted (held : Bool) (files : Files) (registry : List AppDoc) :
    (booted held files registry).Remembers := by
  refine ⟨.inl rfl, fun docs hdocs => ?_, fun docs hdocs => ?_⟩
  · rw [settled_booted] at hdocs
    split at hdocs
    · cases hdocs
      exact List.prefix_refl _
    · cases hdocs
  · cases held with
    | false => cases hdocs
    | true =>
        cases hdocs
        exact List.prefix_refl _

/-- A session of `installed_apps` settles the list. -/
theorem settled_installedApps (h : d.Remembers) (inputs : List (List Char)) :
    (d.session (.installedApps inputs)).1.settled = some (d.settled.getD d.installed) := by
  have hcache : (d.session (.installedApps inputs)).1.cache = d.installer.getGroupApps.2.cache := rfl
  rw [settled, hcache, (getGroupApps_installer h).2]
  rfl

/-- A download settles nothing. -/
theorem session_downloadUpdates (d : Device) (inputs : List (List Char × Reply)) :
    (d.session (.downloadUpdates inputs)).1.cache = d.cache ∧
      (d.session (.downloadUpdates inputs)).1.handle = d.handle := by
  obtain ⟨s, hrun, -⟩ :=
    downloadUpdates_reached (p := MenuPane.boot) (by decide) d.files d.registry inputs
  rw [session, hrun]
  exact ⟨rfl, rfl⟩

theorem settled_downloadUpdates (d : Device) (inputs : List (List Char × Reply)) :
    (d.session (.downloadUpdates inputs)).1.settled = d.settled := by
  obtain ⟨hcache, hhandle⟩ := d.session_downloadUpdates inputs
  rw [settled, settled, held, held, hcache, hhandle]

theorem session_handle (d : Device) (v : Visit) : (d.session v).1.handle = d.handle := by
  cases v with
  | installedApps inputs => rfl
  | downloadUpdates inputs => exact (d.session_downloadUpdates inputs).2

/-- What is settled stays so until the next boot. -/
theorem settled_session (h : d.Remembers) (hsettled : d.settled = some docs) (v : Visit) :
    (d.session v).1.settled = some docs := by
  cases v with
  | installedApps inputs => rw [settled_installedApps h, hsettled, Option.getD_some]
  | downloadUpdates inputs => rw [settled_downloadUpdates, hsettled]

theorem Remembers.visit (h : d.Remembers) (v : Visit) : (d.visit v).Remembers := by
  by_cases hreboots : d.Reboots v
  · rw [visit_of_reboots hreboots]
    exact remembers_booted _ _ _
  · have hgrows := d.installed_prefix_visit v
    rw [visit_of_stays hreboots] at hgrows ⊢
    have hheld : ∀ docs, (d.session v).1.held = some docs → docs <+: (d.session v).1.installed := by
      intro docs hdocs
      rw [held, session_handle] at hdocs
      exact (h.prefix_of_held docs hdocs).trans hgrows
    cases v with
    | installedApps inputs =>
        refine ⟨.inr ⟨_, (getGroupApps_installer h).2⟩, fun docs hdocs => ?_, hheld⟩
        rw [settled_installedApps h] at hdocs
        obtain rfl := Option.some.inj hdocs
        cases hsettled : d.settled with
        | none => exact hgrows
        | some docs => exact (h.prefix_of_settled docs hsettled).trans hgrows
    | downloadUpdates inputs =>
        refine ⟨?_, fun docs hdocs => ?_, hheld⟩
        · rw [(d.session_downloadUpdates inputs).1]
          exact h.cache
        · rw [settled_downloadUpdates] at hdocs
          exact (h.prefix_of_settled docs hdocs).trans hgrows

/-! ### Sequences of sessions -/

/-- The group only grows, and stays as it is exactly when nothing is registered. -/
theorem installed_run (d : Device) (visits : List Visit) :
    d.installed <+: (visits.foldl visit d).installed ∧
      ((visits.foldl visit d).installed.length = d.installed.length ↔
        Each visit (fun d v => ¬ d.Registers v) d visits) := by
  induction visits using List.reverseRecOn with
  | nil => exact ⟨List.prefix_refl _, iff_of_true rfl (each_nil _ _ _)⟩
  | append_singleton visits v ih =>
      obtain ⟨hpre, hiff⟩ := ih
      have hle := hpre.length_le
      rw [List.foldl_append, each_concat, ← hiff]
      change d.installed <+: ((visits.foldl visit d).visit v).installed ∧
        (((visits.foldl visit d).visit v).installed.length = _ ↔ _)
      rcases (visits.foldl visit d).installed_visit v with ⟨hnot, heq⟩ | ⟨hregisters, doc, heq⟩
      · rw [heq]
        exact ⟨hpre, ⟨fun hlen => ⟨hlen, hnot⟩, fun hboth => hboth.1⟩⟩
      · rw [heq, List.length_append, List.length_singleton]
        refine ⟨hpre.trans (List.prefix_append _ _), ⟨fun hlen => ?_, fun hboth => ?_⟩⟩
        · omega
        · exact absurd hregisters hboth.2

theorem remembers_run (held : Bool) (files : Files) (registry : List AppDoc) (visits : List Visit) :
    (visits.foldl visit (booted held files registry)).Remembers :=
  List.foldlRecOn visits visit (remembers_booted held files registry) fun _ hd v _ => hd.visit v

/-- An open file shows what it held or not, at every boot alike. -/
theorem handle_run (held : Bool) (files : Files) (registry : List AppDoc) (visits : List Visit) :
    (visits.foldl visit (booted held files registry)).handle.isSome = held := by
  induction visits using List.reverseRecOn with
  | nil => cases held <;> rfl
  | append_singleton visits v ih =>
      rw [List.foldl_append]
      change ((visits.foldl visit (booted held files registry)).visit v).handle.isSome = held
      by_cases hreboots : (visits.foldl visit (booted held files registry)).Reboots v
      · rw [visit_of_reboots hreboots, ih]
        cases held <;> rfl
      · rw [visit_of_stays hreboots, session_handle, ih]

/-- As long as the device does not boot, a settled list is kept. -/
theorem settled_run (h : d.Remembers) (hsettled : d.settled = some docs) {visits : List Visit}
    (hstays : Each visit (fun d v => ¬ d.Reboots v) d visits) : (visits.foldl visit d).settled = some docs := by
  have hkeep : ∀ d v, d.Remembers ∧ d.settled = some docs → ¬ d.Reboots v →
      (visit d v).Remembers ∧ (visit d v).settled = some docs := by
    rintro d v ⟨hd, hdocs⟩ hnot
    refine ⟨hd.visit v, ?_⟩
    rw [visit_of_stays hnot]
    exact settled_session hd hdocs v
  exact (hstays.invariant hkeep ⟨h, hsettled⟩ visits (List.prefix_refl visits)).2

/-- `since` starts where the list is settled: after a boot where an open file shows what it held, and otherwise with a
session of `installed_apps`. -/
def SettlesFirst (held : Bool) (since : List Visit) : Prop :=
  held = false → ∃ inputs rest, since = .installedApps inputs :: rest

/-- A settled list is the group at an earlier moment of the same boot. -/
theorem settled_since {held : Bool} (files : Files) (registry : List AppDoc) {visits : List Visit}
    (h : (visits.foldl visit (booted held files registry)).settled = some docs) :
    ∃ before since, visits = before ++ since ∧ SettlesFirst held since ∧
      Each visit (fun d v => ¬ d.Reboots v) (before.foldl visit (booted held files registry)) since ∧
      docs = (before.foldl visit (booted held files registry)).installed := by
  induction visits using List.reverseRecOn with
  | nil =>
      refine ⟨[], [], rfl, fun hheld => ?_, each_nil _ _ _, ?_⟩
      · rw [List.foldl_nil, settled_booted, hheld] at h
        cases h
      · rw [List.foldl_nil, settled_booted] at h
        split at h
        · exact (Option.some.inj h).symm
        · cases h
  | append_singleton visits v ih =>
      rw [List.foldl_append] at h
      change ((visits.foldl visit (booted held files registry)).visit v).settled = _ at h
      have hlater : ∀ before since, visits = before ++ since → SettlesFirst held since →
          Each visit (fun d v => ¬ d.Reboots v) (before.foldl visit (booted held files registry)) since →
          ¬ (visits.foldl visit (booted held files registry)).Reboots v →
          SettlesFirst held (since ++ [v]) ∧ Each visit (fun d v => ¬ d.Reboots v)
            (before.foldl visit (booted held files registry)) (since ++ [v]) := by
        rintro before since rfl hfirst hstays hreboots
        refine ⟨fun hheld => ?_, each_concat.mpr ⟨hstays, ?_⟩⟩
        · obtain ⟨inputs, rest, rfl⟩ := hfirst hheld
          exact ⟨inputs, rest ++ [v], rfl⟩
        · rwa [List.foldl_append] at hreboots
      by_cases hreboots : (visits.foldl visit (booted held files registry)).Reboots v
      · -- the boot has settled the list
        refine ⟨visits ++ [v], [], (List.append_nil _).symm, fun hheld => ?_, each_nil _ _ _, ?_⟩
        · rw [visit_of_reboots hreboots, settled_booted, handle_run, hheld] at h
          cases h
        · rw [List.foldl_append]
          change docs = ((visits.foldl visit (booted held files registry)).visit v).installed
          rw [visit_of_reboots hreboots] at h ⊢
          rw [settled_booted] at h
          split at h
          · exact (Option.some.inj h).symm
          · cases h
      · cases hsettled : (visits.foldl visit (booted held files registry)).settled with
        | some docs' =>
            rw [visit_of_stays hreboots,
              settled_session (remembers_run held files registry visits) hsettled v] at h
            obtain rfl := Option.some.inj h
            obtain ⟨before, since, heq, hfirst, hstays, hdocs⟩ := ih hsettled
            obtain ⟨hfirst', hstays'⟩ := hlater before since heq hfirst hstays hreboots
            exact ⟨before, since ++ [v], by rw [heq, List.append_assoc], hfirst', hstays', hdocs⟩
        | none =>
            cases v with
            | downloadUpdates inputs =>
                rw [visit_of_stays hreboots, settled_downloadUpdates, hsettled] at h
                cases h
            | installedApps inputs =>
                rw [visit_of_stays hreboots, settled_installedApps (remembers_run held files registry visits),
                  hsettled] at h
                exact ⟨visits, [.installedApps inputs], rfl, fun _ => ⟨inputs, [], rfl⟩,
                  each_singleton.mpr hreboots, (Option.some.inj h).symm⟩

/-- Where the list is settled, it is the group at most. -/
theorem settled_from {held : Bool} (files : Files) (registry : List AppDoc) (before : List Visit) {since : List Visit}
    (hfirst : SettlesFirst held since)
    (hstays : Each visit (fun d v => ¬ d.Reboots v) (before.foldl visit (booted held files registry)) since) :
    ∃ docs, (since.foldl visit (before.foldl visit (booted held files registry))).settled = some docs ∧
      docs.length ≤ (before.foldl visit (booted held files registry)).installed.length := by
  have hremembers := remembers_run held files registry before
  have hhandle := handle_run held files registry before
  generalize before.foldl visit (booted held files registry) = d at hremembers hhandle hstays ⊢
  cases held with
  | true =>
      obtain ⟨docs, hdocs⟩ : ∃ docs, d.settled = some docs := by
        obtain ⟨docs, hdocs⟩ := Option.isSome_iff_exists.mp hhandle
        rw [settled, Device.held, hdocs]
        cases d.cache.head? <;> exact ⟨_, rfl⟩
      exact ⟨docs, settled_run hremembers hdocs hstays, (hremembers.prefix_of_settled docs hdocs).length_le⟩
  | false =>
      obtain ⟨inputs, rest, rfl⟩ := hfirst rfl
      obtain ⟨hnot, hrest⟩ := each_cons.mp hstays
      refine ⟨d.settled.getD d.installed, settled_run (hremembers.visit _) ?_ hrest, ?_⟩
      · rw [visit_of_stays hnot]
        exact settled_installedApps hremembers inputs
      · cases hsettled : d.settled with
        | none => exact le_refl _
        | some docs => exact (hremembers.prefix_of_settled docs hsettled).length_le

end Device

open Device

/-- For every sequence of sessions after a boot, `installed_apps` always shows the list of the file exactly
when no download registers a new app between two sessions of `installed_apps` of one boot, nor, where an open file shows
what it held, between a boot and a session of `installed_apps` of it. -/
theorem installed_apps_shown_iff (held : Bool) (files : Files) (registry : List AppDoc) (visits : List Visit) :
    Each visit ShowsInstalled (booted held files registry) visits ↔
      ∀ before since inputs, before ++ (since ++ [.installedApps inputs]) <+: visits → SettlesFirst held since →
        Each visit (fun d v => ¬ d.Reboots v) (before.foldl visit (booted held files registry)) since →
        Each visit (fun d v => ¬ d.Registers v) (before.foldl visit (booted held files registry)) since := by
  constructor
  · intro h before since inputs hpre hfirst hstays
    obtain ⟨docs, hsettled, hdocs⟩ := settled_from files registry before hfirst hstays
    have hshown := h (before ++ since) (.installedApps inputs) (by simpa using hpre)
    rw [List.foldl_append] at hshown
    have hremembers := remembers_run held files registry (before ++ since)
    rw [List.foldl_append] at hremembers
    change shown _ = _ at hshown
    rw [(getGroupApps_installer hremembers).1, hsettled, Option.getD_some] at hshown
    have hlen := congrArg List.length hshown
    rw [List.length_map, List.length_map] at hlen
    obtain ⟨hgrows, hiff⟩ := installed_run (before.foldl visit (booted held files registry)) since
    have hle := hgrows.length_le
    rw [← hiff]
    omega
  · intro h first v hpre
    cases v with
    | downloadUpdates inputs => trivial
    | installedApps inputs =>
        change shown _ = _
        rw [(getGroupApps_installer (remembers_run held files registry first)).1]
        cases hsettled : (first.foldl visit (booted held files registry)).settled with
        | none => rfl
        | some docs =>
            obtain ⟨before, since, rfl, hfirst, hstays, rfl⟩ := settled_since files registry hsettled
            have hnone := h before since inputs (by simpa using hpre) hfirst hstays
            obtain ⟨hgrows, hlen⟩ := installed_run (before.foldl visit (booted held files registry)) since
            have hgroup := hgrows.eq_of_length (hlen.mpr hnone).symm
            rw [Option.getD_some, hgroup, ← List.foldl_append]

/-- The list is opened, an app is downloaded up to the update of the list, and the list opened again; and, where an open
file shows what it held, an app is downloaded before the list is first opened. -/
theorem installed_apps_stale :
    let reply : Reply := ⟨some "true".toList, .saved "clock".toList "code".toList, true⟩
    let download := Visit.downloadUpdates
      [("ok".toList, reply), ("ok".toList, reply), ("ok".toList, reply), ("back".toList, reply)]
    (∀ held, ¬ Each visit ShowsInstalled (booted held ∅ [])
      [.installedApps ["back".toList], download, .installedApps ["back".toList]]) ∧
      ¬ Each visit ShowsInstalled (booted true ∅ []) [download, .installedApps ["back".toList]] := by
  intro reply download
  constructor
  · intro held h
    have hlast := h [.installedApps ["back".toList], download] _ (List.prefix_refl _)
    change shown _ = _ at hlast
    revert hlast
    cases held <;> decide +kernel
  · intro h
    have hlast := h [download] _ (List.prefix_refl _)
    change shown _ = _ at hlast
    revert hlast
    decide +kernel

end CalSci
