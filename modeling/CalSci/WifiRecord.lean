import CalSci.WifiChoice
import CalSci.WifiCredentials

/-! The shared network record over whole runs of the device: a boot, then any sessions of the three Wi-Fi
apps. `wifi_app` writes `ssid_g` when a network is chosen, before anything is tried, and `boot.py` writes it
only while it polls. The record is right after every step exactly when no network other than the present
one is chosen while the station is associated, and no attempt associates where nothing records it: after the polling of
a boot, between two sessions, or at the first query of a session for another network. -/

namespace CalSci.Wifi

open Runs

namespace Device

variable {d : Device} {ssid : List Char}

/-- The record of a device that is on: `connection_status_g` says whether the station is associated, and
then `ssid_g`, and the row of `network_status`, names its network. -/
def Honest (d : Device) : Prop :=
  d.on = true → (d.connectionStatusG = true ↔ d.station.associated.isSome) ∧
    ∀ name, d.station.associated = some name →
      d.ssidG = name ∧ d.statusText = "Connected to ".toList ++ name

/-- What a step must not do. A boot polls its attempt a hundred times, asks twice more before
`connection_status_g` is set and once after that; the keys of `wifi_app` pick a name of the scan; and an attempt that is
still under way associates in a session of `wifi_connector` for its network, or not at all. -/
def KeepsRecord (chars : List UInt8 → List Char) (d : Device) : Act → Prop
  | .boot scan raises delay => ∀ available entry n, scan = some available →
      d.tried available = some entry → raises = false → delay = some n →
      n < 100 ∨ 102 < n ∨ (n < 102 ∧ entry.ssid = [])
  | .wifiApp scan inputs => d.on = true → ∀ name ssid, d.station.associated = some name →
      picked chars scan inputs = some ssid → ssid = name
  | .wifiConnector inputs _ _ => d.on = true → ∀ form password, d.entry inputs = .confirmed form password →
      d.station.associated = none → ∀ name, d.station.attempt = some (name, 0) → name = d.ssidG
  | .networkStatus _ => True
  | .wait n => d.on = true → d.station.associated = none → ∀ name m, d.station.attempt = some (name, m) → n ≤ m

/-! ### The record -/

/-- The record of a device without an association. -/
theorem honest_none (h : d.station.associated = none) :
    d.Honest ↔ (d.on = true → d.connectionStatusG = false) := by
  simp [Honest, h]

/-- The record of a device that is associated. -/
theorem honest_some (h : d.station.associated = some ssid) :
    d.Honest ↔ (d.on = true → d.connectionStatusG = true ∧ d.ssidG = ssid) := by
  refine ⟨?_, ?_⟩
  · intro hd hon
    exact ⟨(hd hon).1.mpr (by rw [h]; rfl), ((hd hon).2 ssid h).1⟩
  · intro hd hon
    obtain ⟨hstatus, hssid⟩ := hd hon
    refine ⟨iff_of_true hstatus (by rw [h]; rfl), fun name hname => ?_⟩
    obtain rfl : ssid = name := Option.some.inj (h.symm.trans hname)
    refine ⟨hssid, ?_⟩
    rw [statusText, if_pos hstatus, hssid]

/-! ### Boot -/

/-- What the end of a boot makes of an attempt that still needs `m` queries. -/
theorem recorded_attempt {m : Nat} {calls : List (List Char × List Char)}
    (h : d.station = ⟨none, some (ssid, m), calls⟩) :
    d.recordStatus.askLast.connectionStatusG = decide (m < 2) ∧
      d.recordStatus.askLast.station.associated = if m < 3 then some ssid else none := by
  simp only [recordStatus, askLast, h]
  match m with
  | 0 => exact ⟨rfl, rfl⟩
  | 1 => exact ⟨rfl, rfl⟩
  | 2 => exact ⟨rfl, rfl⟩
  | m + 3 =>
      rw [if_neg (by omega), decide_eq_false (by omega)]
      rw [Station.isconnected_early rfl rfl, Station.isconnected_early rfl rfl, Station.isconnected_early rfl rfl]
      exact ⟨rfl, rfl⟩

/-- With an attempt under way that still needs `m` queries, the end of a boot records the association
with the network of `ssid_g`, or the attempt fails. -/
theorem honest_recorded_attempt {m : Nat} {calls : List (List Char × List Char)} (hon : d.on = true)
    (h : d.station = ⟨none, some (ssid, m), calls⟩) :
    d.recordStatus.askLast.Honest ↔ 2 < m ∨ (m < 2 ∧ ssid = d.ssidG) := by
  obtain ⟨hstatus, hassociated⟩ := recorded_attempt h
  by_cases hm : m < 3
  · rw [if_pos hm] at hassociated
    rw [honest_some hassociated, hstatus]
    refine ⟨?_, ?_⟩
    · intro hd
      obtain ⟨hlt, hname⟩ := hd hon
      exact .inr ⟨of_decide_eq_true hlt, hname.symm⟩
    · rintro (hlt | ⟨hlt, hname⟩) -
      · omega
      · exact ⟨decide_eq_true hlt, hname.symm⟩
  · rw [if_neg hm] at hassociated
    rw [honest_none hassociated, hstatus]
    exact iff_of_true (fun _ => decide_eq_false (by omega)) (.inl (by omega))

/-- Without one, it records what the station says. -/
theorem honest_recorded_idle (hidle : d.station.attempt = none)
    (hssid : ∀ name, d.station.associated = some name → d.ssidG = name) : d.recordStatus.askLast.Honest := by
  obtain ⟨on, ⟨associated, attempt, calls⟩, ssidG, status, json, form, saves⟩ := d
  obtain rfl : attempt = none := hidle
  cases associated with
  | none => exact (honest_none rfl).mpr fun _ => rfl
  | some name => exact (honest_some rfl).mpr fun _ => ⟨rfl, hssid name rfl⟩

/-- The attempt of a boot: if it associates, the polling has to see it. -/
theorem honest_bootConnect (hon : d.on = true) (h : d.station.associated = none) (hssid : d.ssidG = [])
    (entry : Credential) (delay : Option Nat) :
    (d.bootConnect entry delay).recordStatus.askLast.Honest ↔
      ∀ n, delay = some n → n < 100 ∨ 102 < n ∨ (n < 102 ∧ entry.ssid = []) := by
  obtain ⟨s, hs⟩ : ∃ s, d.station.connect entry.ssid entry.password delay = s := ⟨_, rfl⟩
  have hnone : s.associated = none := by rw [← hs]; exact h
  have hdelay : s.attempt = delay.map fun n => (entry.ssid, n) := by rw [← hs]; rfl
  rw [bootConnect, hs]
  cases delay with
  | none =>
      rw [Station.poll_idle hdelay hnone, if_neg Bool.false_ne_true]
      refine iff_of_true (honest_recorded_idle hdelay fun name hname => ?_) nofun
      exact absurd (hnone.symm.trans hname) nofun
  | some n =>
      rw [Station.poll_attempt hnone hdelay]
      by_cases hn : n < 100
      · rw [if_pos hn, if_pos rfl]
        apply iff_of_true (honest_recorded_idle rfl fun name hname => Option.some.inj hname)
        rintro k ⟨⟩
        exact .inl hn
      · rw [if_neg hn, if_neg Bool.false_ne_true]
        have hstation : ({ s with attempt := some (entry.ssid, n - 100) } : Station) =
            ⟨none, some (entry.ssid, n - 100), s.calls⟩ := by rw [← hnone]
        rw [hstation]
        refine (honest_recorded_attempt (d := { d with station := ⟨none, some (entry.ssid, n - 100), s.calls⟩ })
          hon rfl).trans ?_
        rw [hssid]
        refine ⟨?_, ?_⟩
        · rintro (hm | ⟨hm, hname⟩) k ⟨⟩
          · exact .inr (.inl (by omega))
          · exact .inr (.inr ⟨by omega, hname⟩)
        · intro hall
          rcases hall n rfl with hn' | hn' | ⟨hn', hname⟩
          · exact absurd hn' hn
          · exact .inl (by omega)
          · exact .inr ⟨by omega, hname⟩

/-- A boot, from any state. -/
theorem honest_boot_iff (chars : List UInt8 → List Char) (d : Device) (scan : Option (List (List Char)))
    (raises : Bool) (delay : Option Nat) :
    (d.boot scan raises delay).Honest ↔ KeepsRecord chars d (.boot scan raises delay) := by
  simp only [boot, KeepsRecord]
  obtain ⟨fresh, hfresh⟩ : ∃ fresh : Device, fresh =
    { d with
      on := true
      station := { d.station with associated := none, attempt := none }
      ssidG := []
      connectionStatusG := false
      form := bootForm } := ⟨_, rfl⟩
  have htried : ∀ available, fresh.tried available = d.tried available := by rw [hfresh]; intro; rfl
  have hquiet : fresh.askLast.Honest := by rw [hfresh]; exact (honest_none rfl).mpr fun _ => rfl
  rw [← hfresh]
  cases scan with
  | none => exact iff_of_true hquiet nofun
  | some available =>
      cases hentry : d.tried available with
      | none =>
          dsimp only
          rw [htried, hentry]
          refine iff_of_true (honest_recorded_idle (by rw [hfresh]) ?_) ?_
          · rw [hfresh]
            exact nofun
          · rintro _ entry _ ⟨⟩ hsome
            exact absurd (hentry.symm.trans hsome) nofun
      | some entry =>
          dsimp only
          rw [htried, hentry]
          cases raises with
          | true => exact iff_of_true hquiet nofun
          | false =>
              dsimp only
              rw [if_neg Bool.false_ne_true, honest_bootConnect (by rw [hfresh]) (by rw [hfresh]) (by rw [hfresh])]
              refine ⟨?_, ?_⟩
              · rintro hall _ _ n ⟨⟩ hsome - hdelay
                obtain rfl : entry = _ := Option.some.inj (hentry.symm.trans hsome)
                exact hall n hdelay
              · exact fun hall n hdelay => hall available entry n rfl hentry rfl hdelay

/-! ### The apps -/

variable {chars : List UInt8 → List Char}

/-- A session of `wifi_app` that picks nothing leaves the record, or stops the device. -/
theorem choose_cases (chars : List UInt8 → List Char) (d : Device) (scan : List (List UInt8))
    (inputs : List (List Char)) :
    (∃ ssid, picked chars scan inputs = some ssid ∧ d.choose chars scan inputs = { d with ssidG := ssid }) ∨
      (picked chars scan inputs = none ∧
        (d.choose chars scan inputs = d ∨ d.choose chars scan inputs = d.stop)) := by
  rw [choose]
  rcases wifiApp_picked chars scan inputs with ⟨s, hrun, hpicked⟩ | ⟨⟨e, hrun⟩, hnone⟩
  · rw [hrun]
    cases hpick : picked chars scan inputs with
    | some ssid =>
        refine .inl ⟨ssid, rfl, ?_⟩
        simp only [(hpicked ssid).mpr hpick]
    | none =>
        refine .inr ⟨rfl, ?_⟩
        have hunchosen : ∀ ssid, s.choice ≠ some (.chosen ssid) := by
          intro ssid hchosen
          exact absurd (hpick.symm.trans ((hpicked ssid).mp hchosen)) nofun
        match hchoice : s.choice with
        | none => exact .inl (by simp only [hchoice])
        | some .left => exact .inl (by simp only [hchoice])
        | some .asleep => exact .inr (by simp only [hchoice])
        | some (.chosen ssid) => exact absurd hchoice (hunchosen ssid)
  · rw [hrun]
    exact .inr ⟨hnone, .inr rfl⟩

/-- A session of `network_status` disconnects the station, leaves the record, or stops the device. -/
theorem statusLoop_cases (d : Device) (pane : MenuPane) (inputs : List (List Char)) :
    d.statusLoop pane inputs = d ∨ d.statusLoop pane inputs = d.stop ∨
      d.statusLoop pane inputs = d.disconnectNetwork := by
  induction inputs generalizing pane with
  | nil => exact .inl rfl
  | cons inp inputs ih =>
      rw [statusLoop]
      split
      · exact .inl rfl
      · split
        · exact .inr (.inl rfl)
        · split
          · split
            · exact .inr (.inl rfl)
            · split
              · exact .inr (.inr rfl)
              · exact .inl rfl
          · dsimp only
            split
            · exact .inr (.inl rfl)
            · exact ih _

theorem networkStatus_cases (d : Device) (inputs : List (List Char)) :
    d.networkStatus inputs = d ∨ d.networkStatus inputs = d.stop ∨
      d.networkStatus inputs = d.disconnectNetwork := by
  rw [networkStatus]
  split
  · exact .inr (.inl rfl)
  · exact statusLoop_cases d _ inputs

theorem honest_of_off (hoff : d.on = false) : d.Honest := fun hon => absurd (hoff.symm.trans hon) nofun

theorem Honest.choose_iff (h : d.Honest) (scan : List (List UInt8)) (inputs : List (List Char)) :
    (d.choose chars scan inputs).Honest ↔ KeepsRecord chars d (.wifiApp scan inputs) := by
  rcases choose_cases chars d scan inputs with ⟨ssid, hpick, heq⟩ | ⟨hnone, heq⟩
  · rw [heq]
    refine ⟨?_, ?_⟩
    · intro hhonest hon' name ssid' hname hpick'
      obtain ⟨-, hssid⟩ := (honest_some (d := { d with ssidG := ssid }) hname).mp hhonest hon'
      exact (Option.some.inj (hpick'.symm.trans hpick)).trans hssid
    · intro hkeeps
      cases hassociated : d.station.associated with
      | none =>
          rw [honest_none (d := { d with ssidG := ssid }) hassociated]
          exact (honest_none hassociated).mp h
      | some name =>
          rw [honest_some (d := { d with ssidG := ssid }) hassociated]
          intro hon'
          obtain ⟨hstatus, -⟩ := (honest_some hassociated).mp h hon'
          exact ⟨hstatus, hkeeps hon' name ssid hassociated hpick⟩
  · refine iff_of_true ?_ fun _ _ ssid _ hpick => absurd (hnone.symm.trans hpick) nofun
    rcases heq with heq | heq
    · rw [heq]
      exact h
    · rw [heq]
      exact honest_of_off rfl

/-- A session that has asked leaves a right record, unless its first query sees an attempt for another network. -/
theorem Honest.connectWith_iff (h : d.Honest) (hon : d.on = true) (password : List Char) (raises : Bool)
    (delay : Option Nat) : (d.connectWith d.ssidG password raises delay).Honest ↔
      (d.station.associated = none → ∀ name, d.station.attempt = some (name, 0) → name = d.ssidG) := by
  cases hfirst : (d.station.pass 1).associated with
  | some name =>
      have hsaved : ({ d with station := d.station.pass 1 }.save d.ssidG password).station.associated = some name :=
        hfirst
      rw [connectWith_associated hfirst, honest_some hsaved]
      cases hassociated : d.station.associated with
      | some present =>
          rw [Station.pass_associated hassociated, hassociated] at hfirst
          obtain rfl := Option.some.inj hfirst
          exact iff_of_true (fun _ => ⟨rfl, ((honest_some hassociated).mp h hon).2⟩) nofun
      | none =>
          cases hattempt : d.station.attempt with
          | none =>
              rw [Station.pass_idle hattempt, hassociated] at hfirst
              cases hfirst
          | some attempt =>
              obtain ⟨ssid, n⟩ := attempt
              rw [Station.pass_attempt hassociated hattempt] at hfirst
              by_cases hn : n < 1
              · obtain rfl : n = 0 := by omega
                rw [if_pos hn] at hfirst
                obtain rfl := Option.some.inj hfirst
                refine ⟨?_, ?_⟩
                · rintro hd - _ ⟨⟩
                  exact (hd hon).2.symm
                · exact fun hname _ => ⟨rfl, (hname rfl ssid rfl).symm⟩
              · rw [if_neg hn] at hfirst
                exact absurd (hassociated.symm.trans hfirst) nofun
  | none =>
      obtain ⟨-, hlate⟩ := (Station.pass_associated_eq_none_iff d.station 1).mp hfirst
      refine iff_of_true ?_ fun _ name hattempt => absurd (hlate name 0 hattempt) (by omega)
      rcases connectWith_free d.ssidG password hfirst raises delay with
        ⟨st, hstopped⟩ | ⟨st, -, -, ⟨hassociated, hsaved⟩ | ⟨hnone, hfailed⟩⟩
      · rw [hstopped]
        exact honest_of_off rfl
      · rw [hsaved]
        exact (honest_some (d := { d with station := st }.save d.ssidG password) hassociated).mpr fun _ => ⟨rfl, rfl⟩
      · rw [hfailed]
        exact (honest_none (d := { d with station := st, connectionStatusG := false }) hnone).mpr fun _ => rfl

theorem Honest.wifiConnector_iff (h : d.Honest) (hon : d.on = true) (inputs : List (List Char)) (raises : Bool)
    (delay : Option Nat) :
    (d.wifiConnector inputs raises delay).Honest ↔ KeepsRecord chars d (.wifiConnector inputs raises delay) := by
  rw [Device.wifiConnector, KeepsRecord]
  cases hentry : d.entry inputs with
  | waiting form => exact iff_of_true h fun _ _ _ heq => by cases heq
  | left form => exact iff_of_true h fun _ _ _ heq => by cases heq
  | stopped form => exact iff_of_true (honest_of_off rfl) fun _ _ _ heq => by cases heq
  | confirmed form password =>
      have hiff := Honest.connectWith_iff (d := { d with form }) h hon password raises delay
      refine hiff.trans ⟨fun hname _ _ _ _ => hname, fun hname => hname hon form password rfl⟩

theorem Honest.networkStatus (h : d.Honest) (inputs : List (List Char)) : (d.networkStatus inputs).Honest := by
  rcases networkStatus_cases d inputs with heq | heq | heq
  · rw [heq]
    exact h
  · rw [heq]
    exact honest_of_off rfl
  · rw [heq]
    exact (honest_none rfl).mpr fun _ => rfl

/-- Time that passes leaves a right record unless an attempt comes through. -/
theorem Honest.wait_iff (h : d.Honest) (n : Nat) :
    { d with station := d.station.pass n }.Honest ↔ KeepsRecord chars d (.wait n) := by
  rw [KeepsRecord]
  cases hassociated : d.station.associated with
  | some name =>
      rw [Station.pass_associated hassociated]
      exact iff_of_true h fun _ => nofun
  | none =>
      have hstatus := (honest_none hassociated).mp h
      have hquiet : (d.station.pass n).associated = none ↔ ∀ name m, d.station.attempt = some (name, m) → n ≤ m := by
        rw [Station.pass_associated_eq_none_iff]
        exact and_iff_right hassociated
      cases hlater : (d.station.pass n).associated with
      | none =>
          refine iff_of_true ?_ fun _ _ => hquiet.mp hlater
          exact (honest_none (d := { d with station := d.station.pass n }) hlater).mpr hstatus
      | some name =>
          rw [honest_some (d := { d with station := d.station.pass n }) hlater]
          refine ⟨?_, ?_⟩
          · intro hd hon
            exact absurd ((hstatus hon).symm.trans (hd hon).1) nofun
          · intro hkeeps hon
            rw [hquiet.mpr (hkeeps hon rfl)] at hlater
            cases hlater

/-- One step of the device. -/
theorem Honest.act_iff (h : d.Honest) (a : Act) : (d.act chars a).Honest ↔ KeepsRecord chars d a := by
  cases a with
  | boot scan raises delay => exact honest_boot_iff chars d scan raises delay
  | wifiApp scan inputs =>
      rw [act]
      by_cases hon : d.on = true
      · rw [if_pos hon]
        exact h.choose_iff scan inputs
      · rw [if_neg hon]
        exact iff_of_true h fun hon' => absurd hon' hon
  | wifiConnector inputs raises delay =>
      rw [act]
      by_cases hon : d.on = true
      · rw [if_pos hon]
        exact h.wifiConnector_iff hon inputs raises delay
      · rw [if_neg hon]
        exact iff_of_true h fun hon' => absurd hon' hon
  | networkStatus inputs =>
      rw [act]
      by_cases hon : d.on = true
      · rw [if_pos hon]
        exact iff_of_true (h.networkStatus inputs) trivial
      · rw [if_neg hon]
        exact iff_of_true h trivial
  | wait n => exact h.wait_iff n

end Device

open Wifi.Device

/-- From a device that is off, so that the first step that does anything is a boot, the record is right
after every step exactly when each step keeps it. -/
theorem network_record_iff (chars : List UInt8 → List Char) (d : Device) (hoff : d.on = false) (acts : List Act) :
    Each (act chars) (fun d a => (d.act chars a).Honest) d acts ↔ Each (act chars) (KeepsRecord chars) d acts :=
  each_iff (fun _ a h => h.act_iff a) (fun _ a h hkeeps => (h.act_iff a).mpr hkeeps) (honest_of_off hoff) acts

/-- A device that is off and has the credentials of the network `A`. -/
def Device.sampleOff : Device :=
  { sample none with on := false, wifiJson := [⟨"A".toList, "p".toList⟩] }

/-- A boot that associates with `A` at the sixth query, and some time after it. -/
theorem network_record_boot :
    let acts : List Act := [.boot (some ["A".toList]) false (some 5), .wait 1000]
    sampleOff.on = false ∧ Each (act ascii) (fun d a => (d.act ascii a).Honest) sampleOff acts ∧
      (acts.foldl (act ascii) sampleOff).statusText = "Connected to A".toList := by
  intro acts
  refine ⟨rfl, (network_record_iff ascii sampleOff rfl acts).mpr ?_, by decide +kernel⟩
  refine each_cons.mpr ⟨?_, each_singleton.mpr fun _ hassociated => ?_⟩
  · rintro _ _ n - - - ⟨⟩
    exact .inl (by omega)
  · exact absurd hassociated (by decide +kernel)

/-- Associated with `A`, the network `B` is chosen and nothing is confirmed; a boot whose attempt associates just after
the polling, with `ssid_g` left empty; and one whose attempt associates some time later. -/
theorem network_record_wrong :
    ¬ Each (act ascii) (fun d a => (d.act ascii a).Honest) sampleOff
        [.boot (some ["A".toList]) false (some 5), .wifiApp [[65], [66]] ["nav_d".toList, "ok".toList]] ∧
      ¬ Each (act ascii) (fun d a => (d.act ascii a).Honest) sampleOff
        [.boot (some ["A".toList]) false (some 100)] ∧
      ¬ Each (act ascii) (fun d a => (d.act ascii a).Honest) sampleOff
        [.boot (some ["A".toList]) false (some 150), .wait 60] := by
  refine ⟨fun h => ?_, fun h => ?_, fun h => ?_⟩
  · have hhonest := h [_] _ (List.prefix_refl _) (by decide +kernel)
    have hname := hhonest.2 "A".toList (by decide +kernel)
    exact absurd hname.1 (by decide +kernel)
  · have hhonest := h [] _ (List.prefix_refl _) (by decide +kernel)
    have hname := hhonest.2 "A".toList (by decide +kernel)
    exact absurd hname.1 (by decide +kernel)
  · have hhonest := h [_] _ (List.prefix_refl _) (by decide +kernel)
    have hname := hhonest.2 "A".toList (by decide +kernel)
    exact absurd hname.1 (by decide +kernel)

end CalSci.Wifi
