import CalSci.WifiModel

/-! Which credentials `wifi_connector` stores. `do_connect` returns at once when the station is associated,
with whatever network; the session then stores what was typed without having tried it. That the station is associated
may be the late outcome of an attempt of an earlier session. The credentials stored are those of a successful attempt
exactly when each session that gets to `ok` finds the station not associated there. -/

namespace CalSci.Wifi

open Runs

/-! ### The station -/

namespace Station

variable {s : Station} {ssid : List Char}

theorem pass_associated (h : s.associated = some ssid) (n : Nat) : s.pass n = s := by
  rw [pass, h]

theorem pass_idle (hattempt : s.attempt = none) (n : Nat) : s.pass n = s := by
  unfold pass
  rw [hattempt]
  cases s.associated <;> rfl

theorem pass_attempt {m : Nat} (h : s.associated = none) (hattempt : s.attempt = some (ssid, m)) (n : Nat) :
    s.pass n = if m < n then { s with associated := some ssid, attempt := none }
      else { s with attempt := some (ssid, m - n) } := by
  rw [pass, h, hattempt]

theorem pass_calls (s : Station) (n : Nat) : (s.pass n).calls = s.calls := by
  unfold pass
  split
  · split <;> rfl
  · rfl

/-- The station is not associated after some time exactly when it is not before and no attempt comes through. -/
theorem pass_associated_eq_none_iff (s : Station) (n : Nat) :
    (s.pass n).associated = none ↔ s.associated = none ∧ ∀ ssid m, s.attempt = some (ssid, m) → n ≤ m := by
  cases hassociated : s.associated with
  | some name =>
      rw [pass_associated hassociated, hassociated]
      exact iff_of_false nofun fun h => absurd h.1 nofun
  | none =>
      rw [eq_self_iff_true, true_and]
      cases hattempt : s.attempt with
      | none =>
          rw [pass_idle hattempt]
          exact iff_of_true hassociated nofun
      | some attempt =>
          obtain ⟨ssid, m⟩ := attempt
          rw [pass_attempt hassociated hattempt]
          refine ⟨?_, ?_⟩
          · rintro h _ _ ⟨⟩
            by_contra hlt
            rw [if_pos (by omega)] at h
            cases h
          · intro h
            rw [if_neg (by have := h ssid m rfl; omega)]
            exact hassociated

/-- What comes after the query that has seen the association is not news. -/
theorem isconnected_associated (h : s.associated = some ssid) : s.isconnected = (true, s) := by
  rw [isconnected, pass_associated h, h]
  rfl

theorem isconnected_due (h : s.associated = none) (hattempt : s.attempt = some (ssid, 0)) :
    s.isconnected = (true, { s with associated := some ssid, attempt := none }) := by
  rw [isconnected, pass_attempt h hattempt]
  rfl

theorem isconnected_early {n : Nat} (h : s.associated = none) (hattempt : s.attempt = some (ssid, n + 1)) :
    s.isconnected = (false, { s with attempt := some (ssid, n) }) := by
  rw [isconnected, pass_attempt h hattempt, if_neg (by omega), Nat.add_sub_cancel, h]
  rfl

/-- The station is associated with `ssid` or nothing, and after nothing else. -/
structure Toward (ssid : List Char) (s : Station) : Prop where
  associated : ∀ name, s.associated = some name → name = ssid
  attempt : ∀ name n, s.attempt = some (name, n) → name = ssid

theorem Toward.pass (h : s.Toward ssid) (n : Nat) : (s.pass n).Toward ssid := by
  unfold Station.pass
  split
  · next name m _ hattempt =>
      have hname := h.attempt name m hattempt
      split
      · exact ⟨fun _ heq => Option.some.inj heq ▸ hname, nofun⟩
      · exact ⟨h.associated, fun _ _ heq => (Prod.mk.inj (Option.some.inj heq)).1 ▸ hname⟩
  · exact h

theorem Toward.poll (h : s.Toward ssid) (n : Nat) : (s.poll n).2.Toward ssid := by
  induction n generalizing s with
  | zero => exact h
  | succ n ih =>
      rw [Station.poll]
      split
      · exact h.pass 1
      · exact ih (h.pass 1)

theorem poll_calls (s : Station) (n : Nat) : (s.poll n).2.calls = s.calls := by
  induction n generalizing s with
  | zero => rfl
  | succ n ih =>
      rw [poll]
      split
      · exact pass_calls s 1
      · exact (ih _).trans (pass_calls s 1)

/-- An attempt replaces the one before it. -/
theorem toward_connect (h : s.associated = none) (ssid password : List Char) (delay : Option Nat) :
    (s.connect ssid password delay).Toward ssid := by
  refine ⟨fun name heq => absurd (h.symm.trans heq) nofun, fun name n heq => ?_⟩
  obtain ⟨m, -, hm⟩ := Option.map_eq_some_iff.mp heq
  exact (Prod.mk.inj hm).1.symm

theorem poll_idle (hattempt : s.attempt = none) (h : s.associated = none) (k : Nat) : s.poll k = (false, s) := by
  induction k with
  | zero => rfl
  | succ k ih =>
      have hquery : s.isconnected = (false, s) := by rw [isconnected, pass_idle hattempt, h]; rfl
      rw [poll, hquery, if_neg Bool.false_ne_true]
      exact ih

/-- An attempt is seen by the polling if it associates in time, and otherwise gets nearer. -/
theorem poll_attempt {n : Nat} (h : s.associated = none) (hattempt : s.attempt = some (ssid, n))
    (k : Nat) : s.poll k =
      if n < k then (true, { s with associated := some ssid, attempt := none })
      else (false, { s with attempt := some (ssid, n - k) }) := by
  induction k generalizing s n with
  | zero =>
      rw [if_neg (Nat.not_lt_zero n), Nat.sub_zero, ← hattempt]
      rfl
  | succ k ih =>
      cases n with
      | zero =>
          rw [poll, isconnected_due h hattempt, if_pos rfl, if_pos (Nat.succ_pos k)]
      | succ n =>
          rw [poll, isconnected_early h hattempt, if_neg Bool.false_ne_true]
          have hpoll := ih (s := { s with attempt := some (ssid, n) }) h rfl
          dsimp only at hpoll ⊢
          rw [hpoll, Nat.add_sub_add_right]
          by_cases hn : n < k
          · rw [if_pos hn, if_pos (by omega)]
          · rw [if_neg hn, if_neg (by omega)]

end Station

/-! ### One attempt -/

namespace Device

variable {d : Device} {ssid password : List Char}

/-- The device after the typed credentials are stored. -/
def save (d : Device) (ssid password : List Char) : Device :=
  { d with
    connectionStatusG := true
    wifiJson := updateWifiCredentials ssid password d.wifiJson
    saves := d.saves ++ [(ssid, password)] }

theorem finishConnect_associated {name : List Char} (h : d.station.associated = some name) :
    d.finishConnect ssid password = d.save ssid password := by
  simp only [finishConnect, Station.isconnected_associated h, if_true]
  rfl

/-- With the station associated at the first query nothing is tried, and the typed password is stored. -/
theorem connectWith_associated {name : List Char} (h : (d.station.pass 1).associated = some name) (raises : Bool)
    (delay : Option Nat) :
    d.connectWith ssid password raises delay = { d with station := d.station.pass 1 }.save ssid password := by
  have hasked : d.station.isconnected.1 = true := by rw [Station.isconnected, h]; rfl
  rw [connectWith, if_pos hasked]
  exact finishConnect_associated (d := { d with station := d.station.pass 1 }) h

/-- Otherwise the attempt is made, unless `connect` raises; the password is stored if it associates by the last query. -/
theorem connectWith_free (ssid password : List Char) (h : (d.station.pass 1).associated = none) (raises : Bool)
    (delay : Option Nat) :
    (∃ st, d.connectWith ssid password raises delay = { d with station := st }.stop) ∨
      ∃ st : Station, st.Toward ssid ∧ st.calls = d.station.calls ++ [(ssid, password)] ∧
        ((st.associated = some ssid ∧
            d.connectWith ssid password raises delay = { d with station := st }.save ssid password) ∨
          (st.associated = none ∧
            d.connectWith ssid password raises delay = { d with station := st, connectionStatusG := false })) := by
  have hasked : ¬ d.station.isconnected.1 = true := by
    rw [Station.isconnected, h]
    exact Bool.false_ne_true
  rw [connectWith, if_neg hasked]
  cases raises with
  | true => exact .inl ⟨_, rfl⟩
  | false =>
      refine .inr ?_
      have htoward := ((Station.toward_connect h ssid password delay).poll 100).pass 1
      have hcalls : ((((d.station.pass 1).connect ssid password delay).poll 100).2.pass 1).calls =
          d.station.calls ++ [(ssid, password)] := by
        rw [Station.pass_calls, Station.poll_calls, ← Station.pass_calls d.station 1]
        rfl
      refine ⟨_, htoward, hcalls, ?_⟩
      cases hassociated : ((((d.station.pass 1).connect ssid password delay).poll 100).2.pass 1).associated with
      | some name =>
          obtain rfl := htoward.associated name hassociated
          refine .inl ⟨rfl, ?_⟩
          simp [finishConnect, Station.isconnected, hassociated, save]
      | none =>
          refine .inr ⟨rfl, ?_⟩
          simp [finishConnect, Station.isconnected, hassociated]

/-! ### Sessions -/

/-- The list after `update_wifi_credentials`: the first entry of the name has the new password, or there
was none and one is appended; the other entries stay, in their order. -/
def Stores (ssid password : List Char) (old new : List Credential) : Prop :=
  (∃ before cred after, old = before ++ cred :: after ∧ (∀ c ∈ before, c.ssid ≠ ssid) ∧ cred.ssid = ssid ∧
    new = before ++ ⟨ssid, password⟩ :: after) ∨
  ((∀ c ∈ old, c.ssid ≠ ssid) ∧ new = old ++ [⟨ssid, password⟩])

theorem stores_updateWifiCredentials (ssid password : List Char) (data : List Credential) :
    Stores ssid password data (updateWifiCredentials ssid password data) := by
  induction data with
  | nil => exact .inr ⟨nofun, rfl⟩
  | cons cred data ih =>
      rw [updateWifiCredentials]
      by_cases hssid : cred.ssid = ssid
      · rw [if_pos hssid]
        refine .inl ⟨[], cred, data, rfl, nofun, hssid, ?_⟩
        rw [← hssid]
        rfl
      · rw [if_neg hssid]
        rcases ih with ⟨before, cred', after, hold, hbefore, hcred', hnew⟩ | ⟨hall, hnew⟩
        · refine .inl ⟨cred :: before, cred', after, by rw [hold]; rfl, ?_, hcred', by rw [hnew]; rfl⟩
          exact List.forall_mem_cons.mpr ⟨hssid, hbefore⟩
        · exact .inr ⟨List.forall_mem_cons.mpr ⟨hssid, hall⟩, by rw [hnew]; rfl⟩

/-- A session of `wifi_connector`: the time before it, the name chosen for it, its keys, whether `connect` raises, and
the query at which an attempt associates. -/
structure ConnectorSession where
  wait : Nat
  ssid : List Char
  inputs : List (List Char)
  raises : Bool
  delay : Option Nat

def before (d : Device) (k : ConnectorSession) : Device := { d with station := d.station.pass k.wait, ssidG := k.ssid }

def connector (d : Device) (k : ConnectorSession) : Device :=
  if d.on then (d.before k).wifiConnector k.inputs k.raises k.delay else d

/-- The session stores nothing, or credentials for which it has called `connect`, with the station then
associated with their network. -/
def StoresWorking (d : Device) (k : ConnectorSession) : Prop :=
  ((d.connector k).saves = d.saves ∧ (d.connector k).wifiJson = d.wifiJson) ∨
  ∃ password, (d.connector k).saves = d.saves ++ [(k.ssid, password)] ∧
    (d.connector k).station.calls = d.station.calls ++ [(k.ssid, password)] ∧
    (d.connector k).station.associated = some k.ssid ∧
    Stores k.ssid password d.wifiJson (d.connector k).wifiJson

/-- If the session gets to `ok`, the station is not associated, and an attempt that is still under way does not come
through before the session or at its first query. -/
def FreeAtOk (d : Device) (k : ConnectorSession) : Prop :=
  d.on = true → ∀ form password, (d.before k).entry k.inputs = .confirmed form password →
    d.station.associated = none ∧ ∀ ssid n, d.station.attempt = some (ssid, n) → k.wait < n

variable {k : ConnectorSession}

theorem connector_of_on (hon : d.on = true) :
    d.connector k = (d.before k).wifiConnector k.inputs k.raises k.delay := if_pos hon

/-- A session that does not get to `ok` leaves the file and the record. -/
theorem connector_unconfirmed (hno : d.on = true → ∀ form password,
      (d.before k).entry k.inputs ≠ .confirmed form password) :
    (d.connector k).wifiJson = d.wifiJson ∧ (d.connector k).saves = d.saves := by
  cases hon : d.on with
  | false =>
      rw [connector, hon]
      exact ⟨rfl, rfl⟩
  | true =>
      rw [connector_of_on hon, wifiConnector]
      cases hentry : (d.before k).entry k.inputs with
      | waiting form => exact ⟨rfl, rfl⟩
      | left form => exact ⟨rfl, rfl⟩
      | stopped form => exact ⟨rfl, rfl⟩
      | confirmed form password => exact absurd hentry (hno hon form password)

theorem connector_confirmed (hon : d.on = true) {form : FormPane}
    (hentry : (d.before k).entry k.inputs = .confirmed form password) :
    d.connector k = { d.before k with form }.connectWith k.ssid password k.raises k.delay := by
  rw [connector_of_on hon, wifiConnector, hentry]
  rfl

/-- The first query of the session finds the station associated or not. -/
theorem free_iff (d : Device) (k : ConnectorSession) : ((d.station.pass k.wait).pass 1).associated = none ↔
    d.station.associated = none ∧ ∀ ssid n, d.station.attempt = some (ssid, n) → k.wait < n := by
  cases hassociated : d.station.associated with
  | some name =>
      rw [Station.pass_associated hassociated, Station.pass_associated hassociated, hassociated]
      exact iff_of_false nofun fun h => absurd h.1 nofun
  | none =>
      rw [eq_self_iff_true, true_and, Station.pass_associated_eq_none_iff, Station.pass_associated_eq_none_iff]
      cases hattempt : d.station.attempt with
      | none =>
          rw [Station.pass_idle hattempt, hattempt]
          exact iff_of_true ⟨⟨hassociated, nofun⟩, nofun⟩ nofun
      | some attempt =>
          obtain ⟨ssid, n⟩ := attempt
          rw [Station.pass_attempt hassociated hattempt]
          refine ⟨?_, ?_⟩
          · rintro ⟨⟨-, hlate⟩, hnext⟩ _ _ ⟨⟩
            rw [if_neg (by have := hlate ssid n rfl; omega)] at hnext
            have := hnext ssid (n - k.wait) rfl
            omega
          · intro h
            have hlt := h ssid n rfl
            refine ⟨⟨hassociated, fun _ _ heq => ?_⟩, fun _ _ heq => ?_⟩
            · cases heq
              omega
            · rw [if_neg (by omega)] at heq
              cases heq
              omega

/-- One session, from any station. -/
theorem storesWorking_iff (d : Device) (k : ConnectorSession) : StoresWorking d k ↔ FreeAtOk d k := by
  by_cases hconfirmed : d.on = true ∧ ∃ form password, (d.before k).entry k.inputs = .confirmed form password
  · obtain ⟨hon, form, password, hentry⟩ := hconfirmed
    have heq := connector_confirmed hon hentry
    have hfree : FreeAtOk d k ↔ ((d.station.pass k.wait).pass 1).associated = none := by
      rw [free_iff]
      exact ⟨fun h => h hon form password hentry, fun h _ _ _ _ => h⟩
    rw [hfree]
    refine ⟨?_, ?_⟩
    · intro hworking
      cases hassociated : ((d.station.pass k.wait).pass 1).associated with
      | none => rfl
      | some name =>
          rw [connectWith_associated (d := { d.before k with form }) hassociated] at heq
          rw [StoresWorking, heq] at hworking
          rcases hworking with ⟨hsaves, -⟩ | ⟨password', -, hcalls, -⟩
          · exact absurd hsaves (by simp [save, before])
          · exact absurd hcalls (by simp [save, before, Station.pass_calls])
    · intro hnone
      rw [StoresWorking, heq]
      rcases connectWith_free (d := { d.before k with form }) k.ssid password hnone k.raises
        k.delay with ⟨st, hstopped⟩ | ⟨st, -, hcalls, ⟨hassociated, hsaved⟩ | ⟨-, hfailed⟩⟩
      · rw [hstopped]
        exact .inl ⟨rfl, rfl⟩
      · rw [hsaved]
        refine .inr ⟨password, rfl, ?_, hassociated, stores_updateWifiCredentials _ _ _⟩
        exact hcalls.trans (congrArg (· ++ [(k.ssid, password)]) (Station.pass_calls d.station k.wait))
      · rw [hfailed]
        exact .inl ⟨rfl, rfl⟩
  · have hno : d.on = true → ∀ form password, (d.before k).entry k.inputs ≠ .confirmed form password :=
      fun hon form password hentry => hconfirmed ⟨hon, form, password, hentry⟩
    obtain ⟨hjson, hsaves⟩ := connector_unconfirmed hno
    exact iff_of_true (.inl ⟨hsaves, hjson⟩) fun hon form password hentry =>
      absurd hentry (hno hon form password)

end Device

open Wifi.Device

/-- For every sequence of sessions of `wifi_connector`, from any state of the station, the credentials stored
are those of a successful attempt of the session exactly when each session that gets to `ok` finds the
station not associated. -/
theorem credentials_stored_iff (d : Device) (sessions : List ConnectorSession) :
    Each connector StoresWorking d sessions ↔ Each connector FreeAtOk d sessions := by
  have hsession : ∀ first k, first ++ [k] <+: sessions →
      (StoresWorking (first.foldl connector d) k ↔ FreeAtOk (first.foldl connector d) k) :=
    fun first k _ => storesWorking_iff _ k
  exact forall₃_congr hsession

/-- A device whose station is associated with `associated`, and no credentials. -/
def Device.sample (associated : Option (List Char)) : Device :=
  { on := true
    station := ⟨associated, none, []⟩
    ssidG := []
    connectionStatusG := associated.isSome
    wifiJson := []
    form := bootForm
    saves := [] }

/-- A session in which `x` is typed for `ssid`. -/
def typedX (wait : Nat) (ssid : String) (delay : Option Nat) : ConnectorSession :=
  ⟨wait, ssid.toList, ["nav_d".toList, "x".toList, "ok".toList], false, delay⟩

/-- Not associated at first, `x` is typed for the network `B`, and the attempt associates at once. -/
theorem credentials_stored_fresh :
    Each connector StoresWorking (sample none) [typedX 7 "B" (some 0)] ∧
      ((sample none).connector (typedX 7 "B" (some 0))).saves = [("B".toList, "x".toList)] := by
  refine ⟨(credentials_stored_iff _ _).mpr ?_, by decide +kernel⟩
  exact each_singleton.mpr fun _ _ _ _ => ⟨rfl, nofun⟩

/-- A session that stores without calling `connect`. -/
theorem not_storesWorking {d : Device} {k : ConnectorSession} (hsaves : (d.connector k).saves ≠ d.saves)
    (hcalls : (d.connector k).station.calls = d.station.calls) : ¬ StoresWorking d k := by
  rintro (⟨hsame, -⟩ | ⟨password, -, hcalled, -⟩)
  · exact hsaves hsame
  · have hempty := hcalled.symm.trans hcalls
    simp at hempty

/-- Associated with `A`, a password typed for `B` is stored without `connect` being called. So is one typed for `C`
when the station associates with `B` between the two sessions, after the first one has failed. -/
theorem credentials_stored_untried :
    ¬ Each connector StoresWorking (sample (some "A".toList)) [typedX 0 "B" (some 0)] ∧
      ¬ Each connector StoresWorking (sample none) [typedX 0 "B" (some 150), typedX 60 "C" none] := by
  refine ⟨?_, ?_⟩
  · intro h
    exact not_storesWorking (by decide +kernel) (by decide +kernel) (h [] _ (List.prefix_refl _))
  · intro h
    exact not_storesWorking (by decide +kernel) (by decide +kernel) (h [typedX 0 "B" (some 150)] _ (List.prefix_refl _))

end CalSci.Wifi
