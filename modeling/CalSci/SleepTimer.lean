import CalSci.PyNumbers
import CalSci.Runs

/-! The auto-sleep setting: `sleep_after` of `apps/settings/sleep_after.py`, the functions of
`lib/sleeping_features.py` it calls, and the `SoftWatchdog` of `lib/soft_watch_dog_timer.py`. A typed text
is parsed, tested against an upper bound only, written to the database, and then given to a timer that
may refuse it: what is written stays when the timer raises. -/

namespace CalSci.Sleep

open Runs

inductive Raised where
  | indexError
  | valueError
  | overflowError
  deriving DecidableEq, Repr

/-- The period fits a 32-bit machine integer. -/
def Fits (period : Int) : Prop := -2 ^ 31 ≤ period ∧ period < 2 ^ 31

instance (period : Int) : Decidable (Fits period) := by
  unfold Fits
  infer_instance

/-- A `SoftWatchdog`: its `timeout_ms`, and the period its one-shot timer runs with. -/
structure SoftWatchdog where
  timeoutMs : Int
  armed : Option Int
  deriving DecidableEq, Repr

namespace SoftWatchdog

/-- `_start_timer`: `Timer.init` raises when the period does not fit. -/
def startTimer (w : SoftWatchdog) : SoftWatchdog × Except Raised Unit :=
  if Fits w.timeoutMs then ({ w with armed := some w.timeoutMs }, .ok ()) else (w, .error .overflowError)

/-- `__init__`. -/
def init (timeoutMs : Int) : SoftWatchdog × Except Raised Unit := startTimer ⟨timeoutMs, none⟩

def feed (w : SoftWatchdog) : SoftWatchdog × Except Raised Unit := startTimer { w with armed := none }

/-- `update_time`: the attribute is set before the timer is started. -/
def updateTime (w : SoftWatchdog) (timeoutMs : Int) : SoftWatchdog × Except Raised Unit :=
  feed { w with timeoutMs }

end SoftWatchdog

structure Setting where
  feature : List Char
  value : Int
  deriving DecidableEq, Repr

def Setting.isTimer (doc : Setting) : Bool := doc.feature = "sleep_timer".toList

structure Device where
  db : List Setting
  swdt : SoftWatchdog
  deriving DecidableEq, Repr

/-- The third row of the form after `ok`. -/
inductive Answer where
  | updatedSuccessfully
  | maximumIs14400
  | wrongInput
  deriving DecidableEq, Repr

namespace Device

def getSleepTime (d : Device) : Except Raised Int :=
  match d.db.filter Setting.isTimer with
  | [] => .error .indexError
  | doc :: _ => .ok doc.value

def updateSleepTime (d : Device) (time : Int) : Device × Except Raised Unit :=
  let db := d.db.map fun doc => if doc.isTimer then { doc with value := time } else doc
  let (swdt, result) := d.swdt.updateTime time
  ({ db, swdt }, result)

/-- The branch of `ok` in `sleep_after`, with the text of the field and Python's `int`. -/
def sleepAfter (int : List Char → Except Raised Int) (d : Device) (tm : List Char) : Device × Answer :=
  match int tm with
  | .error _ => (d, .wrongInput)
  | .ok n =>
      if n ≤ 14400 then
        match d.updateSleepTime (n * 60000) with
        | (d, .error _) => (d, .wrongInput)
        | (d, .ok _) =>
            match d.getSleepTime with
            | .error _ => (d, .wrongInput)
            | .ok _ => (d, .updatedSuccessfully)
      else (d, .maximumIs14400)

/-- A boot: the watchdog is created with the stored value, if there is one. -/
def boot (d : Device) : Device :=
  match d.getSleepTime with
  | .error _ => d
  | .ok value => { d with swdt := (SoftWatchdog.init value).1 }

end Device

/-- What happens to the setting: a text is confirmed with `ok`, or the device boots. -/
inductive Input where
  | confirm (tm : List Char)
  | reboot
  deriving DecidableEq, Repr

def step (int : List Char → Except Raised Int) (d : Device) : Input → Device
  | .confirm tm => (d.sleepAfter int tm).1
  | .reboot => d.boot

/-- The stored value is the timeout of the watchdog, from 1 to 14400 minutes. -/
structure Usable (d : Device) : Prop where
  stored : d.getSleepTime = .ok d.swdt.timeoutMs
  lower : 60000 ≤ d.swdt.timeoutMs
  upper : d.swdt.timeoutMs ≤ 864000000

/-- The setting is usable after the step, and an answer that refuses the text leaves both values. -/
def StaysUsable (int : List Char → Except Raised Int) (d : Device) : Input → Prop
  | .confirm tm => Usable (d.sleepAfter int tm).1 ∧
      ((d.sleepAfter int tm).2 ≠ .updatedSuccessfully →
        (d.sleepAfter int tm).1.getSleepTime = d.getSleepTime ∧
          (d.sleepAfter int tm).1.swdt.timeoutMs = d.swdt.timeoutMs)
  | .reboot => Usable d.boot

/-! ### One step -/

variable {d : Device}

theorem filter_updateSleepTime (db : List Setting) (time : Int) :
    (db.map fun doc => if doc.isTimer then { doc with value := time } else doc).filter Setting.isTimer =
      (db.filter Setting.isTimer).map fun doc => { doc with value := time } := by
  induction db with
  | nil => rfl
  | cons doc db ih =>
      by_cases hdoc : doc.isTimer = true
      · have hdoc' : Setting.isTimer { doc with value := time } = true := hdoc
        rw [List.map_cons, if_pos hdoc, List.filter_cons_of_pos hdoc', List.filter_cons_of_pos hdoc,
          List.map_cons, ih]
      · rw [List.map_cons, if_neg hdoc, List.filter_cons_of_neg hdoc, List.filter_cons_of_neg hdoc, ih]

/-- A value that is written is the one read afterwards. -/
theorem getSleepTime_updateSleepTime {value : Int} (h : d.getSleepTime = .ok value) (time : Int) :
    (d.updateSleepTime time).1.getSleepTime = .ok time := by
  unfold Device.getSleepTime at h ⊢
  change (match List.filter Setting.isTimer (d.db.map _) with
    | [] => _
    | doc :: _ => _) = _
  rw [filter_updateSleepTime]
  cases hdocs : d.db.filter Setting.isTimer with
  | nil =>
      rw [hdocs] at h
      cases h
  | cons doc docs => rfl

theorem timeoutMs_startTimer (w : SoftWatchdog) : w.startTimer.1.timeoutMs = w.timeoutMs := by
  unfold SoftWatchdog.startTimer
  split_ifs <;> rfl

/-- The timeout is set, whether or not the timer accepts it. -/
theorem timeoutMs_updateSleepTime (d : Device) (time : Int) :
    (d.updateSleepTime time).1.swdt.timeoutMs = time :=
  timeoutMs_startTimer _

theorem updateSleepTime_of_fits {time : Int} (h : Fits time) : (d.updateSleepTime time).2 = .ok () := by
  change (SoftWatchdog.startTimer _).2 = _
  rw [SoftWatchdog.startTimer, if_pos h]

/-- A number up to the maximum is written, whatever the answer. -/
theorem sleepAfter_of_le (int : List Char → Except Raised Int) {tm : List Char} {n : Int}
    (hparse : int tm = .ok n) (hle : n ≤ 14400) :
    (d.sleepAfter int tm).1 = (d.updateSleepTime (n * 60000)).1 := by
  unfold Device.sleepAfter
  rw [hparse]
  change (if n ≤ 14400 then _ else _ : Device × Answer).1 = _
  rw [if_pos hle]
  rcases d.updateSleepTime (n * 60000) with ⟨d', result⟩
  cases result with
  | error e => rfl
  | ok u =>
      cases hget : d'.getSleepTime with
      | error e => simp only [hget]
      | ok value => simp only [hget]

/-- A number that fits and is read back is answered with success. -/
theorem sleepAfter_answer (int : List Char → Except Raised Int) (h : Usable d) {tm : List Char} {n : Int}
    (hparse : int tm = .ok n) (hle : n ≤ 14400) (hfits : Fits (n * 60000)) :
    (d.sleepAfter int tm).2 = .updatedSuccessfully := by
  have hget := getSleepTime_updateSleepTime h.stored (n * 60000)
  have hresult := updateSleepTime_of_fits (d := d) hfits
  unfold Device.sleepAfter
  rw [hparse]
  change (if n ≤ 14400 then _ else _ : Device × Answer).2 = _
  rw [if_pos hle]
  generalize d.updateSleepTime (n * 60000) = r at hget hresult
  obtain ⟨d', result⟩ := r
  dsimp only at hget hresult
  subst hresult
  simp only [hget]

/-- The boot takes over the stored value. -/
theorem usable_boot (h : Usable d) : Usable d.boot := by
  have hboot : d.boot = { d with swdt := (SoftWatchdog.init d.swdt.timeoutMs).1 } := by
    rw [Device.boot, h.stored]
  have htimeout : d.boot.swdt.timeoutMs = d.swdt.timeoutMs := by
    rw [hboot]
    exact timeoutMs_startTimer _
  refine ⟨?_, by rw [htimeout]; exact h.lower, by rw [htimeout]; exact h.upper⟩
  rw [htimeout, hboot]
  exact h.stored

/-- A step keeps the setting usable exactly when the text is not a number below 1. -/
theorem staysUsable_iff (int : List Char → Except Raised Int) (h : Usable d) (input : Input) :
    StaysUsable int d input ↔ ∀ tm n, input = .confirm tm → int tm = .ok n → 0 < n := by
  cases input with
  | reboot => exact iff_of_true (usable_boot h) nofun
  | confirm tm =>
      constructor
      · rintro ⟨husable, -⟩ tm' n htm hparse
        cases htm
        by_contra hpos
        have hlower := husable.lower
        rw [sleepAfter_of_le int hparse (by omega), timeoutMs_updateSleepTime] at hlower
        omega
      · intro hpos
        cases hparse : int tm with
        | error e =>
            have heq : d.sleepAfter int tm = (d, .wrongInput) := by
              rw [Device.sleepAfter, hparse]
            rw [StaysUsable, heq]
            exact ⟨h, fun _ => ⟨rfl, rfl⟩⟩
        | ok n =>
            have hn := hpos tm n rfl hparse
            by_cases hle : n ≤ 14400
            · have hanswer := sleepAfter_answer int h hparse hle ⟨by omega, by omega⟩
              rw [StaysUsable, hanswer, sleepAfter_of_le int hparse hle]
              refine ⟨⟨?_, ?_, ?_⟩, fun hne => absurd rfl hne⟩
              · rw [timeoutMs_updateSleepTime]
                exact getSleepTime_updateSleepTime h.stored _
              · rw [timeoutMs_updateSleepTime]
                omega
              · rw [timeoutMs_updateSleepTime]
                omega
            · have heq : d.sleepAfter int tm = (d, .maximumIs14400) := by
                rw [Device.sleepAfter, hparse]
                exact if_neg hle
              rw [StaysUsable, heq]
              exact ⟨h, fun _ => ⟨rfl, rfl⟩⟩

/-! ### Sequences of texts -/

/-- For every sequence of confirmed texts and boots from a usable setting, the stored value and the timeout
stay equal and in range and a refused text changes neither, exactly when no confirmed text is a number
below 1. -/
theorem sleep_setting_usable_iff (int : List Char → Except Raised Int) (d : Device) (h : Usable d)
    (inputs : List Input) :
    Each (step int) (StaysUsable int) d inputs ↔
      ∀ tm n, .confirm tm ∈ inputs → int tm = .ok n → 0 < n := by
  have hkeep : ∀ d input, Usable d → (∀ tm n, input = .confirm tm → int tm = .ok n → 0 < n) →
      Usable (step int d input) := by
    intro d input hd hpos
    have hstays := (staysUsable_iff int hd input).mpr hpos
    cases input with
    | confirm tm => exact hstays.1
    | reboot => exact hstays
  rw [each_iff (fun d input hd => staysUsable_iff int hd input) hkeep h inputs, each_iff_forall_mem]
  constructor
  · intro hall tm n hmem
    exact hall _ hmem tm n rfl
  · rintro hall input hmem tm n rfl
    exact hall tm n hmem

def intOf (text : List Char) : Except Raised Int :=
  match Py.int text with
  | some n => .ok n
  | none => .error .valueError

/-- `db/settings.json` as it is delivered, after a boot. -/
def delivered : Device := ⟨[⟨"sleep_timer".toList, 60000000⟩], ⟨60000000, some 60000000⟩⟩

/-- A number in range, one above the maximum, no number, and a boot. -/
theorem sleep_setting_usable_delivered :
    Usable delivered ∧ Each (step intOf) (StaysUsable intOf) delivered
      [.confirm "30 ".toList, .confirm "14401 ".toList, .reboot, .confirm "1a ".toList] := by
  have husable : Usable delivered := ⟨by decide +kernel, by decide, by decide⟩
  refine ⟨husable, (sleep_setting_usable_iff intOf delivered husable _).mpr ?_⟩
  have hparse : ∀ tm ∈ ["30 ".toList, "14401 ".toList, "1a ".toList],
      intOf tm ∈ [.ok 30, .ok 14401, .error .valueError] := by decide +kernel
  intro tm n hmem hn
  have hmem' : tm ∈ ["30 ".toList, "14401 ".toList, "1a ".toList] := by simpa using hmem
  have hn' := hparse tm hmem'
  rw [hn] at hn'
  have hcases : n = 30 ∨ n = 14401 := by simpa using hn'
  omega

/-- Zero minutes are stored as such; a number below the range of the timer is refused, but stored too. -/
theorem sleep_setting_below_one :
    ¬ Each (step intOf) (StaysUsable intOf) delivered [.confirm "0 ".toList] ∧
      ¬ Each (step intOf) (StaysUsable intOf) delivered [.confirm "-100000 ".toList] ∧
      (delivered.sleepAfter intOf "-100000 ".toList).2 = .wrongInput := by
  refine ⟨fun h => ?_, fun h => ?_, by decide +kernel⟩
  · have hlower := (h [] (.confirm "0 ".toList) (List.prefix_refl _)).1.lower
    revert hlower
    decide +kernel
  · have hlower := (h [] (.confirm "-100000 ".toList) (List.prefix_refl _)).1.lower
    revert hlower
    decide +kernel

end CalSci.Sleep
