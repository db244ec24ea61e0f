import CalSci.FormModel
import CalSci.MenuModel

/-! The Wi-Fi apps: the start of `boot.py`, and `wifi_app`, `wifi_connector` and `network_status` of
`apps/settings`. They share the station, `db/wifi.json` and the two entries `ssid_g` and
`connection_status_g` of `data_bucket`. -/

namespace CalSci.Wifi

/-- The station: the network it is associated with, and an attempt that is under way, with the number of
queries that still report no association. The calls of `connect` are recorded. -/
structure Station where
  associated : Option (List Char)
  attempt : Option (List Char × Nat)
  calls : List (List Char × List Char)
  deriving DecidableEq, Repr

namespace Station

/-- Time passes, as long as `n` queries take. The station goes on with an attempt until it associates, is told to
disconnect or is given another network. -/
def pass (st : Station) (n : Nat) : Station :=
  match st.associated, st.attempt with
  | none, some (ssid, m) =>
      if m < n then { st with associated := some ssid, attempt := none } else { st with attempt := some (ssid, m - n) }
  | _, _ => st

def isconnected (st : Station) : Bool × Station := ((st.pass 1).associated.isSome, st.pass 1)

/-- `connect(ssid, password)`, which associates at the query `delay` after it, or never. -/
def connect (st : Station) (ssid password : List Char) (delay : Option Nat) : Station :=
  { st with attempt := delay.map fun n => (ssid, n), calls := st.calls ++ [(ssid, password)] }

def disconnect (st : Station) : Station := { st with associated := none, attempt := none }

/-- `for retry in range(n)` with a `break` at the first query that reports an association. -/
def poll (st : Station) : Nat → Bool × Station
  | 0 => (false, st)
  | n + 1 => if st.isconnected.1 then (true, st.isconnected.2) else st.isconnected.2.poll n

end Station

/-- An entry of `db/wifi.json`. -/
structure Credential where
  ssid : List Char
  password : List Char
  deriving DecidableEq, Repr

/-- `update_wifi_credentials` on the list in the file: the first entry with the name, or a new one. -/
def updateWifiCredentials (ssid password : List Char) : List Credential → List Credential
  | [] => [⟨ssid, password⟩]
  | cred :: data =>
      if cred.ssid = ssid then { cred with password } :: data
      else cred :: updateWifiCredentials ssid password data

/-- The form object and what is on the screen. -/
abbrev FormPane := Form × RowScreen.Screen Form.Cell

/-- What the apps share. The device is off after a deep sleep, and after an exception that nothing
catches. The runs of `update_wifi_credentials` are recorded. -/
structure Device where
  on : Bool
  station : Station
  ssidG : List Char
  connectionStatusG : Bool
  wifiJson : List Credential
  form : FormPane
  saves : List (List Char × List Char)

namespace Device

def stop (d : Device) : Device := { d with on := false }

/-! ### wifi_connector -/

/-- The branch of `ok` after `do_connect`; what is shown on the screen is left out. -/
def finishConnect (d : Device) (ssid password : List Char) : Device :=
  let asked := d.station.isconnected
  let d := { d with station := asked.2, connectionStatusG := asked.1 }
  if asked.1 then
    { d with
      wifiJson := updateWifiCredentials ssid password d.wifiJson
      saves := d.saves ++ [(ssid, password)] }
  else d

/-- The branch of `ok`, with `do_connect`, which returns at once when the station is associated; `raises` says whether
`connect` does, which nothing catches. -/
def connectWith (d : Device) (ssid password : List Char) (raises : Bool) (delay : Option Nat) : Device :=
  let asked := d.station.isconnected
  if asked.1 then { d with station := asked.2 }.finishConnect ssid password
  else if raises then { d with station := asked.2 }.stop
  else { d with station := ((asked.2.connect ssid password delay).poll 100).2 }.finishConnect ssid password

end Device

/-- `form.update_buffer` and a redraw; `alpha` and `beta` give it the empty string. -/
def pressForm (form : FormPane) (inp : List Char) : Except Py.Err FormPane :=
  if inp = "alpha".toList ∨ inp = "beta".toList then Form.press form (Key.ofText [])
  else Form.press form (Key.ofText inp)

/-- How far the loop of `wifi_connector` has got: it waits for a key, was left, was stopped by `off` or by
an exception, or has a password to try. -/
inductive Entry where
  | waiting (form : FormPane)
  | left (form : FormPane)
  | stopped (form : FormPane)
  | confirmed (form : FormPane) (password : List Char)

/-- The loop of `wifi_connector` up to `ok`. The password is the field without its closing space. -/
def enterPassword (form : FormPane) : List (List Char) → Entry
  | [] => .waiting form
  | inp :: inputs =>
      if inp = "back".toList then .left form
      else if inp = "ok".toList then
        match form.1.inputList.get "inp_0".toList with
        | .error _ => .stopped form
        | .ok password => .confirmed form (Py.sliceTo password (-1))
      else if inp = "off".toList then .stopped form
      else match pressForm form inp with
        | .error _ => .stopped form
        | .ok form => enterPassword form inputs

namespace Device

/-- The form of `wifi_connector`, and its loop. -/
def entry (d : Device) (inputs : List (List Char)) : Entry :=
  let form := d.form.1.assign (AList.singleton "inp_0".toList " ".toList)
    ["Password:".toList, "inp_0".toList, "Wi-Fi Name:".toList, d.ssidG]
  match form.refresh Form.cleared with
  | .error _ => .stopped (form, Form.cleared)
  | .ok screen => enterPassword (form, screen) inputs

/-- `wifi_connector`, with the keys of the session, whether `connect` raises, and the query at which it associates. -/
def wifiConnector (d : Device) (inputs : List (List Char)) (raises : Bool) (delay : Option Nat) : Device :=
  match d.entry inputs with
  | .waiting form | .left form => { d with form }
  | .stopped form => { d with form }.stop
  | .confirmed form password => { d with form }.connectWith d.ssidG password raises delay

end Device

/-! ### wifi_app -/

/-- `utf8_check` of `py/unicode.c`: `need` more bytes of a character are to come. -/
def utf8Check (need : Nat) : List UInt8 → Bool
  | [] => need = 0
  | c :: p =>
      if need ≠ 0 then c &&& 0xc0 = 0x80 && utf8Check (need - 1) p
      else if c ≥ 0xc0 then c < 0xf8 && utf8Check (((0xe5 : UInt8) >>> ((c >>> 3) &&& 6)) &&& 3).toNat p
      else c < 0x80 && utf8Check 0 p

/-- `bytes.decode()`. How the characters of checked bytes are read is `chars`. -/
def decode (chars : List UInt8 → List Char) (bytes : List UInt8) : Except Py.Err (List Char) :=
  if utf8Check 0 bytes then .ok (chars bytes) else .error .unicodeError

def labels (ssids : List (List Char)) : List (List Char) :=
  ssids.mapIdx fun i ssid => (toString (i + 1)).toList ++ ". ".toList ++ ssid

/-- `scan_networks`, on the names that the radio reports. -/
def scanNetworks (chars : List UInt8 → List Char) (scan : List (List UInt8)) : Except Py.Err (List (List Char)) := do
  return labels (← scan.mapM (decode chars))

inductive Choice where
  | chosen (ssid : List Char)
  | left
  | asleep
  deriving DecidableEq, Repr

/-- A session of `wifi_app`. -/
structure Choosing where
  networkNames : List (List Char)
  pane : MenuPane
  choice : Option Choice

namespace Choosing

/-- The list shown: `network_names[:15] if len(network_names) >= 15 else network_names`. -/
def menuList (networkNames : List (List Char)) : List (List Char) :=
  if networkNames.length ≥ 15 then Py.sliceTo networkNames 15 else networkNames

/-- The start of `wifi_app`, with the names of a scan. -/
def start (chars : List UInt8 → List Char) (scan : List (List UInt8)) : Except Py.Err Choosing := do
  let pane ← MenuPane.boot.clear.assign ["Scanning...".toList]
  let networkNames ← scanNetworks chars scan
  let pane ← pane.assign (menuList networkNames)
  pure ⟨networkNames, pane, none⟩

/-- The end of the loop body: `menu.update_buffer(inp)` and a redraw. -/
def redraw (s : Choosing) (inp : List Char) : Except Py.Err Choosing := do
  let pane ← s.pane.press (Key.ofText inp)
  pure { s with pane }

/-- One key of the loop. `menu.cursor()` is the row of the selected entry on the screen. -/
def step (s : Choosing) (inp : List Char) : Except Py.Err Choosing :=
  if s.choice.isSome then pure s
  else if inp = "ok".toList then do
    let name ← Py.item s.networkNames s.pane.1.displayCursor
    pure { s with choice := some (.chosen (Py.sliceFrom name 3)) }
  else if inp = "back".toList then pure { s with choice := some .left }
  else if inp = "alpha".toList ∨ inp = "beta".toList then
    redraw { s with pane := (s.pane.1.updateBuffer (Key.ofText []), s.pane.2) } inp
  else if inp = "off".toList then pure { s with choice := some .asleep }
  else s.redraw inp

end Choosing

/-- `wifi_app`: the session after a sequence of keys. -/
def wifiApp (chars : List UInt8 → List Char) (scan : List (List UInt8)) (inputs : List (List Char)) :
    Except Py.Err Choosing := do
  let s ← Choosing.start chars scan
  Runs.run Choosing.step s inputs

/-! ### network_status -/

namespace Device

/-- The first row `network_status` shows. -/
def statusText (d : Device) : List Char :=
  if d.connectionStatusG then "Connected to ".toList ++ d.ssidG else "Not connected to internet.".toList

/-- The list `network_status` shows. -/
def statusList (d : Device) : List (List Char) :=
  if d.connectionStatusG then [d.statusText, "Disconnect?".toList] else [d.statusText]

def disconnectNetwork (d : Device) : Device :=
  { d with station := d.station.disconnect, connectionStatusG := false, ssidG := [] }

def statusLoop (d : Device) (pane : MenuPane) : List (List Char) → Device
  | [] => d
  | inp :: inputs =>
      if inp = "back".toList then d
      else if inp = "off".toList then d.stop
      else if inp = "ok".toList then
        match Py.item pane.1.menuList pane.1.menuCursor with
        | .error _ => d.stop
        | .ok entry => if entry = "Disconnect?".toList then d.disconnectNetwork else d
      else
        let pane : MenuPane :=
          if inp = "alpha".toList ∨ inp = "beta".toList then
            (pane.1.updateBuffer (Key.ofText []), pane.2)
          else pane
        match pane.press (Key.ofText inp) with
        | .error _ => d.stop
        | .ok pane => statusLoop d pane inputs

def networkStatus (d : Device) (inputs : List (List Char)) : Device :=
  match MenuPane.boot.clear.assign d.statusList with
  | .error _ => d.stop
  | .ok pane => d.statusLoop pane inputs

/-! ### boot.py -/

/-- The shared `Form()`. -/
def bootForm : FormPane :=
  (Form.init 7
    (((AList.singleton "inp_0".toList " ".toList).insert "inp_1".toList " ".toList).insert
      "inp_2".toList " ".toList)
    ["label_0".toList, "inp_0".toList, "label_1".toList, "inp_1".toList, "label_2".toList,
      "inp_2".toList], Form.cleared)

/-- The end of the `try`: the association is printed, then asked for again and recorded. -/
def recordStatus (d : Device) : Device :=
  let asked := d.station.isconnected.2.isconnected
  { d with station := asked.2, connectionStatusG := asked.1 }

/-- The query after the `try`, on which the receiver thread is started. -/
def askLast (d : Device) : Device := { d with station := d.station.isconnected.2 }

/-- The entry of `wifi.json` a boot tries: the first one whose name is in the scan. -/
def tried (d : Device) (available : List (List Char)) : Option Credential :=
  d.wifiJson.find? fun entry => entry.ssid ∈ available

/-- The attempt of a boot: the name is recorded while the association is polled. -/
def bootConnect (d : Device) (entry : Credential) (delay : Option Nat) : Device :=
  let polled := (d.station.connect entry.ssid entry.password delay).poll 100
  if polled.1 then { d with station := polled.2, ssidG := entry.ssid } else { d with station := polled.2 }

/-- A boot: the radio is switched off and on, `data_bucket` and the form are new. The scan is nothing when
it, decoding its names, or reading `wifi.json` raises; `raises` says whether `connect` does. -/
def boot (d : Device) (scan : Option (List (List Char))) (raises : Bool) (delay : Option Nat) : Device :=
  let d :=
    { d with
      on := true
      station := { d.station with associated := none, attempt := none }
      ssidG := []
      connectionStatusG := false
      form := bootForm }
  match scan with
  | none => d.askLast
  | some available =>
      match d.tried available with
      | none => d.recordStatus.askLast
      | some entry => if raises then d.askLast else (d.bootConnect entry delay).recordStatus.askLast

end Device

/-! ### Runs -/

/-- A session of one of the apps, a boot, or time between two of them, with everything that is outside the program. -/
inductive Act where
  | boot (scan : Option (List (List Char))) (raises : Bool) (delay : Option Nat)
  | wifiApp (scan : List (List UInt8)) (inputs : List (List Char))
  | wifiConnector (inputs : List (List Char)) (raises : Bool) (delay : Option Nat)
  | networkStatus (inputs : List (List Char))
  | wait (n : Nat)
  deriving DecidableEq, Repr

/-- `wifi_app` on the device: `ssid_g` is set when a network is chosen. -/
def Device.choose (chars : List UInt8 → List Char) (d : Device) (scan : List (List UInt8))
    (inputs : List (List Char)) : Device :=
  match Wifi.wifiApp chars scan inputs with
  | .error _ => d.stop
  | .ok s =>
      match s.choice with
      | some (.chosen ssid) => { d with ssidG := ssid }
      | some .asleep => d.stop
      | some .left | none => d

def Device.act (chars : List UInt8 → List Char) (d : Device) : Act → Device
  | .boot scan raises delay => d.boot scan raises delay
  | .wifiApp scan inputs => if d.on then d.choose chars scan inputs else d
  | .wifiConnector inputs raises delay => if d.on then d.wifiConnector inputs raises delay else d
  | .networkStatus inputs => if d.on then d.networkStatus inputs else d
  | .wait n => { d with station := d.station.pass n }

end CalSci.Wifi
