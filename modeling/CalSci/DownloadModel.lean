import CalSci.AppsModel
import CalSci.MenuModel
import CalSci.Runs
import Mathlib.Data.List.AList

/-! `download_updates` of `apps/settings/download_updates.py` with the `App_downloader` it creates. A
session takes one key at a time; every operation it runs is recorded, with what came of it, and what
the server and the file system answer to it is part of the input. -/

namespace CalSci

namespace Download

/-- The entries of `operations`, in the order of the list. -/
inductive Operation where
  | checkStatus
  | downloadApp
  | updateAppList
  | sendConfirmation
  | reset
  deriving DecidableEq, Repr

def operations : List Operation :=
  [.checkStatus, .downloadApp, .updateAppList, .sendConfirmation, .reset]

def screens : List (List (List Char)) :=
  [["check_updates".toList], ["download_app".toList], ["update_app_list".toList],
    ["send_confirmation".toList], ["reset".toList]]

/-- The contents of `/apps/installed_apps`, by the name of the app. -/
abbrev Files := AList fun _ : List Char => List Char

/-- What comes of the request for an app. -/
inductive Pending where
  /-- The request raises, or its reply has no `app_name`. -/
  | raises
  /-- The file cannot be opened. -/
  | unopened (appName : List Char)
  /-- The reply has no `code`, or writing it raises: `written` is what is then in the file. -/
  | unwritten (appName written : List Char)
  | saved (appName code : List Char)
  deriving DecidableEq, Repr

/-- What the server answers to the operation run by a key, if it runs one: the text of `response`
(nothing when the request raises), the app, and whether the confirmation returns. -/
structure Reply where
  status : Option (List Char)
  pending : Pending
  confirmed : Bool
  deriving DecidableEq, Repr

/-- An operation that was run: whether there are updates, the app and the code saved, the name listed,
whether the confirmation was answered. Nothing, or `false`, is recorded when the operation raised. -/
inductive Event where
  | checkStatus (updates : Option Bool)
  | downloadApp (saved : Option (List Char × List Char))
  | updateAppList (appName : List Char)
  | sendConfirmation (answered : Bool)
  | reset
  deriving DecidableEq, Repr

def Event.operation : Event → Operation
  | .checkStatus _ => .checkStatus
  | .downloadApp _ => .downloadApp
  | .updateAppList _ => .updateAppList
  | .sendConfirmation _ => .sendConfirmation
  | .reset => .reset

/-- How the call of an operation ends; `machine.reset()` does not return. -/
inductive Outcome where
  | raised
  | returned (r : Bool)
  | stopped
  deriving DecidableEq, Repr

/-- How a session ends: back in the settings, in deep sleep, or with a restart. -/
inductive Exit where
  | left
  | asleep
  | restarting
  deriving DecidableEq, Repr

/-- A session: the counter, the attributes of its `App_downloader`, the files, the menu, and the record of
what was run. -/
structure Session where
  operationNo : Int
  apps : Apps
  appName : List Char
  files : Files
  pane : MenuPane
  trace : List Event
  exit : Option Exit

namespace Session

def record (s : Session) (e : Event) : Session := { s with trace := s.trace ++ [e] }

def checkStatus (s : Session) (reply : Reply) : Session × Outcome :=
  match reply.status with
  | none => (s.record (.checkStatus none), .raised)
  | some response =>
      let updates : Bool := response = "true".toList
      (s.record (.checkStatus (some updates)), .returned updates)

/-- `download_app`: `app_name` is set from the reply before the file is opened. -/
def downloadApp (s : Session) (reply : Reply) : Session × Outcome :=
  match reply.pending with
  | .raises => (s.record (.downloadApp none), .raised)
  | .unopened appName => ({ s with appName }.record (.downloadApp none), .raised)
  | .unwritten appName written =>
      ({ s with appName, files := s.files.insert appName written }.record (.downloadApp none), .raised)
  | .saved appName code =>
      ({ s with appName, files := s.files.insert appName code }.record
        (.downloadApp (some (appName, code))), .returned true)

def updateAppList (s : Session) : Session × Outcome :=
  ({ s with apps := (s.apps.insertNewApp s.appName).2 }.record (.updateAppList s.appName),
    .returned true)

def sendConfirmation (s : Session) (reply : Reply) : Session × Outcome :=
  (s.record (.sendConfirmation reply.confirmed), if reply.confirmed then .returned true else .raised)

def reset (s : Session) : Session × Outcome := (s.record .reset, .stopped)

/-- `operations[operation_no]()`. -/
def perform (s : Session) (reply : Reply) : Operation → Session × Outcome
  | .checkStatus => s.checkStatus reply
  | .downloadApp => s.downloadApp reply
  | .updateAppList => s.updateAppList
  | .sendConfirmation => s.sendConfirmation reply
  | .reset => s.reset

/-- The end of the loop body: `menu.update_buffer(inp_menu)` and a redraw. -/
def redraw (s : Session) (inp : List Char) : Except Py.Err Session := do
  let pane ← s.pane.press (Key.ofText inp)
  pure { s with pane }

def close (s : Session) (exit : Exit) : Session := { s with exit := some exit }

/-- After an operation that returned: the next screen. -/
def advance (s : Session) (inp : List Char) : Except Py.Err Session := do
  let s := { s with operationNo := s.operationNo + 1 }
  let screen ← Py.item screens s.operationNo
  let pane ← s.pane.assign screen
  redraw { s with pane } inp

/-- What the branch of `ok` does with the end of the operation: the `except` clause, the test of the
check, or the next screen. -/
def settle (inp : List Char) : Session × Outcome → Except Py.Err Session
  | (s, .raised) => pure (s.close .left)
  | (s, .stopped) => pure (s.close .restarting)
  | (s, .returned r) =>
      if s.operationNo = 0 ∧ r = false then pure (s.close .left) else s.advance inp

/-- The branch of `ok`. The index into `operations` is inside the `try`. -/
def confirm (s : Session) (inp : List Char) (reply : Reply) : Except Py.Err Session :=
  if s.operationNo = 5 then pure (s.close .left)
  else match Py.item operations s.operationNo with
    | .error _ => pure (s.close .left)
    | .ok operation => settle inp (s.perform reply operation)

/-- One key of the loop. A session that is over takes no more keys. -/
def step (s : Session) (input : List Char × Reply) : Except Py.Err Session :=
  let inp := input.1
  if s.exit.isSome then pure s
  else if inp = "back".toList then pure (s.close .left)
  else if inp = "alpha".toList ∨ inp = "beta".toList then
    redraw { s with pane := (s.pane.1.updateBuffer (Key.ofText []), s.pane.2) } inp
  else if inp = "off".toList then pure (s.close .asleep)
  else if inp = "ok".toList then s.confirm inp input.2
  else s.redraw inp

end Session

/-- The start of a session, on the files and the registry of the device, with a new `App_downloader`. -/
def start (files : Files) (registry : List AppDoc) (pane : MenuPane) : Except Py.Err Session := do
  let screen ← Py.item screens 0
  let pane ← pane.clear.assign screen
  pure
    { operationNo := 0
      apps := Apps.init registry
      appName := []
      files, pane
      trace := []
      exit := none }

/-- `download_updates`: the session after a sequence of keys. -/
def downloadUpdates (files : Files) (registry : List AppDoc) (pane : MenuPane)
    (inputs : List (List Char × Reply)) : Except Py.Err Session := do
  let s ← start files registry pane
  Runs.run Session.step s inputs

end Download

end CalSci
