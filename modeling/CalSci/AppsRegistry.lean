import CalSci.AppsModel
import CalSci.Runs
import Mathlib.Data.List.Nodup

/-! The registry of apps against a list of pairs. `insert_new_app` and `delete_app` look the app up in the
default group but write and remove in the group they are given, so that they keep to the list of pairs
exactly as long as the two groups agree about the app. -/

namespace CalSci

open Runs

inductive AppsCall where
  | insertNewApp (appName groupName : List Char)
  | deleteApp (appName groupName : List Char)
  | getGroupApps (groupName : List Char)
  deriving DecidableEq, Repr

inductive AppsAnswer where
  | done (b : Bool)
  | names (l : List (List Char))
  deriving DecidableEq, Repr

def Apps.call (a : Apps) : AppsCall → AppsAnswer × Apps
  | .insertNewApp appName groupName =>
      ((.done (a.insertNewApp appName groupName).1), (a.insertNewApp appName groupName).2)
  | .deleteApp appName groupName =>
      ((.done (a.deleteApp appName groupName).1), (a.deleteApp appName groupName).2)
  | .getGroupApps groupName =>
      ((.names (a.getGroupApps groupName).1), (a.getGroupApps groupName).2)

/-- What the registry is for: the pairs inserted and not deleted, each once. -/
def registryCall (pairs : List AppDoc) : AppsCall → AppsAnswer × List AppDoc
  | .insertNewApp appName groupName =>
      if ⟨appName, groupName⟩ ∈ pairs then (.done false, pairs)
      else (.done true, pairs ++ [⟨appName, groupName⟩])
  | .deleteApp appName groupName =>
      if ⟨appName, groupName⟩ ∈ pairs then
        (.done true, pairs.filter fun pair => pair ≠ ⟨appName, groupName⟩)
      else (.done false, pairs)
  | .getGroupApps groupName =>
      (.names ((pairs.filter fun pair => pair.groupName = groupName).map AppDoc.appName), pairs)

/-- The same call on the object and on the list of pairs. -/
def registryStep (s : Apps × List AppDoc) (c : AppsCall) : Apps × List AppDoc :=
  ((s.1.call c).2, (registryCall s.2 c).2)

/-- The call returns what the list of pairs says, and leaves in the file the same pairs, each once. -/
def RegistryRight (s : Apps × List AppDoc) (c : AppsCall) : Prop :=
  (s.1.call c).1 = (registryCall s.2 c).1 ∧ (s.1.call c).2.file = (registryCall s.2 c).2 ∧
    (s.1.call c).2.file.Nodup

/-- The app is in the group it is to be inserted in or deleted from exactly when it is in the default
group. -/
def SamePresence (file : List AppDoc) : AppsCall → Prop
  | .insertNewApp appName groupName | .deleteApp appName groupName =>
      ((⟨appName, groupName⟩ : AppDoc) ∈ file ↔ (⟨appName, installedGroup⟩ : AppDoc) ∈ file)
  | .getGroupApps _ => True

instance (file : List AppDoc) : (c : AppsCall) → Decidable (SamePresence file c)
  | .insertNewApp _ _ => inferInstanceAs (Decidable (_ ↔ _))
  | .deleteApp _ _ => inferInstanceAs (Decidable (_ ↔ _))
  | .getGroupApps _ => inferInstanceAs (Decidable True)

/-- The object has a right cache, and the file holds the list of pairs. -/
structure RegistryInv (s : Apps × List AppDoc) : Prop where
  coherent : s.1.Coherent
  file : s.1.file = s.2
  nodup : s.2.Nodup

theorem nodup_registryCall {pairs : List AppDoc} (h : pairs.Nodup) (c : AppsCall) :
    (registryCall pairs c).2.Nodup := by
  cases c with
  | insertNewApp appName groupName =>
      by_cases hmem : (⟨appName, groupName⟩ : AppDoc) ∈ pairs
      · rw [registryCall, if_pos hmem]
        exact h
      · rw [registryCall, if_neg hmem]
        rw [← List.concat_eq_append]
        exact List.Nodup.concat hmem h
  | deleteApp appName groupName =>
      by_cases hmem : (⟨appName, groupName⟩ : AppDoc) ∈ pairs
      · rw [registryCall, if_pos hmem]
        exact h.filter _
      · rw [registryCall, if_neg hmem]
        exact h
  | getGroupApps groupName => exact h

/-- The document that `remove` drops is the pair. -/
theorem filter_not_isApp (file : List AppDoc) (appName groupName : List Char) :
    (file.filter fun doc => !(AppQuery.isApp appName groupName).holds doc) =
      file.filter fun pair => pair ≠ ⟨appName, groupName⟩ := by
  congr 1
  funext doc
  rw [Bool.eq_iff_iff]
  simp [← Apps.holds_isApp]

theorem coherent_call {a : Apps} (h : a.Coherent) (c : AppsCall) : (a.call c).2.Coherent := by
  cases c with
  | insertNewApp appName groupName =>
      by_cases hmem : (⟨appName, installedGroup⟩ : AppDoc) ∈ a.file
      · exact (Apps.insertNewApp_of_present h groupName hmem).2.2
      · exact (Apps.insertNewApp_of_absent h groupName hmem).2.2
  | deleteApp appName groupName =>
      by_cases hmem : (⟨appName, installedGroup⟩ : AppDoc) ∈ a.file
      · exact (Apps.deleteApp_of_present h groupName hmem).2.2
      · exact (Apps.deleteApp_of_absent h groupName hmem).2.2
  | getGroupApps groupName => exact (Apps.getGroupApps_spec h groupName).2.2

/-- What a call returns and leaves in the file, by the presence of the app in the default group. -/
theorem call_insertNewApp {a : Apps} (h : a.Coherent) (appName groupName : List Char) :
    (a.call (.insertNewApp appName groupName)).1 =
        .done (decide ((⟨appName, installedGroup⟩ : AppDoc) ∉ a.file)) ∧
      (a.call (.insertNewApp appName groupName)).2.file =
        if (⟨appName, installedGroup⟩ : AppDoc) ∈ a.file then a.file
        else a.file ++ [⟨appName, groupName⟩] := by
  by_cases hmem : (⟨appName, installedGroup⟩ : AppDoc) ∈ a.file
  · obtain ⟨hdone, hfile, -⟩ := Apps.insertNewApp_of_present h groupName hmem
    rw [if_pos hmem]
    refine ⟨congrArg AppsAnswer.done (hdone.trans ?_), hfile⟩
    exact (decide_eq_false (not_not.mpr hmem)).symm
  · obtain ⟨hdone, hfile, -⟩ := Apps.insertNewApp_of_absent h groupName hmem
    rw [if_neg hmem]
    exact ⟨congrArg AppsAnswer.done (hdone.trans (decide_eq_true hmem).symm), hfile⟩

theorem call_deleteApp {a : Apps} (h : a.Coherent) (appName groupName : List Char) :
    (a.call (.deleteApp appName groupName)).1 =
        .done (decide ((⟨appName, installedGroup⟩ : AppDoc) ∈ a.file)) ∧
      (a.call (.deleteApp appName groupName)).2.file =
        if (⟨appName, installedGroup⟩ : AppDoc) ∈ a.file then
          a.file.filter fun pair => pair ≠ ⟨appName, groupName⟩
        else a.file := by
  by_cases hmem : (⟨appName, installedGroup⟩ : AppDoc) ∈ a.file
  · obtain ⟨hdone, hfile, -⟩ := Apps.deleteApp_of_present h groupName hmem
    rw [if_pos hmem, ← filter_not_isApp]
    exact ⟨congrArg AppsAnswer.done (hdone.trans (decide_eq_true hmem).symm), hfile⟩
  · obtain ⟨hdone, hfile, -⟩ := Apps.deleteApp_of_absent h groupName hmem
    rw [if_neg hmem]
    exact ⟨congrArg AppsAnswer.done (hdone.trans (decide_eq_false hmem).symm), hfile⟩

/-- A call is right exactly when the two groups agree about the app. -/
theorem registryRight_iff {s : Apps × List AppDoc} (h : RegistryInv s) (c : AppsCall) :
    RegistryRight s c ↔ SamePresence s.1.file c := by
  obtain ⟨a, pairs⟩ := s
  obtain ⟨hcoherent, hpairs, hnodup⟩ := h
  dsimp only at hcoherent hpairs hnodup
  subst hpairs
  have hnodup' := nodup_registryCall hnodup c
  cases c with
  | insertNewApp appName groupName =>
      obtain ⟨hanswer, hfile⟩ := call_insertNewApp hcoherent appName groupName
      simp only [RegistryRight, SamePresence, hanswer, hfile]
      rw [registryCall] at hnodup' ⊢
      by_cases hmem : (⟨appName, groupName⟩ : AppDoc) ∈ a.file
      · rw [if_pos hmem]
        simp only [hmem, true_iff, AppsAnswer.done.injEq, decide_eq_false_iff_not, not_not]
        exact and_iff_left_of_imp fun hdefault => ⟨if_pos hdefault, by rwa [if_pos hdefault]⟩
      · rw [if_neg hmem] at hnodup' ⊢
        simp only [hmem, false_iff, AppsAnswer.done.injEq, decide_eq_true_eq]
        exact and_iff_left_of_imp fun hdefault => ⟨if_neg hdefault, by rwa [if_neg hdefault]⟩
  | deleteApp appName groupName =>
      obtain ⟨hanswer, hfile⟩ := call_deleteApp hcoherent appName groupName
      simp only [RegistryRight, SamePresence, hanswer, hfile]
      rw [registryCall] at hnodup' ⊢
      by_cases hmem : (⟨appName, groupName⟩ : AppDoc) ∈ a.file
      · rw [if_pos hmem] at hnodup' ⊢
        simp only [hmem, true_iff, AppsAnswer.done.injEq, decide_eq_true_eq]
        exact and_iff_left_of_imp fun hdefault => ⟨if_pos hdefault, by rwa [if_pos hdefault]⟩
      · rw [if_neg hmem]
        simp only [hmem, false_iff, AppsAnswer.done.injEq, decide_eq_false_iff_not]
        exact and_iff_left_of_imp fun hdefault => ⟨if_neg hdefault, by rwa [if_neg hdefault]⟩
  | getGroupApps groupName =>
      obtain ⟨hnames, hfile, -⟩ := Apps.getGroupApps_spec hcoherent groupName
      refine ⟨fun _ => trivial, fun _ => ⟨congrArg AppsAnswer.names hnames, hfile, ?_⟩⟩
      change (a.getGroupApps groupName).2.file.Nodup
      rw [hfile]
      exact hnodup

/-- For every sequence of calls on an empty database, the calls answer and store as the list of pairs
exactly when each app that is inserted or deleted is in its group just if it is in the default group. -/
theorem registry_right_iff (calls : List AppsCall) :
    Each registryStep RegistryRight (Apps.init [], []) calls ↔
      Each registryStep (fun s c => SamePresence s.1.file c) (Apps.init [], []) calls := by
  have hkeep : ∀ s c, RegistryInv s → SamePresence s.1.file c → RegistryInv (registryStep s c) := by
    intro s c h hsame
    obtain ⟨-, hfile, -⟩ := (registryRight_iff h c).mpr hsame
    exact ⟨coherent_call h.coherent c, hfile, nodup_registryCall h.nodup c⟩
  exact each_iff (fun s c h => registryRight_iff h c) hkeep ⟨Apps.coherent_init [], rfl, List.nodup_nil⟩ calls

/-- An app of the default group cannot be inserted in another one. -/
theorem registry_other_group :
    ¬ Each registryStep RegistryRight (Apps.init [], [])
      [.insertNewApp "clock".toList "installed_apps".toList,
        .insertNewApp "clock".toList "games".toList] := by
  intro h
  have hlast := h [.insertNewApp "clock".toList "installed_apps".toList] _ (List.prefix_refl _)
  exact absurd hlast.1 (by decide +kernel)

end CalSci
