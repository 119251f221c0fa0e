import Burst.InFlightAccounting
import Burst.Lib.FailFast

namespace Burst

open Transition InFlight

namespace DownloadCoordinator

variable {cfg : ConcurrentExtraction} {s t : DownloadCoordinator}

/-- The requests that are being started. -/
def beingStarted (s : DownloadCoordinator) : ℕ := s.main.starting.length + s.downloads.launching.length

/-- After an error no action decides to start a request. -/
def StartsNone (cfg : ConcurrentExtraction) (s : DownloadCoordinator) (a : DownloadAction) : Prop :=
  s.cancelRequested = true → ∀ t, step cfg s a = some t → t.beingStarted ≤ s.beingStarted

/-- After an error the main thread is not at its start loop with room and with parts left. -/
def LeavesLoop (cfg : ConcurrentExtraction) (s : DownloadCoordinator) (a : DownloadAction) : Prop :=
  a = .mainSection → ∀ partIdx, s.main = .startLoop partIdx → s.cancelRequested = true →
    ¬ (s.partsInFlight < cfg.maxConcurrent ∧ partIdx < cfg.numParts ∧
      skipBodyParts cfg (cfg.numParts - partIdx) partIdx < cfg.numParts)

instance decidableLeavesLoop (cfg : ConcurrentExtraction) (s : DownloadCoordinator) :
    DecidablePred (LeavesLoop cfg s) := fun a ↦
  match hs : s.main with
  | .startLoop partIdx => decidable_of_iff (a = .mainSection → s.cancelRequested = true →
      ¬ (s.partsInFlight < cfg.maxConcurrent ∧ partIdx < cfg.numParts ∧
        skipBodyParts cfg (cfg.numParts - partIdx) partIdx < cfg.numParts)) (by simp [LeavesLoop, hs])
  | .launching _ => isTrue (by simp [LeavesLoop, hs])
  | .launchFailed _ => isTrue (by simp [LeavesLoop, hs])
  | .waiting => isTrue (by simp [LeavesLoop, hs])
  | .bodyLoop _ => isTrue (by simp [LeavesLoop, hs])
  | .returned _ => isTrue (by simp [LeavesLoop, hs])

/-- A wake-up without a notification. -/
def Spurious (s : DownloadCoordinator) (a : DownloadAction) : Prop := a = .wake ∧ s.notified = false

instance (s : DownloadCoordinator) (a : DownloadAction) : Decidable (Spurious s a) :=
  inferInstanceAs (Decidable (_ ∧ _))

/-- The function has returned an error. -/
def Failed (s : DownloadCoordinator) : Prop := ∃ result, s.main = .returned result ∧ result ≠ 0

theorem dispatcher_beingStarted (s : DownloadCoordinator) : s.dispatcher.beingStarted = s.beingStarted := by
  rw [Dispatcher.beingStarted, beingStarted, ← ExtractThread.starting_length]
  rfl

theorem spurious_iff (a : DownloadAction) : s.dispatcher.Spurious a.event ↔ Spurious s a := by
  cases a with
  | wake => exact ⟨fun h ↦ ⟨rfl, h.2⟩, fun h ↦ ⟨rfl, h.2⟩⟩
  | _ => exact ⟨nofun, nofun⟩

theorem startLoopSection_cancelled {partIdx : ℕ} (hleaves : ¬ (s.partsInFlight < cfg.maxConcurrent ∧
    partIdx < cfg.numParts ∧ skipBodyParts cfg (cfg.numParts - partIdx) partIdx < cfg.numParts)) :
    startLoopSection cfg s partIdx = waitForDownloads cfg s := by
  rw [startLoopSection]
  split
  · next hroom =>
    dsimp only
    rw [if_pos (not_lt.mp fun hless ↦ hleaves ⟨hroom.1, hroom.2, hless⟩)]
  · rfl

/-- The code starts a request after an error exactly at the start loop of the main thread. -/
theorem startsNone_iff (a : DownloadAction) : StartsNone cfg s a ↔ LeavesLoop cfg s a := by
  constructor
  · rintro hnone rfl partIdx hs hcancel ⟨hroom, hparts, hleft⟩
    have hstarted := hnone hcancel (startLoopSection cfg s partIdx) (by rw [step, hs])
    rw [startLoopSection, if_pos ⟨hroom, hparts⟩] at hstarted
    dsimp only at hstarted
    rw [if_neg (not_le.mpr hleft)] at hstarted
    simp [beingStarted, hs, ExtractThread.starting] at hstarted
  · intro hleaves hcancel t hstep
    rw [← dispatcher_beingStarted, ← dispatcher_beingStarted]
    apply Dispatcher.step_startsNone (step_moves hstep) hcancel
    intro hevent hphase item
    cases a with
    | mainSection =>
      obtain ⟨partIdx, hs⟩ := ExtractThread.phase_eq_startLoop.mp hphase
      rw [step, hs] at hstep
      cases hstep
      rw [startLoopSection_cancelled (hleaves rfl partIdx hs hcancel)]
      exact Dispatcher.not_launching_of_waits (waits_waitForDownloads cfg s) item
    | _ => cases hevent

/-- After an error the function has not returned success and comes to return an error. -/
def EndsInError (cfg : ConcurrentExtraction) (s : DownloadCoordinator) : Prop :=
  s.cancelRequested = true → (∀ result, s.main = .returned result → result ≠ 0) ∧
    LeadsTo (step cfg) (LeavesLoop cfg) Spurious Failed s

theorem run_keepsError {actions : List DownloadAction} (hrun : run (step cfg) init actions = some s) :
    s.gauge.Sound cfg.maxConcurrent ∧ s.dispatcher.KeepsError := by
  have hinit : init.dispatcher.gauge.Sound cfg.maxConcurrent ∧ init.dispatcher.KeepsError :=
    ⟨.of_running rfl (Nat.zero_le _) rfl, nofun, nofun, nofun⟩
  have hkeeps := (implements_dispatcher cfg).run_keeps hinit hrun
  rwa [dispatcher_gauge] at hkeeps

theorem run_endsInError {actions : List DownloadAction} (hrun : run (step cfg) init actions = some s) :
    EndsInError cfg s := by
  have hkeeps := run_keepsError hrun
  rw [← dispatcher_gauge] at hkeeps
  intro hcancel
  constructor
  · intro result hresult
    exact (hkeeps.2.returned result (ExtractThread.phase_eq_returned.mpr hresult)).2 hcancel
  · apply (implements_dispatcher cfg).leadsTo_failed _ _ _ hkeeps hcancel
    · intro s a t hleaves hcancel hstep
      rw [dispatcher_beingStarted, dispatcher_beingStarted]
      exact (startsNone_iff a).mpr hleaves hcancel t hstep
    · intro s a
      exact spurious_iff a
    · intro s hfailed
      obtain ⟨result, hresult, hne⟩ := hfailed
      exact ⟨result, ExtractThread.phase_eq_returned.mp hresult, hne⟩

theorem meets_startsNone_iff (s : DownloadCoordinator) (actions : List DownloadAction) :
    Meets (step cfg) (StartsNone cfg) s actions ↔ Meets (step cfg) (LeavesLoop cfg) s actions :=
  Meets.congr fun _ a ↦ startsNone_iff a

end DownloadCoordinator

end Burst
