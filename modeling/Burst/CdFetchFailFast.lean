import Burst.InFlightAccounting
import Burst.Lib.FailFast

namespace Burst

open Transition InFlight

namespace CdFetchCoordinator

variable {cfg : CdRangeFetch} {s t : CdFetchCoordinator}

/-- The requests that are being started. -/
def beingStarted (s : CdFetchCoordinator) : ℕ := s.main.starting.length + s.fetches.launching.length

/-- After an error no action decides to start a request. -/
def StartsNone (cfg : CdRangeFetch) (s : CdFetchCoordinator) (a : CdFetchAction) : Prop :=
  s.cancelRequested = true → ∀ t, step cfg s a = some t → t.beingStarted ≤ s.beingStarted

/-- After an error the main thread is not at its start loop with room and with ranges left. -/
def LeavesLoop (cfg : CdRangeFetch) (s : CdFetchCoordinator) (a : CdFetchAction) : Prop :=
  a = .mainSection → s.main = .startLoop → s.cancelRequested = true →
    ¬ (s.rangesInFlight < cfg.maxConcurrent ∧ s.nextRangeToStart < cfg.totalRanges)

instance (cfg : CdRangeFetch) (s : CdFetchCoordinator) : DecidablePred (LeavesLoop cfg s) :=
  fun _ ↦ inferInstanceAs (Decidable (_ → _ → _ → ¬ _))

/-- A wake-up without a notification. -/
def Spurious (s : CdFetchCoordinator) (a : CdFetchAction) : Prop := a = .wake ∧ s.notified = false

instance (s : CdFetchCoordinator) (a : CdFetchAction) : Decidable (Spurious s a) :=
  inferInstanceAs (Decidable (_ ∧ _))

/-- The function has returned an error. -/
def Failed (s : CdFetchCoordinator) : Prop := ∃ result, s.main = .returned result ∧ result ≠ 0

theorem dispatcher_beingStarted (s : CdFetchCoordinator) : s.dispatcher.beingStarted = s.beingStarted := by
  rw [Dispatcher.beingStarted, beingStarted, ← CdFetchThread.starting_length]
  rfl

theorem spurious_iff (a : CdFetchAction) : s.dispatcher.Spurious a.event ↔ Spurious s a := by
  cases a with
  | wake => exact ⟨fun h ↦ ⟨rfl, h.2⟩, fun h ↦ ⟨rfl, h.2⟩⟩
  | _ => exact ⟨nofun, nofun⟩

/-- The code starts a request after an error exactly at the start loop of the main thread. -/
theorem startsNone_iff (a : CdFetchAction) : StartsNone cfg s a ↔ LeavesLoop cfg s a := by
  constructor
  · rintro hnone rfl hs hcancel hroom
    have hstarted := hnone hcancel (startLoopSection cfg s) (by rw [step, hs])
    rw [startLoopSection, if_pos hroom] at hstarted
    simp [beingStarted, hs, CdFetchThread.starting] at hstarted
  · intro hleaves hcancel t hstep
    rw [← dispatcher_beingStarted, ← dispatcher_beingStarted]
    apply Dispatcher.step_startsNone (step_moves hstep) hcancel
    intro hevent hphase item
    cases a with
    | mainSection =>
      have hs := CdFetchThread.phase_eq_startLoop.mp hphase
      rw [step, hs] at hstep
      cases hstep
      rw [startLoopSection, if_neg (hleaves rfl hs hcancel)]
      exact Dispatcher.not_launching_of_waits (waits_waitForRanges s) item
    | _ => cases hevent

/-- After an error the function has not returned success and comes to return an error. -/
def EndsInError (cfg : CdRangeFetch) (s : CdFetchCoordinator) : Prop :=
  s.cancelRequested = true → (∀ result, s.main = .returned result → result ≠ 0) ∧
    LeadsTo (step cfg) (LeavesLoop cfg) Spurious Failed s

theorem run_keepsError {actions : List CdFetchAction} (hrun : run (step cfg) init actions = some s) :
    s.gauge.Sound cfg.maxConcurrent ∧ s.dispatcher.KeepsError := by
  have hinit : init.dispatcher.gauge.Sound cfg.maxConcurrent ∧ init.dispatcher.KeepsError :=
    ⟨.of_running rfl (Nat.zero_le _) rfl, nofun, nofun, nofun⟩
  have hkeeps := (implements_dispatcher cfg).run_keeps hinit hrun
  rwa [dispatcher_gauge] at hkeeps

theorem run_endsInError {actions : List CdFetchAction} (hrun : run (step cfg) init actions = some s) :
    EndsInError cfg s := by
  have hkeeps := run_keepsError hrun
  rw [← dispatcher_gauge] at hkeeps
  intro hcancel
  constructor
  · intro result hresult
    exact (hkeeps.2.returned result (CdFetchThread.phase_eq_returned.mpr hresult)).2 hcancel
  · apply (implements_dispatcher cfg).leadsTo_failed _ _ _ hkeeps hcancel
    · intro s a t hleaves hcancel hstep
      rw [dispatcher_beingStarted, dispatcher_beingStarted]
      exact (startsNone_iff a).mpr hleaves hcancel t hstep
    · intro s a
      exact spurious_iff a
    · intro s hfailed
      obtain ⟨result, hresult, hne⟩ := hfailed
      exact ⟨result, CdFetchThread.phase_eq_returned.mp hresult, hne⟩

theorem meets_startsNone_iff (s : CdFetchCoordinator) (actions : List CdFetchAction) :
    Meets (step cfg) (StartsNone cfg) s actions ↔ Meets (step cfg) (LeavesLoop cfg) s actions :=
  Meets.congr fun _ a ↦ startsNone_iff a

end CdFetchCoordinator

end Burst
