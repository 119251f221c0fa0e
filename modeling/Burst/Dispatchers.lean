import Burst.CdRangeFetch
import Burst.DownloadCoordinator
import Burst.Lib.Dispatcher

namespace Burst

open InFlight

namespace CdFetchThread

def phase : CdFetchThread → Phase ℕ
  | .startLoop => .startLoop
  | .launching rangeIndex => .launching rangeIndex
  | .launchFailed rangeIndex => .launchFailed rangeIndex
  | .waiting => .waiting
  | .returned result => .returned result

theorem phase_isWaiting (main : CdFetchThread) : main.phase.isWaiting = decide (main = .waiting) := by
  cases main with
  | startLoop => rfl
  | launching => rfl
  | launchFailed => rfl
  | waiting => rfl
  | returned => rfl

theorem phase_eq_startLoop {main : CdFetchThread} : main.phase = .startLoop ↔ main = .startLoop := by
  cases main <;> simp [phase]

theorem phase_eq_returned {main : CdFetchThread} {result : ℤ} :
    main.phase = .returned result ↔ main = .returned result := by
  cases main <;> simp [phase]

end CdFetchThread

def CdFetchAction.event : CdFetchAction → Event ℕ
  | .mainSection => .mainSection
  | .mainStart ok => .mainStart ok
  | .wake => .wake
  | .finishCallback rangeIndex errorCode => .finish rangeIndex errorCode
  | .callbackStart rangeIndex ok => .callbackStart rangeIndex ok
  | .callbackStartFailed rangeIndex => .callbackStartFailed rangeIndex

namespace CdFetchCoordinator

variable {cfg : CdRangeFetch} {s t : CdFetchCoordinator} {a : CdFetchAction}

/-- The fetches of ranges as the requests of a dispatcher. -/
def dispatcher (s : CdFetchCoordinator) : Dispatcher ℕ where
  inFlight := s.rangesInFlight
  cancelled := s.cancelRequested
  error := s.firstErrorCode
  notified := s.notified
  phase := s.main.phase
  pool := s.fetches

theorem waits_waitForRanges (s : CdFetchCoordinator) : s.dispatcher.Waits (waitForRanges s).dispatcher := by
  rw [waitForRanges]
  split
  · next hpos => exact .waits hpos
  · next hidle =>
    apply Dispatcher.Waits.returns
    · exact Nat.eq_zero_of_not_pos hidle
    · intro herror
      have hset : s.firstErrorCode ≠ 0 := herror
      rw [if_pos hset]
      decide

theorem waits_launchFailedSection (s : CdFetchCoordinator) :
    s.dispatcher.startFailed.Waits (launchFailedSection s).dispatcher :=
  waits_waitForRanges { s with
    rangesInFlight := s.rangesInFlight - 1
    cancelRequested := true
    firstErrorCode := -1 }

theorem dispatcher_notifyIfIdle (s : CdFetchCoordinator) :
    (notifyIfIdle s).dispatcher = s.dispatcher.notifyIfIdle := by
  by_cases hidle : s.rangesInFlight = 0
  · have hzero : s.dispatcher.inFlight = 0 := hidle
    rw [notifyIfIdle, if_pos hidle, Dispatcher.notifyIfIdle, if_pos hzero]
    simp only [dispatcher, CdFetchThread.phase_isWaiting]
  · have hpos : s.dispatcher.inFlight ≠ 0 := hidle
    rw [notifyIfIdle, if_neg hidle, Dispatcher.notifyIfIdle, if_neg hpos]

theorem dispatcher_recordFinish (s : CdFetchCoordinator) (rangeIndex : ℕ) (errorCode : ℤ) :
    (recordFinish s rangeIndex errorCode).dispatcher = s.dispatcher.recordFinish rangeIndex errorCode := by
  rw [recordFinish, Dispatcher.recordFinish]
  split
  · rfl
  · rfl

theorem step_moves (hstep : step cfg s a = some t) :
    Dispatcher.Step cfg.maxConcurrent a.event s.dispatcher t.dispatcher := by
  cases a with
  | mainSection =>
    rw [step] at hstep
    split at hstep
    · next hs =>
      cases hstep
      have hphase : s.dispatcher.phase = .startLoop := congrArg CdFetchThread.phase hs
      rw [startLoopSection]
      split
      · next hroom => exact .take s.nextRangeToStart hphase hroom.1
      · exact .leave hphase (waits_waitForRanges s)
    · next rangeIndex hs =>
      cases hstep
      have hphase : s.dispatcher.phase = .launchFailed rangeIndex := congrArg CdFetchThread.phase hs
      exact .giveUp hphase (waits_launchFailedSection s)
    · cases hstep
  | mainStart ok =>
    rw [step] at hstep
    split at hstep
    · next rangeIndex hs =>
      have hphase : s.dispatcher.phase = .launching rangeIndex := congrArg CdFetchThread.phase hs
      cases ok with
      | true =>
        cases hstep
        exact .started rangeIndex hphase
      | false =>
        cases hstep
        exact .notStarted hphase
    · cases hstep
  | wake =>
    rw [step] at hstep
    split_ifs at hstep with hs
    cases hstep
    exact .wake (congrArg CdFetchThread.phase hs) (waits_waitForRanges s)
  | finishCallback rangeIndex errorCode =>
    rw [step] at hstep
    split_ifs at hstep with hmem
    cases hstep
    have hfinish := dispatcher_recordFinish s rangeIndex errorCode
    rw [handOutNext]
    split
    · next hmore =>
      have hok : (s.dispatcher.recordFinish rangeIndex errorCode).cancelled = false := by
        rw [← hfinish]
        exact hmore.1
      have hmove := @Dispatcher.Step.finishNext _ _ cfg.maxConcurrent _ _ errorCode
        (recordFinish s rangeIndex errorCode).nextRangeToStart hmem hok
      rw [← hfinish] at hmove
      exact hmove
    · rw [dispatcher_notifyIfIdle, hfinish]
      exact .finishLast hmem
  | callbackStart rangeIndex ok =>
    rw [step] at hstep
    by_cases hmem : rangeIndex ∈ s.fetches.launching
    · rw [if_pos hmem] at hstep
      cases ok with
      | true =>
        cases hstep
        exact .launched hmem
      | false =>
        cases hstep
        exact .refused hmem
    · rw [if_neg hmem] at hstep
      cases hstep
  | callbackStartFailed rangeIndex =>
    rw [step] at hstep
    split_ifs at hstep with hmem
    cases hstep
    rw [callbackStartFailedSection, dispatcher_notifyIfIdle]
    exact .reported hmem

theorem step_enabled {b : Event ℕ} (h : s.dispatcher.Enabled b) :
    ∃ a t, CdFetchAction.event a = b ∧ step cfg s a = some t := by
  cases b with
  | mainSection =>
    cases hs : s.main with
    | startLoop => exact ⟨.mainSection, _, rfl, by rw [step, hs]⟩
    | launchFailed rangeIndex => exact ⟨.mainSection, _, rfl, by rw [step, hs]⟩
    | _ => simp [Dispatcher.Enabled, dispatcher, hs, CdFetchThread.phase] at h
  | mainStart ok =>
    cases hs : s.main with
    | launching rangeIndex =>
      cases ok with
      | true => exact ⟨.mainStart true, _, rfl, by rw [step, hs]; rfl⟩
      | false => exact ⟨.mainStart false, _, rfl, by rw [step, hs]; rfl⟩
    | _ => simp [Dispatcher.Enabled, dispatcher, hs, CdFetchThread.phase] at h
  | wake =>
    cases hs : s.main with
    | waiting => exact ⟨.wake, _, rfl, if_pos hs⟩
    | _ => simp [Dispatcher.Enabled, dispatcher, hs, CdFetchThread.phase] at h
  | finish rangeIndex errorCode => exact ⟨.finishCallback rangeIndex errorCode, _, rfl, if_pos h⟩
  | callbackStart rangeIndex ok => exact ⟨.callbackStart rangeIndex ok, _, rfl, if_pos h⟩
  | callbackStartFailed rangeIndex => exact ⟨.callbackStartFailed rangeIndex, _, rfl, if_pos h⟩
  | afterRound ok =>
    cases hs : s.main <;> simp [Dispatcher.Enabled, dispatcher, hs, CdFetchThread.phase] at h

theorem implements_dispatcher (cfg : CdRangeFetch) :
    Dispatcher.Implements (step cfg) cfg.maxConcurrent dispatcher CdFetchAction.event :=
  ⟨step_moves, step_enabled⟩

end CdFetchCoordinator

namespace ExtractThread

def phase : ExtractThread → Phase ℕ
  | .startLoop _ => .startLoop
  | .launching partIdx => .launching partIdx
  | .launchFailed partIdx => .launchFailed partIdx
  | .waiting => .waiting
  | .bodyLoop _ => .after
  | .returned result => .returned result

theorem phase_isWaiting (main : ExtractThread) : main.phase.isWaiting = decide (main = .waiting) := by
  cases main with
  | startLoop => rfl
  | launching => rfl
  | launchFailed => rfl
  | waiting => rfl
  | bodyLoop => rfl
  | returned => rfl

theorem phase_eq_startLoop {main : ExtractThread} :
    main.phase = .startLoop ↔ ∃ partIdx, main = .startLoop partIdx := by
  cases main <;> simp [phase]

theorem phase_eq_returned {main : ExtractThread} {result : ℤ} :
    main.phase = .returned result ↔ main = .returned result := by
  cases main <;> simp [phase]

end ExtractThread

def DownloadAction.event : DownloadAction → Event ℕ
  | .mainSection => .mainSection
  | .mainStart ok => .mainStart ok
  | .wake => .wake
  | .finishCallback part errorCode => .finish part errorCode
  | .callbackStart part ok => .callbackStart part ok
  | .callbackStartFailed part => .callbackStartFailed part
  | .bodyPart ok => .afterRound ok

namespace DownloadCoordinator

variable {cfg : ConcurrentExtraction} {s t : DownloadCoordinator} {a : DownloadAction}

/-- The downloads of parts as the requests of a dispatcher, which goes on with the body segments. -/
def dispatcher (s : DownloadCoordinator) : Dispatcher ℕ where
  inFlight := s.partsInFlight
  cancelled := s.cancelRequested
  error := s.firstErrorCode
  notified := s.notified
  phase := s.main.phase
  pool := s.downloads

theorem waits_waitForDownloads (cfg : ConcurrentExtraction) (s : DownloadCoordinator) :
    s.dispatcher.Waits (waitForDownloads cfg s).dispatcher := by
  rw [waitForDownloads]
  split
  · next hpos => exact .waits hpos
  · next hidle =>
    have hzero : s.dispatcher.inFlight = 0 := Nat.eq_zero_of_not_pos hidle
    rw [afterDownloads]
    split
    · next hbody => exact .goesOn hzero hbody.1
    · exact .returns s.firstErrorCode hzero id

theorem waits_launchFailedSection (cfg : ConcurrentExtraction) (s : DownloadCoordinator) :
    s.dispatcher.startFailed.Waits (launchFailedSection cfg s).dispatcher :=
  waits_waitForDownloads cfg { s with
    partsInFlight := s.partsInFlight - 1
    cancelRequested := true
    firstErrorCode := -1 }

theorem dispatcher_notifyIfIdle (s : DownloadCoordinator) :
    (notifyIfIdle s).dispatcher = s.dispatcher.notifyIfIdle := by
  by_cases hidle : s.partsInFlight = 0
  · have hzero : s.dispatcher.inFlight = 0 := hidle
    rw [notifyIfIdle, if_pos hidle, Dispatcher.notifyIfIdle, if_pos hzero]
    simp only [dispatcher, ExtractThread.phase_isWaiting]
  · have hpos : s.dispatcher.inFlight ≠ 0 := hidle
    rw [notifyIfIdle, if_neg hidle, Dispatcher.notifyIfIdle, if_neg hpos]

theorem dispatcher_recordFinish (s : DownloadCoordinator) (part : ℕ) (errorCode : ℤ) :
    (recordFinish s part errorCode).dispatcher = s.dispatcher.recordFinish part errorCode := by
  rw [recordFinish, Dispatcher.recordFinish]
  split
  · rfl
  · rfl

/-- A round of the loop over the body segments changes nothing but where the thread is. -/
theorem dispatcher_bodyLoopRound (cfg : ConcurrentExtraction) (s : DownloadCoordinator) (p : ℕ)
    (ok : Bool) : ∃ phase : Phase ℕ, (phase = .after ∨ ∃ result, phase = .returned result) ∧
      (bodyLoopRound cfg s p ok).dispatcher = { s.dispatcher with phase := phase } := by
  rw [bodyLoopRound]
  split
  · exact ⟨.returned 0, .inr ⟨0, rfl⟩, rfl⟩
  · split
    · exact ⟨.after, .inl rfl, rfl⟩
    · split
      · exact ⟨.after, .inl rfl, rfl⟩
      · split
        · exact ⟨.after, .inl rfl, rfl⟩
        · split
          · exact ⟨.after, .inl rfl, rfl⟩
          · exact ⟨.returned (-1), .inr ⟨-1, rfl⟩, rfl⟩

theorem step_moves (hstep : step cfg s a = some t) :
    Dispatcher.Step cfg.maxConcurrent a.event s.dispatcher t.dispatcher := by
  cases a with
  | mainSection =>
    rw [step] at hstep
    split at hstep
    · next partIdx hs =>
      cases hstep
      have hphase : s.dispatcher.phase = .startLoop := congrArg ExtractThread.phase hs
      rw [startLoopSection]
      dsimp only
      split
      · next hroom =>
        split
        · exact .leave hphase (waits_waitForDownloads cfg s)
        · exact .take _ hphase hroom.1
      · exact .leave hphase (waits_waitForDownloads cfg s)
    · next partIdx hs =>
      cases hstep
      have hphase : s.dispatcher.phase = .launchFailed partIdx := congrArg ExtractThread.phase hs
      exact .giveUp hphase (waits_launchFailedSection cfg s)
    · cases hstep
  | mainStart ok =>
    rw [step] at hstep
    split at hstep
    · next partIdx hs =>
      have hphase : s.dispatcher.phase = .launching partIdx := congrArg ExtractThread.phase hs
      cases ok with
      | true =>
        cases hstep
        exact .started (partIdx % 2 ^ 32) hphase
      | false =>
        cases hstep
        exact .notStarted hphase
    · cases hstep
  | wake =>
    rw [step] at hstep
    split_ifs at hstep with hs
    cases hstep
    exact .wake (congrArg ExtractThread.phase hs) (waits_waitForDownloads cfg s)
  | finishCallback part errorCode =>
    rw [step] at hstep
    split_ifs at hstep with hmem
    cases hstep
    have hfinish := dispatcher_recordFinish s part errorCode
    rw [handOutNext]
    split
    · next hmore =>
      have hok : (s.dispatcher.recordFinish part errorCode).cancelled = false := by
        rw [← hfinish]
        exact hmore.1
      have hmove := @Dispatcher.Step.finishNext _ _ cfg.maxConcurrent _ _ errorCode
        ((recordFinish s part errorCode).nextPartToStart % 2 ^ 32) hmem hok
      rw [← hfinish] at hmove
      exact hmove
    · rw [dispatcher_notifyIfIdle, hfinish]
      exact .finishLast hmem
  | callbackStart part ok =>
    rw [step] at hstep
    by_cases hmem : part ∈ s.downloads.launching
    · rw [if_pos hmem] at hstep
      cases ok with
      | true =>
        cases hstep
        exact .launched hmem
      | false =>
        cases hstep
        exact .refused hmem
    · rw [if_neg hmem] at hstep
      cases hstep
  | callbackStartFailed part =>
    rw [step] at hstep
    split_ifs at hstep with hmem
    cases hstep
    rw [callbackStartFailedSection, dispatcher_notifyIfIdle]
    exact .reported hmem
  | bodyPart ok =>
    rw [step] at hstep
    split at hstep
    · next p hs =>
      cases hstep
      obtain ⟨phase, hphase, hround⟩ := dispatcher_bodyLoopRound cfg s p ok
      rw [hround]
      exact .afterRound phase (congrArg ExtractThread.phase hs) hphase
    · cases hstep

theorem step_enabled {b : Event ℕ} (h : s.dispatcher.Enabled b) :
    ∃ a t, DownloadAction.event a = b ∧ step cfg s a = some t := by
  cases b with
  | mainSection =>
    cases hs : s.main with
    | startLoop partIdx => exact ⟨.mainSection, _, rfl, by rw [step, hs]⟩
    | launchFailed partIdx => exact ⟨.mainSection, _, rfl, by rw [step, hs]⟩
    | _ => simp [Dispatcher.Enabled, dispatcher, hs, ExtractThread.phase] at h
  | mainStart ok =>
    cases hs : s.main with
    | launching partIdx =>
      cases ok with
      | true => exact ⟨.mainStart true, _, rfl, by rw [step, hs]; rfl⟩
      | false => exact ⟨.mainStart false, _, rfl, by rw [step, hs]; rfl⟩
    | _ => simp [Dispatcher.Enabled, dispatcher, hs, ExtractThread.phase] at h
  | wake =>
    cases hs : s.main with
    | waiting => exact ⟨.wake, _, rfl, if_pos hs⟩
    | _ => simp [Dispatcher.Enabled, dispatcher, hs, ExtractThread.phase] at h
  | finish part errorCode => exact ⟨.finishCallback part errorCode, _, rfl, if_pos h⟩
  | callbackStart part ok => exact ⟨.callbackStart part ok, _, rfl, if_pos h⟩
  | callbackStartFailed part => exact ⟨.callbackStartFailed part, _, rfl, if_pos h⟩
  | afterRound ok =>
    cases hs : s.main with
    | bodyLoop p => exact ⟨.bodyPart ok, _, rfl, by rw [step, hs]⟩
    | _ => simp [Dispatcher.Enabled, dispatcher, hs, ExtractThread.phase] at h

theorem implements_dispatcher (cfg : ConcurrentExtraction) :
    Dispatcher.Implements (step cfg) cfg.maxConcurrent dispatcher DownloadAction.event :=
  ⟨step_moves, step_enabled⟩

end DownloadCoordinator

end Burst
