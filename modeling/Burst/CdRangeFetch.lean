import Burst.Lib.Transition
import Burst.Lib.WorkPool
import Mathlib.Data.Int.Notation

namespace Burst

/-- What `burst_downloader_fetch_cd_ranges` is called with. -/
structure CdRangeFetch where
  maxConcurrent : ℕ
  totalRanges : ℕ
  deriving Repr

/-- Where the main thread is: before a section of the start loop, in `start_range_fetch_async`, after
such a call failed, waiting, returned. -/
inductive CdFetchThread where
  | startLoop
  | launching (rangeIndex : ℕ)
  | launchFailed (rangeIndex : ℕ)
  | waiting
  | returned (result : ℤ)
  deriving DecidableEq, Repr

/-- The coordinator, the main thread and the fetches that callbacks start or end. `notified` is a
notification that the waiting thread has not seen. -/
structure CdFetchCoordinator where
  rangesInFlight : ℕ
  nextRangeToStart : ℕ
  rangesCompleted : ℕ
  cancelRequested : Bool
  firstErrorCode : ℤ
  notified : Bool
  main : CdFetchThread
  fetches : WorkPool ℕ
  deriving DecidableEq

/-- A section of a thread that holds the lock, or a start of a fetch outside the lock. -/
inductive CdFetchAction where
  | mainSection
  | mainStart (ok : Bool)
  | wake
  | finishCallback (rangeIndex : ℕ) (errorCode : ℤ)
  | callbackStart (rangeIndex : ℕ) (ok : Bool)
  | callbackStartFailed (rangeIndex : ℕ)
  deriving DecidableEq, Repr

namespace CdFetchCoordinator

def init : CdFetchCoordinator where
  rangesInFlight := 0
  nextRangeToStart := 0
  rangesCompleted := 0
  cancelRequested := false
  firstErrorCode := 0
  notified := false
  main := .startLoop
  fetches := .empty

variable (cfg : CdRangeFetch)

def waitForRanges (s : CdFetchCoordinator) : CdFetchCoordinator :=
  if s.rangesInFlight > 0 then { s with main := .waiting, notified := false }
  else { s with main := .returned (if s.firstErrorCode ≠ 0 then -1 else 0) }

/-- One round of the start loop up to the unlock, or the end of the loop. -/
def startLoopSection (s : CdFetchCoordinator) : CdFetchCoordinator :=
  if s.rangesInFlight < cfg.maxConcurrent ∧ s.nextRangeToStart < cfg.totalRanges then
    { s with
      nextRangeToStart := s.nextRangeToStart + 1
      rangesInFlight := s.rangesInFlight + 1
      main := .launching s.nextRangeToStart }
  else waitForRanges s

def launchFailedSection (s : CdFetchCoordinator) : CdFetchCoordinator :=
  waitForRanges { s with
    rangesInFlight := s.rangesInFlight - 1
    cancelRequested := true
    firstErrorCode := -1 }

/-- The main thread is woken when there is somebody to wake and nothing in flight. -/
def notifyIfIdle (s : CdFetchCoordinator) : CdFetchCoordinator :=
  if s.rangesInFlight = 0 then { s with notified := s.notified || s.main = .waiting } else s

/-- The part of `cd_range_finish_callback` before it looks for more work. -/
def recordFinish (s : CdFetchCoordinator) (rangeIndex : ℕ) (errorCode : ℤ) : CdFetchCoordinator :=
  if errorCode ≠ 0 then
    { s with
      rangesInFlight := s.rangesInFlight - 1
      cancelRequested := true
      firstErrorCode := if s.cancelRequested then s.firstErrorCode else errorCode
      fetches := s.fetches.drop rangeIndex }
  else
    { s with
      rangesInFlight := s.rangesInFlight - 1
      rangesCompleted := s.rangesCompleted + 1
      fetches := s.fetches.finish rangeIndex }

/-- The rest of `cd_range_finish_callback`. -/
def handOutNext (s : CdFetchCoordinator) : CdFetchCoordinator :=
  if s.cancelRequested = false ∧ s.nextRangeToStart < cfg.totalRanges then
    { s with
      nextRangeToStart := s.nextRangeToStart + 1
      rangesInFlight := s.rangesInFlight + 1
      fetches := s.fetches.accept s.nextRangeToStart }
  else notifyIfIdle s

def callbackStartFailedSection (s : CdFetchCoordinator) (rangeIndex : ℕ) : CdFetchCoordinator :=
  notifyIfIdle { s with
    rangesInFlight := s.rangesInFlight - 1
    cancelRequested := true
    firstErrorCode := if s.cancelRequested then s.firstErrorCode else -1
    fetches := s.fetches.report rangeIndex }

/-- The state after an action; `none` where the action cannot take place. -/
def step (s : CdFetchCoordinator) : CdFetchAction → Option CdFetchCoordinator
  | .mainSection =>
    match s.main with
    | .startLoop => some (startLoopSection cfg s)
    | .launchFailed _ => some (launchFailedSection s)
    | _ => none
  | .mainStart ok =>
    match s.main with
    | .launching rangeIndex =>
      if ok then
        some { s with main := .startLoop, fetches := s.fetches.enlist rangeIndex }
      else some { s with main := .launchFailed rangeIndex }
    | _ => none
  | .wake => if s.main = .waiting then some (waitForRanges s) else none
  | .finishCallback rangeIndex errorCode =>
    if rangeIndex ∈ s.fetches.running then
      some (handOutNext cfg (recordFinish s rangeIndex errorCode))
    else none
  | .callbackStart rangeIndex ok =>
    if rangeIndex ∈ s.fetches.launching then
      some { s with
        fetches := if ok then s.fetches.launched rangeIndex else s.fetches.refuse rangeIndex }
    else none
  | .callbackStartFailed rangeIndex =>
    if rangeIndex ∈ s.fetches.refused then some (callbackStartFailedSection s rangeIndex) else none

end CdFetchCoordinator

end Burst
