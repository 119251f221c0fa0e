import Burst.BodySegments
import Burst.Lib.Transition
import Burst.Lib.WorkPool
import Mathlib.Data.Int.Notation

namespace Burst

/-- What `burst_downloader_extract_concurrent` is called with. -/
structure ConcurrentExtraction where
  maxConcurrent : ℕ
  numParts : ℕ
  partSize : ℕ
  centralDirOffset : ℕ
  bodySegments : List BodyDataSegment
  deriving Repr

namespace ConcurrentExtraction

variable (cfg : ConcurrentExtraction)

def start (p : ℕ) : ℕ := partStart cfg.partSize p

def bodyEnd (p : ℕ) : ℕ := partBodyEnd cfg.partSize cfg.centralDirOffset p

def PartHasFullBodyData (p : ℕ) : Prop :=
  cfg.start p < cfg.bodyEnd p ∧
    ∃ segment ∈ cfg.bodySegments, segment.Covers cfg.partSize cfg.centralDirOffset p

instance : DecidablePred cfg.PartHasFullBodyData :=
  fun _ ↦ inferInstanceAs (Decidable (_ ∧ _))

def partsToDownload : ℕ :=
  (List.range cfg.numParts).countP fun p ↦ ¬ cfg.PartHasFullBodyData p

theorem partsToDownload_le : cfg.partsToDownload ≤ cfg.numParts := by
  have h := List.countP_le_length (p := fun p ↦ decide ¬ cfg.PartHasFullBodyData p)
    (l := List.range cfg.numParts)
  rwa [List.length_range] at h

end ConcurrentExtraction

/-- Where the main thread is: before a section of the start loop, in `start_part_download_async`,
after such a call failed, waiting, going through the body segments, returned. -/
inductive ExtractThread where
  | startLoop (partIdx : ℕ)
  | launching (partIdx : ℕ)
  | launchFailed (partIdx : ℕ)
  | waiting
  | bodyLoop (p : ℕ)
  | returned (result : ℤ)
  deriving DecidableEq, Repr

/-- The coordinator, the main thread and the downloads that callbacks start or end.
`fromSegments` are the parts processed from a body segment; `notified` is a notification that the
waiting thread has not seen. -/
structure DownloadCoordinator where
  partsInFlight : ℕ
  nextPartToStart : ℕ
  partsCompleted : ℕ
  cancelRequested : Bool
  firstErrorCode : ℤ
  notified : Bool
  main : ExtractThread
  downloads : WorkPool ℕ
  fromSegments : List ℕ
  deriving DecidableEq

/-- A section of a thread that holds the lock, a start of a download outside the lock, or one part
of the loop over the body segments. -/
inductive DownloadAction where
  | mainSection
  | mainStart (ok : Bool)
  | wake
  | finishCallback (part : ℕ) (errorCode : ℤ)
  | callbackStart (part : ℕ) (ok : Bool)
  | callbackStartFailed (part : ℕ)
  | bodyPart (ok : Bool)
  deriving DecidableEq, Repr

namespace DownloadCoordinator

def init : DownloadCoordinator where
  partsInFlight := 0
  nextPartToStart := 0
  partsCompleted := 0
  cancelRequested := false
  firstErrorCode := 0
  notified := false
  main := .startLoop 0
  downloads := .empty
  fromSegments := []

variable (cfg : ConcurrentExtraction)

/-- The loop over parts with full body data, in at most so many rounds. -/
def skipBodyParts : ℕ → ℕ → ℕ
  | 0, partIdx => partIdx
  | n + 1, partIdx =>
    if partIdx < cfg.numParts ∧ cfg.PartHasFullBodyData partIdx then skipBodyParts n (partIdx + 1)
    else partIdx

/-- After the loop that waits for the downloads. -/
def afterDownloads (s : DownloadCoordinator) : DownloadCoordinator :=
  if s.firstErrorCode = 0 ∧ cfg.bodySegments ≠ [] then { s with main := .bodyLoop 0 }
  else { s with main := .returned s.firstErrorCode }

def waitForDownloads (s : DownloadCoordinator) : DownloadCoordinator :=
  if s.partsInFlight > 0 then { s with main := .waiting, notified := false }
  else afterDownloads cfg s

/-- One round of the start loop up to the unlock, or the end of the loop. -/
def startLoopSection (s : DownloadCoordinator) (partIdx : ℕ) : DownloadCoordinator :=
  if s.partsInFlight < cfg.maxConcurrent ∧ partIdx < cfg.numParts then
    let next := skipBodyParts cfg (cfg.numParts - partIdx) partIdx
    if next ≥ cfg.numParts then waitForDownloads cfg s
    else { s with
      partsInFlight := s.partsInFlight + 1
      nextPartToStart := next + 1
      main := .launching next }
  else waitForDownloads cfg s

def launchFailedSection (s : DownloadCoordinator) : DownloadCoordinator :=
  waitForDownloads cfg { s with
    partsInFlight := s.partsInFlight - 1
    cancelRequested := true
    firstErrorCode := -1 }

/-- The main thread is woken when there is somebody to wake and nothing in flight. -/
def notifyIfIdle (s : DownloadCoordinator) : DownloadCoordinator :=
  if s.partsInFlight = 0 then { s with notified := s.notified || s.main = .waiting } else s

/-- The part of `s3_stream_finish_callback` before it looks for more work. -/
def recordFinish (s : DownloadCoordinator) (part : ℕ) (errorCode : ℤ) : DownloadCoordinator :=
  if errorCode ≠ 0 then
    { s with
      partsInFlight := s.partsInFlight - 1
      cancelRequested := true
      firstErrorCode := if s.cancelRequested then s.firstErrorCode else errorCode
      downloads := s.downloads.drop part }
  else
    { s with
      partsInFlight := s.partsInFlight - 1
      partsCompleted := s.partsCompleted + 1
      downloads := s.downloads.finish part }

/-- The rest of `s3_stream_finish_callback`. -/
def handOutNext (s : DownloadCoordinator) : DownloadCoordinator :=
  if s.cancelRequested = false ∧ s.nextPartToStart < cfg.partsToDownload then
    { s with
      nextPartToStart := s.nextPartToStart + 1
      partsInFlight := s.partsInFlight + 1
      downloads := s.downloads.accept (s.nextPartToStart % 2 ^ 32) }
  else notifyIfIdle s

def callbackStartFailedSection (s : DownloadCoordinator) (part : ℕ) : DownloadCoordinator :=
  notifyIfIdle { s with
    partsInFlight := s.partsInFlight - 1
    cancelRequested := true
    firstErrorCode := if s.cancelRequested then s.firstErrorCode else -1
    downloads := s.downloads.report part }

/-- One round of the loop over the parts with body data; `ok` is how `process_part_with_body_data`
ends if it processes anything. -/
def bodyLoopRound (s : DownloadCoordinator) (p : ℕ) (ok : Bool) : DownloadCoordinator :=
  if p ≥ cfg.numParts then { s with main := .returned 0 }
  else if ¬ cfg.PartHasFullBodyData p then { s with main := .bodyLoop (p + 1) }
  else
    match findBodySegmentForOffset cfg.bodySegments (cfg.start p) with
    | none => { s with main := .bodyLoop (p + 1) }
    | some _ =>
      if cfg.start (p % 2 ^ 32) ≥ cfg.bodyEnd (p % 2 ^ 32) then { s with main := .bodyLoop (p + 1) }
      else if ok then
        { s with main := .bodyLoop (p + 1), fromSegments := (p % 2 ^ 32) :: s.fromSegments }
      else { s with main := .returned (-1) }

/-- The state after an action; `none` where the action cannot take place. -/
def step (s : DownloadCoordinator) : DownloadAction → Option DownloadCoordinator
  | .mainSection =>
    match s.main with
    | .startLoop partIdx => some (startLoopSection cfg s partIdx)
    | .launchFailed _ => some (launchFailedSection cfg s)
    | _ => none
  | .mainStart ok =>
    match s.main with
    | .launching partIdx =>
      if ok then
        some { s with
          main := .startLoop (partIdx + 1)
          downloads := s.downloads.enlist (partIdx % 2 ^ 32) }
      else some { s with main := .launchFailed partIdx }
    | _ => none
  | .wake => if s.main = .waiting then some (waitForDownloads cfg s) else none
  | .finishCallback part errorCode =>
    if part ∈ s.downloads.running then some (handOutNext cfg (recordFinish s part errorCode))
    else none
  | .callbackStart part ok =>
    if part ∈ s.downloads.launching then
      some { s with
        downloads := if ok then s.downloads.launched part else s.downloads.refuse part }
    else none
  | .callbackStartFailed part =>
    if part ∈ s.downloads.refused then some (callbackStartFailedSection s part) else none
  | .bodyPart ok =>
    match s.main with
    | .bodyLoop p => some (bodyLoopRound cfg s p ok)
    | _ => none

end DownloadCoordinator

end Burst
