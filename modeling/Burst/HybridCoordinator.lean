import Burst.CentralDirParse
import Burst.EarlyQueue
import Burst.Lib.Transition
import Burst.Lib.WorkPool
import Mathlib.Data.Int.Notation

namespace Burst

/-- What `hybrid_coordinator_create` is given. -/
structure HybridDownload where
  maxConcurrent : ℕ
  partSize : ℕ
  partialCd : CentralDirParseResult
  cdRangesTotal : ℕ
  initialStart : ℕ

inductive HybridItem where
  | cdRange (rangeIndex : ℕ)
  | part (partIndex : ℕ)
  deriving DecidableEq, Repr

/-- Where the main thread is. `prevInFlight` is what it compares `in_flight` with when the start of an
item has returned. -/
inductive HybridThread where
  | startLoop
  | launching (item : HybridItem) (prevInFlight : ℕ)
  | launched (prevInFlight : ℕ)
  | launchFailed (item : HybridItem) (prevInFlight : ℕ)
  | waiting
  | bodyLoop (p : ℕ)
  | returned (result : ℤ)
  deriving DecidableEq, Repr

/-- The coordinator, the main thread and the requests. The queues hold what has not been taken from
them. `assembling` callbacks have released the lock to assemble the central directory, `returning`
callbacks have started an item and take the lock once more. `fromSegments` are the parts processed
from a body segment. -/
structure HybridCoordinator where
  cdRangesDispatched : ℕ
  cdRangesCompleted : ℕ
  cdComplete : Bool
  fullCd : Option CentralDirParseResult
  earlyPartQueue : List ℕ
  latePartQueue : List ℕ
  partDispatched : List ℕ
  partComplete : List ℕ
  numParts : ℕ
  inFlight : ℕ
  cancelRequested : Bool
  firstErrorCode : ℤ
  bodySegments : List BodyDataSegment
  notified : Bool
  assembling : ℕ
  returning : ℕ
  main : HybridThread
  work : WorkPool HybridItem
  fromSegments : List ℕ
  deriving DecidableEq

/-- A section of a thread that holds the lock, a start of a request outside the lock, or one part of
the loop over the body segments. `assembled` is the section after `hybrid_assemble_and_parse_cd`. -/
inductive HybridAction where
  | mainSection
  | mainStart (ok : Bool)
  | wake
  | finishCallback (item : HybridItem) (errorCode : ℤ)
  | assembled (result : Option (CentralDirParseResult × List BodyDataSegment))
  | callbackStart (item : HybridItem) (ok : Bool)
  | callbackStartFailed (item : HybridItem)
  | callbackReturn
  | bodyPart (ok : Bool)
  deriving DecidableEq, Repr

namespace HybridCoordinator

def init (cfg : HybridDownload) : HybridCoordinator where
  cdRangesDispatched := 0
  cdRangesCompleted := 0
  cdComplete := false
  fullCd := none
  earlyPartQueue := buildEarlyPartQueue cfg.partSize cfg.initialStart cfg.partialCd.files
  latePartQueue := []
  partDispatched := []
  partComplete := []
  numParts := cfg.partialCd.parts.length
  inFlight := 0
  cancelRequested := false
  firstErrorCode := 0
  bodySegments := []
  notified := false
  assembling := 0
  returning := 0
  main := .startLoop
  work := .empty
  fromSegments := []

variable (cfg : HybridDownload)

/-- A segment holds all body data of the part. -/
def PartCovered (segments : List BodyDataSegment) (centralDirOffset p : ℕ) : Prop :=
  ∃ segment ∈ segments, segment.Covers cfg.partSize centralDirOffset p

instance (segments : List BodyDataSegment) (centralDirOffset p : ℕ) :
    Decidable (PartCovered cfg segments centralDirOffset p) :=
  inferInstanceAs (Decidable (∃ segment ∈ segments, segment.Covers cfg.partSize centralDirOffset p))

/-- The part has bytes before the central directory. -/
def PartHasBody (centralDirOffset p : ℕ) : Prop :=
  partStart cfg.partSize p < partBodyEnd cfg.partSize centralDirOffset p

instance (centralDirOffset p : ℕ) : Decidable (PartHasBody cfg centralDirOffset p) :=
  inferInstanceAs (Decidable (_ < _))

def buildLatePartQueue (fullCd : CentralDirParseResult) (segments : List BodyDataSegment)
    (partDispatched : List ℕ) : List ℕ :=
  ((List.range fullCd.parts.length).filter fun p ↦
    p ∉ partDispatched ∧ ¬ PartCovered cfg segments fullCd.centralDirOffset p ∧
      PartHasBody cfg fullCd.centralDirOffset p).map (· % 2 ^ 32)

/-- What a queue holds after the parts at its front that are dispatched already. -/
def undispatched (s : HybridCoordinator) (queue : List ℕ) : List ℕ :=
  queue.dropWhile (· ∈ s.partDispatched)

/-- `hybrid_dispatch_next` up to the unlock: the item to be started, if any. -/
def takeNext (s : HybridCoordinator) : Option HybridItem × HybridCoordinator :=
  if s.cancelRequested then (none, s)
  else if s.inFlight ≥ cfg.maxConcurrent then (none, s)
  else if s.cdRangesDispatched < cfg.cdRangesTotal then
    (some (.cdRange s.cdRangesDispatched), { s with
      cdRangesDispatched := s.cdRangesDispatched + 1
      inFlight := s.inFlight + 1 })
  else
    match s.undispatched s.earlyPartQueue with
    | part :: rest =>
      (some (.part part), { s with
        earlyPartQueue := rest
        partDispatched := part :: s.partDispatched
        inFlight := s.inFlight + 1 })
    | [] =>
      if s.cdComplete then
        match s.undispatched s.latePartQueue with
        | part :: rest =>
          (some (.part part), { s with
            earlyPartQueue := []
            latePartQueue := rest
            partDispatched := part :: s.partDispatched
            inFlight := s.inFlight + 1 })
        | [] => (none, { s with earlyPartQueue := [], latePartQueue := [] })
      else (none, { s with earlyPartQueue := [] })

/-- What a failed start does under the lock. -/
def startFailed (s : HybridCoordinator) : HybridCoordinator :=
  { s with inFlight := s.inFlight - 1, cancelRequested := true, firstErrorCode := -1 }

/-- After the loop that waits for all work. -/
def afterWork (s : HybridCoordinator) : HybridCoordinator :=
  if s.cancelRequested then { s with main := .returned s.firstErrorCode }
  else if s.fullCd.isSome ∧ s.bodySegments ≠ [] then { s with main := .bodyLoop 0 }
  else { s with main := .returned 0 }

def waitForWork (s : HybridCoordinator) : HybridCoordinator :=
  if s.inFlight > 0 then { s with main := .waiting, notified := false } else afterWork s

/-- The start loop from the check of its condition to the next unlock. -/
def startWork (s : HybridCoordinator) : HybridCoordinator :=
  if s.inFlight < cfg.maxConcurrent ∧ s.cancelRequested = false then
    match takeNext cfg s with
    | (some item, t) => { t with main := .launching item s.inFlight }
    | (none, t) => waitForWork t
  else waitForWork s

/-- The start loop after a start has returned: nothing is taken to be dispatched if `in_flight` is
what it was before. -/
def afterStart (s : HybridCoordinator) (prevInFlight : ℕ) : HybridCoordinator :=
  if s.inFlight = prevInFlight then waitForWork s else startWork cfg s

def notifyIfIdle (s : HybridCoordinator) : HybridCoordinator :=
  if s.inFlight = 0 then { s with notified := s.notified || s.main = .waiting } else s

/-- The end of a callback: it starts the next item or notifies the main thread. -/
def dispatchAndNotify (s : HybridCoordinator) : HybridCoordinator :=
  match takeNext cfg s with
  | (some item, t) => { t with work := t.work.accept item }
  | (none, t) => notifyIfIdle t

/-- What both finish callbacks do on an error. -/
def recordError (s : HybridCoordinator) (errorCode : ℤ) : HybridCoordinator :=
  { s with
    cancelRequested := true
    firstErrorCode := if s.cancelRequested then s.firstErrorCode else errorCode }

def cdRangeFinish (s : HybridCoordinator) (rangeIndex : ℕ) (errorCode : ℤ) : HybridCoordinator :=
  if errorCode ≠ 0 then
    dispatchAndNotify cfg { recordError s errorCode with
      inFlight := s.inFlight - 1
      work := s.work.drop (.cdRange rangeIndex) }
  else
    let t := { s with
      inFlight := s.inFlight - 1
      work := s.work.finish (.cdRange rangeIndex)
      cdRangesCompleted := s.cdRangesCompleted + 1 }
    if t.cdRangesCompleted = cfg.cdRangesTotal ∧ t.cdComplete = false then
      { t with assembling := t.assembling + 1 }
    else dispatchAndNotify cfg t

def partFinish (s : HybridCoordinator) (partIndex : ℕ) (errorCode : ℤ) : HybridCoordinator :=
  if errorCode ≠ 0 then
    dispatchAndNotify cfg { recordError s errorCode with
      inFlight := s.inFlight - 1
      partComplete := partIndex :: s.partComplete
      work := s.work.drop (.part partIndex) }
  else
    dispatchAndNotify cfg { s with
      inFlight := s.inFlight - 1
      partComplete := partIndex :: s.partComplete
      work := s.work.finish (.part partIndex) }

/-- The section after the central directory has been assembled and parsed, or could not be. -/
def assembledSection (s : HybridCoordinator) :
    Option (CentralDirParseResult × List BodyDataSegment) → HybridCoordinator
  | some (fullCd, segments) =>
    dispatchAndNotify cfg { s with
      assembling := s.assembling - 1
      cdComplete := true
      fullCd := some fullCd
      numParts := fullCd.parts.length
      bodySegments := segments
      latePartQueue := buildLatePartQueue cfg fullCd segments s.partDispatched }
  | none =>
    dispatchAndNotify cfg { s with
      assembling := s.assembling - 1
      cancelRequested := true
      firstErrorCode := -1 }

/-- One round of the loop over the parts with body data; `ok` is how the processing ends if there is
any. -/
def bodyLoopRound (s : HybridCoordinator) (centralDirOffset p : ℕ) (ok : Bool) : HybridCoordinator :=
  if p ≥ s.numParts then { s with main := .returned 0 }
  else if p ∈ s.partComplete ∨ ¬ PartHasBody cfg centralDirOffset p ∨
      ¬ PartCovered cfg s.bodySegments centralDirOffset p then
    { s with main := .bodyLoop (p + 1) }
  else if ok then
    { s with
      main := .bodyLoop (p + 1)
      partComplete := p :: s.partComplete
      fromSegments := (p % 2 ^ 32) :: s.fromSegments }
  else { s with main := .returned (-1) }

/-- The state after an action; `none` where the action cannot take place. -/
def step (s : HybridCoordinator) : HybridAction → Option HybridCoordinator
  | .mainSection =>
    match s.main with
    | .startLoop => some (startWork cfg s)
    | .launched prevInFlight => some (afterStart cfg s prevInFlight)
    | .launchFailed _ prevInFlight => some (afterStart cfg (startFailed s) prevInFlight)
    | _ => none
  | .mainStart ok =>
    match s.main with
    | .launching item prevInFlight =>
      if ok then some { s with main := .launched prevInFlight, work := s.work.enlist item }
      else some { s with main := .launchFailed item prevInFlight }
    | _ => none
  | .wake => if s.main = .waiting then some (waitForWork s) else none
  | .finishCallback item errorCode =>
    if item ∈ s.work.running then
      match item with
      | .cdRange rangeIndex => some (cdRangeFinish cfg s rangeIndex errorCode)
      | .part partIndex => some (partFinish cfg s partIndex errorCode)
    else none
  | .assembled result => if s.assembling > 0 then some (assembledSection cfg s result) else none
  | .callbackStart item ok =>
    if item ∈ s.work.launching then
      if ok then some { s with work := s.work.launched item, returning := s.returning + 1 }
      else some { s with work := s.work.refuse item }
    else none
  | .callbackStartFailed item =>
    if item ∈ s.work.refused then
      some (notifyIfIdle { startFailed s with work := s.work.report item })
    else none
  | .callbackReturn =>
    if s.returning > 0 then some (notifyIfIdle { s with returning := s.returning - 1 }) else none
  | .bodyPart ok =>
    match s.main, s.fullCd with
    | .bodyLoop p, some fullCd => some (bodyLoopRound cfg s fullCd.centralDirOffset p ok)
    | _, _ => none

end HybridCoordinator

end Burst
