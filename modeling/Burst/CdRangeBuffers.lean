import Burst.CdFetch
import Burst.CdFetchFailFast
import Burst.Requests

namespace Burst

open Slices Transition

namespace CdFetchCoordinator

variable {cfg : CdRangeFetch} {s t : CdFetchCoordinator} {responses : ℕ → Response}

/-- How often a range is being or has been fetched. -/
def account (s : CdFetchCoordinator) (i : ℕ) : ℕ := s.fetches.account i + s.main.starting.count i

/-- The ranges are handed out one after the other, and none is lost before an error. -/
structure HandsOutOnce (cfg : CdRangeFetch) (s : CdFetchCoordinator) : Prop where
  next_le : s.nextRangeToStart ≤ cfg.totalRanges
  atMost : ∀ i, s.account i ≤ if i < s.nextRangeToStart then 1 else 0
  noneLost : s.cancelRequested = false → ∀ i < s.nextRangeToStart, 0 < s.account i

/-- The main thread is behind its start loop. -/
def CdFetchThread.PastLoop : CdFetchThread → Prop
  | .waiting => True
  | .returned _ => True
  | _ => False

/-- Behind the start loop there is nothing left to start once nothing is in flight. -/
def NoneToStart (cfg : CdRangeFetch) (s : CdFetchCoordinator) : Prop :=
  CdFetchThread.PastLoop s.main → s.cancelRequested = false → s.rangesInFlight = 0 →
    s.nextRangeToStart = cfg.totalRanges

theorem handsOutOnce_init (cfg : CdRangeFetch) : HandsOutOnce cfg init :=
  ⟨Nat.zero_le _, fun _ ↦ le_rfl, fun _ i hi ↦ (by cases hi)⟩

theorem HandsOutOnce.of_same (h : HandsOutOnce cfg s) (hnext : t.nextRangeToStart = s.nextRangeToStart)
    (hcancel : t.cancelRequested = s.cancelRequested) (haccount : ∀ i, t.account i = s.account i) :
    HandsOutOnce cfg t := by
  refine ⟨hnext ▸ h.next_le, fun i ↦ ?_, fun hok i hi ↦ ?_⟩
  · rw [haccount, hnext]
    exact h.atMost i
  · rw [haccount]
    exact h.noneLost (hcancel ▸ hok) i (hnext ▸ hi)

/-- After an error a range may be given up. -/
theorem HandsOutOnce.of_le (h : HandsOutOnce cfg s) (hnext : t.nextRangeToStart = s.nextRangeToStart)
    (hcancel : t.cancelRequested = true) (haccount : ∀ i, t.account i ≤ s.account i) :
    HandsOutOnce cfg t := by
  refine ⟨hnext ▸ h.next_le, fun i ↦ ?_, fun hok ↦ ?_⟩
  · rw [hnext]
    exact (haccount i).trans (h.atMost i)
  · rw [hcancel] at hok
    cases hok

/-- The next range is handed out. -/
theorem HandsOutOnce.of_next (h : HandsOutOnce cfg s) (hlt : s.nextRangeToStart < cfg.totalRanges)
    (hnext : t.nextRangeToStart = s.nextRangeToStart + 1) (hcancel : t.cancelRequested = s.cancelRequested)
    (haccount : ∀ i, t.account i = s.account i + if s.nextRangeToStart = i then 1 else 0) :
    HandsOutOnce cfg t := by
  refine ⟨by omega, fun i ↦ ?_, fun hok i hi ↦ ?_⟩
  · have hatMost := h.atMost i
    rw [haccount, hnext]
    split at hatMost <;> split <;> split <;> omega
  · rw [haccount]
    rcases Nat.lt_or_ge i s.nextRangeToStart with hlt | hge
    · have hpos := h.noneLost (hcancel ▸ hok) i hlt
      omega
    · rw [if_pos (by omega)]
      omega

theorem waitForRanges_handsOutOnce (h : HandsOutOnce cfg { s with main := .waiting }) :
    HandsOutOnce cfg (waitForRanges s) := by
  rw [waitForRanges]
  split
  · exact h.of_same rfl rfl fun _ ↦ rfl
  · exact h.of_same rfl rfl fun _ ↦ rfl

theorem waitForRanges_noneToStart
    (h : s.cancelRequested = false → s.rangesInFlight = 0 → s.nextRangeToStart = cfg.totalRanges) :
    NoneToStart cfg (waitForRanges s) := by
  rw [waitForRanges]
  split
  · exact fun _ ↦ h
  · exact fun _ ↦ h

theorem notifyIfIdle_handsOutOnce (h : HandsOutOnce cfg s) : HandsOutOnce cfg (notifyIfIdle s) := by
  rw [notifyIfIdle]
  split
  · exact h.of_same rfl rfl fun _ ↦ rfl
  · exact h

theorem recordFinish_handsOutOnce (h : HandsOutOnce cfg s) {rangeIndex : ℕ}
    (hmem : rangeIndex ∈ s.fetches.running) (errorCode : ℤ) :
    HandsOutOnce cfg (recordFinish s rangeIndex errorCode) := by
  rw [recordFinish]
  split
  · exact h.of_le rfl rfl fun i ↦ Nat.add_le_add_right (WorkPool.account_drop_le _ _ _) _
  · refine h.of_same rfl rfl fun i ↦ ?_
    rw [account, account, WorkPool.account_finish hmem]

theorem handOutNext_handsOutOnce (h : HandsOutOnce cfg s) : HandsOutOnce cfg (handOutNext cfg s) := by
  rw [handOutNext]
  split
  · next hmore =>
    refine h.of_next hmore.2 rfl rfl fun i ↦ ?_
    simp only [account, WorkPool.account_accept]
    omega
  · exact notifyIfIdle_handsOutOnce h

theorem step_handsOutOnce (h : HandsOutOnce cfg s) {a : CdFetchAction} (hstep : step cfg s a = some t) :
    HandsOutOnce cfg t := by
  cases a with
  | mainSection =>
    rw [step] at hstep
    split at hstep
    · next hmain =>
      cases hstep
      rw [startLoopSection]
      split
      · next hroom =>
        refine h.of_next hroom.2 rfl rfl fun i ↦ ?_
        simp only [account, hmain, CdFetchThread.starting, List.count_nil, List.count_singleton, beq_iff_eq]
        omega
      · refine waitForRanges_handsOutOnce (h.of_same rfl rfl fun i ↦ ?_)
        rw [account, account, hmain]
        rfl
    · next rangeIndex hmain =>
      cases hstep
      refine waitForRanges_handsOutOnce (h.of_le rfl rfl fun i ↦ ?_)
      rw [account, account]
      exact Nat.add_le_add_left (Nat.zero_le _) _
    · cases hstep
  | mainStart ok =>
    rw [step] at hstep
    split at hstep
    · next rangeIndex hmain =>
      split at hstep
      · cases hstep
        refine h.of_same rfl rfl fun i ↦ ?_
        simp only [account, hmain, CdFetchThread.starting, WorkPool.account_enlist, List.count_nil,
          List.count_singleton, beq_iff_eq]
        omega
      · cases hstep
        refine h.of_same rfl rfl fun i ↦ ?_
        rw [account, account, hmain]
        rfl
    · cases hstep
  | wake =>
    rw [step] at hstep
    split at hstep
    · next hmain =>
      cases hstep
      refine waitForRanges_handsOutOnce (h.of_same rfl rfl fun i ↦ ?_)
      rw [account, account, hmain]
    · cases hstep
  | finishCallback rangeIndex errorCode =>
    rw [step] at hstep
    split at hstep
    · next hmem =>
      cases hstep
      exact handOutNext_handsOutOnce (recordFinish_handsOutOnce h hmem errorCode)
    · cases hstep
  | callbackStart rangeIndex ok =>
    rw [step] at hstep
    split at hstep
    · next hmem =>
      cases hstep
      refine h.of_same rfl rfl fun i ↦ ?_
      rw [account, account]
      split
      · rw [WorkPool.account_launched hmem]
      · rw [WorkPool.account_refuse hmem]
    · cases hstep
  | callbackStartFailed rangeIndex =>
    rw [step] at hstep
    split at hstep
    · cases hstep
      refine notifyIfIdle_handsOutOnce (h.of_le rfl rfl fun i ↦ ?_)
      exact Nat.add_le_add_right (WorkPool.account_report_le _ _ _) _
    · cases hstep

theorem notifyIfIdle_cancelRequested (s : CdFetchCoordinator) :
    (notifyIfIdle s).cancelRequested = s.cancelRequested := by
  rw [notifyIfIdle]
  split <;> rfl

theorem handOutNext_noneToStart (h : HandsOutOnce cfg s) : NoneToStart cfg (handOutNext cfg s) := by
  rw [handOutNext]
  split
  · exact fun _ _ hidle ↦ absurd hidle (Nat.succ_ne_zero _)
  · next hmore =>
    intro _ hok _
    have hcancel := notifyIfIdle_cancelRequested s
    have hnext : (notifyIfIdle s).nextRangeToStart = s.nextRangeToStart := by
      rw [notifyIfIdle]
      split <;> rfl
    have hle := h.next_le
    by_contra hne
    exact hmore ⟨hcancel ▸ hok, by omega⟩

theorem step_noneToStart (hmax : 0 < cfg.maxConcurrent) (hhands : HandsOutOnce cfg s)
    (h : NoneToStart cfg s) {a : CdFetchAction} (hstep : step cfg s a = some t) : NoneToStart cfg t := by
  cases a with
  | mainSection =>
    rw [step] at hstep
    split at hstep
    · cases hstep
      rw [startLoopSection]
      split
      · exact fun hpast ↦ hpast.elim
      · next hroom =>
        have hle := hhands.next_le
        exact waitForRanges_noneToStart fun _ hidle ↦ by omega
    · cases hstep
      exact waitForRanges_noneToStart fun hok ↦ (by cases hok)
    · cases hstep
  | mainStart ok =>
    rw [step] at hstep
    split at hstep
    · split at hstep
      · cases hstep
        exact fun hpast ↦ hpast.elim
      · cases hstep
        exact fun hpast ↦ hpast.elim
    · cases hstep
  | wake =>
    rw [step] at hstep
    split at hstep
    · next hmain =>
      cases hstep
      exact waitForRanges_noneToStart (h (by rw [hmain]; trivial))
    · cases hstep
  | finishCallback rangeIndex errorCode =>
    rw [step] at hstep
    split at hstep
    · next hmem =>
      cases hstep
      exact handOutNext_noneToStart (recordFinish_handsOutOnce hhands hmem errorCode)
    · cases hstep
  | callbackStart rangeIndex ok =>
    rw [step] at hstep
    split at hstep
    · cases hstep
      exact h
    · cases hstep
  | callbackStartFailed rangeIndex =>
    rw [step] at hstep
    split at hstep
    · cases hstep
      intro _ hok
      rw [callbackStartFailedSection, notifyIfIdle_cancelRequested] at hok
      cases hok
    · cases hstep

/-- Every range has been fetched once when the function returns success. -/
theorem run_fetchesOnce (hmax : 0 < cfg.maxConcurrent) {actions : List CdFetchAction}
    (hrun : run (step cfg) init actions = some s) (hreturned : s.main = .returned 0) :
    s.fetches.busy = 0 ∧ (∀ i < cfg.totalRanges, s.fetches.done.count i = 1) ∧
      ∀ i ∈ s.fetches.done, i < cfg.totalRanges := by
  obtain ⟨hsound, hkeeps⟩ := run_keepsError hrun
  obtain ⟨hhands, hnone⟩ := @run_always _ _ (step cfg) (fun s ↦ HandsOutOnce cfg s ∧ NoneToStart cfg s)
    (fun h hs ↦ ⟨step_handsOutOnce h.1 hs, step_noneToStart hmax h.1 h.2 hs⟩) init s actions
    ⟨handsOutOnce_init cfg, fun hpast ↦ hpast.elim⟩ hrun
  obtain ⟨(hidle : s.fetches.busy = 0), herror⟩ :=
    hkeeps.returned 0 (CdFetchThread.phase_eq_returned.mpr hreturned)
  have hok : s.cancelRequested = false := by
    cases hcancel : s.cancelRequested with
    | false => rfl
    | true => exact absurd rfl (herror hcancel)
  have hcounter : s.rangesInFlight = s.fetches.busy + s.main.starting.length := hsound.counter
  rw [hreturned, hidle] at hcounter
  have hnext := hnone (by rw [hreturned]; trivial) hok hcounter
  have haccount (i : ℕ) : s.account i = s.fetches.done.count i := by
    rw [account, WorkPool.account_eq_done hidle, hreturned]
    rfl
  refine ⟨hidle, fun i hi ↦ ?_, fun i hi ↦ ?_⟩
  · have hatMost := hhands.atMost i
    have hpos := hhands.noneLost hok i (hnext ▸ hi)
    rw [if_pos (hnext ▸ hi)] at hatMost
    rw [haccount] at hatMost hpos
    omega
  · have hatMost := hhands.atMost i
    have hpos := List.count_pos_iff.mpr hi
    rw [haccount, hnext] at hatMost
    split at hatMost
    · assumption
    · omega

/-- A callback has the error code that its request has come to. -/
def Reports (responses : ℕ → Response) (_ : CdFetchCoordinator) : CdFetchAction → Prop
  | .finishCallback rangeIndex errorCode => errorCode = (cdRangeFetched (responses rangeIndex)).errorCode
  | _ => True

instance (responses : ℕ → Response) (s : CdFetchCoordinator) : DecidablePred (Reports responses s)
  | .finishCallback rangeIndex errorCode =>
    inferInstanceAs (Decidable (errorCode = (cdRangeFetched (responses rangeIndex)).errorCode))
  | .mainSection | .mainStart _ | .wake | .callbackStart _ _ | .callbackStartFailed _ => isTrue trivial

/-- What the callbacks have stored for the ranges; nothing for one that has not been fetched. -/
def buffers (cfg : CdRangeFetch) (responses : ℕ → Response) (s : CdFetchCoordinator) : List (List UInt8) :=
  (List.range cfg.totalRanges).map fun i ↦
    if i ∈ s.fetches.done then (cdRangeFetched (responses i)).buffer.bytes else []

/-- Only what has come without an error is stored. -/
def StoresSound (responses : ℕ → Response) (s : CdFetchCoordinator) : Prop :=
  ∀ i ∈ s.fetches.done, (cdRangeFetched (responses i)).errorCode = 0

theorem StoresSound.of_done (h : StoresSound responses s) (hdone : t.fetches.done = s.fetches.done) :
    StoresSound responses t := by
  intro i hi
  exact h i (hdone ▸ hi)

theorem waitForRanges_done (s : CdFetchCoordinator) : (waitForRanges s).fetches = s.fetches := by
  rw [waitForRanges]
  split <;> rfl

theorem notifyIfIdle_fetches (s : CdFetchCoordinator) : (notifyIfIdle s).fetches = s.fetches := by
  rw [notifyIfIdle]
  split <;> rfl

theorem handOutNext_done (s : CdFetchCoordinator) : (handOutNext cfg s).fetches.done = s.fetches.done := by
  rw [handOutNext]
  split
  · rfl
  · rw [notifyIfIdle_fetches]

theorem step_storesSound (h : StoresSound responses s) {a : CdFetchAction} (hreports : Reports responses s a)
    (hstep : step cfg s a = some t) : StoresSound responses t := by
  cases a with
  | mainSection =>
    rw [step] at hstep
    split at hstep
    · cases hstep
      refine h.of_done ?_
      rw [startLoopSection]
      split
      · rfl
      · rw [waitForRanges_done]
    · cases hstep
      refine h.of_done ?_
      rw [launchFailedSection, waitForRanges_done]
    · cases hstep
  | mainStart ok =>
    rw [step] at hstep
    split at hstep
    · split at hstep
      · cases hstep
        exact h.of_done rfl
      · cases hstep
        exact h.of_done rfl
    · cases hstep
  | wake =>
    rw [step] at hstep
    split at hstep
    · cases hstep
      exact h.of_done (by rw [waitForRanges_done])
    · cases hstep
  | finishCallback rangeIndex errorCode =>
    rw [step] at hstep
    split at hstep
    · cases hstep
      have hcode : errorCode = (cdRangeFetched (responses rangeIndex)).errorCode := hreports
      intro i hi
      rw [handOutNext_done, recordFinish] at hi
      split at hi
      · exact h i hi
      · next hzero =>
        rcases List.mem_cons.mp hi with rfl | hi
        · exact hcode.symm.trans (not_not.mp hzero)
        · exact h i hi
    · cases hstep
  | callbackStart rangeIndex ok =>
    rw [step] at hstep
    split at hstep
    · cases hstep
      cases ok with
      | true => exact h.of_done rfl
      | false => exact h.of_done rfl
    · cases hstep
  | callbackStartFailed rangeIndex =>
    rw [step] at hstep
    split at hstep
    · cases hstep
      exact h.of_done (by rw [callbackStartFailedSection, notifyIfIdle_fetches]; rfl)
    · cases hstep

end CdFetchCoordinator

/-- A response for a range of the object, if it comes to its end. -/
def Response.AnswersRange (response : Response) (object : List UInt8) (range : CdPartRange) : Prop :=
  (cdRangeFetched response).errorCode = 0 →
    response.chunks.flatten = slice object range.start (range.rangeEnd + 1)

open CdFetchCoordinator in
/-- When `burst_downloader_fetch_cd_ranges` returns success, in whatever order its callbacks have come, every
range has been fetched once and the buffers hold their bytes. -/
theorem fetchCdRanges_buffers {cfg : CdRangeFetch} (hmax : 0 < cfg.maxConcurrent) {archive : List UInt8}
    {ranges : List CdPartRange} (hranges : cfg.totalRanges = ranges.length) {responses : ℕ → Response}
    (hanswers : ∀ i range, ranges[i]? = some range → (responses i).AnswersRange archive range)
    {actions : List CdFetchAction} (hreports : Meets (step cfg) (Reports responses) init actions)
    {s : CdFetchCoordinator} (hrun : run (step cfg) init actions = some s) (hreturned : s.main = .returned 0) :
    s.fetches.busy = 0 ∧ (∀ i < ranges.length, s.fetches.done.count i = 1) ∧
      s.buffers cfg responses = ranges.map fun r ↦ slice archive r.start (r.rangeEnd + 1) := by
  obtain ⟨hidle, honce, -⟩ := run_fetchesOnce hmax hrun hreturned
  have hsound : StoresSound responses s := by
    refine run_invariant (fun h hcond hs ↦ step_storesSound h hcond hs) ?_ hreports hrun
    intro i hi
    cases hi
  rw [hranges] at honce
  refine ⟨hidle, honce, ?_⟩
  apply List.ext_getElem?
  intro i
  rw [buffers, hranges, List.getElem?_map, List.getElem?_map]
  rcases Nat.lt_or_ge i ranges.length with hlt | hge
  · have hmem : i ∈ s.fetches.done := List.count_pos_iff.mp (by rw [honce i hlt]; exact Nat.one_pos)
    have hget : ranges[i]? = some ranges[i] := List.getElem?_eq_getElem hlt
    rw [List.getElem?_range hlt, hget, Option.map_some, Option.map_some, if_pos hmem, cdRangeFetched_bytes,
      hanswers i _ hget (hsound i hmem)]
  · rw [List.getElem?_eq_none (by rwa [List.length_range]), List.getElem?_eq_none hge]
    rfl

/-- Two ranges, of which the second one is started by the callback of the first one. -/
def twoRanges : List CdPartRange := [⟨0, 2, false, 0⟩, ⟨3, 5, false, 0⟩]

def rangeResponses : ℕ → Response
  | 0 => ⟨⟨206, none, none⟩, [[1, 2], [3]], 0⟩
  | _ => ⟨⟨206, none, none⟩, [[4, 5, 6]], 0⟩

def twoRangesActions : List CdFetchAction :=
  [.mainSection, .mainStart true, .mainSection, .finishCallback 0 0, .callbackStart 1 true, .finishCallback 1 0,
    .wake]

open CdFetchCoordinator in
theorem twoRanges_buffers : ∃ s, run (step ⟨1, 2⟩) init twoRangesActions = some s ∧ s.main = .returned 0 ∧
    s.buffers ⟨1, 2⟩ rangeResponses = [[1, 2, 3], [4, 5, 6]] := by
  obtain ⟨s, hrun⟩ : ∃ s, run (step ⟨1, 2⟩) init twoRangesActions = some s :=
    Option.isSome_iff_exists.mp (by decide +kernel)
  have hmain : (run (step ⟨1, 2⟩) init twoRangesActions).map (·.main) = some (.returned 0) := by decide +kernel
  rw [hrun] at hmain
  have hreturned := Option.some.inj hmain
  have hanswers : ∀ i range, twoRanges[i]? = some range →
      (rangeResponses i).AnswersRange [1, 2, 3, 4, 5, 6] range := by
    intro i range hget _
    match i, hget with
    | 0, rfl => rfl
    | 1, rfl => rfl
  obtain ⟨-, -, hbuffers⟩ := @fetchCdRanges_buffers ⟨1, 2⟩ Nat.one_pos _ _ rfl _ hanswers _
    (by decide +kernel) s
    hrun hreturned
  exact ⟨s, hrun, hreturned, hbuffers⟩

end Burst
