import Burst.CdRangeFetch
import Burst.DownloadExactlyOnce
import Burst.Dispatchers
import Burst.HybridSafety

namespace Burst

open Transition InFlight

/-- The range the main thread is starting. -/
def CdFetchThread.starting : CdFetchThread → List ℕ
  | .launching rangeIndex => [rangeIndex]
  | .launchFailed rangeIndex => [rangeIndex]
  | _ => []

theorem CdFetchThread.starting_length (main : CdFetchThread) :
    main.phase.starting.length = main.starting.length := by
  cases main <;> rfl

namespace CdFetchCoordinator

variable {cfg : CdRangeFetch} {s t : CdFetchCoordinator}

def gauge (s : CdFetchCoordinator) : Gauge where
  counter := s.rangesInFlight
  requests := s.fetches.busy + s.main.starting.length
  blocked := s.main = .waiting
  notified := s.notified
  callbacks := 0

/-- The actions that take a request off the counter. -/
def Decrements (s : CdFetchCoordinator) : CdFetchAction → Prop
  | .mainSection => ∃ rangeIndex, s.main = .launchFailed rangeIndex
  | .finishCallback _ _ => True
  | .callbackStartFailed _ => True
  | _ => False

theorem dispatcher_gauge (s : CdFetchCoordinator) : s.dispatcher.gauge = s.gauge := by
  simp only [Dispatcher.gauge, gauge, dispatcher, CdFetchThread.phase_isWaiting,
    CdFetchThread.starting_length]

theorem run_sound {actions : List CdFetchAction} (hrun : run (step cfg) init actions = some s) :
    s.gauge.Sound cfg.maxConcurrent := by
  have hinit : init.dispatcher.gauge.Sound cfg.maxConcurrent := .of_running rfl (Nat.zero_le _) rfl
  have hsound := (implements_dispatcher cfg).run_sound hinit hrun
  rwa [dispatcher_gauge] at hsound

theorem decrements_pos (h : s.gauge.Sound cfg.maxConcurrent) {a : CdFetchAction} (ha : Decrements s a)
    (hstep : step cfg s a = some t) : 0 < s.rangesInFlight := by
  rw [← dispatcher_gauge] at h
  apply Dispatcher.decrements_pos (step_moves hstep) h
  cases a with
  | mainSection =>
    obtain ⟨item, hs⟩ := ha
    exact ⟨item, congrArg CdFetchThread.phase hs⟩
  | finishCallback => exact ha
  | callbackStartFailed => exact ha
  | mainStart => exact ha.elim
  | wake => exact ha.elim
  | callbackStart => exact ha.elim

/-- The counter is right and bounded, the waiting thread is not left blocked, and no action takes a
request off an empty counter. -/
def AccountsInFlight (cfg : CdRangeFetch) (s : CdFetchCoordinator) : Prop :=
  s.gauge.Sound cfg.maxConcurrent ∧
    ∀ a t, step cfg s a = some t → Decrements s a → 0 < s.rangesInFlight

theorem run_accounts {actions : List CdFetchAction} (hrun : run (step cfg) init actions = some s) :
    AccountsInFlight cfg s :=
  ⟨run_sound hrun, fun _ _ hstep ha ↦ decrements_pos (run_sound hrun) ha hstep⟩

end CdFetchCoordinator

theorem ExtractThread.starting_length (main : ExtractThread) :
    main.phase.starting.length = main.starting.length := by
  cases main <;> rfl

namespace DownloadCoordinator

variable {cfg : ConcurrentExtraction} {s t : DownloadCoordinator}

def gauge (s : DownloadCoordinator) : Gauge where
  counter := s.partsInFlight
  requests := s.downloads.busy + s.main.starting.length
  blocked := s.main = .waiting
  notified := s.notified
  callbacks := 0

/-- The actions that take a request off the counter. -/
def Decrements (s : DownloadCoordinator) : DownloadAction → Prop
  | .mainSection => ∃ partIdx, s.main = .launchFailed partIdx
  | .finishCallback _ _ => True
  | .callbackStartFailed _ => True
  | _ => False

theorem dispatcher_gauge (s : DownloadCoordinator) : s.dispatcher.gauge = s.gauge := by
  simp only [Dispatcher.gauge, gauge, dispatcher, ExtractThread.phase_isWaiting,
    ExtractThread.starting_length]

theorem run_sound {actions : List DownloadAction} (hrun : run (step cfg) init actions = some s) :
    s.gauge.Sound cfg.maxConcurrent := by
  have hinit : init.dispatcher.gauge.Sound cfg.maxConcurrent := .of_running rfl (Nat.zero_le _) rfl
  have hsound := (implements_dispatcher cfg).run_sound hinit hrun
  rwa [dispatcher_gauge] at hsound

theorem decrements_pos (h : s.gauge.Sound cfg.maxConcurrent) {a : DownloadAction} (ha : Decrements s a)
    (hstep : step cfg s a = some t) : 0 < s.partsInFlight := by
  rw [← dispatcher_gauge] at h
  apply Dispatcher.decrements_pos (step_moves hstep) h
  cases a with
  | mainSection =>
    obtain ⟨item, hs⟩ := ha
    exact ⟨item, congrArg ExtractThread.phase hs⟩
  | finishCallback => exact ha
  | callbackStartFailed => exact ha
  | mainStart => exact ha.elim
  | wake => exact ha.elim
  | callbackStart => exact ha.elim
  | bodyPart => exact ha.elim

/-- The counter is right and bounded, the waiting thread is not left blocked, and no action takes a
request off an empty counter. -/
def AccountsInFlight (cfg : ConcurrentExtraction) (s : DownloadCoordinator) : Prop :=
  s.gauge.Sound cfg.maxConcurrent ∧
    ∀ a t, step cfg s a = some t → Decrements s a → 0 < s.partsInFlight

theorem run_accounts {actions : List DownloadAction} (hrun : run (step cfg) init actions = some s) :
    AccountsInFlight cfg s :=
  ⟨run_sound hrun, fun _ _ hstep ha ↦ decrements_pos (run_sound hrun) ha hstep⟩

end DownloadCoordinator

namespace HybridCoordinator

variable {cfg : HybridDownload} {s t : HybridCoordinator} {max : ℕ}

def gauge (s : HybridCoordinator) : Gauge where
  counter := s.inFlight
  requests := s.work.busy + s.main.starting.length
  blocked := s.main = .waiting
  notified := s.notified
  callbacks := s.assembling + s.returning

/-- The actions that take a request off the counter. -/
def Decrements (s : HybridCoordinator) : HybridAction → Prop
  | .mainSection => ∃ item prevInFlight, s.main = .launchFailed item prevInFlight
  | .finishCallback _ _ => True
  | .callbackStartFailed _ => True
  | _ => False

/-- An item is taken only below the limit, and is counted as it is. -/
theorem takeNext_gauge (cfg : HybridDownload) (s : HybridCoordinator) :
    match takeNext cfg s with
    | (some _, t) => s.inFlight < cfg.maxConcurrent ∧
        t.gauge = { s.gauge with counter := s.inFlight + 1 } ∧ t.work = s.work
    | (none, t) => t.gauge = s.gauge ∧ t.main = s.main := by
  have hspec := takeNext_spec cfg s
  have hroom : ∀ item t, takeNext cfg s = (some item, t) → s.inFlight < cfg.maxConcurrent := by
    intro item t h
    by_contra hge
    have hnone : takeNext cfg s = (none, s) := by
      rw [takeNext]
      split
      · rfl
      · exact if_pos (Nat.not_lt.mp hge)
    rw [hnone] at h
    cases h
  generalize htake : takeNext cfg s = r at hspec hroom
  cases hspec with
  | nothing early late hlate hwhy => exact ⟨rfl, rfl⟩
  | cdRange hok hlt => exact ⟨hroom _ _ rfl, rfl, rfl⟩
  | part part early late hok hnew hlate => exact ⟨hroom _ _ rfl, rfl, rfl⟩

theorem waitForWork_sound (hcounter : s.inFlight = s.work.busy)
    (hbounded : s.inFlight ≤ max) : (waitForWork s).gauge.Sound max := by
  rw [waitForWork]
  split
  · next hpos => exact .of_pos hcounter hbounded hpos
  · rw [afterWork]
    split
    · exact .of_running hcounter hbounded rfl
    · split
      · exact .of_running hcounter hbounded rfl
      · exact .of_running hcounter hbounded rfl

theorem startWork_sound (hcounter : s.inFlight = s.work.busy)
    (hbounded : s.inFlight ≤ cfg.maxConcurrent) :
    (startWork cfg s).gauge.Sound cfg.maxConcurrent := by
  rw [startWork]
  split
  · have htake := takeNext_gauge cfg s
    split
    · next item u hnext =>
      rw [hnext] at htake
      obtain ⟨hroom, hgauge, hwork⟩ := htake
      have hflight : u.inFlight = s.inFlight + 1 := congrArg Gauge.counter hgauge
      refine .of_running ?_ ?_ rfl
      · simp only [gauge, HybridThread.starting, List.length_singleton, hwork]
        omega
      · simp only [gauge]
        omega
    · next u hnext =>
      rw [hnext] at htake
      have hflight : u.inFlight = s.inFlight := congrArg Gauge.counter htake.1
      have hbusy : u.work.busy + u.main.starting.length =
          s.work.busy + s.main.starting.length := congrArg Gauge.requests htake.1
      rw [htake.2] at hbusy
      exact waitForWork_sound (by omega) (by omega)
  · exact waitForWork_sound hcounter hbounded

theorem afterStart_sound (hcounter : s.inFlight = s.work.busy)
    (hbounded : s.inFlight ≤ cfg.maxConcurrent) (prevInFlight : ℕ) :
    (afterStart cfg s prevInFlight).gauge.Sound cfg.maxConcurrent := by
  rw [afterStart]
  split
  · exact waitForWork_sound hcounter hbounded
  · exact startWork_sound hcounter hbounded

theorem notifyIfIdle_sound (hcounter : s.gauge.counter = s.gauge.requests)
    (hbounded : s.inFlight ≤ max) : (notifyIfIdle s).gauge.Sound max := by
  rw [notifyIfIdle]
  split
  · refine ⟨hcounter, hbounded, fun hblocked _ ↦ .inl ?_⟩
    have hmain : decide (s.main = .waiting) = true := hblocked
    simp [gauge, hmain]
  · next hne => exact .of_pos hcounter hbounded (Nat.pos_of_ne_zero hne)

theorem dispatchAndNotify_sound (hcounter : s.gauge.counter = s.gauge.requests)
    (hbounded : s.inFlight ≤ cfg.maxConcurrent) :
    (dispatchAndNotify cfg s).gauge.Sound cfg.maxConcurrent := by
  have htake := takeNext_gauge cfg s
  have hcounts : s.inFlight = s.work.busy + s.main.starting.length := hcounter
  rw [dispatchAndNotify]
  split
  · next item u hnext =>
    rw [hnext] at htake
    obtain ⟨hroom, hgauge, hwork⟩ := htake
    have hflight : u.inFlight = s.inFlight + 1 := congrArg Gauge.counter hgauge
    have hrequests : u.work.busy + u.main.starting.length =
        s.work.busy + s.main.starting.length := congrArg Gauge.requests hgauge
    refine .of_pos ?_ ?_ ?_
    · simp only [gauge, WorkPool.busy_accept]
      omega
    · simp only [gauge]
      omega
    · simp only [gauge]
      omega
  · next u hnext =>
    rw [hnext] at htake
    have hflight : u.inFlight = s.inFlight := congrArg Gauge.counter htake.1
    apply notifyIfIdle_sound
    · rw [htake.1]
      exact hcounter
    · omega

/-- What a finish callback has done before it dispatches or assembles. -/
theorem finished_gauge (hcounter : s.gauge.counter = s.gauge.requests) {item : HybridItem}
    (hmem : item ∈ s.work.running) {work : WorkPool HybridItem}
    (hwork : work = s.work.drop item ∨ work = s.work.finish item) :
    s.inFlight - 1 = work.busy + s.main.starting.length ∧ s.inFlight - 1 < s.inFlight := by
  have hcounts : s.inFlight = s.work.busy + s.main.starting.length := hcounter
  have hpos := WorkPool.busy_pos_of_running hmem
  have hdrop := WorkPool.busy_drop hmem
  have hfinish := WorkPool.busy_finish hmem
  rcases hwork with rfl | rfl <;> omega

theorem finishCallback_sound (h : s.gauge.Sound cfg.maxConcurrent) {item : HybridItem}
    (hmem : item ∈ s.work.running) {errorCode : ℤ}
    (hstep : step cfg s (.finishCallback item errorCode) = some t) :
    t.gauge.Sound cfg.maxConcurrent := by
  have hbounded : s.inFlight ≤ cfg.maxConcurrent := h.bounded
  obtain ⟨hdrop, hless⟩ := finished_gauge h.counter hmem (.inl rfl)
  obtain ⟨hfinish, -⟩ := finished_gauge h.counter hmem (.inr rfl)
  cases item with
  | cdRange rangeIndex =>
    simp only [step, if_pos hmem] at hstep
    cases hstep
    rw [cdRangeFinish]
    split
    · exact dispatchAndNotify_sound hdrop (by simp only; omega)
    · dsimp only
      split
      · -- the callback goes on to assemble the central directory
        exact ⟨hfinish, by simp only [gauge]; omega, fun _ _ ↦ .inr (by simp only [gauge]; omega)⟩
      · exact dispatchAndNotify_sound hfinish (by simp only; omega)
  | part partIndex =>
    simp only [step, if_pos hmem] at hstep
    cases hstep
    rw [partFinish]
    split
    · exact dispatchAndNotify_sound hdrop (by simp only; omega)
    · exact dispatchAndNotify_sound hfinish (by simp only; omega)

theorem assembledSection_sound (h : s.gauge.Sound cfg.maxConcurrent)
    (result : Option (CentralDirParseResult × List BodyDataSegment)) :
    (assembledSection cfg s result).gauge.Sound cfg.maxConcurrent := by
  cases result with
  | none => exact dispatchAndNotify_sound h.counter h.bounded
  | some r => exact dispatchAndNotify_sound h.counter h.bounded

theorem bodyLoopRound_gauge {p : ℕ} (hs : s.main = .bodyLoop p) (centralDirOffset : ℕ) (ok : Bool) :
    (bodyLoopRound cfg s centralDirOffset p ok).gauge = s.gauge := by
  have hsame (m : HybridThread) (hm : m.starting = []) (hblocked : m ≠ .waiting)
      (partComplete fromSegments : List ℕ) :
      gauge { s with main := m, partComplete := partComplete, fromSegments := fromSegments } =
        s.gauge := by
    have hbody : (HybridThread.bodyLoop p).starting = [] := rfl
    simp [gauge, hs, hm, hblocked, hbody]
  rw [bodyLoopRound]
  split
  · exact hsame (.returned 0) rfl (by simp) s.partComplete s.fromSegments
  · split
    · exact hsame (.bodyLoop (p + 1)) rfl (by simp) s.partComplete s.fromSegments
    · split
      · exact hsame (.bodyLoop (p + 1)) rfl (by simp) _ _
      · exact hsame (.returned (-1)) rfl (by simp) s.partComplete s.fromSegments

theorem mainSection_sound (h : s.gauge.Sound cfg.maxConcurrent)
    (hstep : step cfg s .mainSection = some t) : t.gauge.Sound cfg.maxConcurrent := by
  have hcounts : s.inFlight = s.work.busy + s.main.starting.length := h.counter
  have hbounded : s.inFlight ≤ cfg.maxConcurrent := h.bounded
  rw [step] at hstep
  split at hstep
  · next hs =>
    cases hstep
    simp only [hs, HybridThread.starting, List.length_nil, Nat.add_zero] at hcounts
    exact startWork_sound hcounts hbounded
  · next prevInFlight hs =>
    cases hstep
    simp only [hs, HybridThread.starting, List.length_nil, Nat.add_zero] at hcounts
    exact afterStart_sound hcounts hbounded prevInFlight
  · next item prevInFlight hs =>
    cases hstep
    simp only [hs, HybridThread.starting, List.length_singleton] at hcounts
    refine afterStart_sound ?_ ?_ prevInFlight
    · simp only [startFailed]
      omega
    · simp only [startFailed]
      omega
  · cases hstep

theorem mainStart_sound (h : s.gauge.Sound cfg.maxConcurrent) {ok : Bool}
    (hstep : step cfg s (.mainStart ok) = some t) : t.gauge.Sound cfg.maxConcurrent := by
  have hcounts : s.inFlight = s.work.busy + s.main.starting.length := h.counter
  have hbounded : s.inFlight ≤ cfg.maxConcurrent := h.bounded
  rw [step] at hstep
  split at hstep
  · next item prevInFlight hs =>
    simp only [hs, HybridThread.starting, List.length_singleton] at hcounts
    split at hstep
    · cases hstep
      refine .of_running ?_ hbounded rfl
      simp only [gauge, WorkPool.busy_enlist, HybridThread.starting, List.length_nil]
      omega
    · cases hstep
      exact .of_running hcounts hbounded rfl
  · cases hstep

theorem callbackStart_sound (h : s.gauge.Sound cfg.maxConcurrent) {item : HybridItem} {ok : Bool}
    (hstep : step cfg s (.callbackStart item ok) = some t) : t.gauge.Sound cfg.maxConcurrent := by
  have hcounts : s.inFlight = s.work.busy + s.main.starting.length := h.counter
  rw [step] at hstep
  by_cases hmem : item ∈ s.work.launching
  · rw [if_pos hmem] at hstep
    have hpos := WorkPool.busy_pos_of_launching hmem
    have hlaunched := WorkPool.busy_launched hmem
    have hrefuse := WorkPool.busy_refuse hmem
    split at hstep
    · cases hstep
      refine .of_pos ?_ h.bounded ?_
      · simp only [gauge]
        omega
      · simp only [gauge]
        omega
    · cases hstep
      refine .of_pos ?_ h.bounded ?_
      · simp only [gauge]
        omega
      · simp only [gauge]
        omega
  · rw [if_neg hmem] at hstep
    cases hstep

theorem step_sound (h : s.gauge.Sound cfg.maxConcurrent) {a : HybridAction}
    (hstep : step cfg s a = some t) : t.gauge.Sound cfg.maxConcurrent := by
  have hcounts : s.inFlight = s.work.busy + s.main.starting.length := h.counter
  have hbounded : s.inFlight ≤ cfg.maxConcurrent := h.bounded
  cases a with
  | mainSection => exact mainSection_sound h hstep
  | mainStart ok => exact mainStart_sound h hstep
  | wake =>
    rw [step] at hstep
    split_ifs at hstep with hs
    cases hstep
    simp only [hs, HybridThread.starting, List.length_nil, Nat.add_zero] at hcounts
    exact waitForWork_sound hcounts hbounded
  | finishCallback item errorCode =>
    by_cases hmem : item ∈ s.work.running
    · exact finishCallback_sound h hmem hstep
    · cases item <;> simp only [step, if_neg hmem] at hstep <;> cases hstep
  | assembled result =>
    rw [step] at hstep
    split_ifs at hstep with hassembling
    cases hstep
    exact assembledSection_sound h result
  | callbackStart item ok => exact callbackStart_sound h hstep
  | callbackStartFailed item =>
    rw [step] at hstep
    split_ifs at hstep with hmem
    cases hstep
    have hreport := WorkPool.busy_report hmem
    have hpos := WorkPool.busy_pos_of_refused hmem
    apply notifyIfIdle_sound
    · simp only [gauge, startFailed]
      omega
    · simp only [startFailed]
      omega
  | callbackReturn =>
    rw [step] at hstep
    split_ifs at hstep with hreturning
    cases hstep
    exact notifyIfIdle_sound h.counter hbounded
  | bodyPart ok =>
    simp only [step] at hstep
    split at hstep
    · next p fullCd hs hcd =>
      cases hstep
      rw [bodyLoopRound_gauge hs]
      exact h
    · cases hstep

theorem decrements_pos (h : s.gauge.Sound max) {a : HybridAction} (ha : Decrements s a)
    (hstep : step cfg s a = some t) : 0 < s.inFlight := by
  apply h.pos
  cases a with
  | mainSection =>
    obtain ⟨item, prevInFlight, hs⟩ := ha
    simp [gauge, hs, HybridThread.starting]
  | finishCallback item errorCode =>
    by_cases hmem : item ∈ s.work.running
    · exact Nat.add_pos_left (WorkPool.busy_pos_of_running hmem) _
    · cases item <;> simp only [step, if_neg hmem] at hstep <;> cases hstep
  | callbackStartFailed item =>
    rw [step] at hstep
    split_ifs at hstep with hmem
    exact Nat.add_pos_left (WorkPool.busy_pos_of_refused hmem) _
  | mainStart ok => exact ha.elim
  | wake => exact ha.elim
  | assembled result => exact ha.elim
  | callbackStart item ok => exact ha.elim
  | callbackReturn => exact ha.elim
  | bodyPart ok => exact ha.elim

/-- The counter is right and bounded, the waiting thread is not left blocked, and no action takes a
request off an empty counter. -/
def AccountsInFlight (cfg : HybridDownload) (s : HybridCoordinator) : Prop :=
  s.gauge.Sound cfg.maxConcurrent ∧
    ∀ a t, step cfg s a = some t → Decrements s a → 0 < s.inFlight

theorem run_accounts {actions : List HybridAction}
    (hrun : run (step cfg) (init cfg) actions = some s) : AccountsInFlight cfg s := by
  have hinit : (init cfg).gauge.Sound cfg.maxConcurrent := .of_running rfl (Nat.zero_le _) rfl
  have hsound : s.gauge.Sound cfg.maxConcurrent := run_always (fun h hs ↦ step_sound h hs) hinit hrun
  exact ⟨hsound, fun a t hstep ha ↦ decrements_pos hsound ha hstep⟩

end HybridCoordinator

/-- In every state that the three coordinators reach, whatever fails, the counter of requests in flight
counts those being started or not reported finished, is at most the limit and positive whenever it is
to go down, and the main thread is blocked with nothing in flight only while a notification is pending
or a callback is still running. -/
theorem coordinators_account_inFlight :
    (∀ (cfg : CdRangeFetch) (actions : List CdFetchAction) (s : CdFetchCoordinator),
      run (CdFetchCoordinator.step cfg) CdFetchCoordinator.init actions = some s →
        CdFetchCoordinator.AccountsInFlight cfg s) ∧
    (∀ (cfg : ConcurrentExtraction) (actions : List DownloadAction) (s : DownloadCoordinator),
      run (DownloadCoordinator.step cfg) DownloadCoordinator.init actions = some s →
        DownloadCoordinator.AccountsInFlight cfg s) ∧
    ∀ (cfg : HybridDownload) (actions : List HybridAction) (s : HybridCoordinator),
      run (HybridCoordinator.step cfg) (HybridCoordinator.init cfg) actions = some s →
        HybridCoordinator.AccountsInFlight cfg s :=
  ⟨fun _ _ _ ↦ CdFetchCoordinator.run_accounts, fun _ _ _ ↦ DownloadCoordinator.run_accounts,
    fun _ _ _ ↦ HybridCoordinator.run_accounts⟩

/-- Three ranges, two at a time; the second one cannot be started. -/
def failedStartActions : List CdFetchAction :=
  [.mainSection, .mainStart true, .mainSection, .mainStart false, .mainSection,
    .finishCallback 0 0]

theorem failedStart_accounts :
    (∃ s, run (CdFetchCoordinator.step ⟨2, 3⟩) CdFetchCoordinator.init failedStartActions = some s ∧
      CdFetchCoordinator.AccountsInFlight ⟨2, 3⟩ s) ∧
    (∃ s, run (DownloadCoordinator.step rangeSample) DownloadCoordinator.init rangeSampleActions =
      some s ∧ DownloadCoordinator.AccountsInFlight rangeSample s) ∧
    ∃ s, run (HybridCoordinator.step (hybridSample 2)) (HybridCoordinator.init (hybridSample 2))
      hybridSampleActions = some s ∧ HybridCoordinator.AccountsInFlight (hybridSample 2) s := by
  obtain ⟨s, hs⟩ : ∃ s, run (CdFetchCoordinator.step ⟨2, 3⟩) CdFetchCoordinator.init
      failedStartActions = some s := Option.isSome_iff_exists.mp (by decide +kernel)
  obtain ⟨t, ht⟩ : ∃ t, run (DownloadCoordinator.step rangeSample) DownloadCoordinator.init
      rangeSampleActions = some t := Option.isSome_iff_exists.mp (by decide +kernel)
  obtain ⟨u, hu⟩ : ∃ u, run (HybridCoordinator.step (hybridSample 2))
      (HybridCoordinator.init (hybridSample 2)) hybridSampleActions = some u :=
    Option.isSome_iff_exists.mp (by decide +kernel)
  obtain ⟨hfetch, hextract, hhybrid⟩ := coordinators_account_inFlight
  exact ⟨⟨s, hs, hfetch _ _ s hs⟩, ⟨t, ht, hextract _ _ t ht⟩, ⟨u, hu, hhybrid _ _ u hu⟩⟩

end Burst
