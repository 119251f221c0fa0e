import Burst.InFlightAccounting

namespace Burst

open Transition InFlight

namespace HybridCoordinator

variable {cfg : HybridDownload} {s t : HybridCoordinator}

/-- The items that are being started. -/
def beingStarted (s : HybridCoordinator) : ℕ := s.main.starting.length + s.work.launching.length

/-- After an error no action decides to start an item. -/
def StartsNone (cfg : HybridDownload) (s : HybridCoordinator) (a : HybridAction) : Prop :=
  s.cancelRequested = true → ∀ t, step cfg s a = some t → t.beingStarted ≤ s.beingStarted

/-- The main thread takes the lock and finds nothing in flight and nothing to start. -/
def EndsWait (cfg : HybridDownload) (s : HybridCoordinator) : HybridAction → Prop
  | .mainSection =>
    match s.main with
    | .startLoop => s.inFlight = 0 ∧ (takeNext cfg s).1 = none
    | .launched prevInFlight =>
      s.inFlight = 0 ∧ (prevInFlight = 0 ∨ (takeNext cfg s).1 = none)
    | .launchFailed _ _ => s.inFlight = 1
    | _ => False
  | .wake => s.inFlight = 0
  | _ => False

/-- The main thread does not stop waiting while a callback assembles the central directory. -/
def KeepsWaiting (cfg : HybridDownload) (s : HybridCoordinator) (a : HybridAction) : Prop :=
  0 < s.assembling → ¬ EndsWait cfg s a

instance decidableEndsWait (cfg : HybridDownload) (s : HybridCoordinator) :
    DecidablePred (EndsWait cfg s)
  | .mainSection => by
    unfold EndsWait
    cases s.main <;> infer_instance
  | .wake => inferInstanceAs (Decidable (_ = _))
  | .mainStart _ => isFalse id
  | .finishCallback _ _ => isFalse id
  | .assembled _ => isFalse id
  | .callbackStart _ _ => isFalse id
  | .callbackStartFailed _ => isFalse id
  | .callbackReturn => isFalse id
  | .bodyPart _ => isFalse id

instance (cfg : HybridDownload) (s : HybridCoordinator) : DecidablePred (KeepsWaiting cfg s) :=
  fun _ ↦ inferInstanceAs (Decidable (_ → ¬ _))

/-- A wake-up without a notification. -/
def Spurious (s : HybridCoordinator) (a : HybridAction) : Prop := a = .wake ∧ s.notified = false

instance (s : HybridCoordinator) (a : HybridAction) : Decidable (Spurious s a) :=
  inferInstanceAs (Decidable (_ ∧ _))

/-- The function has returned an error. -/
def Failed (s : HybridCoordinator) : Prop := ∃ result, s.main = .returned result ∧ result ≠ 0

/-- More than the actions of callbacks that are left after an error. -/
def callbackWeight (s : HybridCoordinator) : ℕ := s.work.weight + 2 * s.assembling + 2 * s.returning

/-- More than the actions that are left after an error, but for wake-ups without a notification. -/
def weight (s : HybridCoordinator) : ℕ :=
  s.callbackWeight + s.notified.toNat +
    match s.main with
    | .startLoop => 2
    | .launching _ _ => 6
    | .launched _ => 2
    | .launchFailed _ _ => 2
    | .waiting => 1
    | .bodyLoop _ => 0
    | .returned _ => 0

/-- An error is not forgotten, and the function goes on or returns with nothing in flight. -/
structure KeepsError (s : HybridCoordinator) : Prop where
  error : s.cancelRequested = true → s.firstErrorCode ≠ 0
  past : s.main.Past → s.work.busy = 0 ∧ s.assembling = 0
  returned : ∀ result, s.main = .returned result → s.cancelRequested = true → result ≠ 0
  bodyLoop : ∀ p, s.main = .bodyLoop p → s.cancelRequested = false

/-- While an item is not over, or a callback assembles, the function waits. -/
theorem KeepsError.of_busy (h : KeepsError s) (hbusy : 0 < s.work.busy ∨ 0 < s.assembling)
    (hmain : t.main = s.main) (herror : t.cancelRequested = true → t.firstErrorCode ≠ 0) :
    KeepsError t := by
  have hnot : ¬ s.main.Past := by
    intro hpast
    obtain ⟨hidle, hassembling⟩ := h.past hpast
    omega
  refine ⟨herror, fun hpast ↦ absurd (hmain ▸ hpast) hnot, fun result hresult ↦ ?_, fun p hp ↦ ?_⟩
  · exact absurd (show s.main.Past by rw [← hmain, hresult]; trivial) hnot
  · exact absurd (show s.main.Past by rw [← hmain, hp]; trivial) hnot

theorem takeNext_cancelled (cfg : HybridDownload) (hcancel : s.cancelRequested = true) :
    takeNext cfg s = (none, s) := by
  rw [takeNext, if_pos hcancel]

theorem notifyIfIdle_spec (s : HybridCoordinator) : (notifyIfIdle s).beingStarted = s.beingStarted ∧
    (notifyIfIdle s).main = s.main ∧ (notifyIfIdle s).cancelRequested = s.cancelRequested ∧
    (notifyIfIdle s).firstErrorCode = s.firstErrorCode ∧
    (notifyIfIdle s).weight ≤ s.weight + 1 := by
  rw [notifyIfIdle]
  split
  · refine ⟨rfl, rfl, rfl, rfl, ?_⟩
    simp only [weight, callbackWeight]
    have hbit := Bool.toNat_le (s.notified || decide (s.main = .waiting))
    omega
  · exact ⟨rfl, rfl, rfl, rfl, by omega⟩

/-- After an error a callback that is done starts nothing. -/
theorem dispatchAndNotify_cancelled (cfg : HybridDownload) (hcancel : s.cancelRequested = true) :
    dispatchAndNotify cfg s = notifyIfIdle s := by
  rw [dispatchAndNotify, takeNext_cancelled cfg hcancel]

/-- The main thread is done with the start loop after an error. -/
theorem waitForWork_spec (hcancel : s.cancelRequested = true) :
    (waitForWork s).beingStarted = s.work.launching.length ∧
      (waitForWork s).cancelRequested = true ∧
      (waitForWork s).weight ≤ s.callbackWeight + 1 + s.notified.toNat ∧
      (s.notified = true → (waitForWork s).weight ≤ s.callbackWeight + 1) := by
  rw [waitForWork]
  split
  · refine ⟨by simp [beingStarted, HybridThread.starting], hcancel, ?_, fun _ ↦ le_rfl⟩
    exact Nat.le_add_right _ _
  · rw [afterWork, if_pos hcancel]
    refine ⟨by simp [beingStarted, HybridThread.starting], hcancel, ?_, ?_⟩
    · simp only [weight, callbackWeight]
      omega
    · intro hnotified
      simp [weight, callbackWeight, hnotified]

theorem startWork_cancelled (cfg : HybridDownload) (hcancel : s.cancelRequested = true) :
    startWork cfg s = waitForWork s := by
  rw [startWork, if_neg (by simp [hcancel])]

theorem afterStart_cancelled (cfg : HybridDownload) (hcancel : s.cancelRequested = true)
    (prevInFlight : ℕ) : afterStart cfg s prevInFlight = waitForWork s := by
  rw [afterStart, startWork_cancelled cfg hcancel, ite_self]

theorem mainSection_cancelled (hcancel : s.cancelRequested = true)
    (hstep : step cfg s .mainSection = some t) :
    t.cancelRequested = true ∧ t.beingStarted ≤ s.beingStarted ∧ t.weight < s.weight := by
  rw [step] at hstep
  split at hstep
  · next hs =>
    cases hstep
    rw [startWork_cancelled cfg hcancel]
    obtain ⟨hstarted, hkept, hweight, -⟩ := waitForWork_spec hcancel
    refine ⟨hkept, ?_, lt_of_le_of_lt hweight ?_⟩
    · rw [hstarted, beingStarted]
      omega
    · simp only [weight, hs]
      omega
  · next prevInFlight hs =>
    cases hstep
    rw [afterStart_cancelled cfg hcancel]
    obtain ⟨hstarted, hkept, hweight, -⟩ := waitForWork_spec hcancel
    refine ⟨hkept, ?_, lt_of_le_of_lt hweight ?_⟩
    · rw [hstarted, beingStarted]
      omega
    · simp only [weight, hs]
      omega
  · next item prevInFlight hs =>
    cases hstep
    have hset : (startFailed s).cancelRequested = true := rfl
    rw [afterStart_cancelled cfg hset]
    obtain ⟨hstarted, hkept, hweight, -⟩ := waitForWork_spec hset
    refine ⟨hkept, ?_, lt_of_le_of_lt hweight ?_⟩
    · rw [hstarted]
      exact Nat.le_add_left _ _
    · simp only [weight, hs, callbackWeight, startFailed]
      omega
  · cases hstep

theorem finishCallback_cancelled (hcancel : s.cancelRequested = true) {item : HybridItem}
    {errorCode : ℤ} (hstep : step cfg s (.finishCallback item errorCode) = some t) :
    t.cancelRequested = true ∧ t.beingStarted ≤ s.beingStarted ∧ t.weight < s.weight := by
  by_cases hmem : item ∈ s.work.running
  · have hdrop := WorkPool.weight_drop hmem
    have hfinish := WorkPool.weight_finish hmem
    have hnotify (u : HybridCoordinator) (hset : u.cancelRequested = true)
        (hstarted : u.beingStarted = s.beingStarted) (hweight : u.weight + 3 = s.weight) :
        (dispatchAndNotify cfg u).cancelRequested = true ∧
          (dispatchAndNotify cfg u).beingStarted ≤ s.beingStarted ∧
          (dispatchAndNotify cfg u).weight < s.weight := by
      obtain ⟨hstarted', -, hkept, -, hweight'⟩ := notifyIfIdle_spec u
      rw [dispatchAndNotify_cancelled cfg hset]
      exact ⟨hkept.trans hset, by omega, by omega⟩
    cases item with
    | cdRange rangeIndex =>
      simp only [step, if_pos hmem] at hstep
      cases hstep
      rw [cdRangeFinish]
      split
      · apply hnotify
        · rfl
        · rfl
        · simp only [weight, callbackWeight, recordError]
          omega
      · dsimp only
        split
        · refine ⟨hcancel, le_rfl, ?_⟩
          simp only [weight, callbackWeight]
          omega
        · apply hnotify
          · exact hcancel
          · rfl
          · simp only [weight, callbackWeight]
            omega
    | part partIndex =>
      simp only [step, if_pos hmem] at hstep
      cases hstep
      rw [partFinish]
      split
      · apply hnotify
        · rfl
        · rfl
        · simp only [weight, callbackWeight, recordError]
          omega
      · apply hnotify
        · exact hcancel
        · rfl
        · simp only [weight, callbackWeight]
          omega
  · cases item <;> simp only [step, if_neg hmem] at hstep <;> cases hstep

theorem assembledSection_cancelled (hcancel : s.cancelRequested = true) (hpos : 0 < s.assembling)
    (result : Option (CentralDirParseResult × List BodyDataSegment)) :
    (assembledSection cfg s result).cancelRequested = true ∧
      (assembledSection cfg s result).beingStarted ≤ s.beingStarted ∧
      (assembledSection cfg s result).weight < s.weight := by
  have hnotify (u : HybridCoordinator) (hset : u.cancelRequested = true)
      (hstarted : u.beingStarted = s.beingStarted) (hweight : u.weight + 2 = s.weight) :
      (dispatchAndNotify cfg u).cancelRequested = true ∧
        (dispatchAndNotify cfg u).beingStarted ≤ s.beingStarted ∧
        (dispatchAndNotify cfg u).weight < s.weight := by
    obtain ⟨hstarted', -, hkept, -, hweight'⟩ := notifyIfIdle_spec u
    rw [dispatchAndNotify_cancelled cfg hset]
    exact ⟨hkept.trans hset, by omega, by omega⟩
  cases result with
  | none =>
    apply hnotify
    · rfl
    · rfl
    · simp only [weight, callbackWeight]
      omega
  | some r =>
    apply hnotify
    · exact hcancel
    · rfl
    · simp only [weight, callbackWeight]
      omega

/-- After an error an action starts no item and, unless it is a wake-up without a notification, comes
nearer to the end. -/
theorem step_cancelled (h : KeepsError s) (hcancel : s.cancelRequested = true) {a : HybridAction}
    (hstep : step cfg s a = some t) : t.cancelRequested = true ∧ t.beingStarted ≤ s.beingStarted ∧
      (t.weight < s.weight ∨ Spurious s a ∧ t.weight ≤ s.weight) := by
  cases a with
  | mainSection =>
    obtain ⟨hkept, hstarted, hweight⟩ := mainSection_cancelled hcancel hstep
    exact ⟨hkept, hstarted, .inl hweight⟩
  | mainStart ok =>
    rw [step] at hstep
    split at hstep
    · next item prevInFlight hs =>
      split at hstep
      · cases hstep
        refine ⟨hcancel, ?_, .inl ?_⟩
        · simp [beingStarted, hs, HybridThread.starting, WorkPool.enlist]
        · simp only [weight, callbackWeight, hs, WorkPool.weight_enlist]
          omega
      · cases hstep
        refine ⟨hcancel, ?_, .inl ?_⟩
        · simp [beingStarted, hs, HybridThread.starting]
        · simp only [weight, callbackWeight, hs]
          omega
    · cases hstep
  | wake =>
    rw [step] at hstep
    split_ifs at hstep with hs
    cases hstep
    obtain ⟨hstarted, hkept, hweight, hnotify⟩ := waitForWork_spec hcancel
    refine ⟨hkept, ?_, ?_⟩
    · rw [hstarted, beingStarted]
      omega
    · have hw : s.weight = s.callbackWeight + s.notified.toNat + 1 := by
        simp only [weight, hs]
      cases hnotified : s.notified with
      | true =>
        have hless := hnotify hnotified
        rw [hnotified, Bool.toNat_true] at hw
        exact .inl (by omega)
      | false => exact .inr ⟨⟨rfl, hnotified⟩, by omega⟩
  | finishCallback item errorCode =>
    obtain ⟨hkept, hstarted, hweight⟩ := finishCallback_cancelled hcancel hstep
    exact ⟨hkept, hstarted, .inl hweight⟩
  | assembled result =>
    rw [step] at hstep
    split_ifs at hstep with hpos
    cases hstep
    obtain ⟨hkept, hstarted, hweight⟩ := @assembledSection_cancelled cfg s hcancel hpos result
    exact ⟨hkept, hstarted, .inl hweight⟩
  | callbackStart item ok =>
    rw [step] at hstep
    by_cases hmem : item ∈ s.work.launching
    · rw [if_pos hmem] at hstep
      have hlaunched := WorkPool.weight_launched hmem
      have hrefuse := WorkPool.weight_refuse hmem
      have hlen := WorkPool.length_erase_of_mem hmem
      split at hstep
      · cases hstep
        refine ⟨hcancel, ?_, .inl ?_⟩
        · simp only [beingStarted, WorkPool.launched]
          omega
        · simp only [weight, callbackWeight]
          omega
      · cases hstep
        refine ⟨hcancel, ?_, .inl ?_⟩
        · simp only [beingStarted, WorkPool.refuse]
          omega
        · simp only [weight, callbackWeight]
          omega
    · rw [if_neg hmem] at hstep
      cases hstep
  | callbackStartFailed item =>
    rw [step] at hstep
    split_ifs at hstep with hmem
    cases hstep
    have hreport := WorkPool.weight_report hmem
    obtain ⟨hstarted, -, hkept, -, hweight⟩ :=
      notifyIfIdle_spec { startFailed s with work := s.work.report item }
    refine ⟨hkept, hstarted.le, .inl (lt_of_le_of_lt hweight ?_)⟩
    simp only [weight, callbackWeight, startFailed]
    omega
  | callbackReturn =>
    rw [step] at hstep
    split_ifs at hstep with hpos
    cases hstep
    obtain ⟨hstarted, -, hkept, -, hweight⟩ :=
      notifyIfIdle_spec { s with returning := s.returning - 1 }
    refine ⟨hkept.trans hcancel, hstarted.le, .inl (lt_of_le_of_lt hweight ?_)⟩
    simp only [weight, callbackWeight]
    omega
  | bodyPart ok =>
    simp only [step] at hstep
    split at hstep
    · next p fullCd hs hcd =>
      rw [h.bodyLoop p hs] at hcancel
      cases hcancel
    · cases hstep

/-- The code starts no item after an error. -/
theorem startsNone (h : KeepsError s) (a : HybridAction) : StartsNone cfg s a :=
  fun hcancel _ hstep ↦ (step_cancelled h hcancel hstep).2.1

theorem waitForWork_keepsError (herror : s.cancelRequested = true → s.firstErrorCode ≠ 0)
    (hcounter : s.inFlight = s.work.busy) (hwait : s.inFlight = 0 → s.assembling = 0) :
    KeepsError (waitForWork s) := by
  rw [waitForWork]
  split
  · exact ⟨herror, (by rintro ⟨⟩), (by rintro _ ⟨⟩), (by rintro _ ⟨⟩)⟩
  · next hidle =>
    have hzero : s.inFlight = 0 := by omega
    have hbusy : s.work.busy = 0 ∧ s.assembling = 0 := ⟨by omega, hwait hzero⟩
    rw [afterWork]
    split
    · next hcancel =>
      refine ⟨herror, fun _ ↦ hbusy, fun result hresult _ ↦ ?_, (by rintro _ ⟨⟩)⟩
      cases hresult
      exact herror hcancel
    · next hcancel =>
      split
      · exact ⟨herror, fun _ ↦ hbusy, (by rintro _ ⟨⟩), fun _ _ ↦ by simpa using hcancel⟩
      · exact ⟨herror, fun _ ↦ hbusy, fun _ _ hset ↦ absurd hset hcancel, (by rintro _ ⟨⟩)⟩

/-- At the limit, as after an error, nothing is taken. -/
theorem takeNext_full (h : ¬ (s.inFlight < cfg.maxConcurrent ∧ s.cancelRequested = false)) :
    (takeNext cfg s).1 = none := by
  rw [takeNext]
  split
  · rfl
  · next hcancel =>
    rw [if_pos (not_lt.mp fun hroom ↦ h ⟨hroom, by simpa using hcancel⟩)]

theorem startWork_keepsError (herror : s.cancelRequested = true → s.firstErrorCode ≠ 0)
    (hcounter : s.inFlight = s.work.busy)
    (hwait : s.inFlight = 0 → (takeNext cfg s).1 = none → s.assembling = 0) :
    KeepsError (startWork cfg s) := by
  rw [startWork]
  split
  · have hspec := takeNext_spec cfg s
    generalize takeNext cfg s = r at hspec hwait
    cases hspec with
    | nothing early late hlate hwhy =>
      exact waitForWork_keepsError herror hcounter fun hzero ↦ hwait hzero rfl
    | cdRange hok hlt => exact ⟨herror, (by rintro ⟨⟩), (by rintro _ ⟨⟩), (by rintro _ ⟨⟩)⟩
    | part part early late hok hnew hlate =>
      exact ⟨herror, (by rintro ⟨⟩), (by rintro _ ⟨⟩), (by rintro _ ⟨⟩)⟩
  · next hfull => exact waitForWork_keepsError herror hcounter fun hzero ↦ hwait hzero (takeNext_full hfull)

theorem afterStart_keepsError (herror : s.cancelRequested = true → s.firstErrorCode ≠ 0)
    (hcounter : s.inFlight = s.work.busy) {prevInFlight : ℕ}
    (hwait : s.inFlight = 0 → prevInFlight = 0 ∨ (takeNext cfg s).1 = none → s.assembling = 0) :
    KeepsError (afterStart cfg s prevInFlight) := by
  rw [afterStart]
  split
  · next hsame =>
    exact waitForWork_keepsError herror hcounter fun hzero ↦
      hwait hzero (.inl (hsame.symm.trans hzero))
  · exact startWork_keepsError herror hcounter fun hzero hnone ↦ hwait hzero (.inr hnone)

theorem mainSection_keepsError (hsound : s.gauge.Sound cfg.maxConcurrent) (h : KeepsError s)
    (hkeeps : KeepsWaiting cfg s .mainSection) (hstep : step cfg s .mainSection = some t) :
    KeepsError t := by
  have hcounts : s.inFlight = s.work.busy + s.main.starting.length := hsound.counter
  rw [step] at hstep
  split at hstep
  · next hs =>
    cases hstep
    simp only [hs, HybridThread.starting, List.length_nil, Nat.add_zero] at hcounts
    refine startWork_keepsError h.error hcounts fun hzero hnone ↦ ?_
    by_contra hassembling
    refine hkeeps (Nat.pos_of_ne_zero hassembling) ?_
    rw [EndsWait, hs]
    exact ⟨hzero, hnone⟩
  · next prevInFlight hs =>
    cases hstep
    simp only [hs, HybridThread.starting, List.length_nil, Nat.add_zero] at hcounts
    refine afterStart_keepsError h.error hcounts fun hzero hnone ↦ ?_
    by_contra hassembling
    refine hkeeps (Nat.pos_of_ne_zero hassembling) ?_
    rw [EndsWait, hs]
    exact ⟨hzero, hnone⟩
  · next item prevInFlight hs =>
    cases hstep
    simp only [hs, HybridThread.starting, List.length_singleton] at hcounts
    have hfailed : (startFailed s).inFlight + 1 = s.inFlight := by
      rw [startFailed]
      dsimp only
      omega
    refine afterStart_keepsError (fun _ ↦ by simp [startFailed]) ?_ fun hzero _ ↦ ?_
    · have hbusy : (startFailed s).work.busy = s.work.busy := rfl
      omega
    · by_contra hassembling
      refine hkeeps (Nat.pos_of_ne_zero hassembling) ?_
      rw [EndsWait, hs]
      dsimp only
      omega
  · cases hstep

theorem dispatchAndNotify_same (s : HybridCoordinator) : (dispatchAndNotify cfg s).main = s.main ∧
    (dispatchAndNotify cfg s).cancelRequested = s.cancelRequested ∧
    (dispatchAndNotify cfg s).firstErrorCode = s.firstErrorCode := by
  have hspec := takeNext_spec cfg s
  rw [dispatchAndNotify]
  generalize takeNext cfg s = r at hspec
  cases hspec with
  | nothing early late hlate hwhy =>
    obtain ⟨-, hmain, hcancel, herror, -⟩ :=
      notifyIfIdle_spec { s with earlyPartQueue := early, latePartQueue := late }
    exact ⟨hmain, hcancel, herror⟩
  | cdRange hok hlt => exact ⟨rfl, rfl, rfl⟩
  | part part early late hok hnew hlate => exact ⟨rfl, rfl, rfl⟩

/-- The end of a callback that was at work. -/
theorem KeepsError.dispatchAndNotify (h : KeepsError s) (hbusy : 0 < s.work.busy ∨ 0 < s.assembling)
    (hmain : t.main = s.main) (herror : t.cancelRequested = true → t.firstErrorCode ≠ 0) :
    KeepsError (dispatchAndNotify cfg t) := by
  obtain ⟨hmain', hcancel', herror'⟩ := @dispatchAndNotify_same cfg t
  refine h.of_busy hbusy (hmain'.trans hmain) ?_
  rw [hcancel', herror']
  exact herror

theorem KeepsError.recordError (h : KeepsError s) {errorCode : ℤ} (hcode : errorCode ≠ 0) :
    (recordError s errorCode).firstErrorCode ≠ 0 := by
  rw [HybridCoordinator.recordError]
  dsimp only
  split
  · next hcancel => exact h.error hcancel
  · exact hcode

theorem finishCallback_keepsError (h : KeepsError s) {item : HybridItem} {errorCode : ℤ}
    (hstep : step cfg s (.finishCallback item errorCode) = some t) : KeepsError t := by
  by_cases hmem : item ∈ s.work.running
  · have hbusy : 0 < s.work.busy ∨ 0 < s.assembling := .inl (WorkPool.busy_pos_of_running hmem)
    cases item with
    | cdRange rangeIndex =>
      simp only [step, if_pos hmem] at hstep
      cases hstep
      rw [cdRangeFinish]
      split
      · next hcode => exact h.dispatchAndNotify hbusy rfl fun _ ↦ h.recordError hcode
      · dsimp only
        split
        · exact h.of_busy hbusy rfl h.error
        · exact h.dispatchAndNotify hbusy rfl h.error
    | part partIndex =>
      simp only [step, if_pos hmem] at hstep
      cases hstep
      rw [partFinish]
      split
      · next hcode => exact h.dispatchAndNotify hbusy rfl fun _ ↦ h.recordError hcode
      · exact h.dispatchAndNotify hbusy rfl h.error
  · cases item <;> simp only [step, if_neg hmem] at hstep <;> cases hstep

theorem bodyLoopRound_keepsError (h : KeepsError s) {p : ℕ} (hs : s.main = .bodyLoop p)
    (centralDirOffset : ℕ) (ok : Bool) : KeepsError (bodyLoopRound cfg s centralDirOffset p ok) := by
  have hbusy := h.past (by rw [hs]; trivial)
  have hcancel := h.bodyLoop p hs
  have hreturned (result : ℤ) : KeepsError { s with main := .returned result } :=
    ⟨h.error, fun _ ↦ hbusy, fun _ _ hset ↦ absurd hset (by simp [hcancel]), (by rintro _ ⟨⟩)⟩
  have hnext (partComplete fromSegments : List ℕ) : KeepsError { s with
      main := .bodyLoop (p + 1)
      partComplete := partComplete
      fromSegments := fromSegments } :=
    ⟨h.error, fun _ ↦ hbusy, (by rintro _ ⟨⟩), fun _ _ ↦ hcancel⟩
  rw [bodyLoopRound]
  split
  · exact hreturned 0
  · split
    · exact hnext s.partComplete s.fromSegments
    · split
      · exact hnext _ _
      · exact hreturned (-1)

theorem step_keepsError (hsound : s.gauge.Sound cfg.maxConcurrent) (h : KeepsError s)
    {a : HybridAction} (hkeeps : KeepsWaiting cfg s a) (hstep : step cfg s a = some t) :
    KeepsError t := by
  have hcounts : s.inFlight = s.work.busy + s.main.starting.length := hsound.counter
  cases a with
  | mainSection => exact mainSection_keepsError hsound h hkeeps hstep
  | mainStart ok =>
    rw [step] at hstep
    split at hstep
    · split at hstep
      · cases hstep
        exact ⟨h.error, (by rintro ⟨⟩), (by rintro _ ⟨⟩), (by rintro _ ⟨⟩)⟩
      · cases hstep
        exact ⟨h.error, (by rintro ⟨⟩), (by rintro _ ⟨⟩), (by rintro _ ⟨⟩)⟩
    · cases hstep
  | wake =>
    rw [step] at hstep
    split_ifs at hstep with hs
    cases hstep
    simp only [hs, HybridThread.starting, List.length_nil, Nat.add_zero] at hcounts
    refine waitForWork_keepsError h.error hcounts fun hzero ↦ ?_
    by_contra hassembling
    exact hkeeps (Nat.pos_of_ne_zero hassembling) hzero
  | finishCallback item errorCode => exact finishCallback_keepsError h hstep
  | assembled result =>
    rw [step] at hstep
    split_ifs at hstep with hpos
    cases hstep
    cases result with
    | none =>
      rw [assembledSection]
      exact h.dispatchAndNotify (.inr hpos) rfl fun _ ↦ by simp
    | some r =>
      rw [assembledSection]
      exact h.dispatchAndNotify (.inr hpos) rfl h.error
  | callbackStart item ok =>
    rw [step] at hstep
    by_cases hmem : item ∈ s.work.launching
    · rw [if_pos hmem] at hstep
      have hbusy : 0 < s.work.busy ∨ 0 < s.assembling := .inl (WorkPool.busy_pos_of_launching hmem)
      split at hstep
      · cases hstep
        exact h.of_busy hbusy rfl h.error
      · cases hstep
        exact h.of_busy hbusy rfl h.error
    · rw [if_neg hmem] at hstep
      cases hstep
  | callbackStartFailed item =>
    rw [step] at hstep
    split_ifs at hstep with hmem
    cases hstep
    obtain ⟨-, hmain, -, herror, -⟩ :=
      notifyIfIdle_spec { startFailed s with work := s.work.report item }
    refine h.of_busy (.inl (WorkPool.busy_pos_of_refused hmem)) hmain fun _ ↦ ?_
    rw [herror]
    simp [startFailed]
  | callbackReturn =>
    rw [step] at hstep
    split_ifs at hstep with hpos
    cases hstep
    rw [notifyIfIdle]
    split
    · exact ⟨h.error, h.past, h.returned, h.bodyLoop⟩
    · exact ⟨h.error, h.past, h.returned, h.bodyLoop⟩
  | bodyPart ok =>
    simp only [step] at hstep
    split at hstep
    · next p fullCd hs hcd =>
      cases hstep
      exact bodyLoopRound_keepsError h hs _ ok
    · cases hstep

/-- After an error only a function that has returned one cannot go on. -/
theorem failed_of_stuck (hsound : s.gauge.Sound cfg.maxConcurrent) (h : KeepsError s)
    (hcancel : s.cancelRequested = true) (hstuck : ∀ a, ¬ Spurious s a → step cfg s a = none) :
    Failed s := by
  have hmainSection := hstuck .mainSection (fun hspurious ↦ by cases hspurious.1)
  cases hs : s.main with
  | startLoop =>
    rw [step, hs] at hmainSection
    cases hmainSection
  | launching item prevInFlight =>
    have hnone := hstuck (.mainStart true) (fun hspurious ↦ by cases hspurious.1)
    rw [step, hs] at hnone
    cases hnone
  | launched prevInFlight =>
    rw [step, hs] at hmainSection
    cases hmainSection
  | launchFailed item prevInFlight =>
    rw [step, hs] at hmainSection
    cases hmainSection
  | waiting =>
    have hnotified : s.notified = false := by
      by_contra hnot
      have hnone := hstuck .wake (fun hspurious ↦ hnot hspurious.2)
      rw [step, if_pos hs] at hnone
      cases hnone
    have hassembling : s.assembling = 0 := by
      by_contra hne
      have hnone := hstuck (.assembled none) (fun hspurious ↦ by cases hspurious.1)
      rw [step, if_pos (Nat.pos_of_ne_zero hne)] at hnone
      cases hnone
    have hreturning : s.returning = 0 := by
      by_contra hne
      have hnone := hstuck .callbackReturn (fun hspurious ↦ by cases hspurious.1)
      rw [step, if_pos (Nat.pos_of_ne_zero hne)] at hnone
      cases hnone
    have hbusy : 0 < s.work.busy := by
      by_contra hidle
      have hcounts : s.inFlight = s.work.busy + s.main.starting.length := hsound.counter
      simp only [hs, HybridThread.starting, List.length_nil, Nat.add_zero] at hcounts
      have hwoken := hsound.no_lost_wakeup (by simp [gauge, hs]) (show s.inFlight = 0 by omega)
        (by simp [gauge, hassembling, hreturning])
      exact absurd hnotified (by simpa [gauge] using hwoken)
    rcases WorkPool.exists_of_busy hbusy with ⟨i, hi⟩ | ⟨i, hi⟩ | ⟨i, hi⟩
    · have hnone := hstuck (.callbackStart i true) (fun hspurious ↦ by cases hspurious.1)
      rw [step, if_pos hi, if_pos rfl] at hnone
      cases hnone
    · have hnone := hstuck (.finishCallback i 0) (fun hspurious ↦ by cases hspurious.1)
      cases i <;> simp only [step, if_pos hi] at hnone <;> cases hnone
    · have hnone := hstuck (.callbackStartFailed i) (fun hspurious ↦ by cases hspurious.1)
      rw [step, if_pos hi] at hnone
      cases hnone
  | bodyLoop p =>
    rw [h.bodyLoop p hs] at hcancel
    cases hcancel
  | returned result => exact ⟨result, hs, h.returned result hs hcancel⟩

/-- After an error the function has not returned success and comes to return an error. -/
def EndsInError (cfg : HybridDownload) (s : HybridCoordinator) : Prop :=
  s.cancelRequested = true → (∀ result, s.main = .returned result → result ≠ 0) ∧
    LeadsTo (step cfg) (KeepsWaiting cfg) Spurious Failed s

theorem run_keepsError {actions : List HybridAction}
    (hmeets : Meets (step cfg) (KeepsWaiting cfg) (init cfg) actions)
    (hrun : run (step cfg) (init cfg) actions = some s) :
    s.gauge.Sound cfg.maxConcurrent ∧ KeepsError s := by
  have hinit : (init cfg).gauge.Sound cfg.maxConcurrent := .of_running rfl (Nat.zero_le _) rfl
  exact @run_invariant _ _ (step cfg) (KeepsWaiting cfg)
    (fun s ↦ s.gauge.Sound cfg.maxConcurrent ∧ KeepsError s)
    (fun h hkeeps hs ↦ ⟨step_sound h.1 hs, step_keepsError h.1 h.2 hkeeps hs⟩) (init cfg) s actions
    ⟨hinit, nofun, nofun, nofun, nofun⟩ hmeets hrun

theorem run_endsInError {actions : List HybridAction}
    (hmeets : Meets (step cfg) (KeepsWaiting cfg) (init cfg) actions)
    (hrun : run (step cfg) (init cfg) actions = some s) : EndsInError cfg s := by
  have hkept := run_keepsError hmeets hrun
  intro hcancel
  refine ⟨fun result hresult ↦ hkept.2.returned result hresult hcancel, ?_⟩
  refine @leadsTo_of_measure _ _ _ _ (fun s ↦ (s.gauge.Sound cfg.maxConcurrent ∧ KeepsError s) ∧
    s.cancelRequested = true) _ _ _ weight ?_ ?_ ?_ ?_ s ⟨hkept, hcancel⟩
  · intro s a t h hkeeps hs
    exact ⟨⟨step_sound h.1.1 hs, step_keepsError h.1.1 h.1.2 hkeeps hs⟩,
      (step_cancelled h.1.2 h.2 hs).1⟩
  · intro s a t h hkeeps hs
    rcases (step_cancelled h.1.2 h.2 hs).2.2 with hless | ⟨-, hle⟩
    · exact hless.le
    · exact hle
  · intro s a t h hkeeps hspurious hs
    exact (step_cancelled h.1.2 h.2 hs).2.2.resolve_right fun hwake ↦ hspurious hwake.1
  · intro s h hstuck
    exact failed_of_stuck h.1.1 h.1.2 h.2 hstuck

theorem meets_startsNone {actions : List HybridAction}
    (hmeets : Meets (step cfg) (KeepsWaiting cfg) (init cfg) actions) :
    Meets (step cfg) (StartsNone cfg) (init cfg) actions := by
  have hinit : (init cfg).gauge.Sound cfg.maxConcurrent := .of_running rfl (Nat.zero_le _) rfl
  exact @Meets.mono _ _ (step cfg) (KeepsWaiting cfg)
    (fun s ↦ s.gauge.Sound cfg.maxConcurrent ∧ KeepsError s) _
    (fun h hkeeps hs ↦ ⟨step_sound h.1 hs, step_keepsError h.1 h.2 hkeeps hs⟩)
    (fun h _ ↦ startsNone h.2 _) (init cfg) actions ⟨hinit, nofun, nofun, nofun, nofun⟩ hmeets

end HybridCoordinator

end Burst
