import Burst.DownloadCoordinator

namespace Burst

open Transition

/-- The part the main thread is starting. -/
def ExtractThread.starting : ExtractThread → List ℕ
  | .launching partIdx => [partIdx % 2 ^ 32]
  | .launchFailed partIdx => [partIdx % 2 ^ 32]
  | _ => []

/-- The part that the start loop looks at next. -/
def ExtractThread.loopPart : ExtractThread → Option ℕ
  | .startLoop partIdx => some partIdx
  | _ => none

namespace DownloadCoordinator

variable {cfg : ConcurrentExtraction} {s : DownloadCoordinator}

/-- How often a part is being or has been downloaded. -/
def account (s : DownloadCoordinator) (q : ℕ) : ℕ :=
  s.downloads.account q + s.main.starting.count q

/-- All body data from a part on is in memory. -/
def NoneLeft (cfg : ConcurrentExtraction) (next : ℕ) : Prop :=
  ∀ q, next ≤ q → q < cfg.numParts → q * cfg.partSize < cfg.centralDirOffset →
    cfg.PartHasFullBodyData q

/-- The parts below a bound that have to be downloaded, once each. -/
def DownloadedBelow (cfg : ConcurrentExtraction) (count : ℕ → ℕ) (next : ℕ) : Prop :=
  ∀ q, count q = if q < next ∧ ¬ cfg.PartHasFullBodyData q then 1 else 0

/-- The downloads are over and none is missing. -/
structure DownloadsOver (cfg : ConcurrentExtraction) (downloads : WorkPool ℕ) (next : ℕ) : Prop where
  idle : downloads.busy = 0
  downloaded : DownloadedBelow cfg downloads.account next
  noneLeft : NoneLeft cfg next

/-- The parts below a bound that are in memory have been processed, once each. -/
def SegmentsBelow (cfg : ConcurrentExtraction) (fromSegments : List ℕ) (p : ℕ) : Prop :=
  ∀ q, fromSegments.count q = if q < p ∧ cfg.PartHasFullBodyData q then 1 else 0

/-- What holds at each place of the main thread. -/
def ThreadInv (cfg : ConcurrentExtraction) (s : DownloadCoordinator) : Prop :=
  match s.main with
  | .startLoop partIdx => partIdx ≤ s.nextPartToStart ∧ s.fromSegments = []
  | .launching partIdx => partIdx < s.nextPartToStart ∧ s.fromSegments = []
  | .launchFailed _ => s.fromSegments = []
  | .waiting => s.fromSegments = [] ∧
      (s.cancelRequested = false → s.partsInFlight = 0 → NoneLeft cfg s.nextPartToStart)
  | .bodyLoop p => p ≤ cfg.numParts ∧
      DownloadsOver cfg s.downloads s.nextPartToStart ∧ SegmentsBelow cfg s.fromSegments p
  | .returned result => result = 0 →
      DownloadsOver cfg s.downloads s.nextPartToStart ∧ SegmentsBelow cfg s.fromSegments cfg.numParts

/-- What the counters and the downloads have to do with each other. -/
structure Counted (cfg : ConcurrentExtraction) (s : DownloadCoordinator) : Prop where
  inFlight : s.partsInFlight = s.downloads.busy + s.main.starting.length
  error : s.cancelRequested = false ↔ s.firstErrorCode = 0
  next_le : s.nextPartToStart ≤ cfg.numParts
  downloaded : s.cancelRequested = false → DownloadedBelow cfg s.account s.nextPartToStart

structure Accounted (cfg : ConcurrentExtraction) (s : DownloadCoordinator) : Prop extends
    Counted cfg s where
  thread : ThreadInv cfg s

/-- The start loop does not start a part that was handed out. -/
def StartsFresh (cfg : ConcurrentExtraction) (s : DownloadCoordinator) : Prop :=
  ∀ partIdx ∈ s.main.loopPart, s.partsInFlight < cfg.maxConcurrent →
    s.nextPartToStart ≤ skipBodyParts cfg (cfg.numParts - partIdx) partIdx ∨
      cfg.numParts ≤ skipBodyParts cfg (cfg.numParts - partIdx) partIdx

/-- A completion hands out the next part only if it is not in memory, and leaves nothing in flight
only when no part is left. -/
def HandsOutMissing (cfg : ConcurrentExtraction) (s : DownloadCoordinator) (errorCode : ℤ) : Prop :=
  errorCode = 0 → s.cancelRequested = false →
    if s.nextPartToStart < cfg.partsToDownload then ¬ cfg.PartHasFullBodyData s.nextPartToStart
    else s.main = .waiting → s.partsInFlight = 1 → NoneLeft cfg s.nextPartToStart

def HandsOutRightly (cfg : ConcurrentExtraction) (s : DownloadCoordinator) : DownloadAction → Prop
  | .mainSection => StartsFresh cfg s
  | .finishCallback _ errorCode => HandsOutMissing cfg s errorCode
  | _ => True

instance (cfg : ConcurrentExtraction) (next : ℕ) : Decidable (NoneLeft cfg next) :=
  decidable_of_iff (∀ q < cfg.numParts, next ≤ q → q * cfg.partSize < cfg.centralDirOffset →
    cfg.PartHasFullBodyData q) ⟨fun h q hq hlt ↦ h q hlt hq, fun h q hlt hq ↦ h q hq hlt⟩

instance (cfg : ConcurrentExtraction) (s : DownloadCoordinator) : Decidable (StartsFresh cfg s) :=
  inferInstanceAs (Decidable (∀ partIdx ∈ s.main.loopPart, s.partsInFlight < cfg.maxConcurrent →
    s.nextPartToStart ≤ skipBodyParts cfg (cfg.numParts - partIdx) partIdx ∨
      cfg.numParts ≤ skipBodyParts cfg (cfg.numParts - partIdx) partIdx))

instance (cfg : ConcurrentExtraction) (s : DownloadCoordinator) (errorCode : ℤ) :
    Decidable (HandsOutMissing cfg s errorCode) :=
  inferInstanceAs (Decidable (errorCode = 0 → s.cancelRequested = false →
    if s.nextPartToStart < cfg.partsToDownload then ¬ cfg.PartHasFullBodyData s.nextPartToStart
    else s.main = .waiting → s.partsInFlight = 1 → NoneLeft cfg s.nextPartToStart))

instance (cfg : ConcurrentExtraction) (s : DownloadCoordinator) :
    DecidablePred (HandsOutRightly cfg s)
  | .mainSection => inferInstanceAs (Decidable (StartsFresh cfg s))
  | .finishCallback _ errorCode => inferInstanceAs (Decidable (HandsOutMissing cfg s errorCode))
  | .mainStart _ => isTrue trivial
  | .wake => isTrue trivial
  | .callbackStart _ _ => isTrue trivial
  | .callbackStartFailed _ => isTrue trivial
  | .bodyPart _ => isTrue trivial

theorem accounted_init (cfg : ConcurrentExtraction) : Accounted cfg init := by
  refine ⟨⟨rfl, by simp [init], Nat.zero_le _, fun _ q ↦ ?_⟩, Nat.le_refl _, rfl⟩
  simp [account, init, ExtractThread.starting]

theorem skipBodyParts_spec (cfg : ConcurrentExtraction) (n partIdx : ℕ) :
    partIdx ≤ skipBodyParts cfg n partIdx ∧
      (∀ q, partIdx ≤ q → q < skipBodyParts cfg n partIdx → cfg.PartHasFullBodyData q) ∧
      (cfg.numParts ≤ partIdx + n → skipBodyParts cfg n partIdx < cfg.numParts →
        ¬ cfg.PartHasFullBodyData (skipBodyParts cfg n partIdx)) := by
  induction n generalizing partIdx with
  | zero =>
    refine ⟨Nat.le_refl _, fun q h₁ h₂ ↦ ?_, fun h₁ h₂ ↦ ?_⟩
    · rw [skipBodyParts] at h₂
      omega
    · rw [skipBodyParts] at h₂
      omega
  | succ n ih =>
    obtain ⟨hle, hcovered, hstop⟩ := ih (partIdx + 1)
    rw [skipBodyParts]
    split_ifs with hskip
    · refine ⟨by omega, fun q h₁ h₂ ↦ ?_, fun h₁ h₂ ↦ hstop (by omega) h₂⟩
      by_cases hq : q = partIdx
      · rw [hq]
        exact hskip.2
      · exact hcovered q (by omega) h₂
    · refine ⟨Nat.le_refl _, fun q h₁ h₂ ↦ by omega, fun h₁ h₂ hfull ↦ hskip ⟨h₂, hfull⟩⟩

/-- A callback runs while a download is under way, so the main thread is not past its wait. -/
theorem ThreadInv.callback {t : DownloadCoordinator} (h : ThreadInv cfg s)
    (hbusy : 0 < s.downloads.busy) (hmain : t.main = s.main)
    (hsegments : t.fromSegments = s.fromSegments) (hnext : s.nextPartToStart ≤ t.nextPartToStart)
    (hwaiting : s.main = .waiting → t.cancelRequested = false → t.partsInFlight = 0 →
      NoneLeft cfg t.nextPartToStart) : ThreadInv cfg t := by
  rw [ThreadInv, hmain, hsegments]
  rw [ThreadInv] at h
  cases hs : s.main with
  | startLoop partIdx =>
    rw [hs] at h
    exact ⟨Nat.le_trans h.1 hnext, h.2⟩
  | launching partIdx =>
    rw [hs] at h
    exact ⟨Nat.lt_of_lt_of_le h.1 hnext, h.2⟩
  | launchFailed partIdx =>
    rw [hs] at h
    exact h
  | waiting =>
    rw [hs] at h
    exact ⟨h.1, hwaiting hs⟩
  | bodyLoop p =>
    rw [hs] at h
    have hidle := h.2.1.idle
    omega
  | returned result =>
    rw [hs] at h
    intro hresult
    have hidle := (h hresult).1.idle
    omega

theorem waitForDownloads_accounted (h : Accounted cfg { s with main := .waiting }) :
    Accounted cfg (waitForDownloads cfg s) := by
  obtain ⟨hsegments, hnone⟩ := h.thread
  have hinFlight : s.partsInFlight = s.downloads.busy := h.inFlight
  have herror : s.cancelRequested = false ↔ s.firstErrorCode = 0 := h.error
  have hover (hok : s.firstErrorCode = 0) (hidle : s.partsInFlight = 0) :
      DownloadsOver cfg s.downloads s.nextPartToStart :=
    ⟨by rw [← hinFlight, hidle], h.downloaded (herror.mpr hok), hnone (herror.mpr hok) hidle⟩
  rw [waitForDownloads]
  split_ifs with hbusy
  · exact ⟨⟨h.inFlight, h.error, h.next_le, h.downloaded⟩, h.thread⟩
  · rw [afterDownloads]
    split_ifs with hbody
    · refine ⟨⟨h.inFlight, h.error, h.next_le, h.downloaded⟩, Nat.zero_le _,
        hover hbody.1 (by omega), fun q ↦ ?_⟩
      · show s.fromSegments.count q = _
        rw [show s.fromSegments = [] from hsegments]
        simp
    · refine ⟨⟨h.inFlight, h.error, h.next_le, h.downloaded⟩, fun hresult ↦
        ⟨hover hresult (by omega), fun q ↦ ?_⟩⟩
      · have hnil : cfg.bodySegments = [] := by
          by_contra hne
          exact hbody ⟨hresult, hne⟩
        show s.fromSegments.count q = _
        rw [show s.fromSegments = [] from hsegments]
        simp [ConcurrentExtraction.PartHasFullBodyData, hnil]

theorem startLoopSection_accounted (hmax : 0 < cfg.maxConcurrent) (hparts : cfg.numParts ≤ 2 ^ 32)
    (h : Accounted cfg s) {partIdx : ℕ} (hmain : s.main = .startLoop partIdx)
    (hright : HandsOutRightly cfg s .mainSection) :
    Accounted cfg (startLoopSection cfg s partIdx) := by
  have hthread := h.thread
  rw [ThreadInv, hmain] at hthread
  obtain ⟨hle, hsegments⟩ := hthread
  have hinFlight : s.partsInFlight = s.downloads.busy := by
    simpa [hmain, ExtractThread.starting] using h.inFlight
  have hdownloaded (hok : s.cancelRequested = false) (q : ℕ) : s.downloads.account q =
      if q < s.nextPartToStart ∧ ¬ cfg.PartHasFullBodyData q then 1 else 0 := by
    simpa [account, hmain, ExtractThread.starting] using h.downloaded hok q
  have hwait (hnone : s.partsInFlight = 0 → NoneLeft cfg s.nextPartToStart) :
      Accounted cfg (waitForDownloads cfg s) :=
    waitForDownloads_accounted ⟨⟨hinFlight, h.error, h.next_le, hdownloaded⟩, hsegments,
      fun _ hidle ↦ hnone hidle⟩
  obtain ⟨hskip, hcovered, hstop⟩ := skipBodyParts_spec cfg (cfg.numParts - partIdx) partIdx
  rw [startLoopSection]
  split_ifs with hroom
  · by_cases hend : skipBodyParts cfg (cfg.numParts - partIdx) partIdx ≥ cfg.numParts
    · simp only [if_pos hend]
      refine hwait fun _ q hq hlt _ ↦ hcovered q (by omega) (by omega)
    · simp only [if_neg hend]
      generalize hstart : skipBodyParts cfg (cfg.numParts - partIdx) partIdx = start at *
      have hnew : s.nextPartToStart ≤ start := by
        have hr := hright partIdx (by rw [hmain]; rfl) hroom.1
        rw [hstart] at hr
        omega
      have hneeded : ¬ cfg.PartHasFullBodyData start := hstop (by omega) (by omega)
      have hsmall : start % 2 ^ 32 = start := Nat.mod_eq_of_lt (by omega)
      refine ⟨⟨?_, h.error, by show start + 1 ≤ _; omega, fun hok q ↦ ?_⟩,
        Nat.lt_succ_self start, hsegments⟩
      · show s.partsInFlight + 1 = _
        rw [hinFlight]
        rfl
      · show s.downloads.account q + [start % 2 ^ 32].count q = _
        rw [hdownloaded hok q, hsmall, List.count_singleton]
        show _ = if q < start + 1 ∧ ¬ cfg.PartHasFullBodyData q then 1 else 0
        by_cases hq : q = start
        · rw [hq]
          simp [hneeded, show ¬ start < s.nextPartToStart by omega]
        · have hne : (start == q) = false := beq_eq_false_iff_ne.mpr (Ne.symm hq)
          rw [hne]
          by_cases hfull : cfg.PartHasFullBodyData q
          · simp [hfull]
          · have hout : q < s.nextPartToStart ↔ q < start + 1 := by
              refine ⟨fun hlt ↦ by omega, fun hlt ↦ ?_⟩
              by_contra hge
              exact hfull (hcovered q (by omega) (by omega))
            simp [hfull, hout]
  · refine hwait fun hidle q hq hlt _ ↦ ?_
    omega

theorem mainStart_accounted (h : Accounted cfg s) {partIdx : ℕ}
    (hmain : s.main = .launching partIdx) (ok : Bool) :
    Accounted cfg (if ok then { s with
        main := .startLoop (partIdx + 1)
        downloads := s.downloads.enlist (partIdx % 2 ^ 32) }
      else { s with main := .launchFailed partIdx }) := by
  have hthread := h.thread
  rw [ThreadInv, hmain] at hthread
  have hinFlight := h.inFlight
  have haccount := h.downloaded
  simp only [DownloadedBelow, account] at haccount
  rw [hmain] at hinFlight haccount
  cases ok with
  | true =>
    refine ⟨⟨?_, h.error, h.next_le, fun hok q ↦ ?_⟩, hthread.1, hthread.2⟩
    · simpa [ExtractThread.starting] using hinFlight
    · have hq := haccount hok q
      simpa [account, ExtractThread.starting, List.count_singleton] using hq
  | false => exact ⟨⟨hinFlight, h.error, h.next_le, haccount⟩, hthread.2⟩

theorem launchFailedSection_accounted (h : Accounted cfg s) {partIdx : ℕ}
    (hmain : s.main = .launchFailed partIdx) : Accounted cfg (launchFailedSection cfg s) := by
  have hthread := h.thread
  rw [ThreadInv, hmain] at hthread
  have hinFlight := h.inFlight
  rw [hmain] at hinFlight
  refine waitForDownloads_accounted ⟨⟨?_, ?_, h.next_le, fun hok ↦ ?_⟩, hthread, fun hok ↦ ?_⟩
  · show s.partsInFlight - 1 = s.downloads.busy + 0
    rw [hinFlight]
    rfl
  · show true = false ↔ (-1 : ℤ) = 0
    simp
  · cases hok
  · cases hok

theorem notifyIfIdle_accounted (h : Accounted cfg s) : Accounted cfg (notifyIfIdle s) := by
  rw [notifyIfIdle]
  split_ifs
  · exact ⟨⟨h.inFlight, h.error, h.next_le, h.downloaded⟩, h.thread⟩
  · exact h

/-- A completion, before it looks for more work. -/
theorem recordFinish_counted (h : Counted cfg s) {part : ℕ} (hmem : part ∈ s.downloads.running)
    (errorCode : ℤ) : Counted cfg (recordFinish s part errorCode) := by
  have hinFlight := h.inFlight
  have hbusy := WorkPool.busy_pos_of_running hmem
  rw [recordFinish]
  split_ifs with herror hcancel
  · have hdrop := WorkPool.busy_drop hmem
    refine ⟨?_, ?_, h.next_le, fun hok ↦ (by cases hok)⟩
    · show s.partsInFlight - 1 = (s.downloads.drop part).busy + s.main.starting.length
      omega
    · show true = false ↔ s.firstErrorCode = 0
      have hold := h.error
      simp only [hcancel, Bool.true_eq_false, false_iff] at hold ⊢
      exact hold
  · have hdrop := WorkPool.busy_drop hmem
    refine ⟨?_, ?_, h.next_le, fun hok ↦ (by cases hok)⟩
    · show s.partsInFlight - 1 = (s.downloads.drop part).busy + s.main.starting.length
      omega
    · show true = false ↔ errorCode = 0
      simp [herror]
  · have hfinish := WorkPool.busy_finish hmem
    refine ⟨?_, h.error, h.next_le, fun hok q ↦ ?_⟩
    · show s.partsInFlight - 1 = (s.downloads.finish part).busy + s.main.starting.length
      omega
    · show (s.downloads.finish part).account q + s.main.starting.count q = _
      rw [WorkPool.account_finish hmem]
      exact h.downloaded hok q

theorem recordFinish_unchanged (s : DownloadCoordinator) (part : ℕ) (errorCode : ℤ) :
    (recordFinish s part errorCode).main = s.main ∧
      (recordFinish s part errorCode).fromSegments = s.fromSegments ∧
      (recordFinish s part errorCode).nextPartToStart = s.nextPartToStart ∧
      (recordFinish s part errorCode).partsInFlight = s.partsInFlight - 1 := by
  rw [recordFinish]
  split_ifs <;> exact ⟨rfl, rfl, rfl, rfl⟩

theorem recordFinish_ok {part : ℕ} {errorCode : ℤ}
    (h : (recordFinish s part errorCode).cancelRequested = false) :
    errorCode = 0 ∧ s.cancelRequested = false := by
  by_cases herror : errorCode ≠ 0
  · rw [recordFinish, if_pos herror] at h
    simp at h
  · rw [recordFinish, if_neg herror] at h
    exact ⟨by simpa using herror, h⟩

theorem finishCallback_accounted (hparts : cfg.numParts ≤ 2 ^ 32) (h : Accounted cfg s) {part : ℕ}
    (hmem : part ∈ s.downloads.running) {errorCode : ℤ}
    (hright : HandsOutRightly cfg s (.finishCallback part errorCode)) :
    Accounted cfg (handOutNext cfg (recordFinish s part errorCode)) := by
  have hbusy := WorkPool.busy_pos_of_running hmem
  have hcounted := recordFinish_counted h.toCounted hmem errorCode
  obtain ⟨hmain, hsegments, hnext, hinFlight⟩ := recordFinish_unchanged s part errorCode
  generalize hrecorded : recordFinish s part errorCode = r at *
  have hok (hcancel : r.cancelRequested = false) : errorCode = 0 ∧ s.cancelRequested = false := by
    rw [← hrecorded] at hcancel
    exact recordFinish_ok hcancel
  rw [handOutNext]
  split_ifs with hout
  · obtain ⟨hzero, hcancel⟩ := hok hout.1
    have hmissing := hright hzero hcancel
    rw [← hnext, if_pos hout.2] at hmissing
    have hlt := Nat.lt_of_lt_of_le hout.2 cfg.partsToDownload_le
    have hsmall : r.nextPartToStart % 2 ^ 32 = r.nextPartToStart := Nat.mod_eq_of_lt (by omega)
    refine ⟨⟨?_, hcounted.error, hlt, fun _ q ↦ ?_⟩, h.thread.callback hbusy hmain hsegments
      (by show _ ≤ r.nextPartToStart + 1; omega) fun _ _ hidle ↦ (by cases hidle)⟩
    · show r.partsInFlight + 1 = (r.downloads.accept _).busy + r.main.starting.length
      rw [WorkPool.busy_accept, hcounted.inFlight]
      omega
    · show (r.downloads.accept _).account q + r.main.starting.count q = _
      have hq : r.downloads.account q + r.main.starting.count q = _ :=
        hcounted.downloaded hout.1 q
      rw [WorkPool.account_accept, hsmall, Nat.add_right_comm, hq]
      show _ = if q < r.nextPartToStart + 1 ∧ ¬ cfg.PartHasFullBodyData q then 1 else 0
      by_cases hnew : r.nextPartToStart = q
      · rw [← hnew]
        simp [hmissing]
      · have hiff : q < r.nextPartToStart + 1 ↔ q < r.nextPartToStart := by omega
        rw [if_neg hnew, Nat.add_zero]
        simp only [hiff]
  · refine notifyIfIdle_accounted ⟨hcounted, h.thread.callback hbusy hmain hsegments
      (Nat.le_of_eq hnext.symm) fun hwaiting hcancel hidle ↦ ?_⟩
    obtain ⟨hzero, hcancel'⟩ := hok hcancel
    have hlast := hright hzero hcancel'
    rw [← hnext, if_neg fun hlt ↦ hout ⟨hcancel, hlt⟩] at hlast
    have hcount := h.inFlight
    exact hlast hwaiting (by omega)

theorem callbackStart_accounted (h : Accounted cfg s) {part : ℕ}
    (hmem : part ∈ s.downloads.launching) (ok : Bool) :
    Accounted cfg { s with
      downloads := if ok then s.downloads.launched part else s.downloads.refuse part } := by
  have hbusy := WorkPool.busy_pos_of_launching hmem
  have hpool : (if ok then s.downloads.launched part else s.downloads.refuse part).busy =
        s.downloads.busy ∧
      ∀ q, (if ok then s.downloads.launched part else s.downloads.refuse part).account q =
        s.downloads.account q := by
    cases ok with
    | true => exact ⟨WorkPool.busy_launched hmem, WorkPool.account_launched hmem⟩
    | false => exact ⟨WorkPool.busy_refuse hmem, WorkPool.account_refuse hmem⟩
  refine ⟨⟨?_, h.error, h.next_le, fun hok q ↦ ?_⟩, h.thread.callback hbusy rfl rfl
    (Nat.le_refl _) fun hwaiting hcancel hidle ↦ ?_⟩
  · show s.partsInFlight = _ + s.main.starting.length
    rw [hpool.1, h.inFlight]
  · show _ + s.main.starting.count q = _
    rw [hpool.2]
    exact h.downloaded hok q
  · have hthread := h.thread
    rw [ThreadInv, hwaiting] at hthread
    exact hthread.2 hcancel hidle

theorem callbackStartFailed_accounted (h : Accounted cfg s) {part : ℕ}
    (hmem : part ∈ s.downloads.refused) : Accounted cfg (callbackStartFailedSection s part) := by
  have hbusy := WorkPool.busy_pos_of_refused hmem
  have hreport := WorkPool.busy_report hmem
  have hinFlight := h.inFlight
  refine notifyIfIdle_accounted ⟨⟨?_, ?_, h.next_le, fun hok ↦ (by cases hok)⟩,
    h.thread.callback hbusy rfl rfl (Nat.le_refl _) fun _ hok ↦ (by cases hok)⟩
  · show s.partsInFlight - 1 = (s.downloads.report part).busy + s.main.starting.length
    omega
  · show true = false ↔ (if s.cancelRequested then s.firstErrorCode else -1) = 0
    have hold := h.error
    cases hcancel : s.cancelRequested with
    | true =>
      rw [hcancel] at hold
      simpa using hold
    | false => simp

theorem bodyLoopRound_accounted (hparts : cfg.numParts ≤ 2 ^ 32) (h : Accounted cfg s) {p : ℕ}
    (hmain : s.main = .bodyLoop p) (ok : Bool) : Accounted cfg (bodyLoopRound cfg s p ok) := by
  have hthread := h.thread
  rw [ThreadInv, hmain] at hthread
  obtain ⟨hp, hover, hsegments⟩ := hthread
  have hinFlight := h.inFlight
  have hdownloaded := h.downloaded
  rw [hmain] at hinFlight
  have hcounted : ∀ m : ExtractThread, m.starting = [] → Counted cfg { s with main := m } := by
    refine fun m hm ↦ ⟨?_, h.error, h.next_le, fun hok q ↦ ?_⟩
    · show s.partsInFlight = s.downloads.busy + m.starting.length
      rw [hm]
      exact hinFlight
    · show s.downloads.account q + m.starting.count q = _
      rw [hm]
      exact hover.downloaded q
  rw [bodyLoopRound]
  by_cases hend : p ≥ cfg.numParts
  · rw [if_pos hend]
    refine ⟨hcounted _ rfl, fun _ ↦ ⟨hover, ?_⟩⟩
    rwa [Nat.le_antisymm hp hend] at hsegments
  rw [if_neg hend]
  by_cases hfull : cfg.PartHasFullBodyData p
  · have hsmall : p % 2 ^ 32 = p := Nat.mod_eq_of_lt (by omega)
    obtain ⟨hbody, segment, hmem, hcovers⟩ := id hfull
    obtain ⟨found, hfound⟩ := findBodySegmentForOffset_of_covers hmem hcovers hbody
    rw [if_neg (not_not_intro hfull), show cfg.start p = partStart cfg.partSize p from rfl, hfound]
    simp only [hsmall]
    rw [if_neg (by omega)]
    cases ok with
    | true =>
      have hnext := hcounted (.bodyLoop (p + 1)) rfl
      refine ⟨⟨hnext.inFlight, hnext.error, hnext.next_le, hnext.downloaded⟩,
        by show p + 1 ≤ _; omega, hover, fun q ↦ ?_⟩
      show (p :: s.fromSegments).count q = _
      rw [List.count_cons, hsegments q]
      by_cases hq : p = q
      · rw [← hq]
        simp [hfull]
      · have hiff : q < p ↔ q < p + 1 := by omega
        simp [hq, hiff]
    | false => exact ⟨hcounted _ rfl, fun hresult ↦ by cases hresult⟩
  · rw [if_pos hfull]
    refine ⟨hcounted _ rfl, by show p + 1 ≤ _; omega, hover, fun q ↦ ?_⟩
    rw [hsegments q]
    have hiff : (q < p ∧ cfg.PartHasFullBodyData q) ↔ q < p + 1 ∧ cfg.PartHasFullBodyData q := by
      refine and_congr_left fun hq ↦ ⟨fun hlt ↦ by omega, fun hlt ↦ ?_⟩
      by_contra hge
      exact hfull (by rwa [show p = q by omega])
    simp only [hiff]

theorem step_accounted (hmax : 0 < cfg.maxConcurrent) (hparts : cfg.numParts ≤ 2 ^ 32)
    {a : DownloadAction} {t : DownloadCoordinator} (h : Accounted cfg s)
    (hright : HandsOutRightly cfg s a) (hstep : step cfg s a = some t) : Accounted cfg t := by
  cases a with
  | mainSection =>
    rw [step] at hstep
    split at hstep
    · next hmain =>
      cases hstep
      exact startLoopSection_accounted hmax hparts h hmain hright
    · next hmain =>
      cases hstep
      exact launchFailedSection_accounted h hmain
    · cases hstep
  | mainStart ok =>
    rw [step] at hstep
    split at hstep
    · next hmain =>
      have hstart := mainStart_accounted h hmain ok
      split_ifs at hstep hstart with hok
      · cases hstep
        exact hstart
      · cases hstep
        exact hstart
    · cases hstep
  | wake =>
    rw [step] at hstep
    split_ifs at hstep with hmain
    cases hstep
    refine waitForDownloads_accounted ?_
    rwa [← hmain]
  | finishCallback part errorCode =>
    rw [step] at hstep
    split_ifs at hstep with hmem
    cases hstep
    exact finishCallback_accounted hparts h hmem hright
  | callbackStart part ok =>
    rw [step] at hstep
    by_cases hmem : part ∈ s.downloads.launching
    · rw [if_pos hmem] at hstep
      cases hstep
      exact callbackStart_accounted h hmem ok
    · rw [if_neg hmem] at hstep
      cases hstep
  | callbackStartFailed part =>
    rw [step] at hstep
    split_ifs at hstep with hmem
    cases hstep
    exact callbackStartFailed_accounted h hmem
  | bodyPart ok =>
    rw [step] at hstep
    split at hstep
    · next hmain =>
      cases hstep
      exact bodyLoopRound_accounted hparts h hmain ok
    · cases hstep

end DownloadCoordinator

open DownloadCoordinator in
/-- When `burst_downloader_extract_concurrent` returns success, each part below the central directory
has been processed once, from its segment if that holds all of it and from a download otherwise. -/
theorem extractConcurrent_exactlyOnce {cfg : ConcurrentExtraction} (hmax : 0 < cfg.maxConcurrent)
    (hparts : cfg.numParts ≤ 2 ^ 32) {actions : List DownloadAction} {s : DownloadCoordinator}
    (hright : Meets (step cfg) (HandsOutRightly cfg) init actions)
    (hrun : run (step cfg) init actions = some s) (hreturned : s.main = .returned 0) {p : ℕ}
    (hp : p < cfg.numParts) (hbody : p * cfg.partSize < cfg.centralDirOffset) :
    s.downloads.done.count p = (if cfg.PartHasFullBodyData p then 0 else 1) ∧
      s.fromSegments.count p = if cfg.PartHasFullBodyData p then 1 else 0 := by
  have hinv : Accounted cfg s := run_invariant (fun h hr hs ↦ step_accounted hmax hparts h hr hs)
    (accounted_init cfg) hright hrun
  have hthread := hinv.thread
  rw [ThreadInv, hreturned] at hthread
  obtain ⟨hover, hsegments⟩ := hthread rfl
  have hdone := hover.downloaded p
  rw [WorkPool.account_eq_done hover.idle] at hdone
  rw [hdone, hsegments p]
  by_cases hfull : cfg.PartHasFullBodyData p
  · simp [hfull, hp]
  · have hlt : p < s.nextPartToStart := by
      by_contra hge
      exact hfull (hover.noneLeft p (by omega) hp hbody)
    simp [hfull, hlt]

/-- Two parts of which the tail buffer holds the second. -/
def tailSample : ConcurrentExtraction where
  maxConcurrent := 8
  numParts := 2
  partSize := 8388608
  centralDirOffset := 8388708
  bodySegments := [⟨List.replicate 100 0, 100, 8388608⟩]

open DownloadCoordinator in
def tailSampleActions : List DownloadAction :=
  [.mainSection, .mainStart true, .mainSection, .finishCallback 0 0, .wake, .bodyPart true,
    .bodyPart true, .bodyPart true]

open DownloadCoordinator in
theorem extractConcurrent_exactlyOnce_sample :
    ∃ s, run (step tailSample) init tailSampleActions = some s ∧ s.main = .returned 0 ∧
      s.downloads.done.count 0 = (if tailSample.PartHasFullBodyData 0 then 0 else 1) ∧
      s.fromSegments.count 0 = if tailSample.PartHasFullBodyData 0 then 1 else 0 := by
  obtain ⟨s, hrun⟩ : ∃ s, run (step tailSample) init tailSampleActions = some s :=
    Option.isSome_iff_exists.mp (by decide +kernel)
  have hreturned : s.main = .returned 0 := by
    have hmain : (run (step tailSample) init tailSampleActions).map DownloadCoordinator.main =
        some (.returned 0) := by decide +kernel
    rw [hrun] at hmain
    exact Option.some.inj hmain
  exact ⟨s, hrun, hreturned, extractConcurrent_exactlyOnce (by decide) (by decide)
    (by decide +kernel) hrun hreturned (by decide) (by decide)⟩

/-- Five parts of which the fetch of the central directory has brought the fourth: the central
directory begins in it and goes on in the fifth. -/
def rangeSample : ConcurrentExtraction where
  maxConcurrent := 1
  numParts := 5
  partSize := 8388608
  centralDirOffset := 25165924
  bodySegments := [⟨List.replicate 100 0, 100, 25165824⟩]

open DownloadCoordinator in
def rangeSampleActions : List DownloadAction :=
  [.mainSection, .mainStart true, .mainSection, .finishCallback 0 0, .callbackStart 1 true,
    .finishCallback 1 0, .callbackStart 2 true, .finishCallback 2 0, .callbackStart 3 true,
    .finishCallback 3 0, .wake, .bodyPart true, .bodyPart true, .bodyPart true, .bodyPart true,
    .bodyPart true, .bodyPart true]

open DownloadCoordinator in
/-- The fourth part is downloaded and then processed from its segment as well. -/
theorem extractConcurrent_twice :
    3 < rangeSample.numParts ∧ 3 * rangeSample.partSize < rangeSample.centralDirOffset ∧
      (run (step rangeSample) init rangeSampleActions).map (fun s ↦
        (s.main, s.downloads.done.count 3, s.fromSegments.count 3)) =
        some (.returned 0, 1, 1) := by
  decide +kernel

end Burst
