import Burst.DownloadExactlyOnce

namespace Burst

open Transition

/-- From the first part that is in memory on, all body data is. -/
def ConcurrentExtraction.CoveredToEnd (cfg : ConcurrentExtraction) : Prop :=
  ∀ q r, cfg.PartHasFullBodyData q → q < r → r < cfg.numParts → r * cfg.partSize < cfg.centralDirOffset →
    cfg.PartHasFullBodyData r

/-- Once as many parts have been handed out as are to be downloaded, the rest is in memory. -/
theorem ConcurrentExtraction.CoveredToEnd.noneLeft {cfg : ConcurrentExtraction} (h : cfg.CoveredToEnd)
    {next : ℕ} (hnext : cfg.partsToDownload ≤ next) : DownloadCoordinator.NoneLeft cfg next := by
  intro q hq hlt hbody
  by_contra hfull
  have huncovered : ∀ p ∈ List.range (q + 1), decide (¬ cfg.PartHasFullBodyData p) = true := by
    intro p hp
    rw [decide_eq_true_eq]
    intro hcovered
    rcases Nat.lt_or_ge p q with hpq | hpq
    · exact hfull (h p q hcovered hpq hlt hbody)
    · obtain rfl : p = q := by
        rw [List.mem_range] at hp
        omega
      exact hfull hcovered
  have hcount : q + 1 ≤ cfg.partsToDownload := by
    have hsub : (List.range (q + 1)).Sublist (List.range cfg.numParts) := List.range_sublist.mpr (by omega)
    have hle := hsub.countP_le (p := fun p ↦ decide (¬ cfg.PartHasFullBodyData p))
    rwa [List.countP_eq_length.mpr huncovered, List.length_range] at hle
  omega

namespace DownloadCoordinator

variable {cfg : ConcurrentExtraction} {s : DownloadCoordinator}

/-- Every part below a bound that is not in memory is being or has been downloaded. -/
def NoneMissedBelow (cfg : ConcurrentExtraction) (count : ℕ → ℕ) (next : ℕ) : Prop :=
  ∀ q < next, ¬ cfg.PartHasFullBodyData q → 0 < count q

/-- Every part that holds body data and is not in memory is being or has been downloaded. -/
def NoneMissed (cfg : ConcurrentExtraction) (count : ℕ → ℕ) : Prop :=
  ∀ q < cfg.numParts, q * cfg.partSize < cfg.centralDirOffset → ¬ cfg.PartHasFullBodyData q → 0 < count q

theorem NoneMissedBelow.noneMissed {count : ℕ → ℕ} {next : ℕ} (h : NoneMissedBelow cfg count next)
    (hnone : NoneLeft cfg next) : NoneMissed cfg count := by
  intro q hq hbody hfull
  rcases Nat.lt_or_ge q next with hlt | hge
  · exact h q hlt hfull
  · exact (hfull (hnone q hge hq hbody)).elim

theorem NoneMissedBelow.mono {count count' : ℕ → ℕ} {next : ℕ} (h : NoneMissedBelow cfg count next)
    (hle : ∀ q, count q ≤ count' q) : NoneMissedBelow cfg count' next :=
  fun q hq hfull ↦ (h q hq hfull).trans_le (hle q)

theorem NoneMissed.mono {count count' : ℕ → ℕ} (h : NoneMissed cfg count) (hle : ∀ q, count q ≤ count' q) :
    NoneMissed cfg count' :=
  fun q hq hbody hfull ↦ (h q hq hbody hfull).trans_le (hle q)

/-- What the loop over the segments has processed before a part. -/
structure ProcessedBelow (cfg : ConcurrentExtraction) (fromSegments : List ℕ) (p : ℕ) : Prop where
  covered : ∀ q ∈ fromSegments, q < cfg.numParts ∧ cfg.PartHasFullBodyData q
  complete : ∀ q < p, cfg.PartHasFullBodyData q → q ∈ fromSegments

/-- The downloads are over, and every part that is not in memory is there. -/
structure AllThere (cfg : ConcurrentExtraction) (downloads : WorkPool ℕ) : Prop where
  idle : downloads.busy = 0
  noneMissed : NoneMissed cfg downloads.account

/-- What holds at each place of the main thread. -/
def ThreadKeeps (cfg : ConcurrentExtraction) (s : DownloadCoordinator) : Prop :=
  match s.main with
  | .startLoop partIdx => s.fromSegments = [] ∧
      (s.cancelRequested = false → NoneMissedBelow cfg s.account partIdx)
  | .launching partIdx => s.fromSegments = [] ∧ partIdx < cfg.numParts ∧
      (s.cancelRequested = false → NoneMissedBelow cfg s.account (partIdx + 1))
  | .launchFailed _ => s.fromSegments = []
  | .waiting => s.fromSegments = [] ∧
      (s.cancelRequested = false → s.partsInFlight = 0 → NoneMissed cfg s.account)
  | .bodyLoop p => p ≤ cfg.numParts ∧ AllThere cfg s.downloads ∧ ProcessedBelow cfg s.fromSegments p
  | .returned result => result = 0 →
      AllThere cfg s.downloads ∧ ProcessedBelow cfg s.fromSegments cfg.numParts

/-- The counters and the downloads, of which none is missing. -/
structure CountsAll (cfg : ConcurrentExtraction) (s : DownloadCoordinator) : Prop where
  inFlight : s.partsInFlight = s.downloads.busy + s.main.starting.length
  error : s.cancelRequested = false ↔ s.firstErrorCode = 0
  next_le : s.nextPartToStart ≤ cfg.numParts
  known : ∀ q, 0 < s.account q → q < cfg.numParts
  noneMissed : s.cancelRequested = false → NoneMissedBelow cfg s.account s.nextPartToStart

structure KeepsAll (cfg : ConcurrentExtraction) (s : DownloadCoordinator) : Prop extends
    CountsAll cfg s where
  thread : ThreadKeeps cfg s

theorem keepsAll_init (cfg : ConcurrentExtraction) : KeepsAll cfg init := by
  refine ⟨⟨rfl, by simp [init], Nat.zero_le _, fun q hq ↦ ?_, fun _ q hq ↦ ?_⟩, rfl, fun _ q hq ↦ ?_⟩
  · simp [account, init, ExtractThread.starting] at hq
  · cases hq
  · cases hq

/-- A callback runs while a download is under way, so the main thread is not past its wait. -/
theorem ThreadKeeps.callback {t : DownloadCoordinator} (h : ThreadKeeps cfg s)
    (hbusy : 0 < s.downloads.busy) (hmain : t.main = s.main) (hsegments : t.fromSegments = s.fromSegments)
    (hcancel : t.cancelRequested = false → s.cancelRequested = false)
    (haccount : t.cancelRequested = false → ∀ q, s.account q ≤ t.account q)
    (hwaiting : s.main = .waiting → t.cancelRequested = false → t.partsInFlight = 0 →
      NoneMissed cfg t.account) : ThreadKeeps cfg t := by
  rw [ThreadKeeps, hmain, hsegments]
  rw [ThreadKeeps] at h
  cases hs : s.main with
  | startLoop partIdx =>
    rw [hs] at h
    exact ⟨h.1, fun hok ↦ (h.2 (hcancel hok)).mono (haccount hok)⟩
  | launching partIdx =>
    rw [hs] at h
    exact ⟨h.1, h.2.1, fun hok ↦ (h.2.2 (hcancel hok)).mono (haccount hok)⟩
  | launchFailed partIdx =>
    rw [hs] at h
    exact h
  | waiting =>
    rw [hs] at h
    exact ⟨h.1, hwaiting hs⟩
  | bodyLoop p =>
    rw [hs] at h
    have hidle := h.2.1.idle
    omega
  | returned result =>
    rw [hs] at h
    intro hresult
    have hidle := (h hresult).1.idle
    omega

theorem waitForDownloads_keepsAll (h : CountsAll cfg { s with main := .waiting })
    (hsegments : s.fromSegments = [])
    (hnone : s.cancelRequested = false → s.partsInFlight = 0 → NoneMissed cfg s.downloads.account) :
    KeepsAll cfg (waitForDownloads cfg s) := by
  have hinFlight : s.partsInFlight = s.downloads.busy := h.inFlight
  have herror : s.cancelRequested = false ↔ s.firstErrorCode = 0 := h.error
  have hthere (hok : s.firstErrorCode = 0) (hidle : s.partsInFlight = 0) : AllThere cfg s.downloads :=
    ⟨by rw [← hinFlight, hidle], hnone (herror.mpr hok) hidle⟩
  rw [waitForDownloads]
  split_ifs with hbusy
  · exact ⟨⟨h.inFlight, h.error, h.next_le, h.known, h.noneMissed⟩, hsegments,
      fun hok hidle ↦ hnone hok hidle⟩
  · rw [afterDownloads]
    split_ifs with hbody
    · refine ⟨⟨h.inFlight, h.error, h.next_le, h.known, h.noneMissed⟩, Nat.zero_le _,
        hthere hbody.1 (by omega), ?_, ?_⟩
      · intro q hq
        change q ∈ s.fromSegments at hq
        rw [hsegments] at hq
        cases hq
      · intro q hq
        cases hq
    · refine ⟨⟨h.inFlight, h.error, h.next_le, h.known, h.noneMissed⟩, ?_⟩
      intro hresult
      refine ⟨hthere hresult (by omega), ?_, ?_⟩
      · intro q hq
        change q ∈ s.fromSegments at hq
        rw [hsegments] at hq
        cases hq
      · intro q hq hfull
        have hnil : cfg.bodySegments = [] := by
          by_contra hne
          exact hbody ⟨hresult, hne⟩
        simp [ConcurrentExtraction.PartHasFullBodyData, hnil] at hfull

theorem startLoopSection_keepsAll (hmax : 0 < cfg.maxConcurrent) (hparts : cfg.numParts ≤ 2 ^ 32)
    (h : KeepsAll cfg s) {partIdx : ℕ} (hmain : s.main = .startLoop partIdx) :
    KeepsAll cfg (startLoopSection cfg s partIdx) := by
  have hthread := h.thread
  rw [ThreadKeeps, hmain] at hthread
  obtain ⟨hsegments, hstarted⟩ := hthread
  have haccount : s.account = s.downloads.account := by
    funext q
    simp [account, hmain, ExtractThread.starting]
  have hwaiting : CountsAll cfg { s with main := .waiting } := by
    have hinFlight := h.inFlight
    have hknown := h.known
    have hmissed := h.noneMissed
    rw [haccount] at hknown hmissed
    rw [hmain] at hinFlight
    exact ⟨hinFlight, h.error, h.next_le, hknown, hmissed⟩
  obtain ⟨hskip, hcovered, -⟩ := skipBodyParts_spec cfg (cfg.numParts - partIdx) partIdx
  rw [haccount] at hstarted
  rw [startLoopSection]
  split_ifs with hroom
  · by_cases hend : skipBodyParts cfg (cfg.numParts - partIdx) partIdx ≥ cfg.numParts
    · simp only [if_pos hend]
      refine waitForDownloads_keepsAll hwaiting hsegments fun hok _ ↦ (hstarted hok).noneMissed ?_
      exact fun q hq hlt _ ↦ hcovered q hq (by omega)
    · simp only [if_neg hend]
      generalize skipBodyParts cfg (cfg.numParts - partIdx) partIdx = start at *
      have hsmall : start % 2 ^ 32 = start := Nat.mod_eq_of_lt (by omega)
      -- what the loop has passed is in memory, and what it has come to is being started
      have hbelow (hok : s.cancelRequested = false) :
          NoneMissedBelow cfg (fun q ↦ s.downloads.account q + [start % 2 ^ 32].count q) (start + 1) := by
        intro q hq hfull
        rcases Nat.lt_or_ge q partIdx with hlt | hge
        · have hbefore := hstarted hok q hlt hfull
          dsimp only
          omega
        · rcases Nat.lt_or_ge q start with hlt | hge'
          · exact (hfull (hcovered q hge hlt)).elim
          · obtain rfl : q = start := by omega
            dsimp only
            rw [hsmall, List.count_singleton_self]
            omega
      refine ⟨⟨?_, h.error, by change start + 1 ≤ _; omega, fun q hq ↦ ?_, hbelow⟩, hsegments, by omega,
        hbelow⟩
      · change s.partsInFlight + 1 = _
        rw [show s.partsInFlight = s.downloads.busy from hwaiting.inFlight]
        rfl
      · change 0 < s.downloads.account q + [start % 2 ^ 32].count q at hq
        rw [hsmall, List.count_singleton] at hq
        split at hq
        · next heq =>
          have heq := eq_of_beq heq
          omega
        · exact hwaiting.known q hq
  · refine waitForDownloads_keepsAll hwaiting hsegments fun hok hidle ↦ (hstarted hok).noneMissed ?_
    intro q hq hlt
    omega

theorem mainStart_keepsAll (h : KeepsAll cfg s) {partIdx : ℕ} (hmain : s.main = .launching partIdx)
    (ok : Bool) :
    KeepsAll cfg (if ok then { s with
        main := .startLoop (partIdx + 1)
        downloads := s.downloads.enlist (partIdx % 2 ^ 32) }
      else { s with main := .launchFailed partIdx }) := by
  have hthread := h.thread
  rw [ThreadKeeps, hmain] at hthread
  obtain ⟨hsegments, -, hstarted⟩ := hthread
  have hinFlight := h.inFlight
  rw [hmain] at hinFlight
  cases ok with
  | true =>
    have haccount : account { s with
        main := .startLoop (partIdx + 1)
        downloads := s.downloads.enlist (partIdx % 2 ^ 32) } = s.account := by
      funext q
      simp [account, hmain, ExtractThread.starting, List.count_singleton]
    refine ⟨⟨?_, h.error, h.next_le, ?_, ?_⟩, hsegments, ?_⟩
    · simpa [ExtractThread.starting] using hinFlight
    · simp only [if_true]
      rw [haccount]
      exact h.known
    · simp only [if_true]
      rw [haccount]
      exact h.noneMissed
    · simp only [if_true]
      rw [haccount]
      exact hstarted
  | false =>
    have haccount : account { s with main := .launchFailed partIdx } = s.account := by
      funext q
      rw [account, account, hmain]
      rfl
    refine ⟨⟨hinFlight, h.error, h.next_le, ?_, ?_⟩, hsegments⟩
    · simp only [Bool.false_eq_true, if_false]
      rw [haccount]
      exact h.known
    · simp only [Bool.false_eq_true, if_false]
      rw [haccount]
      exact h.noneMissed

theorem launchFailedSection_keepsAll (h : KeepsAll cfg s) {partIdx : ℕ}
    (hmain : s.main = .launchFailed partIdx) : KeepsAll cfg (launchFailedSection cfg s) := by
  have hthread := h.thread
  rw [ThreadKeeps, hmain] at hthread
  have hinFlight := h.inFlight
  rw [hmain] at hinFlight
  refine waitForDownloads_keepsAll ⟨?_, ?_, h.next_le, fun q hq ↦ h.known q ?_, fun hok ↦ ?_⟩ hthread
    fun hok ↦ ?_
  · change s.partsInFlight - 1 = s.downloads.busy + 0
    rw [hinFlight]
    rfl
  · change true = false ↔ (-1 : ℤ) = 0
    simp
  · change 0 < s.downloads.account q + 0 at hq
    rw [account]
    omega
  · cases hok
  · cases hok

theorem notifyIfIdle_keepsAll (h : KeepsAll cfg s) : KeepsAll cfg (notifyIfIdle s) := by
  rw [notifyIfIdle]
  split_ifs
  · exact ⟨⟨h.inFlight, h.error, h.next_le, h.known, h.noneMissed⟩, h.thread⟩
  · exact h

/-- The first error is kept. -/
theorem CountsAll.failed (h : CountsAll cfg s) {errorCode : ℤ} (herror : errorCode ≠ 0) :
    true = false ↔ (if s.cancelRequested then s.firstErrorCode else errorCode) = 0 := by
  have hold := h.error
  cases hcancel : s.cancelRequested with
  | true =>
    rw [hcancel] at hold
    simpa using hold
  | false => simp [herror]

/-- A completion, before it looks for more work. -/
theorem recordFinish_countsAll (h : CountsAll cfg s) {part : ℕ} (hmem : part ∈ s.downloads.running)
    (errorCode : ℤ) : CountsAll cfg (recordFinish s part errorCode) := by
  have hinFlight := h.inFlight
  have hbusy := WorkPool.busy_pos_of_running hmem
  rw [recordFinish]
  by_cases herror : errorCode ≠ 0
  · rw [if_pos herror]
    have hdrop := WorkPool.busy_drop hmem
    refine ⟨?_, h.failed herror, h.next_le, fun q hq ↦ h.known q (hq.trans_le ?_), fun hok ↦ (by cases hok)⟩
    · change s.partsInFlight - 1 = (s.downloads.drop part).busy + s.main.starting.length
      omega
    · exact Nat.add_le_add_right (WorkPool.account_drop_le s.downloads part q) _
  · rw [if_neg herror]
    have hfinish := WorkPool.busy_finish hmem
    have haccount : account { s with
        partsInFlight := s.partsInFlight - 1
        partsCompleted := s.partsCompleted + 1
        downloads := s.downloads.finish part } = s.account := by
      funext q
      rw [account, account, WorkPool.account_finish hmem]
    refine ⟨?_, h.error, h.next_le, haccount ▸ h.known, haccount ▸ h.noneMissed⟩
    change s.partsInFlight - 1 = (s.downloads.finish part).busy + s.main.starting.length
    omega

theorem recordFinish_account {part : ℕ} (hmem : part ∈ s.downloads.running) {errorCode : ℤ}
    (hok : (recordFinish s part errorCode).cancelRequested = false) (q : ℕ) :
    (recordFinish s part errorCode).account q = s.account q := by
  obtain ⟨rfl, -⟩ := recordFinish_ok hok
  simp only [recordFinish, ne_eq, not_true_eq_false, if_false, account, WorkPool.account_finish hmem]

theorem finishCallback_keepsAll (hcovered : cfg.CoveredToEnd) (hparts : cfg.numParts ≤ 2 ^ 32)
    (h : KeepsAll cfg s) {part : ℕ} (hmem : part ∈ s.downloads.running) (errorCode : ℤ) :
    KeepsAll cfg (handOutNext cfg (recordFinish s part errorCode)) := by
  have hbusy := WorkPool.busy_pos_of_running hmem
  have hcounts := recordFinish_countsAll h.toCountsAll hmem errorCode
  obtain ⟨hmain, hsegments, hnext, -⟩ := recordFinish_unchanged s part errorCode
  have hcancel (hok : (recordFinish s part errorCode).cancelRequested = false) :
      s.cancelRequested = false := (recordFinish_ok hok).2
  have haccount (hok : (recordFinish s part errorCode).cancelRequested = false) (q : ℕ) :=
    recordFinish_account hmem hok q
  generalize recordFinish s part errorCode = r at *
  rw [handOutNext]
  split_ifs with hout
  · have hlt := hout.2.trans_le cfg.partsToDownload_le
    have hsmall : r.nextPartToStart % 2 ^ 32 = r.nextPartToStart := Nat.mod_eq_of_lt (by omega)
    have hmore (q : ℕ) : account { r with
        nextPartToStart := r.nextPartToStart + 1
        partsInFlight := r.partsInFlight + 1
        downloads := r.downloads.accept (r.nextPartToStart % 2 ^ 32) } q =
          r.account q + if r.nextPartToStart = q then 1 else 0 := by
      rw [account, account, WorkPool.account_accept, hsmall, Nat.add_right_comm]
    refine ⟨⟨?_, hcounts.error, hlt, fun q hq ↦ ?_, fun hok q hq hfull ↦ ?_⟩,
      h.thread.callback hbusy hmain hsegments hcancel (fun hok q ↦ ?_) fun _ _ hidle ↦ (by cases hidle)⟩
    · change r.partsInFlight + 1 = (r.downloads.accept _).busy + r.main.starting.length
      rw [WorkPool.busy_accept, hcounts.inFlight]
      omega
    · rw [hmore] at hq
      split at hq
      · omega
      · exact hcounts.known q hq
    · rw [hmore]
      change q < r.nextPartToStart + 1 at hq
      split
      · omega
      · exact hcounts.noneMissed hok q (by omega) hfull
    · rw [hmore, haccount hok]
      omega
  · refine notifyIfIdle_keepsAll ⟨hcounts, h.thread.callback hbusy hmain hsegments hcancel
      (fun hok q ↦ (haccount hok q).ge) fun _ hok _ ↦ ?_⟩
    refine (hcounts.noneMissed hok).noneMissed (hcovered.noneLeft ?_)
    by_contra hlt
    exact hout ⟨hok, by omega⟩

theorem callbackStart_keepsAll (h : KeepsAll cfg s) {part : ℕ} (hmem : part ∈ s.downloads.launching)
    (ok : Bool) :
    KeepsAll cfg { s with
      downloads := if ok then s.downloads.launched part else s.downloads.refuse part } := by
  have hbusy := WorkPool.busy_pos_of_launching hmem
  have hpool : (if ok then s.downloads.launched part else s.downloads.refuse part).busy =
        s.downloads.busy ∧
      ∀ q, (if ok then s.downloads.launched part else s.downloads.refuse part).account q =
        s.downloads.account q := by
    cases ok with
    | true => exact ⟨WorkPool.busy_launched hmem, WorkPool.account_launched hmem⟩
    | false => exact ⟨WorkPool.busy_refuse hmem, WorkPool.account_refuse hmem⟩
  have haccount : account { s with
      downloads := if ok then s.downloads.launched part else s.downloads.refuse part } = s.account := by
    funext q
    rw [account, account, hpool.2]
  refine ⟨⟨?_, h.error, h.next_le, haccount ▸ h.known, haccount ▸ h.noneMissed⟩,
    h.thread.callback hbusy rfl rfl id (fun _ q ↦ ?_) fun hwaiting hok hidle ↦ ?_⟩
  · change s.partsInFlight = _ + s.main.starting.length
    rw [hpool.1, h.inFlight]
  · rw [haccount]
  · have hthread := h.thread
    rw [ThreadKeeps, hwaiting] at hthread
    rw [haccount]
    exact hthread.2 hok hidle

theorem callbackStartFailed_keepsAll (h : KeepsAll cfg s) {part : ℕ} (hmem : part ∈ s.downloads.refused) :
    KeepsAll cfg (callbackStartFailedSection s part) := by
  have hbusy := WorkPool.busy_pos_of_refused hmem
  have hreport := WorkPool.busy_report hmem
  have hinFlight := h.inFlight
  refine notifyIfIdle_keepsAll ⟨⟨?_, h.failed (by decide), h.next_le, fun q hq ↦ h.known q (hq.trans_le ?_),
    fun hok ↦ (by cases hok)⟩, h.thread.callback hbusy rfl rfl (fun hok ↦ (by cases hok))
    (fun hok ↦ (by cases hok)) fun _ hok ↦ (by cases hok)⟩
  · change s.partsInFlight - 1 = (s.downloads.report part).busy + s.main.starting.length
    omega
  · exact Nat.add_le_add_right (WorkPool.account_report_le s.downloads part q) _

theorem bodyLoopRound_keepsAll (hparts : cfg.numParts ≤ 2 ^ 32) (h : KeepsAll cfg s) {p : ℕ}
    (hmain : s.main = .bodyLoop p) (ok : Bool) : KeepsAll cfg (bodyLoopRound cfg s p ok) := by
  have hthread := h.thread
  rw [ThreadKeeps, hmain] at hthread
  obtain ⟨hp, hthere, hprocessed⟩ := hthread
  have hinFlight := h.inFlight
  rw [hmain] at hinFlight
  have haccount (m : ExtractThread) (hm : m.starting = []) : account { s with main := m } = s.account := by
    funext q
    rw [account, account, hmain]
    change s.downloads.account q + m.starting.count q = s.downloads.account q + [].count q
    rw [hm]
  have hcounts (m : ExtractThread) (hm : m.starting = []) : CountsAll cfg { s with main := m } := by
    refine ⟨?_, h.error, h.next_le, haccount m hm ▸ h.known, haccount m hm ▸ h.noneMissed⟩
    change s.partsInFlight = s.downloads.busy + m.starting.length
    rw [hm]
    exact hinFlight
  rw [bodyLoopRound]
  by_cases hend : p ≥ cfg.numParts
  · rw [if_pos hend]
    refine ⟨hcounts _ rfl, fun _ ↦ ⟨hthere, ?_⟩⟩
    rwa [Nat.le_antisymm hp hend] at hprocessed
  rw [if_neg hend]
  by_cases hfull : cfg.PartHasFullBodyData p
  · have hsmall : p % 2 ^ 32 = p := Nat.mod_eq_of_lt (by omega)
    obtain ⟨hbody, segment, hmem, hcovers⟩ := id hfull
    obtain ⟨found, hfound⟩ := findBodySegmentForOffset_of_covers hmem hcovers hbody
    rw [if_neg (not_not_intro hfull), show cfg.start p = partStart cfg.partSize p from rfl, hfound]
    simp only [hsmall]
    rw [if_neg (by omega)]
    cases ok with
    | true =>
      have hnext := hcounts (.bodyLoop (p + 1)) rfl
      refine ⟨⟨hnext.inFlight, hnext.error, hnext.next_le, hnext.known, hnext.noneMissed⟩,
        by omega, hthere, ?_, ?_⟩
      · intro q hq
        rcases List.mem_cons.mp hq with rfl | hbefore
        · exact ⟨by omega, hfull⟩
        · exact hprocessed.covered q hbefore
      · intro q hq hcovered
        rcases Nat.lt_or_ge q p with hlt | hge
        · exact List.mem_cons_of_mem _ (hprocessed.complete q hlt hcovered)
        · obtain rfl : q = p := by omega
          exact List.mem_cons_self
    | false => exact ⟨hcounts _ rfl, fun hresult ↦ by cases hresult⟩
  · rw [if_pos hfull]
    refine ⟨hcounts _ rfl, by omega, hthere, hprocessed.covered, ?_⟩
    intro q hq hcovered
    rcases Nat.lt_or_ge q p with hlt | hge
    · exact hprocessed.complete q hlt hcovered
    · obtain rfl : q = p := by omega
      exact (hfull hcovered).elim

theorem step_keepsAll (hmax : 0 < cfg.maxConcurrent) (hcovered : cfg.CoveredToEnd)
    (hparts : cfg.numParts ≤ 2 ^ 32) {a : DownloadAction} {t : DownloadCoordinator} (h : KeepsAll cfg s)
    (hstep : step cfg s a = some t) : KeepsAll cfg t := by
  cases a with
  | mainSection =>
    rw [step] at hstep
    split at hstep
    · next hmain =>
      cases hstep
      exact startLoopSection_keepsAll hmax hparts h hmain
    · next hmain =>
      cases hstep
      exact launchFailedSection_keepsAll h hmain
    · cases hstep
  | mainStart ok =>
    rw [step] at hstep
    split at hstep
    · next hmain =>
      have hstart := mainStart_keepsAll h hmain ok
      split_ifs at hstep hstart with hok
      · cases hstep
        exact hstart
      · cases hstep
        exact hstart
    · cases hstep
  | wake =>
    rw [step] at hstep
    split_ifs at hstep with hmain
    cases hstep
    have hthread := h.thread
    rw [ThreadKeeps, hmain] at hthread
    have haccount : s.account = s.downloads.account := by
      funext q
      simp [account, hmain, ExtractThread.starting]
    rw [haccount] at hthread
    exact waitForDownloads_keepsAll (hmain ▸ h.toCountsAll) hthread.1 hthread.2
  | finishCallback part errorCode =>
    rw [step] at hstep
    split_ifs at hstep with hmem
    cases hstep
    exact finishCallback_keepsAll hcovered hparts h hmem errorCode
  | callbackStart part ok =>
    rw [step] at hstep
    by_cases hmem : part ∈ s.downloads.launching
    · rw [if_pos hmem] at hstep
      cases hstep
      exact callbackStart_keepsAll h hmem ok
    · rw [if_neg hmem] at hstep
      cases hstep
  | callbackStartFailed part =>
    rw [step] at hstep
    split_ifs at hstep with hmem
    cases hstep
    exact callbackStartFailed_keepsAll h hmem
  | bodyPart ok =>
    rw [step] at hstep
    split at hstep
    · next hmain =>
      cases hstep
      exact bodyLoopRound_keepsAll hparts h hmain ok
    · cases hstep

/-- What has been processed when the extraction returns success. -/
theorem KeepsAll.returned (h : KeepsAll cfg s) (hreturned : s.main = .returned 0) :
    s.downloads.busy = 0 ∧
      (∀ p ∈ s.downloads.done, p < cfg.numParts) ∧
      (∀ p ∈ s.fromSegments, p < cfg.numParts ∧ cfg.PartHasFullBodyData p) ∧
      ∀ p < cfg.numParts, p * cfg.partSize < cfg.centralDirOffset →
        if cfg.PartHasFullBodyData p then p ∈ s.fromSegments else p ∈ s.downloads.done := by
  have hthread := h.thread
  rw [ThreadKeeps, hreturned] at hthread
  obtain ⟨hthere, hprocessed⟩ := hthread rfl
  have hdone (p : ℕ) : s.downloads.account p = s.downloads.done.count p :=
    WorkPool.account_eq_done hthere.idle p
  refine ⟨hthere.idle, fun p hp ↦ h.known p ?_, hprocessed.covered, fun p hp hbody ↦ ?_⟩
  · have hpos := List.count_pos_iff.mpr hp
    rw [account, hdone]
    omega
  · split_ifs with hfull
    · exact hprocessed.complete p hp hfull
    · have hpos := hthere.noneMissed p hp hbody hfull
      rw [hdone] at hpos
      exact List.count_pos_iff.mp hpos

theorem run_keepsAll (hmax : 0 < cfg.maxConcurrent) (hcovered : cfg.CoveredToEnd)
    (hparts : cfg.numParts ≤ 2 ^ 32) {actions : List DownloadAction}
    (hrun : run (step cfg) init actions = some s) : KeepsAll cfg s :=
  run_always (fun h hs ↦ step_keepsAll hmax hcovered hparts h hs) (keepsAll_init cfg) hrun

end DownloadCoordinator

open DownloadCoordinator in
/-- When `burst_downloader_extract_concurrent` returns success, no part with body data has been left out,
whatever the callbacks and the start loop have handed out twice. -/
theorem extractConcurrent_losesNone {cfg : ConcurrentExtraction} (hmax : 0 < cfg.maxConcurrent)
    (hparts : cfg.numParts ≤ 2 ^ 32) (hcovered : cfg.CoveredToEnd) {actions : List DownloadAction}
    {s : DownloadCoordinator} (hrun : run (step cfg) init actions = some s)
    (hreturned : s.main = .returned 0) :
    s.downloads.busy = 0 ∧
      (∀ p ∈ s.downloads.done, p < cfg.numParts) ∧
      (∀ p ∈ s.fromSegments, p < cfg.numParts ∧ cfg.PartHasFullBodyData p) ∧
      ∀ p < cfg.numParts, p * cfg.partSize < cfg.centralDirOffset →
        if cfg.PartHasFullBodyData p then p ∈ s.fromSegments else p ∈ s.downloads.done :=
  (run_keepsAll hmax hcovered hparts hrun).returned hreturned

/-- Three parts of which nothing is in memory. -/
def raceSample : ConcurrentExtraction where
  maxConcurrent := 2
  numParts := 3
  partSize := 8388608
  centralDirOffset := 25165000
  bodySegments := []

/-- The first part is complete before the start loop goes on, which then starts the second one again. -/
def raceSampleActions : List DownloadAction :=
  [.mainSection, .mainStart true, .finishCallback 0 0, .callbackStart 1 true, .mainSection, .mainStart true,
    .mainSection, .finishCallback 1 0, .callbackStart 2 true, .finishCallback 1 0, .finishCallback 2 0, .wake]

open DownloadCoordinator in
theorem raceSample_losesNone : ∃ s, run (step raceSample) init raceSampleActions = some s ∧
    s.main = .returned 0 ∧ s.downloads.done.count 1 = 2 ∧
    ∀ p < raceSample.numParts, p ∈ s.downloads.done := by
  obtain ⟨s, hrun⟩ : ∃ s, run (step raceSample) init raceSampleActions = some s :=
    Option.isSome_iff_exists.mp (by decide +kernel)
  have hvalues : (run (step raceSample) init raceSampleActions).map
      (fun s ↦ (s.main, s.downloads.done.count 1)) = some (.returned 0, 2) := by decide +kernel
  rw [hrun] at hvalues
  obtain ⟨hreturned, htwice⟩ := Prod.mk.inj (Option.some.inj hvalues)
  have hfull (p : ℕ) : ¬ raceSample.PartHasFullBodyData p := by
    simp [ConcurrentExtraction.PartHasFullBodyData, raceSample]
  obtain ⟨-, -, -, hparts⟩ := extractConcurrent_losesNone (by decide) (by decide)
    (fun q r hq ↦ (hfull q hq).elim) hrun hreturned
  refine ⟨s, hrun, hreturned, htwice, fun p hp ↦ ?_⟩
  have hbody : p * raceSample.partSize < raceSample.centralDirOffset := by
    simp only [raceSample] at hp ⊢
    omega
  simp only [hfull, if_false] at hparts
  exact hparts p hp hbody

end Burst
