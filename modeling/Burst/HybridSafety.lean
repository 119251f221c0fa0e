import Burst.HybridCoordinator

namespace Burst

open Transition

def HybridItem.isRange : HybridItem → Bool
  | .cdRange _ => true
  | .part _ => false

namespace HybridThread

/-- The item the main thread is starting. -/
def starting : HybridThread → List HybridItem
  | .launching item _ => [item]
  | .launchFailed item _ => [item]
  | _ => []

/-- The main thread no longer waits. -/
def Past : HybridThread → Prop
  | .bodyLoop _ => True
  | .returned _ => True
  | _ => False

theorem Past.starting_eq {m : HybridThread} (h : m.Past) : m.starting = [] := by
  cases m with
  | bodyLoop p => rfl
  | returned result => rfl
  | startLoop => exact h.elim
  | launching item prevInFlight => exact h.elim
  | launched prevInFlight => exact h.elim
  | launchFailed item prevInFlight => exact h.elim
  | waiting => exact h.elim

end HybridThread

namespace HybridCoordinator

variable {cfg : HybridDownload} {s t : HybridCoordinator}

/-- How often an item is being or has been worked on. -/
def account (s : HybridCoordinator) (item : HybridItem) : ℕ :=
  s.work.account item + s.main.starting.count item

def pendingRanges (s : HybridCoordinator) : ℕ :=
  s.work.pending HybridItem.isRange + s.main.starting.countP HybridItem.isRange

/-- Each part with body data is dispatched, queued or in memory. -/
def Covering (cfg : HybridDownload) (s : HybridCoordinator) : Prop :=
  ∃ fullCd, s.fullCd = some fullCd ∧ s.numParts = fullCd.parts.length ∧ s.numParts ≤ 2 ^ 32 ∧
    fullCd.centralDirOffset + cfg.partSize ≤ 2 ^ 64 ∧
    ∀ p < s.numParts, p * cfg.partSize < fullCd.centralDirOffset →
      p ∈ s.partDispatched ∨ p ∈ s.latePartQueue ∨
        PartCovered cfg s.bodySegments fullCd.centralDirOffset p

/-- Nothing is left to be dispatched. -/
def NothingLeft (cfg : HybridDownload) (s : HybridCoordinator) : Prop :=
  cfg.cdRangesTotal ≤ s.cdRangesDispatched ∧
    (s.cdComplete = true → ∀ p ∈ s.latePartQueue, p ∈ s.partDispatched)

/-- What the counters, the queues and the work have to do with each other. -/
structure Counted (cfg : HybridDownload) (s : HybridCoordinator) : Prop where
  inFlight : s.inFlight = s.work.busy + s.main.starting.length
  error : s.cancelRequested = false ↔ s.firstErrorCode = 0
  dispatched_le : s.cdRangesDispatched ≤ cfg.cdRangesTotal
  ranges : s.cancelRequested = false →
    s.cdRangesCompleted + s.pendingRanges = s.cdRangesDispatched
  parts : s.cancelRequested = false →
    ∀ p, s.account (.part p) = if p ∈ s.partDispatched then 1 else 0
  complete : s.cancelRequested = false →
    ∀ p, p ∈ s.partComplete ↔ .part p ∈ s.work.done ∨ p ∈ s.fromSegments
  cdDone : s.cancelRequested = false → s.assembling = 0 →
    s.cdRangesCompleted = cfg.cdRangesTotal → s.cdComplete = true
  covering : s.cancelRequested = false → s.cdComplete = true → Covering cfg s

/-- The covered parts below a bound that were not downloaded have been processed, once each. -/
def SegmentsBelow (cfg : HybridDownload) (s : HybridCoordinator) (p : ℕ) : Prop :=
  ∀ fullCd, s.fullCd = some fullCd → ∀ q, s.fromSegments.count q =
    if q < p ∧ .part q ∉ s.work.done ∧ PartHasBody cfg fullCd.centralDirOffset q ∧
      PartCovered cfg s.bodySegments fullCd.centralDirOffset q then 1 else 0

/-- What holds at each place of the main thread. -/
def ThreadInv (cfg : HybridDownload) (s : HybridCoordinator) : Prop :=
  match s.main with
  | .bodyLoop p => s.cancelRequested = false ∧ p ≤ s.numParts ∧ SegmentsBelow cfg s p
  | .returned result => result = 0 → s.cancelRequested = false ∧ SegmentsBelow cfg s s.numParts
  | _ => s.fromSegments = []

structure Safe (cfg : HybridDownload) (s : HybridCoordinator) : Prop extends Counted cfg s where
  idle : s.main ≠ .startLoop → s.inFlight = 0 → s.assembling = 0 → s.cancelRequested = false →
    NothingLeft cfg s
  past : s.main.Past → s.work.busy = 0 ∧ s.assembling = 0
  thread : ThreadInv cfg s

/-- The main thread takes the lock while a callback assembles the central directory only if something
else is in flight, and the archive is one whose parts have 32-bit indices and end below `2 ^ 64`. -/
def Undisturbed (cfg : HybridDownload) (s : HybridCoordinator) : HybridAction → Prop
  | .mainSection => s.assembling > 0 → s.inFlight > s.main.starting.length
  | .wake => s.assembling > 0 → s.inFlight > 0
  | .assembled result => ∀ r ∈ result,
      r.1.parts.length ≤ 2 ^ 32 ∧ r.1.centralDirOffset + cfg.partSize ≤ 2 ^ 64
  | _ => True

instance (cfg : HybridDownload) (s : HybridCoordinator) : DecidablePred (Undisturbed cfg s)
  | .mainSection => inferInstanceAs (Decidable (_ > _ → _ > _))
  | .wake => inferInstanceAs (Decidable (_ > _ → _ > _))
  | .assembled result => inferInstanceAs (Decidable (∀ r ∈ result,
      r.1.parts.length ≤ 2 ^ 32 ∧ r.1.centralDirOffset + cfg.partSize ≤ 2 ^ 64))
  | .mainStart _ => isTrue trivial
  | .finishCallback _ _ => isTrue trivial
  | .callbackStart _ _ => isTrue trivial
  | .callbackStartFailed _ => isTrue trivial
  | .callbackReturn => isTrue trivial
  | .bodyPart _ => isTrue trivial

/-- What is left of a queue holds every part of it that is not dispatched. -/
theorem mem_undispatched {queue : List ℕ} {p : ℕ} (h : p ∈ queue) :
    p ∈ s.undispatched queue ∨ p ∈ s.partDispatched := by
  rw [← List.takeWhile_append_dropWhile (p := fun q ↦ decide (q ∈ s.partDispatched)) (l := queue)]
    at h
  rcases List.mem_append.mp h with htaken | hleft
  · exact .inr (by simpa using List.mem_takeWhile_imp htaken)
  · exact .inl hleft

theorem head_undispatched {queue rest : List ℕ} {p : ℕ} (h : s.undispatched queue = p :: rest) :
    p ∉ s.partDispatched := by
  have hhead := List.head?_dropWhile_not (fun q ↦ decide (q ∈ s.partDispatched)) queue
  rw [show queue.dropWhile (fun q ↦ decide (q ∈ s.partDispatched)) = p :: rest from h] at hhead
  simpa using hhead

/-- What `hybrid_dispatch_next` can do: nothing, after an error, at the limit or when nothing is left,
or dispatch a range or a part. -/
inductive TakesNext (cfg : HybridDownload) (s : HybridCoordinator) :
    Option HybridItem × HybridCoordinator → Prop where
  | nothing (early late : List ℕ) (hlate : ∀ p ∈ s.latePartQueue, p ∈ late ∨ p ∈ s.partDispatched)
      (hwhy : s.cancelRequested = true ∨ cfg.maxConcurrent ≤ s.inFlight ∨
        NothingLeft cfg { s with earlyPartQueue := early, latePartQueue := late }) :
      TakesNext cfg s (none, { s with earlyPartQueue := early, latePartQueue := late })
  | cdRange (hok : s.cancelRequested = false) (hlt : s.cdRangesDispatched < cfg.cdRangesTotal) :
      TakesNext cfg s (some (.cdRange s.cdRangesDispatched), { s with
        cdRangesDispatched := s.cdRangesDispatched + 1
        inFlight := s.inFlight + 1 })
  | part (part : ℕ) (early late : List ℕ) (hok : s.cancelRequested = false)
      (hnew : part ∉ s.partDispatched)
      (hlate : ∀ p ∈ s.latePartQueue, p ∈ late ∨ p ∈ part :: s.partDispatched) :
      TakesNext cfg s (some (.part part), { s with
        earlyPartQueue := early
        latePartQueue := late
        partDispatched := part :: s.partDispatched
        inFlight := s.inFlight + 1 })

theorem takeNext_spec (cfg : HybridDownload) (s : HybridCoordinator) :
    TakesNext cfg s (takeNext cfg s) := by
  rw [takeNext]
  by_cases hcancel : s.cancelRequested = true
  · rw [if_pos hcancel]
    exact .nothing _ _ (fun p hp ↦ .inl hp) (.inl hcancel)
  rw [if_neg hcancel]
  have hok : s.cancelRequested = false := by simpa using hcancel
  by_cases hmax : s.inFlight ≥ cfg.maxConcurrent
  · rw [if_pos hmax]
    exact .nothing _ _ (fun p hp ↦ .inl hp) (.inr (.inl hmax))
  rw [if_neg hmax]
  by_cases hrange : s.cdRangesDispatched < cfg.cdRangesTotal
  · rw [if_pos hrange]
    exact .cdRange hok hrange
  rw [if_neg hrange]
  cases hearly : s.undispatched s.earlyPartQueue with
  | cons part rest => exact .part part rest _ hok (head_undispatched hearly) fun p hp ↦ .inl hp
  | nil =>
    by_cases hcd : s.cdComplete = true
    · simp only [if_pos hcd]
      cases hlate : s.undispatched s.latePartQueue with
      | cons part rest =>
        refine .part part [] rest hok (head_undispatched hlate) fun p hp ↦ ?_
        rcases mem_undispatched hp with hleft | hdone
        · rw [hlate] at hleft
          rcases List.mem_cons.mp hleft with rfl | hrest
          · exact .inr List.mem_cons_self
          · exact .inl hrest
        · exact .inr (List.mem_cons_of_mem _ hdone)
      | nil =>
        refine .nothing [] [] (fun p hp ↦ .inr ?_)
          (.inr (.inr ⟨Nat.le_of_not_lt hrange, fun _ p hp ↦ by cases hp⟩))
        rcases mem_undispatched hp with hleft | hdone
        · rw [hlate] at hleft
          cases hleft
        · exact hdone
    · simp only [if_neg hcd]
      exact .nothing [] _ (fun p hp ↦ .inl hp)
        (.inr (.inr ⟨Nat.le_of_not_lt hrange, fun hdone ↦ (hcd hdone).elim⟩))

/-- The parts stay covered when some of them are dispatched. -/
theorem Covering.mono {late dispatched : List ℕ} (h : Covering cfg s)
    (hdispatched : t.partDispatched = dispatched) (hlate : t.latePartQueue = late)
    (hfull : t.fullCd = s.fullCd) (hparts : t.numParts = s.numParts)
    (hsegments : t.bodySegments = s.bodySegments)
    (hmono : ∀ p ∈ s.partDispatched, p ∈ dispatched)
    (hqueue : ∀ p ∈ s.latePartQueue, p ∈ late ∨ p ∈ dispatched) : Covering cfg t := by
  obtain ⟨fullCd, hcd, hnum, hsmall, hend, hcover⟩ := h
  refine ⟨fullCd, hfull.trans hcd, hparts.trans hnum, hparts ▸ hsmall, hend, fun p hp hbody ↦ ?_⟩
  rw [hdispatched, hlate, hsegments]
  rcases hcover p (hparts ▸ hp) hbody with hdone | hqueued | hcovered
  · exact .inl (hmono p hdone)
  · rcases hqueue p hqueued with hleft | hdone
    · exact .inr (.inl hleft)
    · exact .inl hdone
  · exact .inr (.inr hcovered)

/-- Dispatching counts the item where it is put: with the work or with the main thread. -/
theorem Counted.dispatched (hc : Counted cfg s) {item : HybridItem}
    (htake : TakesNext cfg s (some item, t)) {m : HybridThread} {w : WorkPool HybridItem}
    (hbusy : w.busy + m.starting.length = s.work.busy + s.main.starting.length + 1)
    (hpending : w.pending HybridItem.isRange + m.starting.countP HybridItem.isRange =
      s.pendingRanges + if item.isRange then 1 else 0)
    (haccount : ∀ j, w.account j + m.starting.count j = s.account j + if item = j then 1 else 0)
    (hdone : w.done = s.work.done) : Counted cfg { t with main := m, work := w } := by
  have hinFlight := hc.inFlight
  cases htake with
  | cdRange hok hlt =>
    refine ⟨?_, hc.error, hlt, fun _ ↦ ?_, fun _ p ↦ ?_, fun _ p ↦ ?_, hc.cdDone, fun _ hcd ↦ ?_⟩
    · show s.inFlight + 1 = w.busy + m.starting.length
      omega
    · show s.cdRangesCompleted + (w.pending _ + m.starting.countP _) = s.cdRangesDispatched + 1
      have hranges := hc.ranges hok
      rw [hpending]
      simp only [HybridItem.isRange, if_true]
      omega
    · show w.account _ + m.starting.count _ = _
      rw [haccount, hc.parts hok p]
      simp
    · show p ∈ s.partComplete ↔ .part p ∈ w.done ∨ p ∈ s.fromSegments
      rw [hdone]
      exact hc.complete hok p
    · exact (hc.covering hok hcd).mono rfl rfl rfl rfl rfl (fun p hp ↦ hp) fun p hp ↦ .inl hp
  | part part early late hok hnew hlate =>
    refine ⟨?_, hc.error, hc.dispatched_le, fun _ ↦ ?_, fun _ p ↦ ?_, fun _ p ↦ ?_, hc.cdDone,
      fun _ hcd ↦ ?_⟩
    · show s.inFlight + 1 = w.busy + m.starting.length
      omega
    · show s.cdRangesCompleted + (w.pending _ + m.starting.countP _) = s.cdRangesDispatched
      have hranges := hc.ranges hok
      rw [hpending]
      simpa [HybridItem.isRange] using hranges
    · show w.account _ + m.starting.count _ = if p ∈ part :: s.partDispatched then 1 else 0
      rw [haccount, hc.parts hok p]
      by_cases hp : part = p
      · rw [← hp]
        simp [hnew]
      · simp [hp, Ne.symm hp]
    · show p ∈ s.partComplete ↔ .part p ∈ w.done ∨ p ∈ s.fromSegments
      rw [hdone]
      exact hc.complete hok p
    · exact (hc.covering hok hcd).mono rfl rfl rfl rfl rfl (fun p hp ↦ List.mem_cons_of_mem _ hp)
        hlate

/-- Dispatching nothing may still empty the queues. -/
theorem Counted.nothing (hc : Counted cfg s) {early late : List ℕ}
    (hlate : ∀ p ∈ s.latePartQueue, p ∈ late ∨ p ∈ s.partDispatched) :
    Counted cfg { s with earlyPartQueue := early, latePartQueue := late } :=
  ⟨hc.inFlight, hc.error, hc.dispatched_le, hc.ranges, hc.parts, hc.complete, hc.cdDone, fun hok hcd ↦
    (hc.covering hok hcd).mono rfl rfl rfl rfl rfl (fun _ hp ↦ hp) hlate⟩

/-- As long as the main thread is not past its wait, no part has been processed from memory. -/
theorem ThreadInv.fromSegments_eq (h : ThreadInv cfg s) (hpast : ¬ s.main.Past) :
    s.fromSegments = [] := by
  rw [ThreadInv] at h
  cases hs : s.main with
  | bodyLoop p =>
    rw [hs] at hpast
    exact (hpast trivial).elim
  | returned result =>
    rw [hs] at hpast
    exact (hpast trivial).elim
  | startLoop => rwa [hs] at h
  | launching item prevInFlight => rwa [hs] at h
  | launched prevInFlight => rwa [hs] at h
  | launchFailed item prevInFlight => rwa [hs] at h
  | waiting => rwa [hs] at h

theorem threadInv_of_nil (hpast : ¬ s.main.Past) (h : s.fromSegments = []) : ThreadInv cfg s := by
  rw [ThreadInv]
  cases hs : s.main with
  | bodyLoop p =>
    rw [hs] at hpast
    exact (hpast trivial).elim
  | returned result =>
    rw [hs] at hpast
    exact (hpast trivial).elim
  | startLoop => exact h
  | launching item prevInFlight => exact h
  | launched prevInFlight => exact h
  | launchFailed item prevInFlight => exact h
  | waiting => exact h

theorem notifyIfIdle_safe (h : Safe cfg s) : Safe cfg (notifyIfIdle s) := by
  rw [notifyIfIdle]
  split_ifs
  · exact ⟨⟨h.inFlight, h.error, h.dispatched_le, h.ranges, h.parts, h.complete, h.cdDone, h.covering⟩,
      h.idle, h.past, h.thread⟩
  · exact h

/-- The end of a callback whose request was in flight or which has assembled the central directory. -/
theorem dispatchAndNotify_safe (hmax : 0 < cfg.maxConcurrent) (hc : Counted cfg s)
    (hpast : ¬ s.main.Past) (hsegments : s.fromSegments = []) :
    Safe cfg (dispatchAndNotify cfg s) := by
  have htake := takeNext_spec cfg s
  rw [dispatchAndNotify]
  generalize takeNext cfg s = r at htake ⊢
  cases htake with
  | nothing early late hlate hwhy =>
    refine notifyIfIdle_safe ⟨hc.nothing hlate, fun _ hidle hassembling hok ↦ ?_,
      fun h ↦ (hpast h).elim, threadInv_of_nil hpast hsegments⟩
    have hidle : s.inFlight = 0 := hidle
    have hok : s.cancelRequested = false := hok
    rcases hwhy with hcancel | hlimit | hnothing
    · rw [hok] at hcancel
      cases hcancel
    · omega
    · exact hnothing
  | cdRange hok hlt =>
    refine ⟨hc.dispatched (.cdRange hok hlt) ?_ ?_ (fun j ↦ ?_) rfl, fun _ hidle ↦ (by cases hidle),
      fun h ↦ (hpast h).elim, threadInv_of_nil hpast hsegments⟩
    · rw [WorkPool.busy_accept]
      show s.work.busy + 1 + s.main.starting.length = _
      omega
    · rw [WorkPool.pending_accept, pendingRanges]
      exact Nat.add_right_comm _ _ _
    · rw [WorkPool.account_accept, account]
      exact Nat.add_right_comm _ _ _
  | part part early late hok hnew hlate =>
    refine ⟨hc.dispatched (.part part early late hok hnew hlate) ?_ ?_ (fun j ↦ ?_) rfl,
      fun _ hidle ↦ (by cases hidle), fun h ↦ (hpast h).elim, threadInv_of_nil hpast hsegments⟩
    · rw [WorkPool.busy_accept]
      show s.work.busy + 1 + s.main.starting.length = _
      omega
    · rw [WorkPool.pending_accept, pendingRanges]
      exact Nat.add_right_comm _ _ _
    · rw [WorkPool.account_accept, account]
      exact Nat.add_right_comm _ _ _

/-- When nothing is in flight and nothing is left, the central directory is there. -/
theorem Counted.cdComplete (hc : Counted cfg s) (hbusy : s.work.busy = 0)
    (hstarting : s.main.starting = []) (hassembling : s.assembling = 0)
    (hok : s.cancelRequested = false) (hnothing : NothingLeft cfg s) :
    s.cdComplete = true := by
  have hpending := s.work.pending_le_busy HybridItem.isRange
  have hranges := hc.ranges hok
  rw [pendingRanges, hstarting] at hranges
  refine hc.cdDone hok hassembling ?_
  have hdispatched := Nat.le_antisymm hc.dispatched_le hnothing.1
  simp only [List.countP_nil] at hranges
  omega

theorem waitForWork_safe (hc : Counted cfg { s with main := .waiting })
    (hsegments : s.fromSegments = [])
    (hidle : s.inFlight = 0 → s.assembling = 0 → s.cancelRequested = false → NothingLeft cfg s)
    (hassembling : s.inFlight = 0 → s.assembling = 0) : Safe cfg (waitForWork s) := by
  have hcounted (m : HybridThread) (hm : m.starting = []) : Counted cfg { s with main := m } := by
    refine ⟨?_, hc.error, hc.dispatched_le, fun hok ↦ ?_, fun hok p ↦ ?_, hc.complete, hc.cdDone,
      hc.covering⟩
    · show s.inFlight = s.work.busy + m.starting.length
      rw [hm]
      exact hc.inFlight
    · show s.cdRangesCompleted + (s.work.pending _ + m.starting.countP _) = _
      rw [hm]
      exact hc.ranges hok
    · show s.work.account _ + m.starting.count _ = _
      rw [hm]
      exact hc.parts hok p
  have hbusy (hzero : s.inFlight = 0) : s.work.busy = 0 := by
    have hinFlight : s.inFlight = s.work.busy := hc.inFlight
    omega
  rw [waitForWork]
  by_cases hflight : s.inFlight > 0
  · rw [if_pos hflight]
    refine ⟨⟨hc.inFlight, hc.error, hc.dispatched_le, hc.ranges, hc.parts, hc.complete, hc.cdDone,
      hc.covering⟩, fun _ hzero ↦ ?_, fun h ↦ h.elim, hsegments⟩
    have hzero : s.inFlight = 0 := hzero
    omega
  rw [if_neg hflight, afterWork]
  have hzero : s.inFlight = 0 := by omega
  by_cases hcancel : s.cancelRequested = true
  · rw [if_pos hcancel]
    refine ⟨hcounted _ rfl, fun _ ↦ hidle, fun _ ↦ ⟨hbusy hzero, hassembling hzero⟩,
      fun hresult ↦ ?_⟩
    have hok : s.cancelRequested = false := hc.error.mpr hresult
    rw [hok] at hcancel
    cases hcancel
  rw [if_neg hcancel]
  have hok : s.cancelRequested = false := by simpa using hcancel
  by_cases hbody : s.fullCd.isSome ∧ s.bodySegments ≠ []
  · rw [if_pos hbody]
    refine ⟨hcounted _ rfl, fun _ ↦ hidle, fun _ ↦ ⟨hbusy hzero, hassembling hzero⟩,
      hok, Nat.zero_le _, fun fullCd _ q ↦ ?_⟩
    show s.fromSegments.count q = _
    rw [hsegments]
    simp
  · rw [if_neg hbody]
    refine ⟨hcounted _ rfl, fun _ ↦ hidle, fun _ ↦ ⟨hbusy hzero, hassembling hzero⟩,
      fun _ ↦ ⟨hok, fun fullCd hcd q ↦ ?_⟩⟩
    have hnil : s.bodySegments = [] := by
      by_contra hne
      have hsome : s.fullCd = some fullCd := hcd
      exact hbody ⟨by rw [hsome]; rfl, hne⟩
    show s.fromSegments.count q = _
    rw [hsegments]
    simp [PartCovered, hnil]

theorem startWork_safe (hmax : 0 < cfg.maxConcurrent) (hc : Counted cfg { s with main := .waiting })
    (hsegments : s.fromSegments = []) (hassembling : s.inFlight = 0 → s.assembling = 0) :
    Safe cfg (startWork cfg s) := by
  have hinFlight : s.inFlight = s.work.busy := hc.inFlight
  have hranges : s.cancelRequested = false →
      s.cdRangesCompleted + s.work.pending HybridItem.isRange = s.cdRangesDispatched := hc.ranges
  rw [startWork]
  by_cases hroom : s.inFlight < cfg.maxConcurrent ∧ s.cancelRequested = false
  · rw [if_pos hroom]
    have htake := takeNext_spec cfg s
    generalize takeNext cfg s = r at htake ⊢
    cases htake with
    | nothing early late hlate hwhy =>
      refine waitForWork_safe (hc.nothing hlate) hsegments (fun _ _ _ ↦ ?_) hassembling
      rcases hwhy with hcancel | hlimit | hnothing
      · rw [hroom.2] at hcancel
        cases hcancel
      · omega
      · exact hnothing
    | cdRange hok hlt =>
      refine ⟨hc.dispatched (.cdRange hok hlt) ?_ ?_ (fun j ↦ ?_) rfl, fun _ hzero ↦ (by cases hzero),
        fun h ↦ h.elim, hsegments⟩
      · rfl
      · show s.work.pending _ + 1 = s.work.pending _ + 0 + 1
        rfl
      · show s.work.account j + [_].count j = s.work.account j + 0 + _
        rw [List.count_singleton]
        simp
    | part part early late hok hnew hlate =>
      refine ⟨hc.dispatched (.part part early late hok hnew hlate) ?_ ?_ (fun j ↦ ?_) rfl,
        fun _ hzero ↦ (by cases hzero), fun h ↦ h.elim, hsegments⟩
      · rfl
      · show s.work.pending _ + 0 = s.work.pending _ + 0 + 0
        rfl
      · show s.work.account j + [_].count j = s.work.account j + 0 + _
        rw [List.count_singleton]
        simp
  · rw [if_neg hroom]
    refine waitForWork_safe hc hsegments (fun hzero _ hok ↦ ?_) hassembling
    exact (hroom ⟨by omega, hok⟩).elim

/-- After an error only the counters still matter. -/
theorem Counted.of_cancelled (hcancel : s.cancelRequested = true) (herror : s.firstErrorCode ≠ 0)
    (hinFlight : s.inFlight = s.work.busy + s.main.starting.length)
    (hle : s.cdRangesDispatched ≤ cfg.cdRangesTotal) : Counted cfg s := by
  have hnot : s.cancelRequested ≠ false := by simp [hcancel]
  exact ⟨hinFlight, ⟨fun hok ↦ (hnot hok).elim, fun hzero ↦ (herror hzero).elim⟩, hle,
    fun hok ↦ (hnot hok).elim, fun hok ↦ (hnot hok).elim, fun hok ↦ (hnot hok).elim,
    fun hok ↦ (hnot hok).elim, fun hok ↦ (hnot hok).elim⟩

theorem mainSection_safe (hmax : 0 < cfg.maxConcurrent) (h : Safe cfg s)
    (hright : Undisturbed cfg s .mainSection) (hstep : step cfg s .mainSection = some t) :
    Safe cfg t := by
  have hsegments := h.thread.fromSegments_eq
  have hinFlight := h.inFlight
  have hassembling (hzero : s.inFlight = s.main.starting.length) : s.assembling = 0 := by
    by_contra hne
    have hbusy := hright (Nat.pos_of_ne_zero hne)
    omega
  have hcounted (hstart : s.main.starting = []) : Counted cfg { s with main := .waiting } := by
    refine ⟨?_, h.error, h.dispatched_le, fun hok ↦ ?_, fun hok p ↦ ?_, h.complete, h.cdDone,
      h.covering⟩
    · show s.inFlight = s.work.busy + 0
      rw [hinFlight, hstart]
      rfl
    · have hranges := h.ranges hok
      rwa [pendingRanges, hstart] at hranges
    · have hparts := h.parts hok p
      rwa [account, hstart] at hparts
  rw [step] at hstep
  cases hs : s.main with
  | startLoop =>
    rw [hs] at hstep hsegments hassembling hcounted
    cases hstep
    exact startWork_safe hmax (hcounted rfl) (hsegments id) hassembling
  | launched prevInFlight =>
    rw [hs] at hstep hsegments hassembling hcounted
    cases hstep
    rw [afterStart]
    split_ifs with hprev
    · exact waitForWork_safe (hcounted rfl) (hsegments id)
        (h.idle (by rw [hs]; exact fun hne ↦ by cases hne)) hassembling
    · exact startWork_safe hmax (hcounted rfl) (hsegments id) hassembling
  | launchFailed item prevInFlight =>
    rw [hs] at hstep hsegments hassembling hinFlight
    cases hstep
    have hfailed : Counted cfg { startFailed s with main := .waiting } := by
      refine .of_cancelled rfl (by simp [startFailed]) ?_ h.dispatched_le
      show s.inFlight - 1 = s.work.busy + 0
      rw [hinFlight]
      rfl
    have hzero (hlast : s.inFlight - 1 = 0) : s.assembling = 0 := by
      refine hassembling ?_
      have hone : s.inFlight = s.work.busy + 1 := hinFlight
      show s.inFlight = 1
      omega
    rw [afterStart]
    split_ifs with hprev
    · exact waitForWork_safe hfailed (hsegments id) (fun _ _ hok ↦ by cases hok) hzero
    · exact startWork_safe hmax hfailed (hsegments id) hzero
  | launching item prevInFlight =>
    rw [hs] at hstep
    cases hstep
  | waiting =>
    rw [hs] at hstep
    cases hstep
  | bodyLoop p =>
    rw [hs] at hstep
    cases hstep
  | returned result =>
    rw [hs] at hstep
    cases hstep

theorem mainStart_safe (h : Safe cfg s) {ok : Bool} (hstep : step cfg s (.mainStart ok) = some t) :
    Safe cfg t := by
  have hsegments := h.thread.fromSegments_eq
  rw [step] at hstep
  split at hstep
  · next item prevInFlight hs =>
    have hinFlight := h.inFlight
    have hranges := h.ranges
    have hparts := h.parts
    simp only [pendingRanges, account] at hranges hparts
    rw [hs] at hinFlight hranges hparts hsegments
    have hflight : s.inFlight = s.work.busy + 1 := hinFlight
    cases ok with
    | true =>
      cases hstep
      refine ⟨⟨?_, h.error, h.dispatched_le, fun hok ↦ ?_, fun hok p ↦ ?_, h.complete, h.cdDone,
        h.covering⟩, fun _ hzero ↦ ?_, fun hpast ↦ hpast.elim, hsegments id⟩
      · show s.inFlight = (s.work.enlist item).busy + 0
        rw [WorkPool.busy_enlist]
        exact hinFlight
      · show s.cdRangesCompleted + ((s.work.enlist item).pending _ + 0) = _
        rw [WorkPool.pending_enlist]
        have hsum := hranges hok
        simpa [HybridThread.starting, List.countP_cons] using hsum
      · show (s.work.enlist item).account _ + 0 = _
        rw [WorkPool.account_enlist]
        have hsum := hparts hok p
        simpa [HybridThread.starting, List.count_singleton] using hsum
      · have hzero : s.inFlight = 0 := hzero
        omega
    | false =>
      cases hstep
      refine ⟨⟨hinFlight, h.error, h.dispatched_le, hranges, hparts, h.complete, h.cdDone,
        h.covering⟩, fun _ hzero ↦ ?_, fun hpast ↦ hpast.elim, hsegments id⟩
      have hzero : s.inFlight = 0 := hzero
      omega
  · cases hstep

/-- While something is in the work the main thread is not past its wait. -/
theorem Safe.not_past (h : Safe cfg s) (hbusy : 0 < s.work.busy) : ¬ s.main.Past := by
  intro hpast
  have hidle := (h.past hpast).1
  omega

theorem firstErrorCode_recordError (h : Counted cfg s) {errorCode : ℤ} (herror : errorCode ≠ 0) :
    (recordError s errorCode).firstErrorCode ≠ 0 := by
  have hold := h.error
  rw [recordError]
  show (if s.cancelRequested then s.firstErrorCode else errorCode) ≠ 0
  split_ifs with hcancel
  · intro hzero
    rw [hold.mpr hzero] at hcancel
    cases hcancel
  · exact herror

theorem cdRangeFinish_safe (hmax : 0 < cfg.maxConcurrent) (h : Safe cfg s) {rangeIndex : ℕ}
    (hmem : .cdRange rangeIndex ∈ s.work.running) (errorCode : ℤ) :
    Safe cfg (cdRangeFinish cfg s rangeIndex errorCode) := by
  have hpast := h.not_past (WorkPool.busy_pos_of_running hmem)
  have hsegments := h.thread.fromSegments_eq hpast
  have hinFlight := h.inFlight
  rw [cdRangeFinish]
  by_cases herror : errorCode ≠ 0
  · rw [if_pos herror]
    refine dispatchAndNotify_safe hmax (.of_cancelled rfl
      (firstErrorCode_recordError h.toCounted herror) ?_ h.dispatched_le) hpast hsegments
    have hdrop := WorkPool.busy_drop hmem
    show s.inFlight - 1 = (s.work.drop _).busy + s.main.starting.length
    omega
  rw [if_neg herror]
  have hfinish := WorkPool.busy_finish hmem
  have hpending := WorkPool.pending_finish hmem HybridItem.isRange
  have hflight : s.inFlight - 1 =
      (s.work.finish (.cdRange rangeIndex)).busy + s.main.starting.length := by omega
  have hranges (hok : s.cancelRequested = false) : s.cdRangesCompleted + 1 +
      ((s.work.finish (.cdRange rangeIndex)).pending HybridItem.isRange +
        s.main.starting.countP HybridItem.isRange) = s.cdRangesDispatched := by
    have hsum := h.ranges hok
    rw [pendingRanges, ← hpending] at hsum
    simp only [HybridItem.isRange, if_true] at hsum
    omega
  have hparts (hok : s.cancelRequested = false) (p : ℕ) :
      (s.work.finish (.cdRange rangeIndex)).account (.part p) +
        s.main.starting.count (.part p) = if p ∈ s.partDispatched then 1 else 0 := by
    rw [WorkPool.account_finish hmem]
    exact h.parts hok p
  have hcomplete (hok : s.cancelRequested = false) (p : ℕ) : p ∈ s.partComplete ↔
      .part p ∈ HybridItem.cdRange rangeIndex :: s.work.done ∨ p ∈ s.fromSegments := by
    rw [h.complete hok p]
    simp
  by_cases hlast : s.cdRangesCompleted + 1 = cfg.cdRangesTotal ∧ s.cdComplete = false
  · simp only [if_pos hlast]
    exact ⟨⟨hflight, h.error, h.dispatched_le, hranges, hparts, hcomplete,
      fun _ hzero ↦ (by cases hzero), h.covering⟩, fun _ _ hzero ↦ (by cases hzero),
      fun hp ↦ (hpast hp).elim, threadInv_of_nil hpast hsegments⟩
  · simp only [if_neg hlast]
    refine dispatchAndNotify_safe hmax ⟨hflight, h.error, h.dispatched_le, hranges, hparts,
      hcomplete, fun _ _ htotal ↦ ?_, h.covering⟩ hpast hsegments
    by_contra hcd
    exact hlast ⟨htotal, by simpa using hcd⟩

theorem partFinish_safe (hmax : 0 < cfg.maxConcurrent) (h : Safe cfg s) {partIndex : ℕ}
    (hmem : .part partIndex ∈ s.work.running) (errorCode : ℤ) :
    Safe cfg (partFinish cfg s partIndex errorCode) := by
  have hpast := h.not_past (WorkPool.busy_pos_of_running hmem)
  have hsegments := h.thread.fromSegments_eq hpast
  have hinFlight := h.inFlight
  rw [partFinish]
  by_cases herror : errorCode ≠ 0
  · rw [if_pos herror]
    refine dispatchAndNotify_safe hmax (.of_cancelled rfl
      (firstErrorCode_recordError h.toCounted herror) ?_ h.dispatched_le) hpast hsegments
    have hdrop := WorkPool.busy_drop hmem
    show s.inFlight - 1 = (s.work.drop _).busy + s.main.starting.length
    omega
  · rw [if_neg herror]
    have hfinish := WorkPool.busy_finish hmem
    have hpending := WorkPool.pending_finish hmem HybridItem.isRange
    refine dispatchAndNotify_safe hmax ⟨?_, h.error, h.dispatched_le, fun hok ↦ ?_, fun hok p ↦ ?_,
      fun hok p ↦ ?_, h.cdDone, h.covering⟩ hpast hsegments
    · show s.inFlight - 1 = (s.work.finish _).busy + s.main.starting.length
      omega
    · have hsum := h.ranges hok
      rw [pendingRanges, ← hpending] at hsum
      exact hsum
    · show (s.work.finish _).account _ + s.main.starting.count _ = _
      rw [WorkPool.account_finish hmem]
      exact h.parts hok p
    · show p ∈ partIndex :: s.partComplete ↔
        .part p ∈ HybridItem.part partIndex :: s.work.done ∨ p ∈ s.fromSegments
      rw [List.mem_cons, List.mem_cons, h.complete hok p, HybridItem.part.injEq, or_assoc]

/-- A part with bytes before the central directory starts before its clamped end. -/
theorem partHasBody_of_lt (hpart : 0 < cfg.partSize) {centralDirOffset p : ℕ}
    (hend : centralDirOffset + cfg.partSize ≤ 2 ^ 64) (hbody : p * cfg.partSize < centralDirOffset) :
    PartHasBody cfg centralDirOffset p := by
  have hstart : partStart cfg.partSize p = p * cfg.partSize := Nat.mod_eq_of_lt (by omega)
  rw [PartHasBody, partBodyEnd, hstart, Nat.mod_eq_of_lt (by omega)]
  omega

theorem assembledSection_safe (hmax : 0 < cfg.maxConcurrent) (hpart : 0 < cfg.partSize)
    (h : Safe cfg s) (hassembling : s.assembling > 0)
    {result : Option (CentralDirParseResult × List BodyDataSegment)}
    (hright : Undisturbed cfg s (.assembled result)) :
    Safe cfg (assembledSection cfg s result) := by
  have hpast : ¬ s.main.Past := fun hp ↦ by
    have hzero := (h.past hp).2
    omega
  have hsegments := h.thread.fromSegments_eq hpast
  cases result with
  | none =>
    rw [assembledSection]
    exact dispatchAndNotify_safe hmax (.of_cancelled rfl (show (-1 : ℤ) ≠ 0 by decide) h.inFlight
      h.dispatched_le) hpast hsegments
  | some r =>
    obtain ⟨fullCd, segments⟩ := r
    obtain ⟨hsmall, hend⟩ := hright _ rfl
    rw [assembledSection]
    refine dispatchAndNotify_safe hmax ⟨h.inFlight, h.error, h.dispatched_le, h.ranges, h.parts,
      h.complete, fun _ _ _ ↦ rfl, fun _ _ ↦ ⟨fullCd, rfl, rfl, hsmall, hend, fun p hp hbody ↦ ?_⟩⟩
      hpast hsegments
    have hp : p < fullCd.parts.length := hp
    show p ∈ s.partDispatched ∨ p ∈ buildLatePartQueue cfg fullCd segments s.partDispatched ∨
      PartCovered cfg segments fullCd.centralDirOffset p
    by_cases hdispatched : p ∈ s.partDispatched
    · exact .inl hdispatched
    by_cases hcovered : PartCovered cfg segments fullCd.centralDirOffset p
    · exact .inr (.inr hcovered)
    refine .inr (.inl (List.mem_map.mpr ⟨p, List.mem_filter.mpr ⟨List.mem_range.mpr hp, ?_⟩,
      Nat.mod_eq_of_lt (Nat.lt_of_lt_of_le hp hsmall)⟩))
    exact decide_eq_true ⟨hdispatched, hcovered, partHasBody_of_lt hpart hend hbody⟩

theorem callbackStart_safe (h : Safe cfg s) {item : HybridItem} {ok : Bool}
    (hstep : step cfg s (.callbackStart item ok) = some t) : Safe cfg t := by
  rw [step] at hstep
  by_cases hmem : item ∈ s.work.launching
  · rw [if_pos hmem] at hstep
    have hpast := h.not_past (WorkPool.busy_pos_of_launching hmem)
    have hsegments := h.thread.fromSegments_eq hpast
    have hpool (w : WorkPool HybridItem) (r : ℕ) (hbusy : w.busy = s.work.busy)
        (hpending : w.pending HybridItem.isRange = s.work.pending HybridItem.isRange)
        (haccount : ∀ j, w.account j = s.work.account j) (hdone : w.done = s.work.done) :
        Safe cfg { s with work := w, returning := r } := by
      refine ⟨⟨?_, h.error, h.dispatched_le, fun hok ↦ ?_, fun hok p ↦ ?_, fun hok p ↦ ?_, h.cdDone,
        h.covering⟩, h.idle, fun hp ↦ (hpast hp).elim, threadInv_of_nil hpast hsegments⟩
      · show s.inFlight = w.busy + s.main.starting.length
        rw [hbusy]
        exact h.inFlight
      · show s.cdRangesCompleted + (w.pending _ + s.main.starting.countP _) = _
        rw [hpending]
        exact h.ranges hok
      · show w.account _ + s.main.starting.count _ = _
        rw [haccount]
        exact h.parts hok p
      · show p ∈ s.partComplete ↔ .part p ∈ w.done ∨ p ∈ s.fromSegments
        rw [hdone]
        exact h.complete hok p
    cases ok with
    | true =>
      cases hstep
      exact hpool _ _ (WorkPool.busy_launched hmem) (WorkPool.pending_launched hmem _)
        (WorkPool.account_launched hmem) rfl
    | false =>
      cases hstep
      exact hpool _ _ (WorkPool.busy_refuse hmem) (WorkPool.pending_refuse hmem _)
        (WorkPool.account_refuse hmem) rfl
  · rw [if_neg hmem] at hstep
    cases hstep

theorem callbackStartFailed_safe (h : Safe cfg s) {item : HybridItem}
    (hmem : item ∈ s.work.refused) :
    Safe cfg (notifyIfIdle { startFailed s with work := s.work.report item }) := by
  have hpast := h.not_past (WorkPool.busy_pos_of_refused hmem)
  have hsegments := h.thread.fromSegments_eq hpast
  have hreport := WorkPool.busy_report hmem
  have hinFlight := h.inFlight
  refine notifyIfIdle_safe ⟨.of_cancelled rfl (show (-1 : ℤ) ≠ 0 by decide) ?_ h.dispatched_le,
    fun _ _ _ hok ↦ (by cases hok), fun hp ↦ (hpast hp).elim, threadInv_of_nil hpast hsegments⟩
  show s.inFlight - 1 = (s.work.report item).busy + s.main.starting.length
  omega

/-- Once the main thread is past its wait without an error, all work is done. -/
theorem Safe.over (h : Safe cfg s) (hpast : s.main.Past) (hok : s.cancelRequested = false) :
    NothingLeft cfg s ∧ s.cdComplete = true ∧ Covering cfg s := by
  obtain ⟨hbusy, hassembling⟩ := h.past hpast
  have hstarting := hpast.starting_eq
  have hzero : s.inFlight = 0 := by
    rw [h.inFlight, hbusy, hstarting]
    rfl
  have hnothing := h.idle (fun hs ↦ by rw [hs] at hpast; exact hpast) hzero hassembling hok
  have hcd := h.toCounted.cdComplete hbusy hstarting hassembling hok hnothing
  exact ⟨hnothing, hcd, h.covering hok hcd⟩

theorem bodyLoopRound_safe (h : Safe cfg s) {p : ℕ} (hs : s.main = .bodyLoop p)
    {fullCd : CentralDirParseResult} (hcd : s.fullCd = some fullCd) (ok : Bool) :
    Safe cfg (bodyLoopRound cfg s fullCd.centralDirOffset p ok) := by
  have hpast : s.main.Past := by
    rw [hs]
    trivial
  have hthread := h.thread
  rw [ThreadInv, hs] at hthread
  obtain ⟨hok, hp, hbelow⟩ := hthread
  obtain ⟨hnothing, hcomplete, hcovering⟩ := h.over hpast hok
  have hsmall := hcovering.choose_spec.2.2.1
  have hidle := h.past hpast
  have hcounted (m : HybridThread) (hm : m.starting = []) : Counted cfg { s with main := m } := by
    have hstart := hpast.starting_eq
    refine ⟨?_, h.error, h.dispatched_le, fun hok ↦ ?_, fun hok q ↦ ?_, h.complete, h.cdDone,
      h.covering⟩
    · show s.inFlight = s.work.busy + m.starting.length
      rw [hm, h.inFlight, hstart]
    · have hranges := h.ranges hok
      rw [pendingRanges, hstart] at hranges
      show s.cdRangesCompleted + (s.work.pending _ + m.starting.countP _) = _
      rwa [hm]
    · have hparts := h.parts hok q
      rw [account, hstart] at hparts
      show s.work.account _ + m.starting.count _ = _
      rwa [hm]
  rw [bodyLoopRound]
  by_cases hend : p ≥ s.numParts
  · rw [if_pos hend]
    refine ⟨hcounted _ rfl, fun _ _ _ _ ↦ hnothing, fun _ ↦ hidle, fun _ ↦ ⟨hok, ?_⟩⟩
    have hlast : p = s.numParts := Nat.le_antisymm hp hend
    rw [hlast] at hbelow
    exact hbelow
  rw [if_neg hend]
  have hbelow := hbelow fullCd hcd
  have hfresh : p ∉ s.fromSegments := by
    rw [← List.count_eq_zero, hbelow p]
    simp
  by_cases hskip : p ∈ s.partComplete ∨ ¬ PartHasBody cfg fullCd.centralDirOffset p ∨
      ¬ PartCovered cfg s.bodySegments fullCd.centralDirOffset p
  · rw [if_pos hskip]
    refine ⟨hcounted _ rfl, fun _ _ _ _ ↦ hnothing, fun _ ↦ hidle, hok, Nat.lt_of_not_le hend,
      fun fullCd' hcd' q ↦ ?_⟩
    have hsame : fullCd = fullCd' := Option.some.inj (hcd.symm.trans hcd')
    rw [← hsame]
    show s.fromSegments.count q = _
    rw [hbelow q]
    have hiff (hq : .part q ∉ s.work.done ∧ PartHasBody cfg fullCd.centralDirOffset q ∧
        PartCovered cfg s.bodySegments fullCd.centralDirOffset q) : q < p ↔ q < p + 1 := by
      refine ⟨fun hlt ↦ by omega, fun hlt ↦ ?_⟩
      by_contra hge
      have heq : q = p := by omega
      rw [heq, ← not_iff_not.mpr ((h.complete hok p).trans (or_iff_left hfresh))] at hq
      rcases hskip with hdone | hbody | hcovered
      · exact hq.1 hdone
      · exact hbody hq.2.1
      · exact hcovered hq.2.2
    rw [if_congr (and_congr_left hiff) rfl rfl]
  rw [if_neg hskip]
  have hbody : PartHasBody cfg fullCd.centralDirOffset p ∧
      PartCovered cfg s.bodySegments fullCd.centralDirOffset p := by
    by_contra hnot
    exact hskip (.inr (by rwa [← not_and_or]))
  have hdone : .part p ∉ s.work.done := fun hmem ↦
    hskip (.inl ((h.complete hok p).mpr (.inl hmem)))
  have hmod : p % 2 ^ 32 = p := Nat.mod_eq_of_lt (by omega)
  cases ok with
  | true =>
    have hnext := hcounted (.bodyLoop (p + 1)) rfl
    rw [if_pos rfl]
    refine ⟨⟨hnext.inFlight, hnext.error, hnext.dispatched_le, hnext.ranges, hnext.parts,
      fun _ q ↦ ?_, hnext.cdDone, hnext.covering⟩, fun _ _ _ _ ↦ hnothing, fun _ ↦ hidle, hok,
      Nat.lt_of_not_le hend, fun fullCd' hcd' q ↦ ?_⟩
    · show q ∈ p :: s.partComplete ↔ .part q ∈ s.work.done ∨ q ∈ (p % 2 ^ 32) :: s.fromSegments
      rw [hmod, List.mem_cons, List.mem_cons, h.complete hok q]
      exact or_left_comm
    · have hsame : fullCd = fullCd' := Option.some.inj (hcd.symm.trans hcd')
      rw [← hsame]
      show ((p % 2 ^ 32) :: s.fromSegments).count q = _
      rw [hmod, List.count_cons, hbelow q]
      by_cases hq : p = q
      · rw [← hq]
        simp [hdone, hbody]
      · have hiff : q < p ↔ q < p + 1 := by omega
        simp [hq, hiff]
  | false =>
    rw [if_neg (by simp)]
    exact ⟨hcounted _ rfl, fun _ _ _ _ ↦ hnothing, fun _ ↦ hidle, fun hresult ↦ by cases hresult⟩

theorem step_safe (hmax : 0 < cfg.maxConcurrent) (hpart : 0 < cfg.partSize) {a : HybridAction}
    (h : Safe cfg s) (hright : Undisturbed cfg s a) (hstep : step cfg s a = some t) :
    Safe cfg t := by
  cases a with
  | mainSection => exact mainSection_safe hmax h hright hstep
  | mainStart ok => exact mainStart_safe h hstep
  | wake =>
    rw [step] at hstep
    split_ifs at hstep with hs
    cases hstep
    have hpast : ¬ s.main.Past := by
      rw [hs]
      exact id
    refine waitForWork_safe ?_ (h.thread.fromSegments_eq hpast)
      (h.idle (by rw [hs]; exact fun hne ↦ by cases hne)) fun hzero ↦ ?_
    · rw [← hs]
      exact h.toCounted
    · by_contra hne
      have hflight := hright (Nat.pos_of_ne_zero hne)
      omega
  | finishCallback item errorCode =>
    by_cases hmem : item ∈ s.work.running
    · cases item with
      | cdRange rangeIndex =>
        simp only [step, if_pos hmem] at hstep
        cases hstep
        exact cdRangeFinish_safe hmax h hmem errorCode
      | part partIndex =>
        simp only [step, if_pos hmem] at hstep
        cases hstep
        exact partFinish_safe hmax h hmem errorCode
    · simp only [step, if_neg hmem] at hstep
      cases hstep
  | assembled result =>
    rw [step] at hstep
    by_cases hassembling : s.assembling > 0
    · rw [if_pos hassembling] at hstep
      cases hstep
      exact assembledSection_safe hmax hpart h hassembling hright
    · rw [if_neg hassembling] at hstep
      cases hstep
  | callbackStart item ok => exact callbackStart_safe h hstep
  | callbackStartFailed item =>
    rw [step] at hstep
    by_cases hmem : item ∈ s.work.refused
    · rw [if_pos hmem] at hstep
      cases hstep
      exact callbackStartFailed_safe h hmem
    · rw [if_neg hmem] at hstep
      cases hstep
  | callbackReturn =>
    rw [step] at hstep
    by_cases hreturning : s.returning > 0
    · rw [if_pos hreturning] at hstep
      cases hstep
      exact notifyIfIdle_safe ⟨⟨h.inFlight, h.error, h.dispatched_le, h.ranges, h.parts, h.complete,
        h.cdDone, h.covering⟩, h.idle, h.past, h.thread⟩
    · rw [if_neg hreturning] at hstep
      cases hstep
  | bodyPart ok =>
    simp only [step] at hstep
    split at hstep
    · next p fullCd hs hcd =>
      cases hstep
      exact bodyLoopRound_safe h hs hcd ok
    · cases hstep

theorem safe_init (hranges : 0 < cfg.cdRangesTotal) : Safe cfg (init cfg) := by
  refine ⟨⟨rfl, by simp [init], Nat.zero_le _, fun _ ↦ rfl, fun _ p ↦ rfl, fun _ p ↦ ?_,
    fun _ _ htotal ↦ ?_, fun _ hcd ↦ by cases hcd⟩, fun hs ↦ (hs rfl).elim, fun hp ↦ hp.elim, rfl⟩
  · simp [init, WorkPool.empty]
  · have hzero : 0 = cfg.cdRangesTotal := htotal
    omega

end HybridCoordinator

open HybridCoordinator in
/-- `hybrid_coordinator_run` never returns while a callback assembles the central directory, and when it
returns success the central directory is complete and each part with body data has been processed
once, from a download or from memory. -/
theorem hybridRun_safe {cfg : HybridDownload} (hmax : 0 < cfg.maxConcurrent)
    (hpart : 0 < cfg.partSize) (hranges : 0 < cfg.cdRangesTotal) {actions : List HybridAction}
    {s : HybridCoordinator} (hright : Meets (step cfg) (Undisturbed cfg) (init cfg) actions)
    (hrun : run (step cfg) (init cfg) actions = some s) {result : ℤ}
    (hreturned : s.main = .returned result) :
    s.assembling = 0 ∧ (result = 0 → s.cdComplete = true ∧
      s.cdRangesCompleted = cfg.cdRangesTotal ∧ ∃ fullCd, s.fullCd = some fullCd ∧
        ∀ p < fullCd.parts.length, p * cfg.partSize < fullCd.centralDirOffset →
          s.work.done.count (.part p) + s.fromSegments.count p = 1) := by
  have hsafe : Safe cfg s := run_invariant (fun h hr hs ↦ step_safe hmax hpart h hr hs)
    (safe_init hranges) hright hrun
  have hpast : s.main.Past := by
    rw [hreturned]
    trivial
  obtain ⟨hbusy, hassembling⟩ := hsafe.past hpast
  refine ⟨hassembling, fun hresult ↦ ?_⟩
  have hthread := hsafe.thread
  rw [ThreadInv, hreturned] at hthread
  obtain ⟨hok, hbelow⟩ := hthread hresult
  obtain ⟨hnothing, hcomplete, fullCd, hcd, hnum, hsmall, hend, hcover⟩ := hsafe.over hpast hok
  have htotal : s.cdRangesCompleted = cfg.cdRangesTotal := by
    have hsum := hsafe.ranges hok
    have hpending := s.work.pending_le_busy HybridItem.isRange
    have hle := hsafe.dispatched_le
    have hge := hnothing.1
    rw [pendingRanges, hpast.starting_eq, List.countP_nil] at hsum
    omega
  refine ⟨hcomplete, htotal, fullCd, hcd, fun p hp hbody ↦ ?_⟩
  rw [← hnum] at hp
  have haccount := hsafe.parts hok p
  rw [account, hpast.starting_eq, WorkPool.account_eq_done hbusy, List.count_nil,
    Nat.add_zero] at haccount
  have hhasBody := partHasBody_of_lt hpart hend hbody
  rw [haccount, hbelow fullCd hcd p]
  by_cases hdispatched : p ∈ s.partDispatched
  · have hdone : .part p ∈ s.work.done := by
      rw [← List.count_pos_iff, haccount, if_pos hdispatched]
      exact Nat.one_pos
    simp [hdispatched, hdone]
  · have hdone : .part p ∉ s.work.done := by
      rw [← List.count_eq_zero, haccount, if_neg hdispatched]
    have hcovered : PartCovered cfg s.bodySegments fullCd.centralDirOffset p := by
      rcases hcover p hp hbody with hmem | hqueued | hcovered
      · exact (hdispatched hmem).elim
      · exact (hdispatched (hnothing.2 hcomplete p hqueued)).elim
      · exact hcovered
    simp [hdispatched, hp, hdone, hhasBody, hcovered]

/-- Five parts of 8 MiB. The central directory begins in the third, the tail buffer with the fifth, and
the files whose records the tail buffer holds begin in the second. -/
def hybridSample (maxConcurrent : ℕ) : HybridDownload where
  maxConcurrent := maxConcurrent
  partSize := 8388608
  partialCd := {
    files := [{
      filename := [98]
      localHeaderOffset := 8388608
      compressedSize := 100
      uncompressedSize := 100
      crc32 := 0
      compressionMethod := 93
      partIndex := 1
      unixMode := 0
      uid := 0
      gid := 0
      hasUnixMode := false
      hasUnixExtra := false
      isSymlink := false
      usesZip64Descriptor := false }]
    parts := List.replicate 5 ⟨[], none⟩
    centralDirOffset := 16777316
    centralDirSize := 25000000
    isZip64 := true }
  cdRangesTotal := 1
  initialStart := 33554432

/-- What the assembled central directory says, and the body data that came with it. -/
def hybridSampleCd : CentralDirParseResult × List BodyDataSegment :=
  (⟨[], List.replicate 5 ⟨[], none⟩, 16777316, 25000000, true⟩,
    [⟨List.replicate 100 0, 100, 16777216⟩])

def hybridSampleActions : List HybridAction :=
  [.mainSection, .mainStart true, .mainSection, .mainStart true, .mainSection,
    .finishCallback (.cdRange 0) 0, .assembled (some hybridSampleCd),
    .callbackStart (.part 0) true, .callbackReturn, .finishCallback (.part 1) 0,
    .finishCallback (.part 0) 0, .wake, .bodyPart true, .bodyPart true, .bodyPart true,
    .bodyPart true, .bodyPart true, .bodyPart true]

open HybridCoordinator in
theorem hybridRun_safe_sample :
    ∃ s, run (step (hybridSample 2)) (init (hybridSample 2)) hybridSampleActions = some s ∧
      s.main = .returned 0 ∧ s.cdComplete = true ∧ ∃ fullCd, s.fullCd = some fullCd ∧
        ∀ p < fullCd.parts.length, p * 8388608 < fullCd.centralDirOffset →
          s.work.done.count (.part p) + s.fromSegments.count p = 1 := by
  obtain ⟨s, hrun⟩ : ∃ s, run (step (hybridSample 2)) (init (hybridSample 2))
      hybridSampleActions = some s := Option.isSome_iff_exists.mp (by decide +kernel)
  have hreturned : s.main = .returned 0 := by
    have hmain : (run (step (hybridSample 2)) (init (hybridSample 2)) hybridSampleActions).map
        HybridCoordinator.main = some (.returned 0) := by decide +kernel
    rw [hrun] at hmain
    exact Option.some.inj hmain
  have hsafe := hybridRun_safe (by decide) (by decide) (by decide)
    (by decide +kernel) hrun hreturned
  obtain ⟨hcd, -, fullCd, hfull, hparts⟩ := hsafe.2 rfl
  exact ⟨s, hrun, hreturned, hcd, fullCd, hfull, hparts⟩

open HybridCoordinator in
/-- The only range completes before the main thread has the lock back: it sees nothing in flight and
returns success while the callback assembles the central directory. -/
theorem hybridRun_returns_early :
    (run (step (hybridSample 1)) (init (hybridSample 1))
      [.mainSection, .mainStart true, .finishCallback (.cdRange 0) 0, .mainSection]).map
        (fun s ↦ (s.main, s.assembling, s.cdComplete)) = some (.returned 0, 1, false) := by
  decide +kernel

end Burst
