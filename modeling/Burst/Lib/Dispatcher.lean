import Burst.Lib.InFlight
import Burst.Lib.Transition
import Burst.Lib.WorkPool
import Mathlib.Data.Int.Notation

namespace InFlight

open Transition

variable {ι : Type*}

/-- Where the thread that starts requests is: before a section of its start loop, starting a request,
after such a start failed, waiting, at what it does when nothing is in flight any more, returned. -/
inductive Phase (ι : Type*) where
  | startLoop
  | launching (item : ι)
  | launchFailed (item : ι)
  | waiting
  | after
  | returned (result : ℤ)

namespace Phase

/-- The request the thread is starting. -/
def starting : Phase ι → List ι
  | .launching item => [item]
  | .launchFailed item => [item]
  | _ => []

def isWaiting : Phase ι → Bool
  | .waiting => true
  | _ => false

end Phase

/-- A thread that starts a limited number of requests, and callbacks that hand out another request when
one is over. `notified` is a notification that the waiting thread has not seen. -/
structure Dispatcher (ι : Type*) where
  inFlight : ℕ
  cancelled : Bool
  error : ℤ
  notified : Bool
  phase : Phase ι
  pool : WorkPool ι

inductive Event (ι : Type*) where
  | mainSection
  | mainStart (ok : Bool)
  | wake
  | finish (item : ι) (errorCode : ℤ)
  | callbackStart (item : ι) (ok : Bool)
  | callbackStartFailed (item : ι)
  | afterRound (ok : Bool)

namespace Dispatcher

variable {d e : Dispatcher ι} {b : Event ι} {max : ℕ}

def gauge (d : Dispatcher ι) : Gauge where
  counter := d.inFlight
  requests := d.pool.busy + d.phase.starting.length
  blocked := d.phase.isWaiting
  notified := d.notified
  callbacks := 0

/-- The waiting thread is woken when nothing is in flight. -/
def notifyIfIdle (d : Dispatcher ι) : Dispatcher ι :=
  if d.inFlight = 0 then { d with notified := d.notified || d.phase.isWaiting } else d

/-- The thread could not start its request. -/
def startFailed (d : Dispatcher ι) : Dispatcher ι :=
  { d with inFlight := d.inFlight - 1, cancelled := true, error := -1 }

/-- A callback hands out another request. -/
def handOut (d : Dispatcher ι) (item : ι) : Dispatcher ι :=
  { d with inFlight := d.inFlight + 1, pool := d.pool.accept item }

/-- The thread waits while something is in flight, else it goes on or returns. -/
inductive Waits (d : Dispatcher ι) : Dispatcher ι → Prop
  | waits : 0 < d.inFlight → Waits d { d with phase := .waiting, notified := false }
  | goesOn : d.inFlight = 0 → d.error = 0 → Waits d { d with phase := .after }
  | returns (result : ℤ) :
      d.inFlight = 0 → (d.error ≠ 0 → result ≠ 0) → Waits d { d with phase := .returned result }

theorem counter_eq (hsound : d.gauge.Sound max) :
    d.inFlight = d.pool.busy + d.phase.starting.length := hsound.counter

theorem counter_eq_busy (hsound : d.gauge.Sound max) (hphase : d.phase.starting = []) :
    d.inFlight = d.pool.busy := by
  have hcounts := counter_eq hsound
  rwa [hphase] at hcounts

theorem sound_of_waits (h : Waits d e) (hcounter : d.inFlight = d.pool.busy)
    (hbounded : d.inFlight ≤ max) : e.gauge.Sound max := by
  cases h with
  | waits hpos => exact .of_pos hcounter hbounded hpos
  | goesOn hidle herror => exact .of_running hcounter hbounded rfl
  | returns result hidle hresult => exact .of_running hcounter hbounded rfl

theorem notifyIfIdle_sound (hcounter : d.gauge.counter = d.gauge.requests)
    (hbounded : d.inFlight ≤ max) : d.notifyIfIdle.gauge.Sound max := by
  rw [notifyIfIdle]
  split
  · refine ⟨hcounter, hbounded, fun hblocked _ ↦ .inl ?_⟩
    have hmain : d.phase.isWaiting = true := hblocked
    simp [gauge, hmain]
  · next hne => exact .of_pos hcounter hbounded (Nat.pos_of_ne_zero hne)

/-- The events that can take place. -/
def Enabled (d : Dispatcher ι) : Event ι → Prop
  | .mainSection => d.phase = .startLoop ∨ ∃ item, d.phase = .launchFailed item
  | .mainStart _ => ∃ item, d.phase = .launching item
  | .wake => d.phase = .waiting
  | .finish item _ => item ∈ d.pool.running
  | .callbackStart item _ => item ∈ d.pool.launching
  | .callbackStartFailed item => item ∈ d.pool.refused
  | .afterRound _ => d.phase = .after

/-- A wake-up without a notification. -/
def Spurious (d : Dispatcher ι) (b : Event ι) : Prop := b = .wake ∧ d.notified = false

/-- A dispatcher that has not returned can go on without a wake-up that nobody has asked for. -/
theorem exists_enabled (hsound : d.gauge.Sound max) (hreturned : ∀ result, d.phase ≠ .returned result) :
    ∃ b, d.Enabled b ∧ ¬ d.Spurious b := by
  cases hs : d.phase with
  | startLoop => exact ⟨.mainSection, .inl hs, nofun⟩
  | launching item => exact ⟨.mainStart true, ⟨item, hs⟩, nofun⟩
  | launchFailed item => exact ⟨.mainSection, .inr ⟨item, hs⟩, nofun⟩
  | waiting =>
    cases hnotified : d.notified with
    | true =>
      refine ⟨.wake, hs, fun hspurious ↦ ?_⟩
      rw [hspurious.2] at hnotified
      cases hnotified
    | false =>
      -- nobody has notified the thread, so something is in flight
      have hbusy : 0 < d.pool.busy := by
        by_contra hidle
        have hcounter := counter_eq_busy hsound (by rw [hs]; rfl)
        have hblocked : d.gauge.blocked = true := by
          rw [gauge, hs]
          rfl
        have hwoken := hsound.no_lost_wakeup hblocked (show d.inFlight = 0 by omega) rfl
        cases hwoken.symm.trans hnotified
      rcases WorkPool.exists_of_busy hbusy with ⟨i, hi⟩ | ⟨i, hi⟩ | ⟨i, hi⟩
      · exact ⟨.callbackStart i true, hi, nofun⟩
      · exact ⟨.finish i 0, hi, nofun⟩
      · exact ⟨.callbackStartFailed i, hi, nofun⟩
  | after => exact ⟨.afterRound true, hs, nofun⟩
  | returned result => exact absurd hs (hreturned result)

variable [DecidableEq ι]

def recordFinish (d : Dispatcher ι) (item : ι) (errorCode : ℤ) : Dispatcher ι :=
  if errorCode ≠ 0 then
    { d with
      inFlight := d.inFlight - 1
      cancelled := true
      error := if d.cancelled then d.error else errorCode
      pool := d.pool.drop item }
  else { d with inFlight := d.inFlight - 1, pool := d.pool.finish item }

/-- A callback could not start the request it had handed out. -/
def recordStartFailed (d : Dispatcher ι) (item : ι) : Dispatcher ι :=
  { d with
    inFlight := d.inFlight - 1
    cancelled := true
    error := if d.cancelled then d.error else -1
    pool := d.pool.report item }

/-- What an event can do with at most so many requests in flight. -/
inductive Step (max : ℕ) : Event ι → Dispatcher ι → Dispatcher ι → Prop
  | take {d : Dispatcher ι} (item : ι) : d.phase = .startLoop → d.inFlight < max →
      Step max .mainSection d { d with inFlight := d.inFlight + 1, phase := .launching item }
  | leave {d e : Dispatcher ι} : d.phase = .startLoop → Waits d e → Step max .mainSection d e
  | giveUp {d e : Dispatcher ι} {item : ι} :
      d.phase = .launchFailed item → Waits d.startFailed e → Step max .mainSection d e
  | started {d : Dispatcher ι} {item : ι} (request : ι) : d.phase = .launching item →
      Step max (.mainStart true) d { d with phase := .startLoop, pool := d.pool.enlist request }
  | notStarted {d : Dispatcher ι} {item : ι} : d.phase = .launching item →
      Step max (.mainStart false) d { d with phase := .launchFailed item }
  | wake {d e : Dispatcher ι} : d.phase = .waiting → Waits d e → Step max .wake d e
  | finishNext {d : Dispatcher ι} {item : ι} {errorCode : ℤ} (next : ι) : item ∈ d.pool.running →
      (d.recordFinish item errorCode).cancelled = false →
      Step max (.finish item errorCode) d ((d.recordFinish item errorCode).handOut next)
  | finishLast {d : Dispatcher ι} {item : ι} {errorCode : ℤ} : item ∈ d.pool.running →
      Step max (.finish item errorCode) d (d.recordFinish item errorCode).notifyIfIdle
  | launched {d : Dispatcher ι} {item : ι} : item ∈ d.pool.launching →
      Step max (.callbackStart item true) d { d with pool := d.pool.launched item }
  | refused {d : Dispatcher ι} {item : ι} : item ∈ d.pool.launching →
      Step max (.callbackStart item false) d { d with pool := d.pool.refuse item }
  | reported {d : Dispatcher ι} {item : ι} : item ∈ d.pool.refused →
      Step max (.callbackStartFailed item) d (d.recordStartFailed item).notifyIfIdle
  | afterRound {d : Dispatcher ι} {ok : Bool} (phase : Phase ι) : d.phase = .after →
      (phase = .after ∨ ∃ result, phase = .returned result) →
      Step max (.afterRound ok) d { d with phase := phase }

theorem recordFinish_counts (hcounts : d.inFlight = d.pool.busy + d.phase.starting.length) {item : ι}
    (hmem : item ∈ d.pool.running) (errorCode : ℤ) :
    (d.recordFinish item errorCode).gauge.counter = (d.recordFinish item errorCode).gauge.requests ∧
      (d.recordFinish item errorCode).inFlight + 1 = d.inFlight := by
  have hpos := WorkPool.busy_pos_of_running hmem
  have hdrop := WorkPool.busy_drop hmem
  have hfinish := WorkPool.busy_finish hmem
  rw [recordFinish]
  split
  · simp only [gauge]
    omega
  · simp only [gauge]
    omega

/-- No step loses the count, goes over the limit or leaves the thread waiting for nothing. -/
theorem step_sound (h : Step max b d e) (hsound : d.gauge.Sound max) : e.gauge.Sound max := by
  have hcounts := counter_eq hsound
  have hbounded : d.inFlight ≤ max := hsound.bounded
  cases h with
  | take item hs hroom =>
    refine .of_running ?_ hroom rfl
    rw [hs] at hcounts
    exact congrArg (· + 1) hcounts
  | leave hs hwaits => exact sound_of_waits hwaits (counter_eq_busy hsound (by rw [hs]; rfl)) hbounded
  | giveUp hs hwaits =>
    rw [hs] at hcounts
    apply sound_of_waits hwaits
    · exact Nat.sub_eq_of_eq_add hcounts
    · exact Nat.le_trans (Nat.sub_le _ _) hbounded
  | started request hs =>
    refine .of_running ?_ hbounded rfl
    rw [hs] at hcounts
    rw [gauge, WorkPool.busy_enlist]
    exact hcounts
  | notStarted hs =>
    rw [hs] at hcounts
    exact .of_running hcounts hbounded rfl
  | wake hs hwaits => exact sound_of_waits hwaits (counter_eq_busy hsound (by rw [hs]; rfl)) hbounded
  | @finishNext _ item errorCode next hmem hok =>
    obtain ⟨hcounter, hless⟩ := recordFinish_counts hcounts hmem errorCode
    refine .of_pos ?_ ?_ (Nat.succ_pos _)
    · simp only [gauge] at hcounter
      simp only [gauge, handOut, WorkPool.busy_accept]
      omega
    · simp only [gauge, handOut]
      omega
  | @finishLast _ item errorCode hmem =>
    obtain ⟨hcounter, hless⟩ := recordFinish_counts hcounts hmem errorCode
    apply notifyIfIdle_sound hcounter
    omega
  | launched hmem =>
    refine ⟨?_, hbounded, hsound.awake⟩
    rw [gauge, WorkPool.busy_launched hmem]
    exact hcounts
  | refused hmem =>
    refine ⟨?_, hbounded, hsound.awake⟩
    rw [gauge, WorkPool.busy_refuse hmem]
    exact hcounts
  | reported hmem =>
    have hreport := WorkPool.busy_report hmem
    apply notifyIfIdle_sound
    · simp only [gauge, recordStartFailed]
      omega
    · simp only [recordStartFailed]
      omega
  | afterRound phase hs hphase =>
    rw [hs] at hcounts
    rcases hphase with rfl | ⟨result, rfl⟩
    · exact .of_running hcounts hbounded rfl
    · exact .of_running hcounts hbounded rfl

/-- The events that take a request off the counter. -/
def Decrements (d : Dispatcher ι) : Event ι → Prop
  | .mainSection => ∃ item, d.phase = .launchFailed item
  | .finish _ _ => True
  | .callbackStartFailed _ => True
  | _ => False

theorem decrements_pos (h : Step max b d e) (hsound : d.gauge.Sound max) (hb : d.Decrements b) :
    0 < d.inFlight := by
  apply hsound.pos
  cases h with
  | take item hs =>
    obtain ⟨item, hfailed⟩ := hb
    cases hs.symm.trans hfailed
  | leave hs =>
    obtain ⟨item, hfailed⟩ := hb
    cases hs.symm.trans hfailed
  | giveUp hs =>
    rw [gauge, hs]
    exact Nat.succ_pos _
  | finishNext next hmem => exact Nat.add_pos_left (WorkPool.busy_pos_of_running hmem) _
  | finishLast hmem => exact Nat.add_pos_left (WorkPool.busy_pos_of_running hmem) _
  | reported hmem => exact Nat.add_pos_left (WorkPool.busy_pos_of_refused hmem) _
  | started => exact hb.elim
  | notStarted => exact hb.elim
  | wake => exact hb.elim
  | launched => exact hb.elim
  | refused => exact hb.elim
  | afterRound => exact hb.elim

/-- A machine that takes a dispatcher's steps, and can take an action where the dispatcher can. -/
structure Implements {σ ℓ : Type*} (step : σ → ℓ → Option σ) (max : ℕ) (view : σ → Dispatcher ι)
    (event : ℓ → Event ι) : Prop where
  moves : ∀ {s a t}, step s a = some t → Step max (event a) (view s) (view t)
  enabled : ∀ {s b}, (view s).Enabled b → ∃ a t, event a = b ∧ step s a = some t

namespace Implements

variable {σ ℓ : Type*} {step : σ → ℓ → Option σ} {view : σ → Dispatcher ι} {event : ℓ → Event ι}

theorem run_sound (h : Implements step max view event) {s t : σ} {actions : List ℓ}
    (hs : (view s).gauge.Sound max) (hrun : run step s actions = some t) : (view t).gauge.Sound max := by
  apply @run_always _ _ step (fun s ↦ (view s).gauge.Sound max) _ s t actions hs hrun
  intro s a t hsound hstep
  exact step_sound (h.moves hstep) hsound

end Implements

end Dispatcher

end InFlight
