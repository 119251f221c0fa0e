import Mathlib.Data.List.Basic
import Mathlib.Tactic.Common

namespace InFlight

/-- A counter of requests in flight, the requests there are, and a thread that waits for the counter
to reach zero: whether it is blocked, whether it has been notified since, and how many callbacks will
look at the counter again without holding a request. -/
structure Gauge where
  counter : ℕ
  requests : ℕ
  blocked : Bool
  notified : Bool
  callbacks : ℕ

/-- The counter is right and bounded, and the thread is not left blocked. -/
structure Gauge.Sound (max : ℕ) (g : Gauge) : Prop where
  counter : g.counter = g.requests
  bounded : g.counter ≤ max
  awake : g.blocked = true → g.counter = 0 → g.notified = true ∨ 0 < g.callbacks

namespace Gauge.Sound

variable {max : ℕ} {g : Gauge}

/-- A thread that is not blocked needs no notification. -/
theorem of_running (hcounter : g.counter = g.requests) (hbounded : g.counter ≤ max)
    (hrunning : g.blocked = false) : g.Sound max := by
  refine ⟨hcounter, hbounded, fun hblocked ↦ ?_⟩
  rw [hrunning] at hblocked
  cases hblocked

/-- Nor does one that is blocked while something is in flight. -/
theorem of_pos (hcounter : g.counter = g.requests) (hbounded : g.counter ≤ max)
    (hpos : 0 < g.counter) : g.Sound max :=
  ⟨hcounter, hbounded, fun _ hzero ↦ absurd hzero (Nat.ne_of_gt hpos)⟩

/-- The counter is positive as long as there is a request. -/
theorem pos (h : g.Sound max) (hrequest : 0 < g.requests) : 0 < g.counter := h.counter ▸ hrequest

/-- A blocked thread with nothing in flight, nobody to notify it and no notification: there is none. -/
theorem no_lost_wakeup (h : g.Sound max) (hblocked : g.blocked = true) (hzero : g.counter = 0)
    (hcallbacks : g.callbacks = 0) : g.notified = true := by
  rcases h.awake hblocked hzero with hnotified | hpos
  · exact hnotified
  · omega

end Gauge.Sound

end InFlight
