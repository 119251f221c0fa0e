import Burst.Lib.Dispatcher

namespace InFlight

open Transition

variable {ι : Type*}

namespace Phase

/-- More than the actions of the thread that are left after an error. -/
def weight : Phase ι → ℕ
  | .startLoop => 2
  | .launching _ => 6
  | .launchFailed _ => 2
  | .waiting => 1
  | .after => 0
  | .returned _ => 0

end Phase

namespace Dispatcher

variable {d e : Dispatcher ι} {b : Event ι} {max : ℕ}

/-- The requests that are being started. -/
def beingStarted (d : Dispatcher ι) : ℕ := d.phase.starting.length + d.pool.launching.length

/-- More than the actions that are left after an error, but for spurious wake-ups. -/
def weight (d : Dispatcher ι) : ℕ := d.pool.weight + d.notified.toNat + d.phase.weight

theorem started_of_waits (h : Waits d e) : e.beingStarted = d.pool.launching.length := by
  cases h with
  | waits => exact Nat.zero_add _
  | goesOn => exact Nat.zero_add _
  | returns => exact Nat.zero_add _

theorem not_launching_of_waits (h : Waits d e) (item : ι) : e.phase ≠ .launching item := by
  cases h with
  | waits => nofun
  | goesOn => nofun
  | returns => nofun

theorem cancelled_of_waits (h : Waits d e) : e.cancelled = d.cancelled := by
  cases h with
  | waits => rfl
  | goesOn => rfl
  | returns => rfl

theorem weight_of_waits (h : Waits d e) : e.weight ≤ d.pool.weight + 1 + d.notified.toNat ∧
    (d.notified = true → e.weight ≤ d.pool.weight + 1) := by
  cases h with
  | waits => exact ⟨Nat.le_add_right _ _, fun _ ↦ Nat.le_refl _⟩
  | goesOn =>
    refine ⟨?_, fun hnotified ↦ ?_⟩
    · simp only [weight, Phase.weight]
      omega
    · simp [weight, Phase.weight, hnotified]
  | returns =>
    refine ⟨?_, fun hnotified ↦ ?_⟩
    · simp only [weight, Phase.weight]
      omega
    · simp [weight, Phase.weight, hnotified]

@[simp] theorem notifyIfIdle_phase (d : Dispatcher ι) : d.notifyIfIdle.phase = d.phase := by
  rw [notifyIfIdle]
  split <;> rfl

@[simp] theorem notifyIfIdle_pool (d : Dispatcher ι) : d.notifyIfIdle.pool = d.pool := by
  rw [notifyIfIdle]
  split <;> rfl

@[simp] theorem notifyIfIdle_cancelled (d : Dispatcher ι) :
    d.notifyIfIdle.cancelled = d.cancelled := by
  rw [notifyIfIdle]
  split <;> rfl

@[simp] theorem notifyIfIdle_error (d : Dispatcher ι) : d.notifyIfIdle.error = d.error := by
  rw [notifyIfIdle]
  split <;> rfl

theorem notifyIfIdle_weight (d : Dispatcher ι) : d.notifyIfIdle.weight ≤ d.weight + 1 := by
  rw [weight, notifyIfIdle_pool, notifyIfIdle_phase, weight]
  have hbit := Bool.toNat_le d.notifyIfIdle.notified
  omega

/-- An error is not forgotten, and the thread goes on or returns with nothing in flight. -/
structure KeepsError (d : Dispatcher ι) : Prop where
  error : d.cancelled = true → d.error ≠ 0
  returned : ∀ result, d.phase = .returned result →
    d.pool.busy = 0 ∧ (d.cancelled = true → result ≠ 0)
  after : d.phase = .after → d.pool.busy = 0 ∧ d.cancelled = false

namespace KeepsError

/-- While a request is not over the thread has not gone on. -/
theorem of_busy (h : KeepsError d) (hbusy : 0 < d.pool.busy) (hphase : e.phase = d.phase)
    (herror : e.cancelled = true → e.error ≠ 0) : KeepsError e := by
  refine ⟨herror, fun result hresult ↦ ?_, fun hafter ↦ ?_⟩
  · obtain ⟨hidle, -⟩ := h.returned result (hphase.symm.trans hresult)
    omega
  · obtain ⟨hidle, -⟩ := h.after (hphase.symm.trans hafter)
    omega

theorem of_waits (h : Waits d e) (herror : d.cancelled = true → d.error ≠ 0)
    (hcounter : d.inFlight = d.pool.busy) : KeepsError e := by
  cases h with
  | waits => exact ⟨herror, nofun, nofun⟩
  | goesOn hidle hok =>
    refine ⟨herror, nofun, fun _ ↦ ⟨hcounter.symm.trans hidle, ?_⟩⟩
    cases hcancel : d.cancelled with
    | false => rfl
    | true => exact absurd hok (herror hcancel)
  | returns result hidle hresult =>
    refine ⟨herror, fun other hother ↦ ?_, nofun⟩
    cases hother
    exact ⟨hcounter.symm.trans hidle, fun hcancel ↦ hresult (herror hcancel)⟩

end KeepsError

/-- The thread has returned an error. -/
def Failed (d : Dispatcher ι) : Prop := ∃ result, d.phase = .returned result ∧ result ≠ 0

variable [DecidableEq ι]

@[simp] theorem recordFinish_phase (d : Dispatcher ι) (item : ι) (errorCode : ℤ) :
    (d.recordFinish item errorCode).phase = d.phase := by
  rw [recordFinish]
  split <;> rfl

theorem recordFinish_launching (d : Dispatcher ι) (item : ι) (errorCode : ℤ) :
    (d.recordFinish item errorCode).pool.launching = d.pool.launching := by
  rw [recordFinish]
  split <;> rfl

theorem recordFinish_cancelled (hcancel : d.cancelled = true) (item : ι) (errorCode : ℤ) :
    (d.recordFinish item errorCode).cancelled = true := by
  rw [recordFinish]
  split
  · rfl
  · exact hcancel

theorem recordFinish_weight {item : ι} (hmem : item ∈ d.pool.running) (errorCode : ℤ) :
    (d.recordFinish item errorCode).weight + 3 = d.weight := by
  have hdrop := WorkPool.weight_drop hmem
  have hfinish := WorkPool.weight_finish hmem
  rw [recordFinish]
  split
  · simp only [weight]
    omega
  · simp only [weight]
    omega

theorem recordFinish_error (herror : d.cancelled = true → d.error ≠ 0) (item : ι) (errorCode : ℤ)
    (hcancel : (d.recordFinish item errorCode).cancelled = true) :
    (d.recordFinish item errorCode).error ≠ 0 := by
  rw [recordFinish] at hcancel ⊢
  split
  · next hcode =>
    dsimp only
    split
    · next hbefore => exact herror hbefore
    · exact hcode
  · next hcode =>
    rw [if_neg hcode] at hcancel
    exact herror hcancel

/-- After an error a request is started only at the start loop. -/
theorem step_startsNone (h : Step max b d e) (hcancel : d.cancelled = true)
    (hleaves : b = .mainSection → d.phase = .startLoop → ∀ item, e.phase ≠ .launching item) :
    e.beingStarted ≤ d.beingStarted := by
  cases h with
  | take item hs => exact absurd rfl (hleaves rfl hs item)
  | leave hs hwaits =>
    rw [started_of_waits hwaits]
    exact Nat.le_add_left _ _
  | giveUp hs hwaits =>
    rw [started_of_waits hwaits]
    exact Nat.le_add_left _ _
  | started request hs =>
    rw [beingStarted, beingStarted, hs]
    exact Nat.add_le_add_right (Nat.zero_le _) _
  | notStarted hs =>
    rw [beingStarted, beingStarted, hs]
    exact Nat.le_refl _
  | wake hs hwaits =>
    rw [started_of_waits hwaits]
    exact Nat.le_add_left _ _
  | finishNext next hmem hok =>
    rw [recordFinish_cancelled hcancel] at hok
    cases hok
  | finishLast hmem =>
    rw [beingStarted, notifyIfIdle_phase, notifyIfIdle_pool, recordFinish_phase, recordFinish_launching]
    exact Nat.le_refl _
  | launched hmem =>
    have hlen := WorkPool.length_erase_of_mem hmem
    simp only [beingStarted, WorkPool.launched]
    omega
  | refused hmem =>
    have hlen := WorkPool.length_erase_of_mem hmem
    simp only [beingStarted, WorkPool.refuse]
    omega
  | reported hmem =>
    rw [beingStarted, notifyIfIdle_phase, notifyIfIdle_pool]
    exact Nat.le_refl _
  | afterRound phase hs hphase =>
    rw [beingStarted, beingStarted, hs]
    rcases hphase with rfl | ⟨result, rfl⟩
    · exact Nat.le_refl _
    · exact Nat.le_refl _

/-- After an error a step that starts no request comes nearer to the end, unless it is a spurious
wake-up. -/
theorem step_cancelled (h : Step max b d e) (hkeeps : d.KeepsError) (hcancel : d.cancelled = true)
    (hnone : e.beingStarted ≤ d.beingStarted) :
    e.cancelled = true ∧ (e.weight < d.weight ∨ d.Spurious b ∧ e.weight ≤ d.weight) := by
  cases h with
  | take item hs =>
    rw [beingStarted, beingStarted, hs] at hnone
    exact absurd hnone (Nat.not_le.mpr (Nat.add_lt_add_right Nat.zero_lt_one _))
  | leave hs hwaits =>
    obtain ⟨hweight, -⟩ := weight_of_waits hwaits
    refine ⟨(cancelled_of_waits hwaits).trans hcancel, .inl ?_⟩
    simp only [weight, hs, Phase.weight] at hweight ⊢
    omega
  | giveUp hs hwaits =>
    obtain ⟨hweight, -⟩ := weight_of_waits hwaits
    refine ⟨cancelled_of_waits hwaits, .inl ?_⟩
    simp only [weight, hs, Phase.weight, startFailed] at hweight ⊢
    omega
  | started request hs =>
    refine ⟨hcancel, .inl ?_⟩
    simp only [weight, hs, Phase.weight, WorkPool.weight_enlist]
    omega
  | notStarted hs =>
    refine ⟨hcancel, .inl ?_⟩
    simp only [weight, hs, Phase.weight]
    omega
  | wake hs hwaits =>
    obtain ⟨hweight, hnotify⟩ := weight_of_waits hwaits
    refine ⟨(cancelled_of_waits hwaits).trans hcancel, ?_⟩
    have hw : d.weight = d.pool.weight + d.notified.toNat + 1 := by rw [weight, hs, Phase.weight]
    cases hnotified : d.notified with
    | true =>
      have hless := hnotify hnotified
      rw [hnotified, Bool.toNat_true] at hw
      exact .inl (by omega)
    | false => exact .inr ⟨⟨rfl, hnotified⟩, by omega⟩
  | finishNext next hmem hok =>
    rw [recordFinish_cancelled hcancel] at hok
    cases hok
  | @finishLast _ item errorCode hmem =>
    have hfinish := recordFinish_weight hmem errorCode
    have hnotify := notifyIfIdle_weight (d.recordFinish item errorCode)
    refine ⟨?_, .inl (by omega)⟩
    rw [notifyIfIdle_cancelled]
    exact recordFinish_cancelled hcancel item errorCode
  | launched hmem =>
    have hlaunched := WorkPool.weight_launched hmem
    refine ⟨hcancel, .inl ?_⟩
    simp only [weight]
    omega
  | refused hmem =>
    have hrefuse := WorkPool.weight_refuse hmem
    refine ⟨hcancel, .inl ?_⟩
    simp only [weight]
    omega
  | @reported _ item hmem =>
    have hreport := WorkPool.weight_report hmem
    have hnotify := notifyIfIdle_weight (d.recordStartFailed item)
    refine ⟨notifyIfIdle_cancelled _, .inl (Nat.lt_of_le_of_lt hnotify ?_)⟩
    simp only [weight, recordStartFailed]
    omega
  | afterRound phase hs =>
    rw [(hkeeps.after hs).2] at hcancel
    cases hcancel

theorem step_keepsError (h : Step max b d e) (hsound : d.gauge.Sound max) (hkeeps : d.KeepsError) :
    e.KeepsError := by
  cases h with
  | take item hs => exact ⟨hkeeps.error, nofun, nofun⟩
  | leave hs hwaits => exact .of_waits hwaits hkeeps.error (counter_eq_busy hsound (by rw [hs]; rfl))
  | giveUp hs hwaits =>
    have hcounts := counter_eq hsound
    rw [hs] at hcounts
    exact .of_waits hwaits (fun _ ↦ by simp [startFailed]) (Nat.sub_eq_of_eq_add hcounts)
  | started request hs => exact ⟨hkeeps.error, nofun, nofun⟩
  | notStarted hs => exact ⟨hkeeps.error, nofun, nofun⟩
  | wake hs hwaits => exact .of_waits hwaits hkeeps.error (counter_eq_busy hsound (by rw [hs]; rfl))
  | @finishNext _ item errorCode next hmem hok =>
    refine hkeeps.of_busy (WorkPool.busy_pos_of_running hmem) (recordFinish_phase d item errorCode) ?_
    exact recordFinish_error hkeeps.error item errorCode
  | @finishLast _ item errorCode hmem =>
    apply hkeeps.of_busy (WorkPool.busy_pos_of_running hmem)
    · rw [notifyIfIdle_phase, recordFinish_phase]
    · rw [notifyIfIdle_cancelled, notifyIfIdle_error]
      exact recordFinish_error hkeeps.error item errorCode
  | launched hmem => exact hkeeps.of_busy (WorkPool.busy_pos_of_launching hmem) rfl hkeeps.error
  | refused hmem => exact hkeeps.of_busy (WorkPool.busy_pos_of_launching hmem) rfl hkeeps.error
  | @reported _ item hmem =>
    refine hkeeps.of_busy (WorkPool.busy_pos_of_refused hmem) (notifyIfIdle_phase _) fun _ ↦ ?_
    rw [notifyIfIdle_error, recordStartFailed]
    dsimp only
    split
    · next hcancel => exact hkeeps.error hcancel
    · decide
  | afterRound phase hs hphase =>
    obtain ⟨hidle, hok⟩ := hkeeps.after hs
    refine ⟨hkeeps.error, fun result _ ↦ ⟨hidle, fun hcancel ↦ ?_⟩, fun _ ↦ ⟨hidle, hok⟩⟩
    cases hcancel.symm.trans hok

namespace Implements

variable {σ ℓ : Type*} {step : σ → ℓ → Option σ} {view : σ → Dispatcher ι} {event : ℓ → Event ι}

theorem step_keeps (h : Implements step max view event) {s t : σ} {a : ℓ}
    (hs : (view s).gauge.Sound max ∧ (view s).KeepsError) (hstep : step s a = some t) :
    (view t).gauge.Sound max ∧ (view t).KeepsError :=
  ⟨step_sound (h.moves hstep) hs.1, step_keepsError (h.moves hstep) hs.1 hs.2⟩

theorem run_keeps (h : Implements step max view event) {s t : σ} {actions : List ℓ}
    (hs : (view s).gauge.Sound max ∧ (view s).KeepsError) (hrun : run step s actions = some t) :
    (view t).gauge.Sound max ∧ (view t).KeepsError :=
  @run_always _ _ step (fun s ↦ (view s).gauge.Sound max ∧ (view s).KeepsError) h.step_keeps s t actions
    hs hrun

/-- After an error, a machine that starts no more requests comes to return one. -/
theorem leadsTo_failed (h : Implements step max view event) {Cond Idle : σ → ℓ → Prop}
    [∀ s a, Decidable (Idle s a)] {P : σ → Prop}
    (hcond : ∀ {s a t}, Cond s a → (view s).cancelled = true → step s a = some t →
      (view t).beingStarted ≤ (view s).beingStarted)
    (hidle : ∀ {s a}, (view s).Spurious (event a) ↔ Idle s a) (hfailed : ∀ {s}, (view s).Failed → P s)
    {s : σ} (hs : (view s).gauge.Sound max ∧ (view s).KeepsError) (hcancel : (view s).cancelled = true) :
    LeadsTo step Cond Idle P s := by
  have hless {s a t} (hs : ((view s).gauge.Sound max ∧ (view s).KeepsError) ∧ (view s).cancelled = true)
      (hc : Cond s a) (hstep : step s a = some t) := step_cancelled (h.moves hstep) hs.1.2 hs.2
        (hcond hc hs.2 hstep)
  refine @leadsTo_of_measure _ _ _ _ (fun s ↦ ((view s).gauge.Sound max ∧ (view s).KeepsError) ∧
    (view s).cancelled = true) _ _ _ (fun s ↦ (view s).weight) ?_ ?_ ?_ ?_ s ⟨hs, hcancel⟩
  · intro s a t hs hc hstep
    exact ⟨h.step_keeps hs.1 hstep, (hless hs hc hstep).1⟩
  · intro s a t hs hc hstep
    rcases (hless hs hc hstep).2 with hlt | ⟨-, hle⟩
    · exact Nat.le_of_lt hlt
    · exact hle
  · intro s a t hs hc hspurious hstep
    exact (hless hs hc hstep).2.resolve_right fun hwake ↦ hspurious (hidle.mp hwake.1)
  · intro s hs hstuck
    by_cases hreturned : ∀ result, (view s).phase ≠ .returned result
    · obtain ⟨b, henabled, hspurious⟩ := exists_enabled hs.1.1 hreturned
      obtain ⟨a, t, rfl, hstep⟩ := h.enabled henabled
      have hnone := hstuck a fun hwake ↦ hspurious (hidle.mpr hwake)
      cases hnone.symm.trans hstep
    · push Not at hreturned
      obtain ⟨result, hresult⟩ := hreturned
      exact hfailed ⟨result, hresult, (hs.1.2.returned result hresult).2 hs.2⟩

end Implements

end Dispatcher

end InFlight
