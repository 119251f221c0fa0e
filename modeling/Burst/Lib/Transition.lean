import Mathlib.Data.List.Basic

namespace Transition

variable {σ ℓ : Type*} {step : σ → ℓ → Option σ} {Cond : σ → ℓ → Prop} {Inv : σ → Prop}

/-- The state after a sequence of actions; `none` when one of them is not possible. -/
def run (step : σ → ℓ → Option σ) : σ → List ℓ → Option σ
  | s, [] => some s
  | s, a :: as => (step s a).bind fun s ↦ run step s as

/-- Every action of a run meets a condition in the state in which it is taken. -/
def Meets (step : σ → ℓ → Option σ) (Cond : σ → ℓ → Prop) : σ → List ℓ → Prop
  | _, [] => True
  | s, a :: as => Cond s a ∧ ∀ s', step s a = some s' → Meets step Cond s' as

instance decidableMeets [∀ s a, Decidable (Cond s a)] :
    (s : σ) → (as : List ℓ) → Decidable (Meets step Cond s as)
  | _, [] => isTrue trivial
  | s, a :: as =>
    match h : step s a with
    | none => decidable_of_iff (Cond s a) (by simp [Meets, h])
    | some s' =>
      have := decidableMeets s' as
      decidable_of_iff (Cond s a ∧ Meets step Cond s' as) (by simp [Meets, h])

theorem run_cons {s t : σ} {a : ℓ} {as : List ℓ} :
    run step s (a :: as) = some t ↔ ∃ s', step s a = some s' ∧ run step s' as = some t :=
  Option.bind_eq_some_iff

theorem run_append {s t : σ} {as bs : List ℓ} :
    run step s (as ++ bs) = some t ↔ ∃ s', run step s as = some s' ∧ run step s' bs = some t := by
  induction as generalizing s with
  | nil => simp [run]
  | cons a as ih =>
    simp only [List.cons_append, run_cons, ih]
    constructor
    · rintro ⟨s₁, h₁, s₂, h₂, h₃⟩
      exact ⟨s₂, ⟨s₁, h₁, h₂⟩, h₃⟩
    · rintro ⟨s₂, ⟨s₁, h₁, h₂⟩, h₃⟩
      exact ⟨s₁, h₁, s₂, h₂, h₃⟩

/-- What holds at the start and is preserved by every action that meets the condition holds after a
run of such actions. -/
theorem run_invariant
    (hstep : ∀ {s a s'}, Inv s → Cond s a → step s a = some s' → Inv s')
    {s t : σ} {as : List ℓ} (hs : Inv s) (hmeets : Meets step Cond s as)
    (hrun : run step s as = some t) : Inv t := by
  induction as generalizing s with
  | nil =>
    cases hrun
    exact hs
  | cons a as ih =>
    obtain ⟨s', hstep', hrun'⟩ := run_cons.mp hrun
    exact ih (hstep hs hmeets.1 hstep') (hmeets.2 s' hstep') hrun'

/-- What holds at the start and is preserved by every action holds after every run. -/
theorem run_always (hstep : ∀ {s a s'}, Inv s → step s a = some s' → Inv s') {s t : σ} {as : List ℓ}
    (hs : Inv s) (hrun : run step s as = some t) : Inv t := by
  induction as generalizing s with
  | nil =>
    cases hrun
    exact hs
  | cons a as ih =>
    obtain ⟨s', hstep', hrun'⟩ := run_cons.mp hrun
    exact ih (hstep hs hstep') hrun'

/-- A run that meets a condition meets what follows from it in the states that satisfy an invariant. -/
theorem Meets.mono {Cond' : σ → ℓ → Prop}
    (hstep : ∀ {s a s'}, Inv s → Cond s a → step s a = some s' → Inv s')
    (h : ∀ {s a}, Inv s → Cond s a → Cond' s a) {s : σ} {as : List ℓ} (hs : Inv s)
    (hmeets : Meets step Cond s as) : Meets step Cond' s as := by
  induction as generalizing s with
  | nil => trivial
  | cons a as ih =>
    obtain ⟨hcond, hrest⟩ := hmeets
    exact ⟨h hs hcond, fun s' hstep' ↦ ih (hstep hs hcond hstep') (hrest s' hstep')⟩

theorem Meets.congr {Cond' : σ → ℓ → Prop} (h : ∀ s a, Cond s a ↔ Cond' s a) {s : σ} {as : List ℓ} :
    Meets step Cond s as ↔ Meets step Cond' s as := by
  induction as generalizing s with
  | nil => exact Iff.rfl
  | cons a as ih => simp only [Meets, h, ih]

/-- How many actions of a run are not idle. -/
def active (step : σ → ℓ → Option σ) (Idle : σ → ℓ → Prop) [∀ s a, Decidable (Idle s a)] :
    σ → List ℓ → ℕ
  | _, [] => 0
  | s, a :: as =>
    (if Idle s a then 0 else 1) + match step s a with
      | some s' => active step Idle s' as
      | none => 0

/-- The runs from a state that meet a condition have a bounded number of actions that are not idle, and
one that can go on only with idle actions has reached a property. -/
def LeadsTo (step : σ → ℓ → Option σ) (Cond Idle : σ → ℓ → Prop) [∀ s a, Decidable (Idle s a)]
    (P : σ → Prop) (s : σ) : Prop :=
  ∃ bound, ∀ as t, Meets step Cond s as → run step s as = some t →
    active step Idle s as ≤ bound ∧ ((∀ a, ¬ Idle t a → step t a = none) → P t)

/-- The rule of the measure: no action makes it larger, one that is not idle makes it smaller, and no
state in which the property does not hold is stuck. -/
theorem leadsTo_of_measure {Idle : σ → ℓ → Prop} [∀ s a, Decidable (Idle s a)] {P : σ → Prop}
    (measure : σ → ℕ)
    (hinv : ∀ {s a t}, Inv s → Cond s a → step s a = some t → Inv t)
    (hle : ∀ {s a t}, Inv s → Cond s a → step s a = some t → measure t ≤ measure s)
    (hless : ∀ {s a t}, Inv s → Cond s a → ¬ Idle s a → step s a = some t → measure t < measure s)
    (hstuck : ∀ {s}, Inv s → (∀ a, ¬ Idle s a → step s a = none) → P s) {s : σ} (hs : Inv s) :
    LeadsTo step Cond Idle P s := by
  refine ⟨measure s, fun as t hmeets hrun ↦ ?_⟩
  have hbound : Inv t ∧ active step Idle s as + measure t ≤ measure s := by
    induction as generalizing s with
    | nil =>
      cases hrun
      exact ⟨hs, by simp [active]⟩
    | cons a as ih =>
      obtain ⟨s', hstep, hrun'⟩ := run_cons.mp hrun
      obtain ⟨hcond, hrest⟩ := hmeets
      obtain ⟨ht, hsum⟩ := ih (hinv hs hcond hstep) (hrest s' hstep) hrun'
      refine ⟨ht, ?_⟩
      simp only [active, hstep]
      by_cases hidle : Idle s a
      · have hle' := hle hs hcond hstep
        rw [if_pos hidle]
        omega
      · have hlt := hless hs hcond hidle hstep
        rw [if_neg hidle]
        omega
  exact ⟨by omega, hstuck hbound.1⟩

end Transition
