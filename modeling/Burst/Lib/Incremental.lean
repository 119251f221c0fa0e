import Mathlib.Data.List.Basic
import Mathlib.Tactic.Common

/-! Loops that eat a buffer step by step and may have to wait for more of it. -/

namespace Incremental

variable {σ ε α : Type*}

inductive Step (σ ε α : Type*) where
  | next (s : σ) (rest : List α)
  | wait (s : σ)
  | stop (e : ε) (s : σ)

inductive End (σ ε α : Type*) where
  | finished (s : σ) (remaining : List α)
  | stopped (e : ε) (s : σ)

def run (step : σ → List α → Step σ ε α) : ℕ → σ → List α → Option (End σ ε α)
  | 0, _, _ => none
  | rounds + 1, s, bs =>
    if bs.isEmpty then some (.finished s [])
    else
      match step s bs with
      | .next s rest => run step rounds s rest
      | .wait s => some (.finished s bs)
      | .stop e s => some (.stopped e s)

variable {step : σ → List α → Step σ ε α}

theorem run_nil (n : ℕ) (s : σ) : run step (n + 1) s [] = some (.finished s []) := rfl

theorem run_succ {bs : List α} (h : bs ≠ []) (n : ℕ) (s : σ) :
    run step (n + 1) s bs = match step s bs with
      | .next s rest => run step n s rest
      | .wait s => some (.finished s bs)
      | .stop e s => some (.stopped e s) := by
  cases bs with
  | nil => exact (h rfl).elim
  | cons b bs => rfl

theorem run_next {s s' : σ} {bs rest : List α} (h : bs ≠ []) (hstep : step s bs = .next s' rest)
    (n : ℕ) : run step (n + 1) s bs = run step n s' rest := by
  rw [run_succ h, hstep]

theorem run_wait {s s' : σ} {bs : List α} (h : bs ≠ []) (hstep : step s bs = .wait s') (n : ℕ) :
    run step (n + 1) s bs = some (.finished s' bs) := by
  rw [run_succ h, hstep]

theorem run_stop {s s' : σ} {bs : List α} {e : ε} (h : bs ≠ []) (hstep : step s bs = .stop e s')
    (n : ℕ) : run step (n + 1) s bs = some (.stopped e s') := by
  rw [run_succ h, hstep]

theorem run_mono {n m : ℕ} {s : σ} {bs : List α} {r : End σ ε α} (h : run step n s bs = some r)
    (hle : n ≤ m) : run step m s bs = some r := by
  induction n generalizing m s bs with
  | zero => simp [run] at h
  | succ n ih =>
    obtain ⟨m, rfl⟩ : ∃ k, m = k + 1 := ⟨m - 1, by omega⟩
    by_cases hbs : bs = []
    · rw [hbs, run_nil] at h ⊢
      exact h
    · rw [run_succ hbs] at h ⊢
      cases hstep : step s bs with
      | next s' rest =>
        rw [hstep] at h
        exact ih h (by omega)
      | wait s' =>
        rw [hstep] at h
        exact h
      | stop e s' =>
        rw [hstep] at h
        exact h

theorem run_unique {n m : ℕ} {s : σ} {bs : List α} {r r' : End σ ε α}
    (h : run step n s bs = some r) (h' : run step m s bs = some r') : r = r' := by
  have hmax := run_mono h (Nat.le_max_left n m)
  rw [run_mono h' (Nat.le_max_right n m)] at hmax
  exact (Option.some.inj hmax).symm

/-- A loop whose steps repeat themselves or get smaller by some measure ends within that many
rounds, if it ends at all. -/
theorem run_enough {measure : σ → List α → ℕ} (hmeasure : ∀ {s bs s' rest}, bs ≠ [] →
      step s bs = .next s' rest → (s' = s ∧ rest = bs) ∨ measure s' rest < measure s bs)
    {n m : ℕ} {s : σ} {bs : List α} {r : End σ ε α} (h : run step n s bs = some r)
    (hm : measure s bs < m) : run step m s bs = some r := by
  induction n generalizing m s bs with
  | zero => simp [run] at h
  | succ n ih =>
    obtain ⟨m, rfl⟩ : ∃ k, m = k + 1 := ⟨m - 1, by omega⟩
    by_cases hbs : bs = []
    · rw [hbs, run_nil] at h ⊢
      exact h
    · cases hstep : step s bs with
      | next s' rest =>
        rw [run_next hbs hstep] at h
        rcases hmeasure hbs hstep with ⟨rfl, rfl⟩ | hlt
        · exact ih h hm
        · rw [run_next hbs hstep]
          exact ih h (by omega)
      | wait s' =>
        rw [run_wait hbs hstep] at h ⊢
        exact h
      | stop e s' =>
        rw [run_stop hbs hstep] at h ⊢
        exact h

def End.mapState (f : σ → σ) : End σ ε α → End σ ε α
  | .finished s remaining => .finished (f s) remaining
  | .stopped e s => .stopped e s

/-- The state after a step, however it ends. -/
def Step.state : Step σ ε α → σ
  | .next s _ => s
  | .wait s => s
  | .stop _ s => s

def End.state : End σ ε α → σ
  | .finished s _ => s
  | .stopped _ s => s

/-- What every step keeps holds of the state a loop ends in. -/
theorem run_state {P : σ → Prop} (hstep : ∀ s bs, P s → P (step s bs).state) {n : ℕ} {s : σ}
    {bs : List α} {r : End σ ε α} (hs : P s) (h : run step n s bs = some r) : P r.state := by
  induction n generalizing s bs with
  | zero => simp [run] at h
  | succ n ih =>
    by_cases hbs : bs = []
    · rw [hbs, run_nil] at h
      cases h
      exact hs
    · have hkept := hstep s bs hs
      cases hnext : step s bs with
      | next t rest =>
        rw [run_next hbs hnext] at h
        rw [hnext] at hkept
        exact ih hkept h
      | wait t =>
        rw [run_wait hbs hnext] at h
        rw [hnext] at hkept
        cases h
        exact hkept
      | stop e t =>
        rw [run_stop hbs hnext] at h
        rw [hnext] at hkept
        cases h
        exact hkept

/-- What holds of every state a step leads to holds of the state a loop finishes in. -/
theorem run_finished {P : σ → Prop} (hnext : ∀ {s bs t rest}, step s bs = .next t rest → P t)
    (hwait : ∀ {s bs t}, P s → step s bs = .wait t → P t) {n : ℕ} {s s' : σ} {bs remaining : List α}
    (hs : P s) (h : run step n s bs = some (.finished s' remaining)) : P s' := by
  induction n generalizing s bs with
  | zero => simp [run] at h
  | succ n ih =>
    by_cases hbs : bs = []
    · rw [hbs, run_nil, Option.some.injEq, End.finished.injEq] at h
      exact h.1 ▸ hs
    · cases hstep : step s bs with
      | next t rest =>
        rw [run_next hbs hstep] at h
        exact ih (hnext hstep) h
      | wait t =>
        rw [run_wait hbs hstep, Option.some.injEq, End.finished.injEq] at h
        exact h.1 ▸ hwait hs hstep
      | stop e t =>
        rw [run_stop hbs hstep] at h
        cases h

/-- What holds of every state a step leads to bears on how a loop stops. -/
theorem run_stopped {P : σ → Prop} {Q : ε → σ → Prop}
    (hnext : ∀ {s bs t rest}, step s bs = .next t rest → P t)
    (hstop : ∀ {s bs e t}, P s → step s bs = .stop e t → Q e t) {n : ℕ} {s s' : σ} {bs : List α}
    {e : ε} (hs : P s) (h : run step n s bs = some (.stopped e s')) : Q e s' := by
  induction n generalizing s bs with
  | zero => simp [run] at h
  | succ n ih =>
    by_cases hbs : bs = []
    · rw [hbs, run_nil] at h
      cases h
    · cases hstep : step s bs with
      | next t rest =>
        rw [run_next hbs hstep] at h
        exact ih (hnext hstep) h
      | wait t =>
        rw [run_wait hbs hstep] at h
        cases h
      | stop e' t =>
        rw [run_stop hbs hstep, Option.some.injEq, End.stopped.injEq] at h
        obtain ⟨rfl, rfl⟩ := h
        exact hstop hs hstep

/-- A loop ends, in a state that is told apart up to `norm`. -/
def Ends (step : σ → List α → Step σ ε α) (norm : σ → σ) (s : σ) (bs : List α)
    (r : End σ ε α) : Prop :=
  ∃ n r', run step n s bs = some r' ∧ r'.mapState norm = r

variable {norm : σ → σ}

theorem Ends.unique {s : σ} {bs : List α} {r r' : End σ ε α} (h : Ends step norm s bs r)
    (h' : Ends step norm s bs r') : r = r' := by
  obtain ⟨n, q, hq, rfl⟩ := h
  obtain ⟨m, q', hq', rfl⟩ := h'
  rw [run_unique hq hq']

theorem ends_next {s s' : σ} {bs rest : List α} (h : bs ≠ []) (hstep : step s bs = .next s' rest)
    (r : End σ ε α) : Ends step norm s bs r ↔ Ends step norm s' rest r := by
  constructor
  · rintro ⟨n, q, hq, rfl⟩
    cases n with
    | zero => simp [run] at hq
    | succ n => exact ⟨n, q, by rwa [run_next h hstep] at hq, rfl⟩
  · rintro ⟨n, q, hq, rfl⟩
    exact ⟨n + 1, q, by rwa [run_next h hstep], rfl⟩

theorem ends_nil (s : σ) : Ends step norm s [] (.finished (norm s) []) :=
  ⟨1, .finished s [], rfl, rfl⟩

/-- What a step on a part of the input has to do with a step on all of it: it is the same step, or
it takes all there is and the loop goes on alike with what comes later. -/
def Extends (step : σ → List α → Step σ ε α) (norm : σ → σ) (s : σ) (bs more : List α) : Prop :=
  match step s bs with
  | .next s' rest => step s (bs ++ more) = .next s' (rest ++ more) ∨
      rest = [] ∧ ∀ r, Ends step norm s (bs ++ more) r ↔ Ends step norm s' more r
  | .wait s' => s' = s
  | .stop e s' => step s (bs ++ more) = .stop e s'

/-- A step that is the same when more input is there, or waits for more. -/
inductive SameStep (s : σ) (more : List α) : Step σ ε α → Step σ ε α → Prop where
  | next (t : σ) (rest : List α) : SameStep s more (.next t rest) (.next t (rest ++ more))
  | wait (longer : Step σ ε α) : SameStep s more (.wait s) longer
  | stop (e : ε) (t : σ) : SameStep s more (.stop e t) (.stop e t)

theorem SameStep.extends {s : σ} {bs more : List α}
    (h : SameStep s more (step s bs) (step s (bs ++ more))) : Extends step norm s bs more := by
  rw [Extends]
  generalize hshort : step s bs = short at h
  generalize hlong : step s (bs ++ more) = long at h
  cases h with
  | next t rest => exact .inl rfl
  | wait => rfl
  | stop e t => rfl

/-- The states and buffers a loop comes by. -/
inductive Visits (step : σ → List α → Step σ ε α) : σ → List α → σ → List α → Prop where
  | here {s bs} : Visits step s bs s bs
  | later {s bs s' rest t bs'} : bs ≠ [] → step s bs = .next s' rest → Visits step s' rest t bs' →
      Visits step s bs t bs'

theorem Visits.trans {s t u : σ} {bs bs' bs'' : List α} (h : Visits step s bs t bs')
    (h' : Visits step t bs' u bs'') : Visits step s bs u bs'' := by
  induction h with
  | here => exact h'
  | later hbs hstep _ ih => exact .later hbs hstep (ih h')

/-- A loop ends as it does from where it comes by. -/
theorem Visits.ends_iff {s t : σ} {bs bs' : List α} (h : Visits step s bs t bs') (r : End σ ε α) :
    Ends step norm s bs r ↔ Ends step norm t bs' r := by
  induction h with
  | here => exact Iff.rfl
  | later hbs hstep _ ih => exact (ends_next hbs hstep r).trans ih

theorem Visits.invariant {Inv : σ → List α → Prop} {s t : σ} {bs bs' : List α}
    (hvisit : Visits step s bs t bs')
    (hnext : ∀ {s bs t rest}, Inv s bs → bs ≠ [] → step s bs = .next t rest → Inv t rest)
    (hs : Inv s bs) : Inv t bs' := by
  induction hvisit with
  | here => exact hs
  | later hbs hstep _ ih => exact ih (hnext hs hbs hstep)

/-- An invariant of the steps taken where the states and buffers on the way meet a condition. -/
theorem Visits.invariant_meeting {Inv Good : σ → List α → Prop} {s t : σ} {bs bs' : List α}
    (hvisit : Visits step s bs t bs')
    (hgood : ∀ u rest, Visits step s bs u rest → rest ≠ [] → Good u rest)
    (hnext : ∀ {s bs t rest}, Inv s bs → Good s bs → step s bs = .next t rest → Inv t rest)
    (hs : Inv s bs) : Inv t bs' := by
  induction hvisit with
  | here => exact hs
  | later hbs hstep _ ih =>
    apply ih
    · intro u rest hlater
      exact hgood u rest (.later hbs hstep hlater)
    · exact hnext hs (hgood _ _ .here hbs) hstep

/-- Whether a loop of at most so many rounds comes only by states and buffers that pass a test. -/
def visitsAll (step : σ → List α → Step σ ε α) (test : σ → List α → Bool) : ℕ → σ → List α → Bool
  | 0, _, _ => false
  | n + 1, s, bs => test s bs && (bs.isEmpty ||
      match step s bs with
      | .next s rest => visitsAll step test n s rest
      | _ => true)

theorem visitsAll_sound {test : σ → List α → Bool} {n : ℕ} {s t : σ} {bs bs' : List α}
    (hcheck : visitsAll step test n s bs = true) (hvisit : Visits step s bs t bs') :
    test t bs' = true := by
  induction hvisit generalizing n with
  | here =>
    cases n with
    | zero => simp [visitsAll] at hcheck
    | succ n =>
      rw [visitsAll, Bool.and_eq_true] at hcheck
      exact hcheck.1
  | later hbs hstep _ ih =>
    cases n with
    | zero => simp [visitsAll] at hcheck
    | succ n =>
      rw [visitsAll, hstep, Bool.and_eq_true] at hcheck
      exact ih (by simpa [hbs] using hcheck.2)

/-- A loop that finishes waits in a state it comes by, or has come by the state with nothing left. -/
theorem visits_of_finished {n : ℕ} {s t : σ} {bs remaining : List α}
    (h : run step n s bs = some (.finished t remaining)) :
    Visits step s bs t remaining ∨ ∃ u, Visits step s bs u remaining ∧ step u remaining = .wait t := by
  induction n generalizing s bs with
  | zero => simp [run] at h
  | succ n ih =>
    by_cases hbs : bs = []
    · rw [hbs, run_nil, Option.some.injEq, End.finished.injEq] at h
      rw [hbs, ← h.1, ← h.2]
      exact .inl .here
    · cases hstep : step s bs with
      | next s' rest =>
        rw [run_next hbs hstep] at h
        rcases ih h with hvisit | ⟨u, hvisit, hwait⟩
        · exact .inl (.later hbs hstep hvisit)
        · exact .inr ⟨u, .later hbs hstep hvisit, hwait⟩
      | wait s' =>
        rw [run_wait hbs hstep, Option.some.injEq, End.finished.injEq] at h
        rw [← h.1, ← h.2]
        exact .inr ⟨s, .here, hstep⟩
      | stop e s' =>
        rw [run_stop hbs hstep] at h
        cases h

/-- A loop whose steps may trap: `none` when one does. -/
def runChecked (check : σ → List α → Option (Step σ ε α)) :
    ℕ → σ → List α → Option (Option (End σ ε α))
  | 0, _, _ => some none
  | rounds + 1, s, bs =>
    if bs.isEmpty then some (some (.finished s []))
    else (check s bs).bind fun
      | .next s rest => runChecked check rounds s rest
      | .wait s => some (some (.finished s bs))
      | .stop e s => some (some (.stopped e s))

variable {check : σ → List α → Option (Step σ ε α)}

theorem runChecked_succ {bs : List α} (h : bs ≠ []) (n : ℕ) (s : σ) :
    runChecked check (n + 1) s bs = (check s bs).bind fun
      | .next s rest => runChecked check n s rest
      | .wait s => some (some (.finished s bs))
      | .stop e s => some (some (.stopped e s)) := by
  cases bs with
  | nil => exact (h rfl).elim
  | cons b bs => rfl

/-- As long as no step traps the loop is the one whose steps cannot. -/
theorem runChecked_eq {s : σ} {bs : List α} (h : ∀ t bs', Visits step s bs t bs' → bs' ≠ [] →
    check t bs' = some (step t bs')) (n : ℕ) : runChecked check n s bs = some (run step n s bs) := by
  induction n generalizing s bs with
  | zero => rfl
  | succ n ih =>
    by_cases hbs : bs = []
    · rw [hbs]
      rfl
    · rw [runChecked_succ hbs, run_succ hbs, h s bs .here hbs, Option.bind_some]
      cases hstep : step s bs with
      | next s' rest => exact ih fun t bs' hvisit ↦ h t bs' (.later hbs hstep hvisit)
      | wait s' => rfl
      | stop e s' => rfl

/-- A loop that comes by a step that traps does so within the rounds its measure allows. -/
theorem runChecked_eq_none {measure : σ → List α → ℕ} {Inv : σ → List α → Prop}
    (hnext : ∀ {s bs t rest}, Inv s bs → bs ≠ [] → step s bs = .next t rest → Inv t rest)
    (hmeasure : ∀ {s bs s' rest}, bs ≠ [] → step s bs = .next s' rest →
      (s' = s ∧ rest = bs) ∨ measure s' rest < measure s bs)
    (hcheck : ∀ {s bs}, Inv s bs → bs ≠ [] → check s bs = none ∨ check s bs = some (step s bs))
    {s t : σ} {bs bs' : List α} (hs : Inv s bs) (hvisit : Visits step s bs t bs') (hbs' : bs' ≠ [])
    (htrap : check t bs' = none) {n : ℕ} (hn : measure s bs < n) :
    runChecked check n s bs = none := by
  induction hvisit generalizing n with
  | here =>
    obtain ⟨n, rfl⟩ : ∃ k, n = k + 1 := ⟨n - 1, by omega⟩
    rw [runChecked_succ hbs', htrap, Option.bind_none]
  | later hbs hstep _ ih =>
    rcases hmeasure hbs hstep with ⟨rfl, rfl⟩ | hlt
    · exact ih hs hbs' htrap hn
    · obtain ⟨n, rfl⟩ : ∃ k, n = k + 1 := ⟨n - 1, by omega⟩
      rw [runChecked_succ hbs]
      rcases hcheck hs hbs with hnone | hsome
      · rw [hnone, Option.bind_none]
      · rw [hsome, Option.bind_some, hstep]
        exact ih (hnext hs hbs hstep) hbs' htrap (by omega)

/-- A loop whose steps get smaller by some measure unless it is stuck ends exactly when it never gets
stuck. -/
theorem ends_iff_never_stuck {measure : σ → List α → ℕ} {Stuck : σ → List α → Prop}
    (hmeasure : ∀ {s bs s' rest}, bs ≠ [] → step s bs = .next s' rest →
      Stuck s bs ∨ measure s' rest < measure s bs)
    (hstuck : ∀ {s bs}, Stuck s bs → bs ≠ [] ∧ step s bs = .next s bs) (s : σ) (bs : List α) :
    (∃ n r, run step n s bs = some r) ↔ ∀ t bs', Visits step s bs t bs' → ¬ Stuck t bs' := by
  constructor
  · rintro ⟨n, r, hrun⟩ t bs' hvisit hloop
    induction n generalizing s bs t bs' with
    | zero => simp [run] at hrun
    | succ n ih =>
      cases hvisit with
      | here =>
        obtain ⟨hne, hstep⟩ := hstuck hloop
        rw [run_next hne hstep] at hrun
        exact ih _ _ hrun _ _ .here hloop
      | later hne hstep hvisit =>
        rw [run_next hne hstep] at hrun
        exact ih _ _ hrun _ _ hvisit hloop
  · intro hnever
    induction hm : measure s bs using Nat.strongRecOn generalizing s bs with
    | ind m ih =>
      by_cases hbs : bs = []
      · rw [hbs]
        exact ⟨1, _, run_nil 0 s⟩
      cases hstep : step s bs with
      | next t rest =>
        have hlt := (hmeasure hbs hstep).resolve_left (hnever s bs .here)
        obtain ⟨n, r, hrun⟩ := ih _ (hm ▸ hlt) t rest
          (fun u bs' hvisit ↦ hnever u bs' (.later hbs hstep hvisit)) rfl
        exact ⟨n + 1, r, by rw [run_next hbs hstep, hrun]⟩
      | wait t => exact ⟨1, _, run_wait hbs hstep 0⟩
      | stop e t => exact ⟨1, _, run_stop hbs hstep 0⟩

/-- Every step of a loop extends. -/
def Extensible (step : σ → List α → Step σ ε α) (norm : σ → σ) (s : σ) (bs more : List α) : Prop :=
  ∀ t bs', Visits step s bs t bs' → bs' ≠ [] → Extends step norm t bs' more

theorem Extensible.tail {s s' : σ} {bs rest more : List α} (h : Extensible step norm s bs more)
    (hbs : bs ≠ []) (hstep : step s bs = .next s' rest) : Extensible step norm s' rest more :=
  fun t bs' hvisit ↦ h t bs' (.later hbs hstep hvisit)

/-- A loop that has eaten the first part of the input goes on as the loop on all of it. -/
theorem Extensible.ends_append {s s' : σ} {bs more remaining : List α} {n : ℕ}
    (h : Extensible step norm s bs more) (hrun : run step n s bs = some (.finished s' remaining))
    (r : End σ ε α) :
    Ends step norm s (bs ++ more) r ↔ Ends step norm s' (remaining ++ more) r := by
  induction n generalizing s bs with
  | zero => simp [run] at hrun
  | succ n ih =>
    by_cases hbs : bs = []
    · rw [hbs, run_nil, Option.some.injEq, End.finished.injEq] at hrun
      rw [hbs, ← hrun.1, ← hrun.2]
    · have hext := h s bs .here hbs
      rw [Extends] at hext
      cases hstep : step s bs with
      | next t rest =>
        have hrest := h.tail hbs hstep
        rw [run_next hbs hstep] at hrun
        simp only [hstep] at hext
        rcases hext with hsame | ⟨rfl, hlater⟩
        · rw [ends_next (by simp [hbs]) hsame]
          exact ih hrest hrun
        · cases n with
          | zero => simp [run] at hrun
          | succ n =>
            rw [run_nil, Option.some.injEq, End.finished.injEq] at hrun
            rw [hlater, ← hrun.1, ← hrun.2, List.nil_append]
      | wait t =>
        simp only [hstep] at hext
        rw [run_wait hbs hstep, Option.some.injEq, End.finished.injEq] at hrun
        rw [← hrun.1, ← hrun.2, hext]
      | stop e t =>
        rw [run_stop hbs hstep] at hrun
        cases hrun

/-- What a loop leaves over is what it waits with. -/
theorem Extensible.waits {s s' : σ} {bs more remaining : List α} {n : ℕ}
    (h : Extensible step norm s bs more) (hrun : run step n s bs = some (.finished s' remaining)) :
    remaining = [] ∨ step s' remaining = .wait s' := by
  induction n generalizing s bs with
  | zero => simp [run] at hrun
  | succ n ih =>
    by_cases hbs : bs = []
    · rw [hbs, run_nil, Option.some.injEq, End.finished.injEq] at hrun
      exact .inl hrun.2.symm
    · cases hstep : step s bs with
      | next t rest =>
        rw [run_next hbs hstep] at hrun
        exact ih (h.tail hbs hstep) hrun
      | wait t =>
        have hext := h s bs .here hbs
        simp only [Extends, hstep] at hext
        rw [run_wait hbs hstep, Option.some.injEq, End.finished.injEq] at hrun
        obtain ⟨rfl, rfl⟩ := hrun
        exact .inr (by rw [hext] at hstep ⊢; exact hstep)
      | stop e t =>
        rw [run_stop hbs hstep] at hrun
        cases hrun

theorem Extensible.stopped_append {s s' : σ} {bs more : List α} {e : ε} {n : ℕ}
    (h : Extensible step norm s bs more) (hrun : run step n s bs = some (.stopped e s')) :
    Ends step norm s (bs ++ more) (.stopped e s') := by
  induction n generalizing s bs with
  | zero => simp [run] at hrun
  | succ n ih =>
    by_cases hbs : bs = []
    · rw [hbs, run_nil] at hrun
      cases hrun
    · have hext := h s bs .here hbs
      rw [Extends] at hext
      cases hstep : step s bs with
      | next t rest =>
        have hrest := h.tail hbs hstep
        rw [run_next hbs hstep] at hrun
        simp only [hstep] at hext
        rcases hext with hsame | ⟨rfl, -⟩
        · rw [ends_next (by simp [hbs]) hsame]
          exact ih hrest hrun
        · cases n with
          | zero => simp [run] at hrun
          | succ n =>
            rw [run_nil] at hrun
            cases hrun
      | wait t =>
        rw [run_wait hbs hstep] at hrun
        cases hrun
      | stop e' t =>
        rw [run_stop hbs hstep, Option.some.injEq] at hrun
        simp only [hstep] at hext
        refine ⟨1, .stopped e' t, run_stop (by simp [hbs]) hext 0, ?_⟩
        rw [hrun]
        rfl

theorem Extensible.endless_append {s : σ} {bs more : List α} (h : Extensible step norm s bs more)
    (hrun : ∀ n, run step n s bs = none) (n : ℕ) : run step n s (bs ++ more) = none := by
  induction n generalizing s bs with
  | zero => rfl
  | succ n ih =>
    have hbs : bs ≠ [] := by
      rintro rfl
      simpa [run_nil] using hrun 1
    have hext := h s bs .here hbs
    rw [Extends] at hext
    cases hstep : step s bs with
    | next t rest =>
      have hrest := h.tail hbs hstep
      have hnone : ∀ n, run step n t rest = none := fun n ↦ by
        rw [← run_next hbs hstep]
        exact hrun (n + 1)
      simp only [hstep] at hext
      rcases hext with hsame | ⟨rfl, -⟩
      · rw [run_next (by simp [hbs]) hsame]
        exact ih hrest hnone
      · simpa [run_nil] using hnone 1
    | wait t => simpa [run_wait hbs hstep] using hrun 1
    | stop e t => simpa [run_stop hbs hstep] using hrun 1

end Incremental
