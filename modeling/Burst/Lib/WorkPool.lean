import Mathlib.Data.List.Perm.Basic
import Mathlib.Data.List.Count

/-- Items handed to workers: being launched, running, refused by a launch that failed, and done. -/
structure WorkPool (ι : Type*) where
  launching : List ι
  running : List ι
  refused : List ι
  done : List ι
  deriving DecidableEq

namespace WorkPool

variable {ι : Type*}

def empty : WorkPool ι := ⟨[], [], [], []⟩

def accept (w : WorkPool ι) (i : ι) : WorkPool ι := { w with launching := i :: w.launching }

/-- Starts an item that was not in the pool before. -/
def enlist (w : WorkPool ι) (i : ι) : WorkPool ι := { w with running := i :: w.running }

/-- The items that are not over. -/
def busy (w : WorkPool ι) : ℕ := w.launching.length + w.running.length + w.refused.length

@[simp] theorem busy_empty : (empty : WorkPool ι).busy = 0 := rfl

@[simp] theorem busy_accept (w : WorkPool ι) (i : ι) : (w.accept i).busy = w.busy + 1 := by
  simp only [busy, accept, List.length_cons]
  omega

@[simp] theorem busy_enlist (w : WorkPool ι) (i : ι) : (w.enlist i).busy = w.busy + 1 := by
  simp only [busy, enlist, List.length_cons]
  omega

theorem busy_pos_of_running {w : WorkPool ι} {i : ι} (h : i ∈ w.running) : 0 < w.busy := by
  have hpos := List.length_pos_of_mem h
  rw [busy]
  omega

theorem busy_pos_of_launching {w : WorkPool ι} {i : ι} (h : i ∈ w.launching) : 0 < w.busy := by
  have hpos := List.length_pos_of_mem h
  rw [busy]
  omega

theorem busy_pos_of_refused {w : WorkPool ι} {i : ι} (h : i ∈ w.refused) : 0 < w.busy := by
  have hpos := List.length_pos_of_mem h
  rw [busy]
  omega

/-- The items of a kind that are not over. -/
def pending (w : WorkPool ι) (kind : ι → Bool) : ℕ :=
  w.launching.countP kind + w.running.countP kind + w.refused.countP kind

@[simp] theorem pending_empty (kind : ι → Bool) : (empty : WorkPool ι).pending kind = 0 := rfl

@[simp] theorem pending_accept (w : WorkPool ι) (kind : ι → Bool) (i : ι) :
    (w.accept i).pending kind = w.pending kind + if kind i then 1 else 0 := by
  simp only [pending, accept, List.countP_cons]
  omega

@[simp] theorem pending_enlist (w : WorkPool ι) (kind : ι → Bool) (i : ι) :
    (w.enlist i).pending kind = w.pending kind + if kind i then 1 else 0 := by
  simp only [pending, enlist, List.countP_cons]
  omega

theorem pending_le_busy (w : WorkPool ι) (kind : ι → Bool) : w.pending kind ≤ w.busy := by
  have hlaunching := List.countP_le_length (p := kind) (l := w.launching)
  have hrunning := List.countP_le_length (p := kind) (l := w.running)
  have hrefused := List.countP_le_length (p := kind) (l := w.refused)
  rw [pending, busy]
  omega

/-- A pool with items has one that can go on. -/
theorem exists_of_busy {w : WorkPool ι} (h : 0 < w.busy) :
    (∃ i, i ∈ w.launching) ∨ (∃ i, i ∈ w.running) ∨ ∃ i, i ∈ w.refused := by
  by_contra hnone
  push Not at hnone
  obtain ⟨hlaunching, hrunning, hrefused⟩ := hnone
  have hzero : w.busy = 0 := by
    rw [busy, List.eq_nil_iff_forall_not_mem.mpr hlaunching,
      List.eq_nil_iff_forall_not_mem.mpr hrunning, List.eq_nil_iff_forall_not_mem.mpr hrefused]
    rfl
  omega

/-- More than the steps that are left for the items: a launch takes several. -/
def weight (w : WorkPool ι) : ℕ :=
  6 * w.launching.length + 3 * w.running.length + 3 * w.refused.length

@[simp] theorem weight_enlist (w : WorkPool ι) (i : ι) : (w.enlist i).weight = w.weight + 3 := by
  simp only [weight, enlist, List.length_cons]
  omega

variable [DecidableEq ι]

def launched (w : WorkPool ι) (i : ι) : WorkPool ι :=
  { w with launching := w.launching.erase i, running := i :: w.running }

def refuse (w : WorkPool ι) (i : ι) : WorkPool ι :=
  { w with launching := w.launching.erase i, refused := i :: w.refused }

/-- Forgets an item whose launch failed. -/
def report (w : WorkPool ι) (i : ι) : WorkPool ι := { w with refused := w.refused.erase i }

def finish (w : WorkPool ι) (i : ι) : WorkPool ι :=
  { w with running := w.running.erase i, done := i :: w.done }

/-- Forgets an item that ended with an error. -/
def drop (w : WorkPool ι) (i : ι) : WorkPool ι := { w with running := w.running.erase i }

/-- How often an item is in the pool. -/
def account (w : WorkPool ι) (i : ι) : ℕ :=
  w.launching.count i + w.running.count i + w.refused.count i + w.done.count i

@[simp] theorem account_empty (i : ι) : (empty : WorkPool ι).account i = 0 := rfl

theorem length_erase_of_mem {l : List ι} {i : ι} (h : i ∈ l) :
    (l.erase i).length + 1 = l.length := by
  have hlen := List.length_erase_of_mem h
  have hpos := List.length_pos_of_mem h
  omega

theorem busy_launched {w : WorkPool ι} {i : ι} (h : i ∈ w.launching) :
    (w.launched i).busy = w.busy := by
  have hlen := length_erase_of_mem h
  simp only [busy, launched, List.length_cons]
  omega

theorem busy_refuse {w : WorkPool ι} {i : ι} (h : i ∈ w.launching) :
    (w.refuse i).busy = w.busy := by
  have hlen := length_erase_of_mem h
  simp only [busy, refuse, List.length_cons]
  omega

theorem busy_report {w : WorkPool ι} {i : ι} (h : i ∈ w.refused) :
    (w.report i).busy + 1 = w.busy := by
  have hlen := length_erase_of_mem h
  simp only [busy, report]
  omega

theorem busy_finish {w : WorkPool ι} {i : ι} (h : i ∈ w.running) :
    (w.finish i).busy + 1 = w.busy := by
  have hlen := length_erase_of_mem h
  simp only [busy, finish]
  omega

theorem busy_drop {w : WorkPool ι} {i : ι} (h : i ∈ w.running) : (w.drop i).busy + 1 = w.busy := by
  have hlen := length_erase_of_mem h
  simp only [busy, drop]
  omega

theorem weight_launched {w : WorkPool ι} {i : ι} (h : i ∈ w.launching) :
    (w.launched i).weight + 3 = w.weight := by
  have hlen := length_erase_of_mem h
  simp only [weight, launched, List.length_cons]
  omega

theorem weight_refuse {w : WorkPool ι} {i : ι} (h : i ∈ w.launching) :
    (w.refuse i).weight + 3 = w.weight := by
  have hlen := length_erase_of_mem h
  simp only [weight, refuse, List.length_cons]
  omega

theorem weight_report {w : WorkPool ι} {i : ι} (h : i ∈ w.refused) :
    (w.report i).weight + 3 = w.weight := by
  have hlen := length_erase_of_mem h
  simp only [weight, report]
  omega

theorem weight_finish {w : WorkPool ι} {i : ι} (h : i ∈ w.running) :
    (w.finish i).weight + 3 = w.weight := by
  have hlen := length_erase_of_mem h
  simp only [weight, finish]
  omega

theorem weight_drop {w : WorkPool ι} {i : ι} (h : i ∈ w.running) :
    (w.drop i).weight + 3 = w.weight := by
  have hlen := length_erase_of_mem h
  simp only [weight, drop]
  omega

theorem countP_erase_of_mem {l : List ι} {i : ι} (h : i ∈ l) (kind : ι → Bool) :
    (l.erase i).countP kind + (if kind i then 1 else 0) = l.countP kind := by
  rw [(List.perm_cons_erase h).countP_eq kind, List.countP_cons]

theorem pending_launched {w : WorkPool ι} {i : ι} (h : i ∈ w.launching) (kind : ι → Bool) :
    (w.launched i).pending kind = w.pending kind := by
  have hcount := countP_erase_of_mem h kind
  simp only [pending, launched, List.countP_cons]
  omega

theorem pending_refuse {w : WorkPool ι} {i : ι} (h : i ∈ w.launching) (kind : ι → Bool) :
    (w.refuse i).pending kind = w.pending kind := by
  have hcount := countP_erase_of_mem h kind
  simp only [pending, refuse, List.countP_cons]
  omega

theorem pending_finish {w : WorkPool ι} {i : ι} (h : i ∈ w.running) (kind : ι → Bool) :
    (w.finish i).pending kind + (if kind i then 1 else 0) = w.pending kind := by
  have hcount := countP_erase_of_mem h kind
  simp only [pending, finish]
  omega

theorem count_erase_of_mem {l : List ι} {i : ι} (h : i ∈ l) (j : ι) :
    (l.erase i).count j + (if i = j then 1 else 0) = l.count j := by
  rw [(List.perm_cons_erase h).count_eq j, List.count_cons]
  simp only [beq_iff_eq]

@[simp] theorem account_accept (w : WorkPool ι) (i j : ι) :
    (w.accept i).account j = w.account j + if i = j then 1 else 0 := by
  simp only [account, accept, List.count_cons, beq_iff_eq]
  omega

@[simp] theorem account_enlist (w : WorkPool ι) (i j : ι) :
    (w.enlist i).account j = w.account j + if i = j then 1 else 0 := by
  simp only [account, enlist, List.count_cons, beq_iff_eq]
  omega

theorem account_launched {w : WorkPool ι} {i : ι} (h : i ∈ w.launching) (j : ι) :
    (w.launched i).account j = w.account j := by
  have hcount := count_erase_of_mem h j
  simp only [account, launched, List.count_cons, beq_iff_eq] at hcount ⊢
  omega

theorem account_refuse {w : WorkPool ι} {i : ι} (h : i ∈ w.launching) (j : ι) :
    (w.refuse i).account j = w.account j := by
  have hcount := count_erase_of_mem h j
  simp only [account, refuse, List.count_cons, beq_iff_eq] at hcount ⊢
  omega

theorem account_finish {w : WorkPool ι} {i : ι} (h : i ∈ w.running) (j : ι) :
    (w.finish i).account j = w.account j := by
  have hcount := count_erase_of_mem h j
  simp only [account, finish, List.count_cons, beq_iff_eq] at hcount ⊢
  omega

theorem account_drop_le (w : WorkPool ι) (i j : ι) : (w.drop i).account j ≤ w.account j := by
  have hle := (List.erase_sublist (a := i) (l := w.running)).count_le j
  simp only [account, drop]
  omega

theorem account_report_le (w : WorkPool ι) (i j : ι) : (w.report i).account j ≤ w.account j := by
  have hle := (List.erase_sublist (a := i) (l := w.refused)).count_le j
  simp only [account, report]
  omega

/-- With nothing left in the pool, what it counts is done. -/
theorem account_eq_done {w : WorkPool ι} (h : w.busy = 0) (i : ι) :
    w.account i = w.done.count i := by
  have hlaunching : w.launching = [] := List.length_eq_zero_iff.mp (by rw [busy] at h; omega)
  have hrunning : w.running = [] := List.length_eq_zero_iff.mp (by rw [busy] at h; omega)
  have hrefused : w.refused = [] := List.length_eq_zero_iff.mp (by rw [busy] at h; omega)
  simp [account, hlaunching, hrunning, hrefused]

end WorkPool
