import Mathlib.Data.List.Basic
import Mathlib.Data.List.Induction

namespace Interleaving

variable {ι α : Type*}

section History

variable [DecidableEq ι]

/-- What one process has done in a history of several. -/
def own (p : ι) (history : List (ι × α)) : List α := (history.filter (·.1 = p)).map Prod.snd

theorem own_append (p : ι) (xs ys : List (ι × α)) : own p (xs ++ ys) = own p xs ++ own p ys := by
  rw [own, List.filter_append, List.map_append]
  rfl

theorem own_cons_self (p : ι) (a : α) (xs : List (ι × α)) : own p ((p, a) :: xs) = a :: own p xs := by
  rw [own, List.filter_cons_of_pos (by simp)]
  rfl

theorem own_cons_other {p q : ι} (h : q ≠ p) (a : α) (xs : List (ι × α)) :
    own p ((q, a) :: xs) = own p xs := by
  rw [own, List.filter_cons_of_neg (by simpa using h)]
  rfl

theorem own_singleton (p : ι) (a : α) : own p [(p, a)] = [a] := own_cons_self p a []

theorem own_map_self (p : ι) (xs : List α) : own p (xs.map fun a ↦ (p, a)) = xs := by
  induction xs with
  | nil => rfl
  | cons a xs ih => rw [List.map_cons, own_cons_self, ih]

theorem mem_own {p : ι} {a : α} {history : List (ι × α)} : a ∈ own p history ↔ (p, a) ∈ history := by
  rw [own, List.mem_map]
  constructor
  · rintro ⟨⟨q, b⟩, hmem, rfl⟩
    obtain ⟨hmem, hq⟩ := List.mem_filter.mp hmem
    rwa [← of_decide_eq_true hq]
  · intro hmem
    exact ⟨(p, a), List.mem_filter.mpr ⟨hmem, by simp⟩, rfl⟩

/-- A process to which nothing in a history belongs has done nothing. -/
theorem own_eq_nil {p : ι} {history : List (ι × α)} (h : ∀ x ∈ history, x.1 ≠ p) : own p history = [] := by
  rw [List.eq_nil_iff_forall_not_mem]
  intro a ha
  exact h _ (mem_own.mp ha) rfl

theorem own_split {p : ι} {a : α} (before after : List (ι × α)) :
    own p (before ++ (p, a) :: after) = own p before ++ a :: own p after := by
  rw [own_append, own_cons_self]

theorem own_filter (p : ι) (keep : α → Bool) (history : List (ι × α)) :
    own p (history.filter fun x ↦ keep x.2) = (own p history).filter keep := by
  induction history with
  | nil => rfl
  | cons x history ih =>
    obtain ⟨q, a⟩ := x
    by_cases hq : q = p
    · subst hq
      rw [own_cons_self, List.filter_cons, List.filter_cons]
      cases keep a with
      | true => simpa [own_cons_self] using ih
      | false => simpa using ih
    · rw [own_cons_other hq, List.filter_cons]
      cases keep a with
      | true => simpa [own_cons_other hq] using ih
      | false => simpa using ih

/-- The last element of a history is the last one of its process. -/
theorem own_concat (p : ι) (a : α) (history : List (ι × α)) :
    own p (history ++ [(p, a)]) = own p history ++ [a] := by
  rw [own_append, own_singleton]

/-- The same done by one process after another, in ascending order. -/
def serial (n : ℕ) (history : List (ℕ × α)) : List (ℕ × α) :=
  (List.range n).flatMap fun p ↦ (own p history).map fun a ↦ (p, a)

theorem mem_serial {n : ℕ} {history : List (ℕ × α)} {x : ℕ × α} :
    x ∈ serial n history ↔ x.1 < n ∧ x ∈ history := by
  obtain ⟨p, a⟩ := x
  simp only [serial, List.mem_flatMap, List.mem_range, List.mem_map, mem_own, Prod.mk.injEq]
  constructor
  · rintro ⟨q, hq, b, hb, rfl, rfl⟩
    exact ⟨hq, hb⟩
  · rintro ⟨hp, ha⟩
    exact ⟨p, hp, a, ha, rfl, rfl⟩

/-- Every process has done what it has done in the other order. -/
theorem own_serial {p n : ℕ} (hp : p < n) (history : List (ℕ × α)) : own p (serial n history) = own p history := by
  induction n with
  | zero => cases hp
  | succ n ih =>
    rw [serial, List.range_succ, List.flatMap_append, List.flatMap_singleton, own_append]
    rcases Nat.lt_succ_iff_lt_or_eq.mp hp with hlt | rfl
    · have hother : own p ((own n history).map fun a ↦ (n, a)) = [] := by
        apply own_eq_nil
        intro x hx
        obtain ⟨a, -, rfl⟩ := List.mem_map.mp hx
        exact Nat.ne_of_gt hlt
      rw [hother, List.append_nil]
      exact ih hlt
    · have hothers : own p (serial p history) = [] := by
        apply own_eq_nil
        intro x hx
        exact Nat.ne_of_lt (mem_serial.mp hx).1
      rw [own_map_self]
      change own p (serial p history) ++ _ = _
      rw [hothers, List.nil_append]

end History

/-- Where a sequence has an element of one kind, it has one of the other before. -/
def Precedes (xs : List α) (P Q : α → Prop) : Prop :=
  ∀ before a after, xs = before ++ a :: after → P a → ∃ b ∈ before, Q b

theorem Precedes.nil {P Q : α → Prop} : Precedes ([] : List α) P Q := by
  intro before a after hsplit
  simp at hsplit

/-- What every process does first, is done first in every interleaving. -/
theorem Precedes.of_own [DecidableEq ι] {history : List (ι × α)} {P Q : α → Prop}
    (h : ∀ p, Precedes (own p history) P Q) : Precedes (history.map Prod.snd) P Q := by
  intro before a after hsplit hP
  obtain ⟨xs, ys, rfl, rfl, hys⟩ := List.map_eq_append_iff.mp hsplit
  obtain ⟨⟨p, b⟩, zs, rfl, rfl, -⟩ := List.map_eq_cons_iff.mp hys
  obtain ⟨c, hc, hQ⟩ := h p (own p xs) b (own p zs) (own_split xs zs) hP
  exact ⟨c, List.mem_map.mpr ⟨(p, c), mem_own.mp hc, rfl⟩, hQ⟩

theorem Precedes.append {xs ys : List α} {P Q : α → Prop} (hxs : Precedes xs P Q)
    (hys : Precedes ys P Q) : Precedes (xs ++ ys) P Q := by
  intro before a after hsplit ha
  rcases List.append_eq_append_iff.mp hsplit with ⟨between, rfl, hrest⟩ | ⟨between, rfl, hrest⟩
  · obtain ⟨b, hb, hQ⟩ := hys between a after hrest ha
    exact ⟨b, List.mem_append_right _ hb, hQ⟩
  · cases between with
    | nil =>
      obtain ⟨b, hb, hQ⟩ := hys [] a after hrest.symm ha
      cases hb
    | cons c between =>
      obtain ⟨rfl, rfl⟩ := List.cons.inj hrest
      exact hxs before a between rfl ha

theorem Precedes.append_of_mem {xs ys : List α} {P Q : α → Prop} (hxs : Precedes xs P Q)
    (hys : ∀ a ∈ ys, P a → ∃ b ∈ xs, Q b) : Precedes (xs ++ ys) P Q := by
  intro before a after hsplit ha
  rcases List.append_eq_append_iff.mp hsplit with ⟨between, rfl, hrest⟩ | ⟨between, rfl, hrest⟩
  · obtain ⟨b, hb, hQ⟩ := hys a (hrest ▸ List.mem_append_right _ List.mem_cons_self) ha
    exact ⟨b, List.mem_append_left _ hb, hQ⟩
  · cases between with
    | nil =>
      obtain rfl : a :: after = ys := hrest
      obtain ⟨b, hb, hQ⟩ := hys a List.mem_cons_self ha
      exact ⟨b, by simpa using hb, hQ⟩
    | cons c between =>
      obtain ⟨rfl, rfl⟩ := List.cons.inj hrest
      exact hxs before a between rfl ha

theorem Precedes.of_append {xs ys : List α} {P Q : α → Prop} (h : Precedes (xs ++ ys) P Q) :
    Precedes xs P Q := by
  intro before a after hsplit ha
  exact h before a (after ++ ys) (by rw [hsplit, List.append_assoc, List.cons_append]) ha

theorem Precedes.of_filter {keep : α → Bool} {xs : List α} {P Q : α → Prop}
    (h : Precedes (xs.filter keep) P Q) (hkeep : ∀ a, P a → keep a = true) : Precedes xs P Q := by
  rintro before a after rfl ha
  rw [List.filter_append, List.filter_cons_of_pos (hkeep a ha)] at h
  obtain ⟨b, hb, hQ⟩ := h _ a _ rfl ha
  exact ⟨b, (List.mem_filter.mp hb).1, hQ⟩

theorem Precedes.replicate {block : List α} {P Q : α → Prop} (h : Precedes block P Q) (n : ℕ) :
    Precedes (List.replicate n block).flatten P Q := by
  induction n with
  | zero => exact Precedes.nil
  | succ n ih =>
    rw [List.replicate_succ, List.flatten_cons]
    exact h.append ih

/-- Where a sequence has an element of one kind, it has one of the other afterwards. -/
def Succeeds (xs : List α) (P Q : α → Prop) : Prop :=
  ∀ before a after, xs = before ++ a :: after → P a → ∃ b ∈ after, Q b

theorem Succeeds.nil {P Q : α → Prop} : Succeeds ([] : List α) P Q := by
  intro before a after hsplit
  simp at hsplit

/-- What every process does afterwards, is done afterwards in every interleaving. -/
theorem Succeeds.of_own [DecidableEq ι] {history : List (ι × α)} {P Q : α → Prop}
    (h : ∀ p, Succeeds (own p history) P Q) : Succeeds (history.map Prod.snd) P Q := by
  intro before a after hsplit hP
  obtain ⟨xs, ys, rfl, rfl, hys⟩ := List.map_eq_append_iff.mp hsplit
  obtain ⟨⟨p, b⟩, zs, rfl, rfl, rfl⟩ := List.map_eq_cons_iff.mp hys
  obtain ⟨c, hc, hQ⟩ := h p (own p xs) b (own p zs) (own_split xs zs) hP
  exact ⟨c, List.mem_map.mpr ⟨(p, c), mem_own.mp hc, rfl⟩, hQ⟩

theorem Succeeds.append {xs ys : List α} {P Q : α → Prop} (hxs : Succeeds xs P Q)
    (hys : Succeeds ys P Q) : Succeeds (xs ++ ys) P Q := by
  intro before a after hsplit ha
  rcases List.append_eq_append_iff.mp hsplit with ⟨between, rfl, hrest⟩ | ⟨between, rfl, hrest⟩
  · exact hys between a after hrest ha
  · cases between with
    | nil => exact hys [] a after hrest.symm ha
    | cons c between =>
      obtain ⟨rfl, rfl⟩ := List.cons.inj hrest
      obtain ⟨b, hb, hQ⟩ := hxs before a between rfl ha
      exact ⟨b, List.mem_append_left _ hb, hQ⟩

theorem Succeeds.of_none {xs : List α} {P Q : α → Prop} (h : ∀ a ∈ xs, ¬ P a) : Succeeds xs P Q := by
  intro before a after hsplit ha
  exact (h a (hsplit ▸ List.mem_append_right _ List.mem_cons_self) ha).elim

theorem Succeeds.concat {xs : List α} {b : α} {P Q : α → Prop} (hb : ¬ P b)
    (h : ∀ a ∈ xs, P a → Q b) : Succeeds (xs ++ [b]) P Q := by
  intro before a after hsplit ha
  rcases List.append_eq_append_iff.mp hsplit with ⟨between, rfl, hrest⟩ | ⟨between, rfl, hrest⟩
  · cases between with
    | nil =>
      obtain ⟨rfl, -⟩ := List.cons.inj hrest
      exact (hb ha).elim
    | cons c between =>
      obtain ⟨-, hnil⟩ := List.cons.inj hrest
      simp at hnil
  · cases between with
    | nil =>
      obtain ⟨rfl, -⟩ := List.cons.inj hrest
      exact (hb ha).elim
    | cons c between =>
      obtain ⟨rfl, rfl⟩ := List.cons.inj hrest
      refine ⟨b, List.mem_append_right _ (List.mem_singleton.mpr rfl), h a ?_ ha⟩
      exact List.mem_append_right _ List.mem_cons_self

/-- What some elements bring about, and only elements undo that have one of them after, holds in the end. -/
theorem Succeeds.foldl {σ : Type*} {f : σ → α → σ} {xs : List α} {P Q : α → Prop} {Holds : σ → Prop}
    (h : Succeeds xs P Q) (hsets : ∀ a ∈ xs, Q a → ∀ s, Holds (f s a))
    (hkeeps : ∀ a ∈ xs, ¬ P a → ∀ s, Holds s → Holds (f s a)) (hex : ∃ a ∈ xs, Q a) (s : σ) :
    Holds (xs.foldl f s) := by
  induction xs using List.reverseRecOn with
  | nil =>
    obtain ⟨a, ha, -⟩ := hex
    cases ha
  | append_singleton xs b ih =>
    rw [List.foldl_append, List.foldl_cons, List.foldl_nil]
    have hlast : b ∈ xs ++ [b] := List.mem_append_right _ (List.mem_singleton.mpr rfl)
    by_cases hb : Q b
    · exact hsets b hlast hb _
    have hearlier {a : α} (ha : a ∈ xs ++ [b]) (hQ : Q a) : a ∈ xs := by
      rcases List.mem_append.mp ha with hmem | heq
      · exact hmem
      · rw [List.mem_singleton.mp heq] at hQ
        exact (hb hQ).elim
    have hnot : ¬ P b := by
      intro hP
      obtain ⟨a, ha, -⟩ := h xs b [] rfl hP
      cases ha
    refine hkeeps b hlast hnot _ (ih ?_ ?_ ?_ ?_)
    · intro before a after hsplit ha
      obtain ⟨c, hc, hQ⟩ := h before a (after ++ [b]) (by rw [hsplit, List.append_assoc, List.cons_append]) ha
      rcases List.mem_append.mp hc with hmem | heq
      · exact ⟨c, hmem, hQ⟩
      · rw [List.mem_singleton.mp heq] at hQ
        exact (hb hQ).elim
    · exact fun a ha ↦ hsets a (List.mem_append_left _ ha)
    · exact fun a ha ↦ hkeeps a (List.mem_append_left _ ha)
    · obtain ⟨a, ha, hQ⟩ := hex
      exact ⟨a, hearlier ha hQ, hQ⟩

end Interleaving
