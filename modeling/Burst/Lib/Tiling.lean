import Mathlib.Tactic.Linarith
import Mathlib.Tactic.Ring
import Mathlib.Data.List.Basic
import Mathlib.Algebra.BigOperators.Group.List.Basic

namespace Tiling

variable {ι : Type*} (len : ι → ℕ)

def total (is : List ι) : ℕ := (is.map len).sum

@[simp] theorem total_nil : total len [] = 0 := rfl

@[simp] theorem total_cons (i : ι) (is : List ι) : total len (i :: is) = len i + total len is := by
  simp [total]

@[simp] theorem total_append (is js : List ι) :
    total len (is ++ js) = total len is + total len js := by simp [total]

theorem length_flatMap {α : Type*} (bytes : ι → List α) (is : List ι) :
    (is.flatMap bytes).length = total (fun i ↦ (bytes i).length) is := by
  induction is with
  | nil => rfl
  | cons i is ih => simp [ih]

/-- A stretch of `n` cells from `pos` has a multiple of the unit strictly inside it. -/
def Straddles (unit pos n : ℕ) : Prop := ∃ k, pos < k * unit ∧ k * unit < pos + n

theorem not_straddles_of_le {unit pos n : ℕ}
    (h : pos % unit + n ≤ unit) : ¬ Straddles unit pos n := by
  rintro ⟨k, hlo, hhi⟩
  have hp := Nat.div_add_mod pos unit
  have hk : pos / unit < k := by
    by_contra! hc
    have := Nat.mul_le_mul_right unit hc
    rw [Nat.mul_comm (pos / unit)] at this
    omega
  have hm := Nat.mul_le_mul_right unit hk
  rw [Nat.succ_mul, Nat.mul_comm (pos / unit)] at hm
  omega

/-- No tile straddles a multiple of the unit, and a tile that starts on one satisfies `P`. -/
def Aligned (unit : ℕ) (P : ι → Prop) : ℕ → List ι → Prop
  | _, [] => True
  | pos, i :: is => ¬ Straddles unit pos (len i) ∧ (unit ∣ pos → P i) ∧
      Aligned unit P (pos + len i) is

/-- The tiles with the positions they start at. -/
def starts : ℕ → List ι → List (ℕ × ι)
  | _, [] => []
  | pos, i :: is => (pos, i) :: starts (pos + len i) is

@[simp] theorem starts_append (pos : ℕ) (is js : List ι) :
    starts len pos (is ++ js) = starts len pos is ++ starts len (pos + total len is) js := by
  induction is generalizing pos with
  | nil => simp [starts]
  | cons i is ih => simp [starts, ih, Nat.add_assoc]

variable {len} {unit : ℕ} {P : ι → Prop}

theorem mem_starts {pos p : ℕ} {i : ι} {is : List ι} : (p, i) ∈ starts len pos is ↔
    ∃ before after, is = before ++ i :: after ∧ p = pos + total len before := by
  induction is generalizing pos with
  | nil => simp [starts]
  | cons j is ih =>
    rw [starts, List.mem_cons, ih]
    constructor
    · rintro (h | ⟨before, after, rfl, rfl⟩)
      · obtain ⟨rfl, rfl⟩ := Prod.mk.inj h
        exact ⟨[], is, rfl, rfl⟩
      · exact ⟨j :: before, after, rfl, by rw [total_cons, Nat.add_assoc]⟩
    · rintro ⟨before, after, he, rfl⟩
      cases before with
      | nil =>
        obtain ⟨rfl, rfl⟩ := List.cons.inj he
        exact .inl rfl
      | cons k before =>
        obtain ⟨rfl, rfl⟩ := List.cons.inj he
        exact .inr ⟨before, after, rfl, by rw [total_cons, Nat.add_assoc]⟩

theorem aligned_append {pos : ℕ} {is js : List ι} :
    Aligned len unit P pos (is ++ js) ↔
      Aligned len unit P pos is ∧ Aligned len unit P (pos + total len is) js := by
  induction is generalizing pos with
  | nil => simp [Aligned]
  | cons i is ih => simp [Aligned, ih, Nat.add_assoc, and_assoc]

theorem Aligned.not_straddles {pos : ℕ} {is : List ι} (h : Aligned len unit P pos is)
    {before after : List ι} {i : ι} (he : is = before ++ i :: after) :
    ¬ Straddles unit (pos + total len before) (len i) := by
  rw [he, aligned_append] at h
  exact h.2.1

/-- Every multiple of the unit below the end of the tiles is the start of one of them. -/
theorem Aligned.cut {pos k : ℕ} {is : List ι} (h : Aligned len unit P pos is)
    (hlo : pos ≤ k * unit) (hhi : k * unit < pos + total len is) :
    ∃ before i after, is = before ++ i :: after ∧ pos + total len before = k * unit ∧ P i := by
  induction is generalizing pos with
  | nil => simp at hhi; omega
  | cons i is ih =>
    obtain ⟨hs, hp, htail⟩ := h
    by_cases he : pos = k * unit
    · exact ⟨[], i, is, rfl, by simpa using he, hp (he ▸ Dvd.intro_left k rfl)⟩
    · have hend : pos + len i ≤ k * unit := by
        by_contra! hc
        exact hs ⟨k, by omega, hc⟩
      rw [total_cons, ← Nat.add_assoc] at hhi
      obtain ⟨before, j, after, rfl, hpos, hj⟩ := ih htail hend hhi
      exact ⟨i :: before, j, after, rfl, by rw [total_cons, ← Nat.add_assoc]; exact hpos, hj⟩

/-- Tiles that avoid straddling can be cut at any multiple of the unit up to their end. -/
theorem Aligned.split {pos k : ℕ} {is : List ι} (h : Aligned len unit P pos is)
    (hlo : pos ≤ k * unit) (hhi : k * unit ≤ pos + total len is) :
    ∃ before after, is = before ++ after ∧ pos + total len before = k * unit := by
  rcases hhi.lt_or_eq with hlt | heq
  · obtain ⟨before, i, after, he, hpos, -⟩ := h.cut hlo hlt
    exact ⟨before, i :: after, he, hpos⟩
  · exact ⟨is, [], by simp, heq.symm⟩

/-- Reading the tiles from a position on, one after another. -/
inductive Walk {σ : Type*} (len : ι → ℕ) (step : ℕ → σ → ι → σ → Prop) :
    ℕ → σ → List ι → σ → Prop where
  | nil (pos : ℕ) (s : σ) : Walk len step pos s [] s
  | cons {pos : ℕ} {s s' t : σ} {i : ι} {is : List ι} :
    step pos s i s' → Walk len step (pos + len i) s' is t → Walk len step pos s (i :: is) t

namespace Walk

variable {σ : Type*} {step : ℕ → σ → ι → σ → Prop}

theorem append {pos : ℕ} {s t u : σ} {is js : List ι} (h : Walk len step pos s is t)
    (h' : Walk len step (pos + total len is) t js u) : Walk len step pos s (is ++ js) u := by
  induction h with
  | nil pos s => simpa using h'
  | cons hstep _ ih =>
    rw [total_cons, ← Nat.add_assoc] at h'
    exact .cons hstep (ih h')

theorem split {pos : ℕ} {s u : σ} {is js : List ι} (h : Walk len step pos s (is ++ js) u) :
    ∃ t, Walk len step pos s is t ∧ Walk len step (pos + total len is) t js u := by
  induction is generalizing pos s with
  | nil => exact ⟨s, .nil pos s, by simpa using h⟩
  | cons i is ih =>
    cases h with
    | cons hstep htail =>
      obtain ⟨t, hleft, hright⟩ := ih htail
      refine ⟨t, .cons hstep hleft, ?_⟩
      rwa [total_cons, ← Nat.add_assoc]

end Walk

end Tiling

namespace Pieces

variable {α : Type*}

/-- Cut a list into pieces of `n` elements, the last one possibly shorter. -/
def cutAux (n : ℕ) : ℕ → List α → List (List α)
  | 0, _ => []
  | fuel + 1, xs => if xs.isEmpty then [] else xs.take n :: cutAux n fuel (xs.drop n)

def cut (n : ℕ) (xs : List α) : List (List α) := cutAux n xs.length xs

theorem cutAux_flatten {n : ℕ} (hn : 0 < n) (fuel : ℕ) (xs : List α) (h : xs.length ≤ fuel) :
    (cutAux n fuel xs).flatten = xs := by
  induction fuel generalizing xs with
  | zero => simpa [cutAux] using (List.eq_nil_of_length_eq_zero (by omega)).symm
  | succ fuel ih =>
    rw [cutAux]
    split
    · next he => simpa using (List.isEmpty_iff.mp he).symm
    · next he =>
      have hx : xs.length ≠ 0 := fun h0 ↦ he (List.isEmpty_iff.mpr (List.eq_nil_of_length_eq_zero h0))
      rw [List.flatten_cons, ih _ (by rw [List.length_drop]; omega), List.take_append_drop]

theorem cut_flatten {n : ℕ} (hn : 0 < n) (xs : List α) : (cut n xs).flatten = xs :=
  cutAux_flatten hn _ _ le_rfl

theorem cutAux_length {n : ℕ} (hn : 0 < n) {fuel : ℕ} {xs : List α} {p : List α}
    (h : p ∈ cutAux n fuel xs) : 0 < p.length ∧ p.length ≤ n := by
  induction fuel generalizing xs with
  | zero => simp [cutAux] at h
  | succ fuel ih =>
    rw [cutAux] at h
    split at h
    · simp at h
    · next he =>
      rcases List.mem_cons.mp h with rfl | h
      · have hx : xs.length ≠ 0 := fun h0 ↦
          he (List.isEmpty_iff.mpr (List.eq_nil_of_length_eq_zero h0))
        rw [List.length_take]
        omega
      · exact ih h

theorem cut_length {n : ℕ} (hn : 0 < n) {xs p : List α} (h : p ∈ cut n xs) :
    0 < p.length ∧ p.length ≤ n := cutAux_length hn h

/-- Only the last piece is short. -/
theorem cutAux_map_length {n : ℕ} (hn : 0 < n) (fuel : ℕ) (xs : List α) (h : xs.length ≤ fuel) :
    (cutAux n fuel xs).map List.length =
      List.replicate (xs.length / n) n ++ if xs.length % n = 0 then [] else [xs.length % n] := by
  induction fuel generalizing xs with
  | zero => simp [cutAux, List.eq_nil_of_length_eq_zero (show xs.length = 0 by omega)]
  | succ fuel ih =>
    rw [cutAux]
    split
    · next he => simp [List.isEmpty_iff.mp he]
    · next he =>
      have hx : xs.length ≠ 0 := fun h0 ↦ he (List.isEmpty_iff.mpr (List.eq_nil_of_length_eq_zero h0))
      rw [List.map_cons, ih _ (by rw [List.length_drop]; omega), List.length_take, List.length_drop]
      by_cases hlt : n ≤ xs.length
      · have hdiv : xs.length / n = (xs.length - n) / n + 1 := by
          rw [Nat.div_eq_sub_div hn hlt]
        rw [Nat.min_eq_left hlt, hdiv, List.replicate_succ, List.cons_append,
          ← Nat.mod_eq_sub_mod hlt]
      · have hlt : xs.length < n := by omega
        rw [Nat.min_eq_right hlt.le, Nat.sub_eq_zero_of_le hlt.le, Nat.zero_div, Nat.zero_mod,
          Nat.div_eq_of_lt hlt, Nat.mod_eq_of_lt hlt]
        simp [hx]

theorem cut_map_length {n : ℕ} (hn : 0 < n) (xs : List α) :
    (cut n xs).map List.length =
      List.replicate (xs.length / n) n ++ if xs.length % n = 0 then [] else [xs.length % n] :=
  cutAux_map_length hn _ _ le_rfl

end Pieces
