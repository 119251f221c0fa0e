import Burst.Lib.Tiling

namespace Tiling

variable {ι σ ω : Type*} {len : ι → ℕ}

/-- Reading tiles one after another, with what each of them gives. -/
inductive Run (len : ι → ℕ) (step : ℕ → σ → ι → List ω → σ → Prop) :
    ℕ → σ → List ι → List ω → σ → Prop where
  | nil (pos : ℕ) (s : σ) : Run len step pos s [] [] s
  | cons {pos : ℕ} {s t u : σ} {i : ι} {is : List ι} {out outs : List ω} :
    step pos s i out t → Run len step (pos + len i) t is outs u →
      Run len step pos s (i :: is) (out ++ outs) u

namespace Run

variable {step : ℕ → σ → ι → List ω → σ → Prop} {pos : ℕ} {s t u : σ} {is js : List ι}
  {out out' : List ω}

theorem one {i : ι} (h : step pos s i out t) : Run len step pos s [i] out t := by
  have hone := Run.cons h (.nil (pos + len i) t)
  rwa [List.append_nil] at hone

theorem append (h : Run len step pos s is out t)
    (h' : Run len step (pos + total len is) t js out' u) :
    Run len step pos s (is ++ js) (out ++ out') u := by
  induction h with
  | nil pos s => simpa using h'
  | cons hstep _ ih =>
    rw [total_cons, ← Nat.add_assoc] at h'
    rw [List.cons_append, List.append_assoc]
    exact .cons hstep (ih h')

theorem split (h : Run len step pos s (is ++ js) out u) : ∃ t left right, out = left ++ right ∧
    Run len step pos s is left t ∧ Run len step (pos + total len is) t js right u := by
  induction is generalizing pos s out with
  | nil => exact ⟨s, [], out, rfl, .nil pos s, by simpa using h⟩
  | cons i is ih =>
    cases h with
    | cons hstep htail =>
      obtain ⟨t, left, right, rfl, hleft, hright⟩ := ih htail
      refine ⟨t, _, right, (List.append_assoc _ _ _).symm, .cons hstep hleft, ?_⟩
      rwa [total_cons, ← Nat.add_assoc]

/-- What every step keeps. -/
theorem invariant {Inv : ℕ → σ → Prop}
    (hstep : ∀ {pos s i out t}, Inv pos s → step pos s i out t → Inv (pos + len i) t)
    (h : Run len step pos s is out t) (hs : Inv pos s) : Inv (pos + total len is) t := by
  induction h with
  | nil pos s => exact hs
  | cons hfirst _ ih =>
    rw [total_cons, ← Nat.add_assoc]
    exact ih (hstep hs hfirst)

/-- Reading segments one after another. -/
theorem segments {segs : ℕ → List ι} {n : ℕ}
    (h : Run len step pos s ((List.range n).flatMap segs) out t) :
    ∃ (states : ℕ → σ) (outs : ℕ → List ω), states 0 = s ∧ states n = t ∧
      out = (List.range n).flatMap outs ∧ ∀ k < n,
        Run len step (pos + total len ((List.range k).flatMap segs)) (states k) (segs k) (outs k)
          (states (k + 1)) := by
  induction n generalizing t out with
  | zero =>
    cases h
    exact ⟨fun _ ↦ s, fun _ ↦ [], rfl, rfl, rfl, fun k hk ↦ absurd hk (Nat.not_lt_zero k)⟩
  | succ n ih =>
    rw [List.range_succ, List.flatMap_append] at h
    obtain ⟨u, left, right, rfl, hleft, hright⟩ := h.split
    rw [List.flatMap_singleton] at hright
    obtain ⟨states, outs, hstart, hend, rfl, hruns⟩ := ih hleft
    have hstates {k : ℕ} (hk : k ≤ n) : Function.update states (n + 1) t k = states k :=
      Function.update_of_ne (by omega) t states
    have houts {k : ℕ} (hk : k < n) : Function.update outs n right k = outs k :=
      @Function.update_of_ne ℕ (fun _ ↦ List ω) _ k n (by omega) right outs
    refine ⟨Function.update states (n + 1) t, Function.update outs n right, ?_, ?_, ?_, ?_⟩
    · rw [hstates (Nat.zero_le n), hstart]
    · exact Function.update_self (n + 1) t states
    · rw [List.range_succ, List.flatMap_append, List.flatMap_singleton, Function.update_self]
      congr 1
      apply List.flatMap_congr
      intro k hk
      rw [houts (List.mem_range.mp hk)]
    · intro k hk
      rcases Nat.lt_or_ge k n with hlt | hge
      · rw [hstates hlt.le, hstates hlt, houts hlt]
        exact hruns k hlt
      · obtain rfl : k = n := by omega
        rw [hstates le_rfl, Function.update_self, Function.update_self, hend]
        exact hright

/-- Segments read one after another are read together. -/
theorem compose {segs : ℕ → List ι} {states : ℕ → σ} {outs : ℕ → List ω} {n : ℕ}
    (h : ∀ k < n, Run len step (pos + total len ((List.range k).flatMap segs)) (states k) (segs k) (outs k)
      (states (k + 1))) {a b : ℕ} (hab : a ≤ b) (hb : b ≤ n) :
    Run len step (pos + total len ((List.range a).flatMap segs)) (states a)
      ((List.range' a (b - a)).flatMap segs) ((List.range' a (b - a)).flatMap outs) (states b) := by
  induction b, hab using Nat.le_induction with
  | base =>
    rw [Nat.sub_self]
    exact .nil _ _
  | succ b hab ih =>
    have hrange : List.range' a (b + 1 - a) = List.range' a (b - a) ++ [b] := by
      rw [Nat.succ_sub hab, List.range'_1_concat, Nat.add_sub_cancel' hab]
    have hsplit : List.range b = List.range a ++ List.range' a (b - a) := by
      have happend := @List.range'_append_1 0 a (b - a)
      rw [Nat.zero_add, Nat.add_sub_cancel' hab] at happend
      rw [List.range_eq_range', List.range_eq_range', happend]
    have hnext := h b (by omega)
    rw [hsplit, List.flatMap_append, total_append, ← Nat.add_assoc] at hnext
    rw [hrange, List.flatMap_append, List.flatMap_append, List.flatMap_singleton, List.flatMap_singleton]
    exact (ih (by omega)).append hnext

end Run

/-- Tiles are cut at a position in one way only. -/
theorem split_unique {before after xs ys : List ι} {i : ι} (h : before ++ i :: after = xs ++ ys)
    (hlen : ∀ j ∈ xs ++ ys, 0 < len j) (htotal : total len before = total len xs) : ys = i :: after := by
  rcases List.append_eq_append_iff.mp h with ⟨zs, rfl, hrest⟩ | ⟨zs, rfl, hrest⟩
  · cases zs with
    | nil => exact hrest.symm
    | cons j zs =>
      have hpos := hlen j (by simp)
      rw [total_append, total_cons] at htotal
      omega
  · cases zs with
    | nil => exact hrest
    | cons j zs =>
      have hpos := hlen j (by simp [hrest])
      rw [total_append, total_cons] at htotal
      omega

/-- Tiles that avoid straddling fall into segments at the multiples of a multiple of the unit. -/
theorem Aligned.segments {unit m : ℕ} {P : ι → Prop} {is : List ι} (h : Aligned len unit P 0 is)
    (n : ℕ) : ∃ segs : ℕ → List ι, is = (List.range (n + 1)).flatMap segs ∧
      ∀ k ≤ n, total len ((List.range k).flatMap segs) = min (k * (m * unit)) (total len is) := by
  induction n generalizing is with
  | zero =>
    refine ⟨fun _ ↦ is, by simp, fun k hk ↦ ?_⟩
    obtain rfl := Nat.le_zero.mp hk
    simp
  | succ n ih =>
    rcases Nat.le_total ((n + 1) * (m * unit)) (total len is) with hle | hge
    · rw [← Nat.mul_assoc] at hle
      obtain ⟨before, after, rfl, hcut⟩ := h.split (Nat.zero_le _) (by rwa [Nat.zero_add])
      rw [Nat.zero_add, Nat.mul_assoc] at hcut
      obtain ⟨segs, hsegs, hstarts⟩ := ih (aligned_append.mp h).1
      have hsame {k : ℕ} (hk : k ≤ n + 1) :
          (List.range k).flatMap (Function.update segs (n + 1) after) = (List.range k).flatMap segs := by
        apply List.flatMap_congr
        intro j hj
        rw [Function.update_of_ne]
        have := List.mem_range.mp hj
        omega
      refine ⟨Function.update segs (n + 1) after, ?_, fun k hk ↦ ?_⟩
      · rw [List.range_succ, List.flatMap_append, List.flatMap_singleton, Function.update_self,
          hsame le_rfl, ← hsegs]
      · rw [hsame hk]
        rcases Nat.lt_or_ge n k with hlast | hearlier
        · obtain rfl : k = n + 1 := by omega
          rw [← hsegs, total_append, hcut]
          omega
        · have hmul := Nat.mul_le_mul_right (m * unit) (show k ≤ n + 1 by omega)
          rw [hstarts k hearlier, total_append, hcut]
          omega
    · obtain ⟨segs, hsegs, hstarts⟩ := ih h
      have hsame {k : ℕ} (hk : k ≤ n + 1) :
          (List.range k).flatMap (Function.update segs (n + 1) []) = (List.range k).flatMap segs := by
        apply List.flatMap_congr
        intro j hj
        rw [Function.update_of_ne]
        have := List.mem_range.mp hj
        omega
      refine ⟨Function.update segs (n + 1) [], ?_, fun k hk ↦ ?_⟩
      · rw [List.range_succ, List.flatMap_append, List.flatMap_singleton, Function.update_self,
          hsame le_rfl, ← hsegs, List.append_nil]
      · rw [hsame hk]
        rcases Nat.lt_or_ge n k with hlast | hearlier
        · obtain rfl : k = n + 1 := by omega
          rw [← hsegs]
          omega
        · exact hstarts k hearlier

end Tiling
