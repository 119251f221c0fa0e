import Mathlib.Data.List.Basic
import Mathlib.Data.List.Chain
import Mathlib.Tactic.Common

namespace Slices

variable {α : Type*}

/-- The elements from `lo` up to but not including `hi`. -/
def slice (xs : List α) (lo hi : ℕ) : List α := (xs.drop lo).take (hi - lo)

/-- A copy of `src` over the elements from an offset on. -/
def overwrite (dst : List α) (off : ℕ) (src : List α) : List α :=
  dst.take off ++ src ++ dst.drop (off + src.length)

theorem slice_length {xs : List α} {hi : ℕ} (h : hi ≤ xs.length) (lo : ℕ) :
    (slice xs lo hi).length = hi - lo := by
  rw [slice, List.length_take, List.length_drop]
  omega

theorem slice_of_ge (xs : List α) {lo hi : ℕ} (h : hi ≤ lo) : slice xs lo hi = [] := by
  rw [slice, Nat.sub_eq_zero_of_le h, List.take_zero]

theorem slice_append (xs : List α) {lo mid hi : ℕ} (h : lo ≤ mid) (h' : mid ≤ hi) :
    slice xs lo mid ++ slice xs mid hi = slice xs lo hi := by
  have hsplit : hi - lo = (mid - lo) + (hi - mid) := by omega
  have hdrop : xs.drop mid = (xs.drop lo).drop (mid - lo) := by
    rw [List.drop_drop, Nat.add_sub_cancel' h]
  rw [slice, slice, slice, hsplit, List.take_add, hdrop]

theorem slice_zero_append {xs : List α} (ys : List α) {hi : ℕ} (h : xs.length ≤ hi) :
    slice (xs ++ ys) 0 hi = xs ++ slice ys 0 (hi - xs.length) := by
  rw [slice, slice, List.drop_zero, List.drop_zero, Nat.sub_zero, Nat.sub_zero, List.take_append,
    List.take_of_length_le h]

theorem slice_slice (xs : List α) {lo hi a b : ℕ} (h : lo + b ≤ hi) :
    slice (slice xs lo hi) a b = slice xs (lo + a) (lo + b) := by
  rw [slice, slice, slice, List.drop_take, List.take_take, List.drop_drop]
  congr 1
  omega

theorem slice_drop (xs : List α) (start : ℕ) {lo hi : ℕ} (h : start ≤ lo) :
    slice (xs.drop start) (lo - start) (hi - start) = slice xs lo hi := by
  rw [slice, slice, List.drop_drop, Nat.add_sub_cancel' h]
  congr 1
  omega

theorem slice_zero_length {xs : List α} {hi : ℕ} (h : xs.length ≤ hi) (lo : ℕ) :
    slice xs lo hi = xs.drop lo := by
  rw [slice, List.take_of_length_le]
  rw [List.length_drop]
  omega

theorem overwrite_after (pre rest src : List α) :
    overwrite (pre ++ rest) pre.length src = pre ++ src ++ rest.drop src.length := by
  rw [overwrite, List.take_left' rfl, ← List.drop_drop, List.drop_left' rfl]

theorem overwrite_length {dst src : List α} {off : ℕ} (h : off + src.length ≤ dst.length) :
    (overwrite dst off src).length = dst.length := by
  simp only [overwrite, List.length_append, List.length_take, List.length_drop]
  omega

theorem slice_getElem? (xs : List α) {lo hi i : ℕ} (h : i < hi - lo) :
    (slice xs lo hi)[i]? = xs[lo + i]? := by
  rw [slice, List.getElem?_take_of_lt h, List.getElem?_drop]

/-- A copy shows where it was made, and nowhere else. -/
theorem overwrite_getElem? {dst src : List α} {off : ℕ} (h : off + src.length ≤ dst.length)
    (i : ℕ) : (overwrite dst off src)[i]? =
      if off ≤ i ∧ i < off + src.length then src[i - off]? else dst[i]? := by
  have hpre : (dst.take off).length = off := List.length_take_of_le (by omega)
  rw [overwrite, List.append_assoc]
  rcases Nat.lt_or_ge i off with hbefore | hfrom
  · rw [if_neg (by omega), List.getElem?_append_left (by omega), List.getElem?_take_of_lt hbefore]
  · rw [List.getElem?_append_right (by omega), hpre]
    rcases Nat.lt_or_ge i (off + src.length) with hin | hafter
    · rw [if_pos ⟨hfrom, hin⟩, List.getElem?_append_left (by omega)]
    · rw [if_neg (by omega), List.getElem?_append_right (by omega), List.getElem?_drop]
      congr 1
      omega

end Slices

namespace Intervals

variable {ι : Type*} (first last : ι → ℕ)

/-- Closed intervals that follow one another without a gap, from `lo` up to but not including
`hi`. -/
def Contiguous : ℕ → ℕ → List ι → Prop
  | lo, hi, [] => lo = hi
  | lo, hi, i :: is => first i = lo ∧ first i ≤ last i ∧ Contiguous (last i + 1) hi is

variable {first last} {lo hi : ℕ} {is : List ι}

theorem Contiguous.le (h : Contiguous first last lo hi is) : lo ≤ hi := by
  induction is generalizing lo with
  | nil => exact h.le
  | cons i is ih =>
    obtain ⟨rfl, hle, hrest⟩ := h
    have := ih hrest
    omega

theorem Contiguous.first_ge (h : Contiguous first last lo hi is) {i : ι} (hmem : i ∈ is) :
    lo ≤ first i := by
  induction is generalizing lo with
  | nil => cases hmem
  | cons j is ih =>
    obtain ⟨rfl, hle, hrest⟩ := h
    rcases List.mem_cons.mp hmem with rfl | hmem
    · exact le_rfl
    · have := ih hrest hmem
      omega

theorem Contiguous.pairwise (h : Contiguous first last lo hi is) :
    is.Pairwise fun i j ↦ last i < first j := by
  induction is generalizing lo with
  | nil => exact List.Pairwise.nil
  | cons i is ih =>
    obtain ⟨rfl, hle, hrest⟩ := h
    refine List.pairwise_cons.mpr ⟨fun j hj ↦ ?_, ih hrest⟩
    have := hrest.first_ge hj
    omega

theorem Contiguous.isChain (h : Contiguous first last lo hi is) :
    is.IsChain fun i j ↦ first j = last i + 1 := by
  induction is generalizing lo with
  | nil => exact List.IsChain.nil
  | cons i is ih =>
    obtain ⟨rfl, hle, hrest⟩ := h
    cases is with
    | nil => exact List.IsChain.singleton _
    | cons j is => exact List.isChain_cons_cons.mpr ⟨hrest.1, ih hrest⟩

theorem Contiguous.covers (h : Contiguous first last lo hi is) (x : ℕ) :
    (∃ i ∈ is, first i ≤ x ∧ x ≤ last i) ↔ lo ≤ x ∧ x < hi := by
  induction is generalizing lo with
  | nil =>
    have h : lo = hi := h
    simp only [List.not_mem_nil, false_and, exists_false, false_iff]
    omega
  | cons i is ih =>
    obtain ⟨rfl, hle, hrest⟩ := h
    have hlt := hrest.le
    rw [List.exists_mem_cons_iff, ih hrest]
    omega

end Intervals
