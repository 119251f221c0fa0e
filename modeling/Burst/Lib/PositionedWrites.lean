import Burst.Lib.Slices

namespace PositionedWrites

open Slices

variable {α : Type*}

/-- What holds after one element of a list whatever was before, and is kept by all of them, holds in
the end. -/
theorem foldl_of_mem {σ β : Type*} {f : σ → β → σ} {P : σ → Prop} {bs : List β}
    (hkeep : ∀ b ∈ bs, ∀ s, P s → P (f s b)) {b : β} (hb : b ∈ bs) (hset : ∀ s, P (f s b)) (s : σ) :
    P (bs.foldl f s) := by
  induction bs generalizing s with
  | nil => cases hb
  | cons c bs ih =>
    have hkeeps (s : σ) (hs : P s) : P (bs.foldl f s) := by
      apply List.foldlRecOn bs f hs
      intro t ht d hd
      exact hkeep d (List.mem_cons_of_mem c hd) t ht
    rcases List.mem_cons.mp hb with rfl | hb
    · exact hkeeps _ (hset s)
    · exact ih (fun d hd ↦ hkeep d (List.mem_cons_of_mem c hd)) hb (f s c)

/-- A list cut to a length, or filled up to it. -/
def resize (fill : α) (xs : List α) (n : ℕ) : List α := xs.take n ++ List.replicate (n - xs.length) fill

/-- A copy of `data` from an offset on, with what is missing before it filled up. -/
def writeAt (fill : α) (xs : List α) (offset : ℕ) (data : List α) : List α :=
  if data.isEmpty then xs else overwrite (resize fill xs (max offset xs.length)) offset data

inductive Edit (α : Type*) where
  | write (offset : ℕ) (data : List α)
  | resize (n : ℕ)

def Edit.apply (fill : α) (xs : List α) : Edit α → List α
  | write offset data => writeAt fill xs offset data
  | resize n => PositionedWrites.resize fill xs n

/-- What the edit writes is what the content has there. -/
def Edit.Fits (content : List α) : Edit α → Prop
  | write offset data => data <+: content.drop offset
  | resize n => n = content.length

def Edit.Covers (i : ℕ) : Edit α → Prop
  | write offset data => offset ≤ i ∧ i < offset + data.length
  | resize _ => False

variable {fill : α} {xs content : List α}

theorem resize_length (n : ℕ) : (resize fill xs n).length = n := by
  rw [resize, List.length_append, List.length_take, List.length_replicate]
  omega

theorem resize_getElem? {i n : ℕ} (hn : i < n) (hi : i < xs.length) :
    (resize fill xs n)[i]? = xs[i]? := by
  rw [resize, List.getElem?_append_left, List.getElem?_take_of_lt hn]
  rw [List.length_take]
  omega

theorem writeAt_getElem?_inside {offset i : ℕ} {data : List α} (h : offset ≤ i)
    (h' : i < offset + data.length) : (writeAt fill xs offset data)[i]? = data[i - offset]? := by
  have hlen := @resize_length _ fill xs (max offset xs.length)
  have hdata : data.isEmpty = false := List.isEmpty_eq_false_iff.mpr fun hnil ↦ by
    rw [hnil, List.length_nil] at h'
    omega
  have hpre : ((resize fill xs (max offset xs.length)).take offset).length = offset := by
    rw [List.length_take]
    omega
  rw [writeAt, hdata, if_neg Bool.false_ne_true, overwrite, List.append_assoc,
    List.getElem?_append_right (by omega), hpre, List.getElem?_append_left (by omega)]

theorem writeAt_getElem?_outside {offset i : ℕ} {data : List α} (hi : i < xs.length)
    (h : ¬ (offset ≤ i ∧ i < offset + data.length)) : (writeAt fill xs offset data)[i]? = xs[i]? := by
  have hlen := @resize_length _ fill xs (max offset xs.length)
  have hsame := @resize_getElem? _ fill xs i (max offset xs.length) (by omega) hi
  have hpre : ((resize fill xs (max offset xs.length)).take offset).length = offset := by
    rw [List.length_take]
    omega
  rw [writeAt]
  split
  · rfl
  · rw [overwrite, List.append_assoc]
    rcases Nat.lt_or_ge i offset with hbefore | hfrom
    · rw [List.getElem?_append_left (by omega), List.getElem?_take_of_lt hbefore, hsame]
    · rw [List.getElem?_append_right (by omega), hpre, List.getElem?_append_right (by omega),
        List.getElem?_drop, ← hsame]
      congr 1
      omega

theorem writeAt_length {offset : ℕ} {data : List α} (h : offset + data.length ≤ xs.length) :
    (writeAt fill xs offset data).length = xs.length := by
  have hlen := @resize_length _ fill xs (max offset xs.length)
  rw [writeAt]
  split
  · rfl
  · rw [overwrite_length (by omega)]
    omega

theorem Edit.Fits.write_length {offset : ℕ} {data : List α} (h : (Edit.write offset data).Fits content)
    (hdata : data ≠ []) : offset + data.length ≤ content.length := by
  have hlen := List.IsPrefix.length_le h
  have hpos := List.length_pos_of_ne_nil hdata
  rw [List.length_drop] at hlen
  omega

/-- An edit that fits keeps what is right. -/
theorem Edit.Fits.keeps {e : Edit α} (h : e.Fits content) {i : ℕ} (hi : i < content.length)
    (hxs : xs[i]? = content[i]?) : (e.apply fill xs)[i]? = content[i]? := by
  have hin : i < xs.length := by
    by_contra hout
    rw [List.getElem?_eq_none (Nat.not_lt.mp hout), List.getElem?_eq_getElem hi] at hxs
    cases hxs
  cases e with
  | write offset data =>
    rw [Edit.apply]
    by_cases hcovers : offset ≤ i ∧ i < offset + data.length
    · obtain ⟨rest, hrest⟩ := h
      have hcontent : content[i]? = (content.drop offset)[i - offset]? := by
        rw [List.getElem?_drop, Nat.add_sub_cancel' hcovers.1]
      rw [writeAt_getElem?_inside hcovers.1 hcovers.2, hcontent, ← hrest,
        List.getElem?_append_left (by omega)]
    · rw [writeAt_getElem?_outside hin hcovers, hxs]
  | resize n =>
    obtain rfl : n = content.length := h
    rw [Edit.apply, resize_getElem? hi hin, hxs]

/-- An edit that fits makes right what it covers. -/
theorem Edit.Fits.sets {e : Edit α} (h : e.Fits content) {i : ℕ} (hcovers : e.Covers i) :
    (e.apply fill xs)[i]? = content[i]? := by
  cases e with
  | write offset data =>
    obtain ⟨rest, hrest⟩ := h
    obtain ⟨hlo, hhi⟩ := hcovers
    have hcontent : content[i]? = (content.drop offset)[i - offset]? := by
      rw [List.getElem?_drop, Nat.add_sub_cancel' hlo]
    rw [Edit.apply, writeAt_getElem?_inside hlo hhi, hcontent, ← hrest,
      List.getElem?_append_left (by omega)]
  | resize n => exact hcovers.elim

theorem Edit.Fits.keeps_length {e : Edit α} (h : e.Fits content) (hxs : xs.length = content.length) :
    (e.apply fill xs).length = content.length := by
  cases e with
  | write offset data =>
    rw [Edit.apply]
    by_cases hdata : data = []
    · rw [hdata, writeAt, List.isEmpty_nil, if_pos rfl, hxs]
    · have hlen := h.write_length hdata
      rw [writeAt_length (by omega), hxs]
  | resize n =>
    obtain rfl : n = content.length := h
    exact resize_length _

/-- Edits that all fit a content, in whatever order, lead to it from anywhere when one of them gives the
length and every place is covered. -/
theorem edits_lead_to {edits : List (Edit α)} (hfits : ∀ e ∈ edits, e.Fits content)
    (hsized : Edit.resize content.length ∈ edits)
    (hcovered : ∀ i < content.length, ∃ e ∈ edits, e.Covers i) (xs : List α) :
    edits.foldl (Edit.apply fill) xs = content := by
  have hlength : (edits.foldl (Edit.apply fill) xs).length = content.length := by
    refine foldl_of_mem (P := fun ys : List α ↦ ys.length = content.length) ?_ hsized ?_ xs
    · intro e he ys hys
      exact (hfits e he).keeps_length hys
    · intro ys
      exact resize_length _
  apply List.ext_getElem?
  intro i
  rcases Nat.lt_or_ge i content.length with hi | hout
  · obtain ⟨e, he, hcovers⟩ := hcovered i hi
    refine foldl_of_mem (P := fun ys : List α ↦ ys[i]? = content[i]?) ?_ he ?_ xs
    · intro d hd ys hys
      exact (hfits d hd).keeps hi hys
    · intro ys
      exact (hfits e he).sets hcovers
  · rw [List.getElem?_eq_none (by omega), List.getElem?_eq_none hout]

end PositionedWrites
