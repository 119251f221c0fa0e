import Mathlib.Data.List.Basic
import Mathlib.Data.List.Range

namespace Buckets

variable {β : Type}

/-- A key that names one of `n` buckets is counted there. -/
def countStep (n : ℕ) (counts : List ℕ) (key : ℕ) : List ℕ :=
  if key < n then counts.modify key (· + 1) else counts

/-- The first pass: how many values each bucket will receive. -/
def count (n : ℕ) (keys : List ℕ) : List ℕ := keys.foldl (countStep n) (List.replicate n 0)

/-- How far each bucket is filled, and its array. -/
structure Filling (β : Type) where
  counts : List ℕ
  slots : List (List β)

/-- A value goes to the next slot of its bucket; `none` is an access outside an array. -/
def fillStep (n : ℕ) (t : Filling β) (x : ℕ × β) : Option (Filling β) :=
  if x.1 < n then do
    let next ← t.counts[x.1]?
    let array ← t.slots[x.1]?
    if next < array.length then
      some ⟨t.counts.set x.1 (next + 1), t.slots.set x.1 (array.set next x.2)⟩
    else none
  else some t

/-- The second pass: each value goes to its bucket, in order. -/
def fill (n : ℕ) (t : Filling β) (xs : List (ℕ × β)) : Option (Filling β) :=
  xs.foldlM (fillStep n) t

/-- The arrays the second pass starts from. -/
def allocate (blank : β) (counts : List ℕ) : Filling β where
  counts := List.replicate counts.length 0
  slots := counts.map fun c ↦ List.replicate c blank

/-- The values with a key, in order: what a bucket is to hold in the end. -/
def bucket (key : ℕ) (xs : List (ℕ × β)) : List β :=
  xs.filterMap fun x ↦ if x.1 = key then some x.2 else none

theorem bucket_cons_self (x : ℕ × β) (xs : List (ℕ × β)) :
    bucket x.1 (x :: xs) = x.2 :: bucket x.1 xs := by
  simp [bucket]

theorem bucket_cons_ne {key : ℕ} {x : ℕ × β} (h : x.1 ≠ key) (xs : List (ℕ × β)) :
    bucket key (x :: xs) = bucket key xs := by
  simp [bucket, h]

theorem bucket_append (key : ℕ) (xs ys : List (ℕ × β)) :
    bucket key (xs ++ ys) = bucket key xs ++ bucket key ys := by
  simp [bucket]

theorem mem_bucket {key : ℕ} {xs : List (ℕ × β)} {b : β} : b ∈ bucket key xs ↔ (key, b) ∈ xs := by
  simp only [bucket, List.mem_filterMap, Option.ite_none_right_eq_some, Option.some.injEq]
  constructor
  · rintro ⟨⟨k, v⟩, hmem, rfl, rfl⟩
    exact hmem
  · intro hmem
    exact ⟨(key, b), hmem, rfl, rfl⟩

/-- A table over the buckets changes in one place. -/
theorem set_map_range {γ : Type} (f : ℕ → γ) {n key : ℕ} (v : γ) :
    ((List.range n).map f).set key v = (List.range n).map fun k ↦ if k = key then v else f k := by
  apply List.ext_getElem
  · simp
  · intro i hi _
    simp only [List.getElem_set, List.getElem_map, List.getElem_range]
    by_cases h : key = i
    · rw [if_pos h, if_pos h.symm]
    · rw [if_neg h, if_neg (Ne.symm h)]

theorem modify_map_range (f : ℕ → ℕ) {n key : ℕ} :
    ((List.range n).map f).modify key (· + 1) =
      (List.range n).map fun k ↦ if k = key then f k + 1 else f k := by
  apply List.ext_getElem
  · simp
  · intro i hi _
    simp only [List.getElem_modify, List.getElem_map, List.getElem_range]
    by_cases h : key = i
    · rw [if_pos h, if_pos h.symm]
    · rw [if_neg h, if_neg (Ne.symm h)]

theorem map_range_congr {γ : Type} {f g : ℕ → γ} {n : ℕ} (h : ∀ k < n, f k = g k) :
    (List.range n).map f = (List.range n).map g :=
  List.map_congr_left fun k hk ↦ h k (List.mem_range.mp hk)

/-- The counters after the keys `done`. -/
def counted (n : ℕ) (done : List ℕ) : List ℕ := (List.range n).map fun k ↦ done.count k

theorem countStep_counted (n : ℕ) (done : List ℕ) (key : ℕ) :
    countStep n (counted n done) key = counted n (done ++ [key]) := by
  rw [countStep, counted, counted]
  by_cases hkey : key < n
  · rw [if_pos hkey, modify_map_range]
    apply map_range_congr
    intro k _
    by_cases h : k = key
    · subst h
      simp
    · rw [if_neg h, List.count_append, List.count_singleton, if_neg (by simpa using Ne.symm h)]
      rfl
  · rw [if_neg hkey]
    apply map_range_congr
    intro k hk
    rw [List.count_append, List.count_singleton, if_neg (by simp; omega)]
    rfl

theorem countStep_run (n : ℕ) (done keys : List ℕ) :
    keys.foldl (countStep n) (counted n done) = counted n (done ++ keys) := by
  induction keys generalizing done with
  | nil => rw [List.foldl_nil, List.append_nil]
  | cons key keys ih => rw [List.foldl_cons, countStep_counted, ih, List.append_assoc]; rfl

theorem count_eq (n : ℕ) (keys : List ℕ) : count n keys = counted n keys := by
  have hstart : List.replicate n 0 = counted n [] := by
    simp [counted]
  rw [count, hstart, countStep_run, List.nil_append]

/-- The arrays when the values `done` are written and `rest` are still to come. -/
def filled (n : ℕ) (blank : β) (done rest : List (ℕ × β)) : Filling β where
  counts := (List.range n).map fun k ↦ (bucket k done).length
  slots := (List.range n).map fun k ↦
    bucket k done ++ List.replicate (bucket k rest).length blank

/-- Each value finds a free slot: its bucket still has as many as there are values to come. -/
theorem fillStep_filled (n : ℕ) (blank : β) (done rest : List (ℕ × β)) (x : ℕ × β) :
    fillStep n (filled n blank done (x :: rest)) x = some (filled n blank (done ++ [x]) rest) := by
  by_cases hkey : x.1 < n
  · have hcount : (filled n blank done (x :: rest)).counts[x.1]? =
        some (bucket x.1 done).length := by
      simp [filled, hkey]
    have harray : (filled n blank done (x :: rest)).slots[x.1]? =
        some (bucket x.1 done ++ blank :: List.replicate (bucket x.1 rest).length blank) := by
      simp [filled, hkey, bucket_cons_self, List.replicate_succ]
    have hlast : bucket x.1 [x] = [x.2] := bucket_cons_self x []
    have hset : (bucket x.1 done ++ blank :: List.replicate (bucket x.1 rest).length blank).set
        (bucket x.1 done).length x.2 =
        bucket x.1 (done ++ [x]) ++ List.replicate (bucket x.1 rest).length blank := by
      rw [List.set_append_right _ _ le_rfl, Nat.sub_self, List.set_cons_zero, bucket_append, hlast,
        List.append_assoc]
      rfl
    rw [fillStep, if_pos hkey, hcount, harray]
    simp only [Option.bind_eq_bind, Option.bind_some]
    rw [if_pos (by simp), hset, filled, filled, set_map_range, set_map_range, Option.some.injEq,
      Filling.mk.injEq]
    constructor
    · apply map_range_congr
      intro k _
      by_cases h : k = x.1
      · subst h
        rw [if_pos rfl, bucket_append, hlast, List.length_append, List.length_singleton]
      · rw [if_neg h, bucket_append, bucket_cons_ne (Ne.symm h)]
        simp [bucket]
    · apply map_range_congr
      intro k _
      by_cases h : k = x.1
      · subst h
        rw [if_pos rfl]
      · rw [if_neg h, bucket_append, bucket_cons_ne (Ne.symm h), bucket_cons_ne (Ne.symm h)]
        simp [bucket]
  · rw [fillStep, if_neg hkey, Option.some.injEq, filled, filled, Filling.mk.injEq]
    have hskip : ∀ k < n, x.1 ≠ k := by
      intro k hk
      omega
    constructor
    · apply map_range_congr
      intro k hk
      rw [bucket_append, bucket_cons_ne (hskip k hk)]
      simp [bucket]
    · apply map_range_congr
      intro k hk
      rw [bucket_append, bucket_cons_ne (hskip k hk), bucket_cons_ne (hskip k hk)]
      simp [bucket]

theorem fill_filled (n : ℕ) (blank : β) (done rest : List (ℕ × β)) :
    fill n (filled n blank done rest) rest = some (filled n blank (done ++ rest) []) := by
  induction rest generalizing done with
  | nil => rw [List.append_nil]; rfl
  | cons x rest ih =>
    rw [fill, List.foldlM_cons, fillStep_filled]
    have htail := ih (done ++ [x])
    rw [List.append_assoc] at htail
    exact htail

theorem counted_length_bucket (n : ℕ) (xs : List (ℕ × β)) :
    counted n (xs.map (·.1)) = (List.range n).map fun k ↦ (bucket k xs).length := by
  apply map_range_congr
  intro k _
  induction xs with
  | nil => rfl
  | cons x xs ih =>
    rw [List.map_cons, List.count_cons, ih]
    by_cases h : x.1 = k
    · subst h
      rw [bucket_cons_self]
      simp
    · rw [bucket_cons_ne h, if_neg (by simpa using h)]
      rfl

/-- The two passes together: no write leaves its array, and the arrays hold the buckets. -/
theorem fill_allocate (n : ℕ) (blank : β) (xs : List (ℕ × β)) :
    fill n (allocate blank (count n (xs.map (·.1)))) xs =
      some ⟨(List.range n).map fun k ↦ (bucket k xs).length,
        (List.range n).map fun k ↦ bucket k xs⟩ := by
  have hstart : allocate blank (count n (xs.map (·.1))) = filled n blank [] xs := by
    rw [count_eq, counted_length_bucket, allocate, filled, Filling.mk.injEq]
    constructor
    · simp [bucket]
    · simp [bucket]
  rw [hstart, fill_filled, filled, List.nil_append]
  simp [bucket]

end Buckets
