import Burst.CdFetch

namespace Burst

open Slices Intervals

/-- What `assemble_cd_buffer` copies from: a buffer with the offset in the archive it begins at and
the one it is taken to end at. -/
structure CdSource where
  start : ℕ
  stop : ℕ
  buffer : List UInt8
  deriving DecidableEq, Repr

def rangeSource (range : CdPartRange) (buffer : List UInt8) : CdSource :=
  ⟨range.start, (range.rangeEnd + 1) % 2 ^ 64, buffer⟩

/-- The fetched ranges, in their order, and the tail buffer after them. -/
def cdSources (initialBuffer : List UInt8) (initialStart : ℕ) (ranges : List CdPartRange)
    (rangeBuffers : List (List UInt8)) : List CdSource :=
  (ranges.zip rangeBuffers).map (fun r ↦ rangeSource r.1 r.2) ++
    [⟨initialStart, (initialStart + initialBuffer.length) % 2 ^ 64, initialBuffer⟩]

/-- The buffer has the byte at an offset of the archive. -/
def CdSource.Holds (s : CdSource) (offset : ℕ) : Prop :=
  s.start ≤ offset ∧ offset < s.start + s.buffer.length

/-- An offset between the bounds of the source, whose buffer reaches to its end or to the end of the
directory. -/
def CdSource.Gives (s : CdSource) (cdEnd offset : ℕ) : Prop :=
  s.start ≤ offset ∧ offset < min s.stop cdEnd ∧ min s.stop cdEnd ≤ s.start + s.buffer.length

instance (s : CdSource) (offset : ℕ) : Decidable (s.Holds offset) := by
  unfold CdSource.Holds
  infer_instance

instance (s : CdSource) (cdEnd offset : ℕ) : Decidable (s.Gives cdEnd offset) := by
  unfold CdSource.Gives
  infer_instance

theorem CdSource.Gives.holds {s : CdSource} {cdEnd offset : ℕ} (h : s.Gives cdEnd offset) :
    s.Holds offset := by
  obtain ⟨hstart, hlt, hreach⟩ := h
  exact ⟨hstart, by omega⟩

def CdSource.copy (cdOffset cdEnd : ℕ) (cdBuf : List UInt8) (s : CdSource) : List UInt8 :=
  copyCdData cdBuf s.buffer s.start s.stop cdOffset cdEnd

/-- A copy changes the bytes of the directory that the source gives. -/
theorem CdSource.copy_getElem? (s : CdSource) {cdBuf : List UInt8} {cdOffset cdEnd : ℕ}
    (hend : cdEnd ≤ cdOffset + cdBuf.length) (i : ℕ) :
    (s.copy cdOffset cdEnd cdBuf).length = cdBuf.length ∧
      (s.copy cdOffset cdEnd cdBuf)[i]? =
        if s.Gives cdEnd (cdOffset + i) then s.buffer[cdOffset + i - s.start]? else cdBuf[i]? := by
  have hstart : (if s.start < cdOffset then cdOffset else s.start) = max s.start cdOffset := by
    split <;> omega
  have hstop : (if s.stop > cdEnd then cdEnd else s.stop) = min s.stop cdEnd := by
    split <;> omega
  rw [CdSource.copy]
  have hiff : s.Gives cdEnd (cdOffset + i) ↔ s.start ≤ cdOffset + i ∧
      cdOffset + i < min s.stop cdEnd ∧ min s.stop cdEnd ≤ s.start + s.buffer.length := Iff.rfl
  simp only [copyCdData, hstart, hstop]
  by_cases hsome : max s.start cdOffset < min s.stop cdEnd
  · rw [if_pos hsome]
    by_cases hreach : max s.start cdOffset - s.start +
        (min s.stop cdEnd - max s.start cdOffset) ≤ s.buffer.length
    · rw [if_pos hreach]
      have hlen : (slice s.buffer (max s.start cdOffset - s.start) (max s.start cdOffset - s.start +
          (min s.stop cdEnd - max s.start cdOffset))).length =
            min s.stop cdEnd - max s.start cdOffset := by
        rw [slice_length hreach]
        omega
      have hfits : max s.start cdOffset - cdOffset + (slice s.buffer (max s.start cdOffset - s.start)
          (max s.start cdOffset - s.start + (min s.stop cdEnd - max s.start cdOffset))).length ≤
            cdBuf.length := by
        rw [hlen]
        omega
      refine ⟨overwrite_length hfits, ?_⟩
      rw [overwrite_getElem? hfits, hlen]
      by_cases hgives : s.Gives cdEnd (cdOffset + i)
      · have hin := hiff.mp hgives
        rw [if_pos (by omega), if_pos hgives, slice_getElem? _ (by omega)]
        congr 1
        omega
      · have hout := mt hiff.mpr hgives
        rw [if_neg (by omega), if_neg hgives]
    · rw [if_neg hreach, if_neg (by rw [hiff]; omega)]
      exact ⟨rfl, rfl⟩
  · rw [if_neg hsome, if_neg (by rw [hiff]; omega)]
    exact ⟨rfl, rfl⟩

theorem copyCdData_nil (cdBuf : List UInt8) (start stop cdOffset cdEnd : ℕ) :
    copyCdData cdBuf [] start stop cdOffset cdEnd = cdBuf := by
  rw [copyCdData]
  dsimp only
  generalize (if start < cdOffset then cdOffset else start) = lo
  generalize (if stop > cdEnd then cdEnd else stop) = hi
  by_cases hlt : lo < hi
  · rw [if_pos hlt, if_neg]
    rw [List.length_nil]
    omega
  · rw [if_neg hlt]

theorem copyCdRanges_eq (cdOffset cdEnd : ℕ) (cdBuf : List UInt8) (ranges : List CdPartRange)
    (buffers : List (List UInt8)) :
    copyCdRanges cdOffset cdEnd cdBuf ranges buffers =
      ((ranges.zip buffers).map fun r ↦ rangeSource r.1 r.2).foldl
        (CdSource.copy cdOffset cdEnd) cdBuf := by
  induction ranges generalizing cdBuf buffers with
  | nil => cases buffers <;> rfl
  | cons range ranges ih =>
    cases buffers with
    | nil => rfl
    | cons buffer buffers =>
      rw [copyCdRanges, ih, List.zip_cons_cons, List.map_cons, List.foldl_cons]
      congr 1
      split
      · next hnil =>
        rw [List.eq_nil_of_length_eq_zero hnil]
        exact (copyCdData_nil _ _ _ _ _).symm
      · rfl

/-- The assembled directory: the new memory after a copy from each source. -/
theorem assembleCdBuffer_eq (cdBuf initialBuffer : List UInt8) (initialStart : ℕ)
    (ranges : List CdPartRange) (rangeBuffers : List (List UInt8)) (cdOffset cdSize : ℕ) :
    (assembleCdBuffer cdBuf initialBuffer initialStart ranges rangeBuffers cdOffset cdSize).1 =
      (cdSources initialBuffer initialStart ranges rangeBuffers).foldl
        (CdSource.copy cdOffset ((cdOffset + cdSize) % 2 ^ 64)) cdBuf := by
  rw [cdSources, List.foldl_append, ← copyCdRanges_eq]
  simp only [assembleCdBuffer, List.foldl_cons, List.foldl_nil]
  split
  · rfl
  · next hskip =>
    rcases Nat.eq_zero_or_pos initialBuffer.length with hempty | hpos
    · rw [List.eq_nil_of_length_eq_zero hempty]
      exact (copyCdData_nil _ _ _ _ _).symm
    · have hafter : (cdOffset + cdSize) % 2 ^ 64 ≤ initialStart := by omega
      rw [CdSource.copy, copyCdData]
      dsimp only
      rw [if_neg]
      split <;> split <;> omega

/-- After the copies a byte of the directory is the one that the last source to give it has. -/
theorem foldl_copy_getElem? (sources : List CdSource) {cdBuf : List UInt8} {cdOffset cdEnd : ℕ}
    (hend : cdEnd ≤ cdOffset + cdBuf.length) (i : ℕ) :
    (sources.foldl (CdSource.copy cdOffset cdEnd) cdBuf)[i]? =
      match sources.reverse.find? fun s ↦ s.Gives cdEnd (cdOffset + i) with
      | some s => s.buffer[cdOffset + i - s.start]?
      | none => cdBuf[i]? := by
  induction sources generalizing cdBuf with
  | nil => rfl
  | cons s sources ih =>
    obtain ⟨hlen, hcopy⟩ := s.copy_getElem? hend i
    rw [List.foldl_cons, ih (by rw [hlen]; exact hend), List.reverse_cons, List.find?_append, hcopy]
    cases sources.reverse.find? fun s ↦ s.Gives cdEnd (cdOffset + i) with
    | some s' => rfl
    | none =>
      by_cases hgives : s.Gives cdEnd (cdOffset + i)
      · simp [hgives]
      · simp [hgives]

/-- Every byte of the assembled directory comes from a source that holds its offset, whatever the new
memory held; every body segment has the bytes it says. -/
def AssemblesDirectory (initialBuffer : List UInt8) (initialStart : ℕ) (ranges : List CdPartRange)
    (rangeBuffers : List (List UInt8)) (cdOffset cdSize : ℕ) : Prop :=
  (∀ i < cdSize, ∃ s ∈ cdSources initialBuffer initialStart ranges rangeBuffers,
    s.Holds (cdOffset + i) ∧ ∀ cdBuf : List UInt8, cdBuf.length = cdSize →
      (assembleCdBuffer cdBuf initialBuffer initialStart ranges rangeBuffers cdOffset cdSize).1[i]? =
        s.buffer[cdOffset + i - s.start]?) ∧
  ∀ cdBuf : List UInt8, ∀ segment ∈ (assembleCdBuffer cdBuf initialBuffer initialStart ranges
    rangeBuffers cdOffset cdSize).2, segment.size ≤ segment.data.length

/-- Every byte of the directory is given by a source, and the first range with body data has a
buffer with all of it. -/
def SourcesSuffice (initialBuffer : List UInt8) (initialStart : ℕ) (ranges : List CdPartRange)
    (rangeBuffers : List (List UInt8)) (cdOffset cdSize : ℕ) : Prop :=
  (∀ i < cdSize, ∃ s ∈ cdSources initialBuffer initialStart ranges rangeBuffers,
    s.Gives ((cdOffset + cdSize) % 2 ^ 64) (cdOffset + i)) ∧
  ∀ r ∈ (ranges.zip rangeBuffers).find? fun r ↦ r.1.hasBodyData ∧ r.1.bodyDataSize > 0,
    r.1.bodyDataSize ≤ r.2.length

instance (initialBuffer : List UInt8) (initialStart : ℕ) (ranges : List CdPartRange)
    (rangeBuffers : List (List UInt8)) (cdOffset cdSize : ℕ) :
    Decidable (SourcesSuffice initialBuffer initialStart ranges rangeBuffers cdOffset cdSize) := by
  unfold SourcesSuffice
  infer_instance

/-- The call, which fails for want of memory only, gives the real directory and whole body segments
exactly when its sources suffice. -/
theorem assembleCdBuffer_real_iff (initialBuffer : List UInt8) (initialStart : ℕ)
    (ranges : List CdPartRange) (rangeBuffers : List (List UInt8)) (cdOffset cdSize : ℕ) :
    AssemblesDirectory initialBuffer initialStart ranges rangeBuffers cdOffset cdSize ↔
      SourcesSuffice initialBuffer initialStart ranges rangeBuffers cdOffset cdSize := by
  have hbyte (i : ℕ) {cdBuf : List UInt8} (hnew : cdBuf.length = cdSize) :
      (assembleCdBuffer cdBuf initialBuffer initialStart ranges rangeBuffers cdOffset cdSize).1[i]? =
        match (cdSources initialBuffer initialStart ranges rangeBuffers).reverse.find?
          fun s ↦ s.Gives ((cdOffset + cdSize) % 2 ^ 64) (cdOffset + i) with
        | some s => s.buffer[cdOffset + i - s.start]?
        | none => cdBuf[i]? := by
    rw [assembleCdBuffer_eq]
    apply foldl_copy_getElem?
    rw [hnew]
    exact Nat.mod_le _ _
  apply and_congr
  · apply forall₂_congr
    intro i hi
    constructor
    · rintro ⟨s, -, -, hcopied⟩
      by_contra hnone
      have hfind : (cdSources initialBuffer initialStart ranges rangeBuffers).reverse.find?
          (fun s ↦ s.Gives ((cdOffset + cdSize) % 2 ^ 64) (cdOffset + i)) = none := by
        apply List.find?_eq_none.mpr
        intro s' hs' hgives
        exact hnone ⟨s', List.mem_reverse.mp hs', of_decide_eq_true hgives⟩
      -- the byte is that of the new memory, whatever this holds
      have hbyte' (b : UInt8) : s.buffer[cdOffset + i - s.start]? = some b := by
        have hlen : (List.replicate cdSize b).length = cdSize := List.length_replicate
        rw [← hcopied _ hlen, hbyte i hlen, hfind]
        exact List.getElem?_replicate_of_lt hi
      have hsame := (hbyte' 0).symm.trans (hbyte' 1)
      cases hsame
    · rintro ⟨s, hs, hgives⟩
      cases hfind : (cdSources initialBuffer initialStart ranges rangeBuffers).reverse.find?
          (fun s ↦ s.Gives ((cdOffset + cdSize) % 2 ^ 64) (cdOffset + i)) with
      | none =>
        have hnot := List.find?_eq_none.mp hfind s (List.mem_reverse.mpr hs)
        exact (hnot (decide_eq_true hgives)).elim
      | some s' =>
        have hgives' := List.find?_some hfind
        refine ⟨s', List.mem_reverse.mp (List.mem_of_find?_eq_some hfind),
          (of_decide_eq_true hgives').holds, ?_⟩
        intro cdBuf hnew
        rw [hbyte i hnew, hfind]
  · simp only [assembleCdBuffer, rangeBodySegment, Option.mem_def]
    cases (ranges.zip rangeBuffers).find? fun r ↦ r.1.hasBodyData ∧ r.1.bodyDataSize > 0 with
    | none => simp
    | some r => simp

/-- A directory of which the first half lies in a fetched range and the second in the tail. -/
def sampleRange : CdPartRange := ⟨0, 63, true, 32⟩

theorem sampleRange_assembles :
    AssemblesDirectory (List.replicate 64 2) 64 [sampleRange] [List.replicate 64 1] 32 64 :=
  (assembleCdBuffer_real_iff _ _ _ _ _ _).mpr (by decide +kernel)

/-- A byte that depends on what the new memory held was not copied. -/
theorem not_assembles_of_garbage {initialBuffer : List UInt8} {initialStart : ℕ}
    {ranges : List CdPartRange} {rangeBuffers : List (List UInt8)} {cdOffset cdSize i : ℕ}
    (hi : i < cdSize) {cdBuf cdBuf' : List UInt8} (hnew : cdBuf.length = cdSize)
    (hnew' : cdBuf'.length = cdSize)
    (hne : (assembleCdBuffer cdBuf initialBuffer initialStart ranges rangeBuffers cdOffset
        cdSize).1[i]? ≠
      (assembleCdBuffer cdBuf' initialBuffer initialStart ranges rangeBuffers cdOffset
        cdSize).1[i]?) :
    ¬ AssemblesDirectory initialBuffer initialStart ranges rangeBuffers cdOffset cdSize := by
  rintro ⟨hbytes, -⟩
  obtain ⟨s, -, -, hcopied⟩ := hbytes i hi
  exact hne ((hcopied cdBuf hnew).trans (hcopied cdBuf' hnew').symm)

/-- The same with a range that is one byte short, or missing: half of the directory is what the new
memory held, and the body segment of a missing range has no bytes. -/
theorem shortRange_not_assembled :
    ¬ AssemblesDirectory (List.replicate 64 2) 64 [sampleRange] [List.replicate 63 1] 32 64 ∧
      ¬ AssemblesDirectory (List.replicate 64 2) 64 [sampleRange] [[]] 32 64 ∧
      (assembleCdBuffer (List.replicate 64 0) (List.replicate 64 2) 64 [sampleRange] [[]] 32 64) =
        (List.replicate 32 0 ++ List.replicate 32 2, [⟨[], 32, 0⟩]) := by
  have hlen (b : UInt8) : (List.replicate 64 b).length = 64 := List.length_replicate
  refine ⟨?_, ?_, by decide +kernel⟩
  · exact not_assembles_of_garbage (show 0 < 64 by decide) (hlen 0) (hlen 1) (by decide +kernel)
  · exact not_assembles_of_garbage (show 0 < 64 by decide) (hlen 0) (hlen 1) (by decide +kernel)

end Burst
