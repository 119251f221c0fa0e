import Burst.BodySegments
import Burst.Lib.Slices
import Burst.ZipStructures

namespace Burst

open Slices Intervals

/-- A range of the archive to fetch, its end inclusive. -/
structure CdPartRange where
  start : ℕ
  rangeEnd : ℕ
  hasBodyData : Bool
  bodyDataSize : ℕ
  deriving DecidableEq, Repr

def sizeofCdPartRange : ℕ := 32

/-- The counting loop; a round moves on by at least one byte. -/
def countCdRanges (partSize initialBufferStart : ℕ) : ℕ → ℕ → ℕ
  | 0, _ => 0
  | fuel + 1, start => if start < initialBufferStart then
      countCdRanges partSize initialBufferStart fuel ((start + partSize) % 2 ^ 64) + 1
    else 0

def cdRangeAt (centralDirOffset partSize initialBufferStart start : ℕ) : CdPartRange :=
  let partEnd := sub64 ((start + partSize) % 2 ^ 64) 1
  let rangeEnd := if partEnd ≥ initialBufferStart then initialBufferStart - 1 else partEnd
  { start := start
    rangeEnd := rangeEnd
    hasBodyData := start < centralDirOffset
    bodyDataSize := if start < centralDirOffset then
      (if centralDirOffset > rangeEnd + 1 then rangeEnd + 1 else centralDirOffset) - start else 0 }

/-- The filling loop, for at most as many ranges as were counted. -/
def fillCdRanges (centralDirOffset partSize initialBufferStart : ℕ) : ℕ → ℕ → List CdPartRange
  | 0, _ => []
  | count + 1, start => if start < initialBufferStart then
      cdRangeAt centralDirOffset partSize initialBufferStart start ::
        fillCdRanges centralDirOffset partSize initialBufferStart count
          ((start + partSize) % 2 ^ 64)
    else []

/-- `none` when the ranges do not fit into memory. -/
def calculateCdFetchRanges (centralDirOffset partSize initialBufferStart : ℕ) :
    Option (List CdPartRange) :=
  if centralDirOffset ≥ initialBufferStart then some []
  else
    let firstPartStart := centralDirOffset / partSize * partSize
    if firstPartStart ≥ initialBufferStart then some []
    else
      let count := countCdRanges partSize initialBufferStart (initialBufferStart + 1) firstPartStart
      if count = 0 then some []
      else if 2 ^ 63 ≤ count * sizeofCdPartRange then none
      else some (fillCdRanges centralDirOffset partSize initialBufferStart count firstPartStart)

/-- Copies what a buffer, which begins at an offset of the archive and is valid up to another one,
holds of the central directory. -/
def copyCdData (cdBuf buffer : List UInt8) (bufferStart bufferEnd centralDirOffset cdEnd : ℕ) :
    List UInt8 :=
  let cdDataStart := if bufferStart < centralDirOffset then centralDirOffset else bufferStart
  let cdDataEnd := if bufferEnd > cdEnd then cdEnd else bufferEnd
  if cdDataStart < cdDataEnd then
    let offsetInBuffer := cdDataStart - bufferStart
    let copySize := cdDataEnd - cdDataStart
    if offsetInBuffer + copySize ≤ buffer.length then
      overwrite cdBuf (cdDataStart - centralDirOffset)
        (slice buffer offsetInBuffer (offsetInBuffer + copySize))
    else cdBuf
  else cdBuf

/-- The first loop of `assemble_cd_buffer`; an empty buffer is one that was not fetched. -/
def copyCdRanges (centralDirOffset cdEnd : ℕ) :
    List UInt8 → List CdPartRange → List (List UInt8) → List UInt8
  | cdBuf, range :: ranges, buffer :: buffers =>
    copyCdRanges centralDirOffset cdEnd
      (if buffer.length = 0 then cdBuf
        else copyCdData cdBuf buffer range.start ((range.rangeEnd + 1) % 2 ^ 64) centralDirOffset cdEnd)
      ranges buffers
  | cdBuf, _, _ => cdBuf

def rangeBodySegment (ranges : List CdPartRange) (buffers : List (List UInt8)) :
    List BodyDataSegment :=
  match (ranges.zip buffers).find? fun r ↦ r.1.hasBodyData ∧ r.1.bodyDataSize > 0 with
  | none => []
  | some (range, buffer) => [⟨buffer, range.bodyDataSize, range.start⟩]

/-- `cdBuf` is the new memory, with whatever it holds. -/
def assembleCdBuffer (cdBuf initialBuffer : List UInt8) (initialStart : ℕ)
    (ranges : List CdPartRange) (rangeBuffers : List (List UInt8))
    (centralDirOffset centralDirSize : ℕ) : List UInt8 × List BodyDataSegment :=
  let cdEnd := (centralDirOffset + centralDirSize) % 2 ^ 64
  let cdBuf := copyCdRanges centralDirOffset cdEnd cdBuf ranges rangeBuffers
  let cdBuf := if initialBuffer.length > 0 ∧ initialStart < cdEnd then
      copyCdData cdBuf initialBuffer initialStart ((initialStart + initialBuffer.length) % 2 ^ 64)
        centralDirOffset cdEnd
    else cdBuf
  (cdBuf, rangeBodySegment ranges rangeBuffers)

def addTailBufferSegment (segments : List BodyDataSegment) (initialBuffer : List UInt8)
    (initialStart centralDirOffset : ℕ) : List BodyDataSegment :=
  if initialStart ≥ centralDirOffset then segments
  else
    let bufferEnd := (initialStart + initialBuffer.length) % 2 ^ 64
    let bodySize := sub64 (if centralDirOffset > bufferEnd then bufferEnd else centralDirOffset)
      initialStart
    if bodySize = 0 then segments else segments ++ [⟨initialBuffer, bodySize, initialStart⟩]

/-- The ranges follow one another from the start of a part up to the tail buffer. -/
def RangesTile (lo hi : ℕ) (ranges : List CdPartRange) : Prop :=
  Contiguous CdPartRange.start CdPartRange.rangeEnd lo hi ranges

/-- A range as the filling loop makes it, when nothing wraps around. -/
structure IsCdRange (centralDirOffset partSize initialBufferStart : ℕ) (r : CdPartRange) : Prop where
  part : partSize ∣ r.start
  start_lt : r.start < initialBufferStart
  rangeEnd_eq : r.rangeEnd = min (r.start + partSize) initialBufferStart - 1
  eq : r = cdRangeAt centralDirOffset partSize initialBufferStart r.start

theorem isCdRange_cdRangeAt {centralDirOffset partSize initialBufferStart start : ℕ}
    (hpart : 0 < partSize) (hdvd : partSize ∣ start) (hlt : start < initialBufferStart)
    (hfit : start + partSize < 2 ^ 64) :
    IsCdRange centralDirOffset partSize initialBufferStart
      (cdRangeAt centralDirOffset partSize initialBufferStart start) := by
  refine ⟨hdvd, hlt, ?_, rfl⟩
  have hend : sub64 ((start + partSize) % 2 ^ 64) 1 = start + partSize - 1 := by
    rw [Nat.mod_eq_of_lt hfit, sub64_of_le (by omega) hfit]
  simp only [cdRangeAt, hend]
  split <;> omega

theorem fillCdRanges_tile {centralDirOffset partSize initialBufferStart : ℕ} (hpart : 0 < partSize)
    (hinitial : initialBufferStart < 2 ^ 63) {fuel start : ℕ}
    (hfuel : initialBufferStart < start + fuel) (hdvd : partSize ∣ start)
    (hlt : start < initialBufferStart) (hfit : start + partSize < 2 ^ 64) :
    let ranges := fillCdRanges centralDirOffset partSize initialBufferStart
      (countCdRanges partSize initialBufferStart fuel start) start
    RangesTile start initialBufferStart ranges ∧
      ∀ r ∈ ranges, IsCdRange centralDirOffset partSize initialBufferStart r := by
  induction fuel generalizing start with
  | zero => omega
  | succ fuel ih =>
    have hrange : IsCdRange centralDirOffset partSize initialBufferStart
        (cdRangeAt centralDirOffset partSize initialBufferStart start) :=
      isCdRange_cdRangeAt hpart hdvd hlt hfit
    simp only [countCdRanges, if_pos hlt, fillCdRanges, List.forall_mem_cons,
      Nat.mod_eq_of_lt hfit]
    have hend := hrange.rangeEnd_eq
    change (cdRangeAt centralDirOffset partSize initialBufferStart start).rangeEnd =
      min (start + partSize) initialBufferStart - 1 at hend
    by_cases hnext : start + partSize < initialBufferStart
    · obtain ⟨htile, hall⟩ := ih (show initialBufferStart < start + partSize + fuel by omega)
        (Nat.dvd_add hdvd (Nat.dvd_refl _)) hnext (by omega)
      refine ⟨⟨rfl, ?_, ?_⟩, hrange, hall⟩
      · rw [hend]
        change start ≤ _
        omega
      · rw [hend, show min (start + partSize) initialBufferStart - 1 + 1 = start + partSize by omega]
        exact htile
    · have hnone : fillCdRanges centralDirOffset partSize initialBufferStart
          (countCdRanges partSize initialBufferStart fuel (start + partSize)) (start + partSize) =
            [] := by
        cases fuel with
        | zero => rfl
        | succ fuel => rw [countCdRanges, if_neg hnext, fillCdRanges]
      rw [hnone]
      refine ⟨⟨rfl, ?_, ?_⟩, hrange, by simp⟩
      · rw [hend]
        change start ≤ _
        omega
      · rw [hend]
        change _ = _
        omega

/-- The buffer holds the bytes of the central directory that lie before a position. -/
def Filled (archive : List UInt8) (cdOffset cdEnd p : ℕ) (cdBuf : List UInt8) : Prop :=
  cdBuf.length = cdEnd - cdOffset ∧
    ∃ rest, cdBuf = slice archive cdOffset (min (max p cdOffset) cdEnd) ++ rest

/-- Copying from the slice that follows fills the buffer up to the end of that slice. -/
theorem copyCdData_filled {archive cdBuf : List UInt8} {cdOffset cdEnd lo hi : ℕ}
    (hle : lo ≤ hi) (hhi : hi ≤ archive.length) (hcd : cdOffset ≤ cdEnd)
    (hend : cdEnd ≤ archive.length) (h : Filled archive cdOffset cdEnd lo cdBuf) :
    Filled archive cdOffset cdEnd hi
      (copyCdData cdBuf (slice archive lo hi) lo hi cdOffset cdEnd) := by
  obtain ⟨hlen, rest, hcdBuf⟩ := h
  have hstart : (if lo < cdOffset then cdOffset else lo) = max lo cdOffset := by
    split <;> omega
  have hstop : (if hi > cdEnd then cdEnd else hi) = min hi cdEnd := by
    split <;> omega
  simp only [copyCdData, hstart, hstop]
  by_cases hlt : max lo cdOffset < min hi cdEnd
  · have hreached : min (max lo cdOffset) cdEnd = max lo cdOffset := by omega
    have hreached' : min (max hi cdOffset) cdEnd = min hi cdEnd := by omega
    rw [hreached] at hcdBuf
    have hpre : (slice archive cdOffset (max lo cdOffset)).length = max lo cdOffset - cdOffset :=
      slice_length (by omega) cdOffset
    have hsrc : slice (slice archive lo hi) (max lo cdOffset - lo)
        (max lo cdOffset - lo + (min hi cdEnd - max lo cdOffset)) =
          slice archive (max lo cdOffset) (min hi cdEnd) := by
      rw [slice_slice _ (by omega)]
      congr 1 <;> omega
    rw [if_pos hlt, if_pos (by rw [slice_length hhi]; omega), hsrc]
    refine ⟨?_, ?_⟩
    · rw [overwrite_length (by rw [slice_length (by omega)]; omega), hlen]
    · refine ⟨rest.drop (min hi cdEnd - max lo cdOffset), ?_⟩
      rw [hcdBuf, ← hpre, overwrite_after, slice_append _ (by omega) (by omega),
        slice_length (by omega), hreached']
  · have hreached : min (max hi cdOffset) cdEnd = min (max lo cdOffset) cdEnd := by omega
    rw [if_neg hlt]
    exact ⟨hlen, rest, by rw [hreached]; exact hcdBuf⟩

theorem copyCdRanges_filled {archive cdBuf : List UInt8} {cdOffset cdEnd lo hi : ℕ}
    {ranges : List CdPartRange} (htile : RangesTile lo hi ranges) (hhi : hi ≤ archive.length)
    (hsize : archive.length < 2 ^ 64) (hcd : cdOffset ≤ cdEnd) (hend : cdEnd ≤ archive.length)
    (h : Filled archive cdOffset cdEnd lo cdBuf) :
    Filled archive cdOffset cdEnd hi (copyCdRanges cdOffset cdEnd cdBuf ranges
      (ranges.map fun r ↦ slice archive r.start (r.rangeEnd + 1))) := by
  induction ranges generalizing lo cdBuf with
  | nil =>
    obtain rfl : lo = hi := htile
    exact h
  | cons r ranges ih =>
    obtain ⟨rfl, hle, hrest⟩ := htile
    have hnext := hrest.le
    have hlen : (slice archive r.start (r.rangeEnd + 1)).length ≠ 0 := by
      rw [slice_length (by omega)]
      omega
    rw [List.map_cons, copyCdRanges, if_neg hlen, Nat.mod_eq_of_lt (by omega)]
    exact ih hrest (copyCdData_filled (by omega) (by omega) hcd hend h)

theorem Filled.complete {archive cdBuf : List UInt8} {cdOffset cdEnd p : ℕ}
    (hend : cdEnd ≤ archive.length) (hp : cdEnd ≤ p) (h : Filled archive cdOffset cdEnd p cdBuf) :
    cdBuf = slice archive cdOffset cdEnd := by
  obtain ⟨hlen, rest, hcdBuf⟩ := h
  rw [show min (max p cdOffset) cdEnd = cdEnd by omega] at hcdBuf
  have hrest : rest = [] := by
    rw [hcdBuf, List.length_append, slice_length hend] at hlen
    exact List.eq_nil_of_length_eq_zero (by omega)
  rw [hcdBuf, hrest, List.append_nil]

/-- The fetched ranges and the tail together give the central directory. -/
theorem assembleCdBuffer_cd {archive cdBuf : List UInt8} {initialStart cdOffset cdSize lo : ℕ}
    {ranges : List CdPartRange} (htile : RangesTile lo initialStart ranges) (hlo : lo ≤ cdOffset)
    (hoff : cdOffset < initialStart) (htail : initialStart ≤ archive.length)
    (hsize : archive.length < 2 ^ 63) (hend : cdOffset + cdSize ≤ archive.length)
    (hnew : cdBuf.length = cdSize) :
    (assembleCdBuffer cdBuf (archive.drop initialStart) initialStart ranges
      (ranges.map fun r ↦ slice archive r.start (r.rangeEnd + 1)) cdOffset cdSize).1 =
        slice archive cdOffset (cdOffset + cdSize) := by
  have hempty : Filled archive cdOffset (cdOffset + cdSize) lo cdBuf := by
    refine ⟨by omega, cdBuf, ?_⟩
    rw [slice_of_ge _ (by omega), List.nil_append]
  have hranges := copyCdRanges_filled htile htail (by omega) (by omega) hend hempty
  simp only [assembleCdBuffer, Nat.mod_eq_of_lt (show cdOffset + cdSize < 2 ^ 64 by omega),
    List.length_drop]
  by_cases hcopy : archive.length - initialStart > 0 ∧ initialStart < cdOffset + cdSize
  · have hlast := copyCdData_filled htail le_rfl (by omega) hend hranges
    rw [slice_zero_length le_rfl] at hlast
    rw [if_pos hcopy, show initialStart + (archive.length - initialStart) = archive.length by omega,
      Nat.mod_eq_of_lt (by omega)]
    exact hlast.complete hend hend
  · rw [if_neg hcopy]
    exact hranges.complete hend (by omega)

/-- Only the first range can hold body data. -/
theorem rangeBodySegment_eq {cdOffset partSize initialStart : ℕ} {ranges : List CdPartRange}
    (hpart : 0 < partSize) (hoff : cdOffset < initialStart)
    (htile : RangesTile (cdOffset / partSize * partSize) initialStart ranges)
    (hall : ∀ r ∈ ranges, IsCdRange cdOffset partSize initialStart r)
    (f : CdPartRange → List UInt8) :
    ∃ first rest, ranges = first :: rest ∧ first.start = cdOffset / partSize * partSize ∧
      cdOffset ≤ first.rangeEnd ∧
      rangeBodySegment ranges (ranges.map f) =
        if first.start < cdOffset then [⟨f first, cdOffset - first.start, first.start⟩] else [] := by
  have hdiv := Nat.div_add_mod cdOffset partSize
  have hmod := Nat.mod_lt cdOffset hpart
  rw [Nat.mul_comm] at hdiv
  cases ranges with
  | nil =>
    have : cdOffset / partSize * partSize = initialStart := htile
    omega
  | cons first rest =>
    obtain ⟨hstart, hle, hrest⟩ := htile
    have hfirst := hall first List.mem_cons_self
    have hlast := hfirst.rangeEnd_eq
    have hreach : cdOffset ≤ first.rangeEnd := by omega
    refine ⟨first, rest, rfl, hstart, hreach, ?_⟩
    have hbody : first.hasBodyData = decide (first.start < cdOffset) ∧
        (first.start < cdOffset → first.bodyDataSize = cdOffset - first.start) := by
      rw [hfirst.eq] at hreach ⊢
      refine ⟨rfl, fun hlt ↦ ?_⟩
      have hlt : first.start < cdOffset := hlt
      simp only [cdRangeAt, if_pos hlt] at hreach ⊢
      rw [if_neg (by omega)]
    have hnone : ∀ r ∈ (rest.zip (rest.map f)), ¬ (r.1.hasBodyData ∧ r.1.bodyDataSize > 0) := by
      intro r hr
      have hmem := (List.of_mem_zip hr).1
      have hrange := hall r.1 (List.mem_cons_of_mem _ hmem)
      have hge := hrest.first_ge hmem
      have hhas : r.1.hasBodyData = decide (r.1.start < cdOffset) := by
        rw [hrange.eq]
        rfl
      rw [hhas, decide_eq_true_eq]
      omega
    rw [rangeBodySegment, List.map_cons, List.zip_cons_cons]
    by_cases hlt : first.start < cdOffset
    · rw [List.find?_cons_of_pos (by
        simp only [hbody.1, hbody.2 hlt, decide_eq_true_eq]
        omega), if_pos hlt]
      dsimp only
      rw [hbody.2 hlt]
    · rw [List.find?_cons_of_neg (by
        simp only [hbody.1, decide_eq_true_eq]
        omega), if_neg hlt, List.find?_eq_none.mpr fun r hr ↦ by simpa using hnone r hr]

/-- What is fetched for a central directory that begins before the tail buffer: ranges that cut
everything from its part on at the part boundaries, from which it is put together again. -/
theorem calculateCdFetchRanges_assemble {archive : List UInt8}
    {initialStart cdOffset cdSize partSize : ℕ} (hpart : 0 < partSize) (hpart' : partSize < 2 ^ 64)
    (hsize : archive.length < 2 ^ 63) (htail : initialStart ≤ archive.length)
    (hoff : cdOffset < initialStart) (hend : cdOffset + cdSize ≤ archive.length)
    {ranges : List CdPartRange}
    (hranges : calculateCdFetchRanges cdOffset partSize initialStart = some ranges) :
    let firstStart := cdOffset / partSize * partSize
    ranges.Pairwise (fun r r' ↦ r.rangeEnd < r'.start) ∧
      ranges.IsChain (fun r r' ↦ r'.start = r.rangeEnd + 1) ∧
      (∀ r ∈ ranges, partSize ∣ r.start ∧ r.rangeEnd / partSize = r.start / partSize) ∧
      (∀ x, (∃ r ∈ ranges, r.start ≤ x ∧ x ≤ r.rangeEnd) ↔ firstStart ≤ x ∧ x < initialStart) ∧
      ∀ cdBuf, cdBuf.length = cdSize →
        ∃ segments, assembleCdBuffer cdBuf (archive.drop initialStart) initialStart ranges
            (ranges.map fun r ↦ slice archive r.start (r.rangeEnd + 1)) cdOffset cdSize =
              (slice archive cdOffset (cdOffset + cdSize), segments) ∧
          segments.flatMap (fun s ↦ s.data.take s.size) = slice archive firstStart cdOffset ∧
          ∀ s ∈ segments, s.archiveOffset = firstStart ∧ s.size = cdOffset - firstStart := by
  intro firstStart
  have hfirst : firstStart ≤ cdOffset := Nat.div_mul_le_self cdOffset partSize
  have hfit : firstStart + partSize < 2 ^ 64 := by
    by_cases hbig : cdOffset < partSize
    · have : firstStart = 0 := by
        rw [show firstStart = cdOffset / partSize * partSize from rfl, Nat.div_eq_of_lt hbig,
          Nat.zero_mul]
      omega
    · omega
  obtain ⟨htile, hall⟩ : RangesTile firstStart initialStart ranges ∧
      ∀ r ∈ ranges, IsCdRange cdOffset partSize initialStart r := by
    rw [calculateCdFetchRanges, if_neg (by omega)] at hranges
    dsimp only at hranges
    rw [if_neg (show ¬ firstStart ≥ initialStart by omega)] at hranges
    have hfill := @fillCdRanges_tile cdOffset partSize initialStart hpart (by omega)
      (initialStart + 1) firstStart (by omega) (Nat.dvd_mul_left _ _) (by omega) hfit
    split at hranges
    · next hzero =>
      obtain rfl := Option.some.inj hranges
      rwa [hzero, fillCdRanges] at hfill
    · split at hranges
      · cases hranges
      · obtain rfl := Option.some.inj hranges
        exact hfill
  obtain ⟨first, rest, rfl, hstart, hreach, hsegments⟩ := rangeBodySegment_eq hpart hoff htile hall
    fun r ↦ slice archive r.start (r.rangeEnd + 1)
  change first.start = firstStart at hstart
  refine ⟨htile.pairwise, htile.isChain, fun r hr ↦ ⟨(hall r hr).part, ?_⟩, htile.covers,
    fun cdBuf hnew ↦ ?_⟩
  · obtain ⟨k, hk⟩ := (hall r hr).part
    have hrangeEnd := (hall r hr).rangeEnd_eq
    have hlt := (hall r hr).start_lt
    rw [hk, Nat.mul_div_cancel_left k hpart]
    have hlo : partSize * k ≤ r.rangeEnd := by omega
    have hhi : r.rangeEnd < partSize * (k + 1) := by
      rw [Nat.mul_succ]
      omega
    exact Nat.div_eq_of_lt_le (by rwa [Nat.mul_comm]) (by rwa [Nat.mul_comm])
  · refine ⟨_, Prod.ext (assembleCdBuffer_cd htile hfirst hoff htail hsize hend hnew) rfl, ?_⟩
    change (rangeBodySegment _ _).flatMap _ = _ ∧ ∀ s ∈ rangeBodySegment _ _, _
    rw [hsegments]
    by_cases hlt : first.start < cdOffset
    · rw [if_pos hlt, List.flatMap_singleton, hstart]
      refine ⟨?_, by simp⟩
      dsimp only
      rw [slice, List.take_take, slice]
      congr 1
      have hlast := (hall first List.mem_cons_self).rangeEnd_eq
      omega
    · rw [if_neg hlt, List.flatMap_nil, slice_of_ge _ (by omega)]
      exact ⟨rfl, by simp⟩

/-- An archive of 40 bytes in parts of 8, its central directory in the second one. -/
def fortyBytes : List UInt8 := (List.range 40).map UInt8.ofNat

def fortyBytesRanges : List CdPartRange :=
  [⟨8, 15, true, 5⟩, ⟨16, 23, false, 0⟩, ⟨24, 29, false, 0⟩]

theorem calculateCdFetchRanges_assemble_sample :
    fortyBytesRanges.Pairwise (fun r r' ↦ r.rangeEnd < r'.start) ∧
      fortyBytesRanges.IsChain (fun r r' ↦ r'.start = r.rangeEnd + 1) ∧
      (∀ r ∈ fortyBytesRanges, 8 ∣ r.start ∧ r.rangeEnd / 8 = r.start / 8) ∧
      (∀ x, (∃ r ∈ fortyBytesRanges, r.start ≤ x ∧ x ≤ r.rangeEnd) ↔ 13 / 8 * 8 ≤ x ∧ x < 30) ∧
      ∀ cdBuf, cdBuf.length = 20 →
        ∃ segments, assembleCdBuffer cdBuf (fortyBytes.drop 30) 30 fortyBytesRanges
            (fortyBytesRanges.map fun r ↦ slice fortyBytes r.start (r.rangeEnd + 1)) 13 20 =
              (slice fortyBytes 13 (13 + 20), segments) ∧
          segments.flatMap (fun s ↦ s.data.take s.size) = slice fortyBytes (13 / 8 * 8) 13 ∧
          ∀ s ∈ segments, s.archiveOffset = 13 / 8 * 8 ∧ s.size = 13 - 13 / 8 * 8 :=
  calculateCdFetchRanges_assemble (by decide) (by decide) (by decide) (by decide) (by decide)
    (by decide) (by decide)

end Burst
