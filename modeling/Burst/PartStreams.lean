import Burst.BoundaryDetection
import Burst.DownloadCoordinator
import Burst.Downloader
import Burst.HybridCoordinator
import Burst.PartReading
import Burst.WholeExtraction

namespace Burst

open Slices Tiling

/-- The part sizes that the command line accepts. -/
def AcceptedPartSize (partSize : ℕ) : Prop :=
  ∃ partSizeMib, 8 ≤ partSizeMib ∧ partSizeMib ≤ 64 ∧ partSizeMib % 8 = 0 ∧
    partSize = partSizeMib * 1024 * 1024

/-- The bytes that the processor of a part is fed, and whether neither the request for them nor the processor
has failed before. -/
structure PartStream where
  part : ℕ
  bytes : List UInt8
  complete : Bool

/-- The stream is what the archive has from the start of the part on, and it reaches the end of the part's body
unless something has failed. -/
structure PartStream.IsSlice (s : PartStream) (archive : List UInt8) (partSize centralDirOffset : ℕ) : Prop where
  bytes : s.bytes <+: archive.drop (s.part * partSize)
  reaches : s.complete = true →
    min ((s.part + 1) * partSize) centralDirOffset ≤ s.part * partSize + s.bytes.length

/-- The first and the last byte that `start_part_download_async` and `hybrid_start_part_download` ask for. -/
def partRange (partSize p : ℕ) : ℕ × ℕ :=
  (partStart partSize p, sub64 ((partStart partSize p + partSize) % 2 ^ 64) 1)

/-- A download feeds the bytes it has asked for, or those that came before it failed. -/
def PartStream.Downloaded (s : PartStream) (archive : List UInt8) (partSize : ℕ) : Prop :=
  let (first, last) := partRange partSize s.part
  s.bytes <+: slice archive first (last + 1) ∧ (s.complete = true → s.bytes = slice archive first (last + 1))

/-- `newMemory` is what is in the memory that `malloc` gives. -/
def hybridAssembleAndParseCd (partSize : ℕ) (newMemory : ℕ → List UInt8) (tail : List UInt8)
    (initialStart archiveSize : ℕ) (ranges : List CdPartRange) (buffers : List (List UInt8)) :
    Option (CentralDirParseResult × List BodyDataSegment) :=
  match centralDirParseEocdOnly tail archiveSize with
  | .error _ => none
  | .ok loc =>
    let (assembledCd, segments) := assembleCdBuffer (newMemory loc.centralDirSize) tail initialStart ranges
      buffers loc.centralDirOffset loc.centralDirSize
    let segments := addTailBufferSegment segments tail initialStart loc.centralDirOffset
    match centralDirParseFromCdBuffer assembledCd loc.centralDirOffset loc.centralDirSize archiveSize partSize
      loc.isZip64 with
    | .error _ => none
    | .ok fullCd => some (fullCd, segments)

/-- What `hybrid_coordinator_run` feeds the processor of a part from a segment that covers it. -/
def hybridBodyData (partSize centralDirOffset p : ℕ) (segment : BodyDataSegment) : List UInt8 :=
  let offsetInSeg := partStart partSize p - segment.archiveOffset
  slice segment.data offsetInSeg
    (offsetInSeg + (partBodyEnd partSize centralDirOffset p - partStart partSize p))

/-- The call of `burst_downloader_extract_concurrent`. -/
def concurrentCall (maxConcurrent partSize : ℕ) (cdResult : CentralDirParseResult)
    (segments : List BodyDataSegment) : ConcurrentExtraction where
  maxConcurrent := maxConcurrent
  numParts := cdResult.parts.length
  partSize := partSize
  centralDirOffset := cdResult.centralDirOffset
  bodySegments := segments

/-- The streams that a plan may come to, in whatever order its requests are answered. A processor has the part
number of its part in 32 bits. -/
inductive ExtractPlan.Feeds (archive : List UInt8) (partSize initialStart : ℕ) (newMemory : ℕ → List UInt8) :
    ExtractPlan → PartStream → Prop where
  | singlePart {cdResult tail complete} : Feeds archive partSize initialStart newMemory
      (.singlePart cdResult tail) ⟨0, (singlePartChunks cdResult tail).flatten, complete⟩
  | download {maxConcurrent cdResult segments p s} : p < cdResult.parts.length →
      ¬ (concurrentCall maxConcurrent partSize cdResult segments).PartHasFullBodyData p →
      s.part = p % 2 ^ 32 → s.Downloaded archive partSize →
      Feeds archive partSize initialStart newMemory (.concurrent cdResult segments) s
  | segment {maxConcurrent cdResult segments segment p complete} : p < cdResult.parts.length →
      (concurrentCall maxConcurrent partSize cdResult segments).PartHasFullBodyData p →
      findBodySegmentForOffset segments (partStart partSize p) = some segment →
      partStart partSize (p % 2 ^ 32) < partBodyEnd partSize cdResult.centralDirOffset (p % 2 ^ 32) →
      Feeds archive partSize initialStart newMemory (.concurrent cdResult segments)
        ⟨p % 2 ^ 32, (bodyDataChunks partSize cdResult.centralDirOffset (p % 2 ^ 32) segment).flatten, complete⟩
  | hybridDownload {partialCd ranges tail s} : s.part < 2 ^ 32 → s.Downloaded archive partSize →
      Feeds archive partSize initialStart newMemory (.hybrid partialCd ranges tail) s
  | hybridSegment {partialCd ranges tail fullCd segments segment p complete} :
      hybridAssembleAndParseCd partSize newMemory tail initialStart archive.length ranges
        (ranges.map fun r ↦ slice archive r.start (r.rangeEnd + 1)) = some (fullCd, segments) →
      p < fullCd.parts.length →
      partStart partSize p < partBodyEnd partSize fullCd.centralDirOffset p →
      segments.find? (fun segment ↦ segment.Covers partSize fullCd.centralDirOffset p) = some segment →
      Feeds archive partSize initialStart newMemory (.hybrid partialCd ranges tail)
        ⟨p % 2 ^ 32, hybridBodyData partSize fullCd.centralDirOffset p segment, complete⟩

/-- The tail, taken from its first byte on, gives the archive's bytes up to the central directory. -/
def TailHoldsBody (archive : List UInt8) (centralDirOffset : ℕ) : Prop :=
  archive.length ≤ burstPartSize ∨ centralDirOffset ≤ burstPartSize ∧
    (archive.drop (archive.length - burstPartSize)).take centralDirOffset = archive.take centralDirOffset

/-- The part with the last body data. -/
def lastBodyPart (partSize centralDirOffset : ℕ) : ℕ := (centralDirOffset - 1) / partSize

/-- The number of the last part with body data does not fit 32 bits, and the part lies in the tail, or in the
range with which the central directory begins. -/
def CutPartBuffered (partSize initialStart centralDirOffset : ℕ) : Prop :=
  2 ^ 32 * partSize < centralDirOffset ∧
    if centralDirOffset < initialStart then centralDirOffset % partSize ≠ 0
    else initialStart ≤ lastBodyPart partSize centralDirOffset * partSize

/-- What the branch that a plan takes asks of the archive. -/
def ExtractPlan.Suits (archive : List UInt8) (partSize initialStart centralDirOffset : ℕ)
    (newMemory : ℕ → List UInt8) : ExtractPlan → Prop
  | .failed => True
  | .singlePart _ _ => TailHoldsBody archive centralDirOffset
  | .concurrent _ _ => ¬ CutPartBuffered partSize initialStart centralDirOffset
  | .hybrid _ ranges tail => CutPartBuffered partSize initialStart centralDirOffset →
      hybridAssembleAndParseCd partSize newMemory tail initialStart archive.length ranges
        (ranges.map fun r ↦ slice archive r.start (r.rangeEnd + 1)) = none

section

variable {archive : List UInt8} {partSize start : ℕ} {newMemory : ℕ → List UInt8} {loc : CentralDirLocation}
  {s : PartStream}

theorem AcceptedPartSize.ge (h : AcceptedPartSize partSize) : burstPartSize ≤ partSize := by
  obtain ⟨partSizeMib, hge, -, -, rfl⟩ := h
  rw [burstPartSize]
  omega

theorem AcceptedPartSize.le (h : AcceptedPartSize partSize) : partSize ≤ 2 ^ 26 := by
  obtain ⟨partSizeMib, -, hle, -, rfl⟩ := h
  omega

theorem AcceptedPartSize.pos (h : AcceptedPartSize partSize) : 0 < partSize := by
  have hge := h.ge
  rw [burstPartSize] at hge
  omega

/-- The part numbers that fit 32 bits do not reach the end of the 64-bit offsets. -/
theorem AcceptedPartSize.start_lt (h : AcceptedPartSize partSize) {p : ℕ} (hp : p < 2 ^ 32) :
    p * partSize + partSize < 2 ^ 64 := by
  have hstart : p * partSize ≤ 2 ^ 32 * 2 ^ 26 := Nat.mul_le_mul hp.le h.le
  have hle := h.le
  omega

/-- A download asks for its part. -/
theorem partRange_eq (h : AcceptedPartSize partSize) {p : ℕ} (hp : p < 2 ^ 32) :
    partRange partSize p = (p * partSize, (p + 1) * partSize - 1) := by
  have hfit := h.start_lt hp
  have hstart : partStart partSize p = p * partSize := Nat.mod_eq_of_lt (by omega)
  have hpos := h.pos
  rw [partRange, hstart, Nat.mod_eq_of_lt hfit, sub64_of_le (by omega) hfit, Nat.add_one_mul]

theorem PartStream.Downloaded.isSlice (h : s.Downloaded archive partSize) (haccepted : AcceptedPartSize partSize)
    (hp : s.part < 2 ^ 32) {centralDirOffset : ℕ} (hoff : centralDirOffset ≤ archive.length) :
    s.IsSlice archive partSize centralDirOffset := by
  have hpos := haccepted.pos
  have hend : (s.part + 1) * partSize - 1 + 1 = (s.part + 1) * partSize := by
    rw [Nat.add_one_mul]
    omega
  rw [PartStream.Downloaded, partRange_eq haccepted hp] at h
  dsimp only at h
  rw [hend] at h
  obtain ⟨hbegins, hcomplete⟩ := h
  constructor
  · exact hbegins.trans (List.take_prefix _ _)
  · intro hdone
    rw [hcomplete hdone, slice, List.length_take, List.length_drop]
    omega

/-- What the archive has from the start of a part up to the end of its body. -/
theorem PartStream.isSlice_body {p centralDirOffset : ℕ} (hoff : centralDirOffset ≤ archive.length)
    (complete : Bool) :
    PartStream.IsSlice ⟨p, slice archive (p * partSize) (min ((p + 1) * partSize) centralDirOffset), complete⟩
      archive partSize centralDirOffset where
  bytes := List.take_prefix _ _
  reaches _ := by
    have hend : min ((p + 1) * partSize) centralDirOffset ≤ archive.length := by omega
    dsimp only
    rw [slice_length hend]
    omega

theorem lastBodyPart_lt {centralDirOffset : ℕ} (hpos : 0 < centralDirOffset) :
    lastBodyPart partSize centralDirOffset * partSize < centralDirOffset := by
  have hle := Nat.div_mul_le_self (centralDirOffset - 1) partSize
  rw [lastBodyPart]
  omega

theorem le_lastBodyPart_end (hpart : 0 < partSize) (centralDirOffset : ℕ) :
    centralDirOffset ≤ lastBodyPart partSize centralDirOffset * partSize + partSize := by
  have hdiv := Nat.div_add_mod (centralDirOffset - 1) partSize
  have hmod := Nat.mod_lt (centralDirOffset - 1) hpart
  rw [Nat.mul_comm] at hdiv
  rw [lastBodyPart]
  omega

theorem eq_lastBodyPart {p centralDirOffset : ℕ} (hpart : 0 < partSize)
    (hstart : p * partSize < centralDirOffset) (hend : centralDirOffset ≤ (p + 1) * partSize) :
    p = lastBodyPart partSize centralDirOffset := by
  rw [lastBodyPart, eq_comm, Nat.div_eq_iff hpart]
  rw [Nat.add_one_mul] at hend
  omega

/-- The segments with which parts are processed: none is longer than a part, and one has the body of the last
part where that lies in memory. -/
structure BodySegments (archive : List UInt8) (start partSize centralDirOffset : ℕ)
    (segments : List BodyDataSegment) : Prop where
  holds : ∀ segment ∈ segments, segment.HoldsTo archive centralDirOffset
  short : ∀ segment ∈ segments, centralDirOffset ≤ segment.archiveOffset + partSize
  buffered : 2 ^ 32 * partSize < centralDirOffset →
    (CutPartBuffered partSize start centralDirOffset ↔
      ∃ segment ∈ segments, segment.archiveOffset ≤ lastBodyPart partSize centralDirOffset * partSize)

/-- The segment of a range that begins before the central directory. -/
theorem bodySegments_range {centralDirOffset : ℕ} (hpart : 0 < partSize) (hoff : centralDirOffset < start)
    {ranges : List CdPartRange} (htile : RangesTile (centralDirOffset / partSize * partSize) start ranges)
    (hall : ∀ r ∈ ranges, IsCdRange centralDirOffset partSize start r) :
    BodySegments archive start partSize centralDirOffset
      (rangeBodySegment ranges (ranges.map fun r ↦ slice archive r.start (r.rangeEnd + 1))) := by
  have hdiv := Nat.div_add_mod centralDirOffset partSize
  have hmod := Nat.mod_lt centralDirOffset hpart
  rw [Nat.mul_comm] at hdiv
  obtain ⟨-, hholds⟩ := @rangeBodySegment_holdsTo archive _ _ _ _ hpart hoff htile hall
  obtain ⟨first, rest, -, hfirst, -, hsegments⟩ := rangeBodySegment_eq hpart hoff htile hall
    fun r ↦ slice archive r.start (r.rangeEnd + 1)
  rw [hfirst] at hsegments
  refine ⟨hholds, ?_, ?_⟩
  · rw [hsegments]
    split
    · rw [List.forall_mem_singleton]
      dsimp only
      omega
    · exact List.forall_mem_nil _
  · intro hcut
    rw [CutPartBuffered, and_iff_right hcut, if_pos hoff, hsegments]
    constructor
    · intro hne
      have hbegins : centralDirOffset / partSize * partSize < centralDirOffset := by omega
      have hlast : centralDirOffset / partSize = lastBodyPart partSize centralDirOffset :=
        eq_lastBodyPart hpart hbegins (by rw [Nat.add_one_mul]; omega)
      rw [if_pos hbegins]
      exact ⟨_, List.mem_singleton_self _, (congrArg (· * partSize) hlast).le⟩
    · rintro ⟨segment, hmem, -⟩ hzero
      rw [if_neg (by omega)] at hmem
      cases hmem

/-- The segment of the tail. -/
theorem bodySegments_tail {centralDirOffset : ℕ} (hpart : burstPartSize ≤ partSize)
    (hstart : start = archive.length - burstPartSize) (hge : start ≤ centralDirOffset)
    (hoff : centralDirOffset ≤ archive.length) (hsize : archive.length < 2 ^ 64) :
    BodySegments archive start partSize centralDirOffset
      (addTailBufferSegment [] (archive.drop start) start centralDirOffset) := by
  have hbelow : start ≤ archive.length := hge.trans hoff
  refine ⟨addTailBufferSegment_holdsTo (List.forall_mem_nil _) hbelow hoff hsize, ?_, ?_⟩
  · rw [addTailBufferSegment_eq hbelow hoff hsize]
    split
    · exact List.forall_mem_nil _
    · rw [List.nil_append, List.forall_mem_singleton]
      dsimp only
      omega
  · intro hcut
    have hlast := @lastBodyPart_lt partSize centralDirOffset (by omega)
    rw [CutPartBuffered, and_iff_right hcut, if_neg (by omega), addTailBufferSegment_eq hbelow hoff hsize]
    constructor
    · intro hle
      rw [if_neg (by omega)]
      exact ⟨_, List.mem_singleton_self _, hle⟩
    · rintro ⟨segment, hmem, hle⟩
      split at hmem
      · cases hmem
      · rwa [List.mem_singleton.mp hmem] at hle

/-- A part that begins in a segment is the last one. -/
theorem BodySegments.part_eq {centralDirOffset : ℕ} {segments : List BodyDataSegment}
    (h : BodySegments archive start partSize centralDirOffset segments) (hpart : 0 < partSize)
    {segment : BodyDataSegment} (hmem : segment ∈ segments) {p : ℕ} (hbody : p * partSize < centralDirOffset)
    (hle : segment.archiveOffset ≤ p * partSize) : p = lastBodyPart partSize centralDirOffset := by
  have hshort := h.short segment hmem
  refine eq_lastBodyPart hpart hbody ?_
  rw [Nat.add_one_mul]
  omega

/-- Part numbers fit 32 bits where a segment is used, unless the last part is cut to another one. -/
theorem BodySegments.part_lt {centralDirOffset : ℕ} {segments : List BodyDataSegment}
    (h : BodySegments archive start partSize centralDirOffset segments) (hpart : 0 < partSize)
    (hcut : ¬ CutPartBuffered partSize start centralDirOffset) {segment : BodyDataSegment}
    (hmem : segment ∈ segments) {p : ℕ} (hbody : p * partSize < centralDirOffset)
    (hle : segment.archiveOffset ≤ p * partSize) : p < 2 ^ 32 := by
  by_contra hlarge
  have hmany : 2 ^ 32 * partSize ≤ p * partSize := Nat.mul_le_mul_right _ (Nat.le_of_not_lt hlarge)
  apply hcut
  rw [h.buffered (hmany.trans_lt hbody), ← h.part_eq hpart hmem hbody hle]
  exact ⟨segment, hmem, hle⟩

/-- The last part, when its number does not fit. -/
theorem CutPartBuffered.part {centralDirOffset : ℕ} (h : CutPartBuffered partSize start centralDirOffset)
    (hpart : 0 < partSize) : 2 ^ 32 ≤ lastBodyPart partSize centralDirOffset ∧
      lastBodyPart partSize centralDirOffset * partSize < centralDirOffset := by
  have hmany := h.1
  refine ⟨?_, lastBodyPart_lt (by omega)⟩
  rw [lastBodyPart, Nat.le_div_iff_mul_le hpart]
  omega

/-- The part to which it is cut lies well before it. -/
theorem cut_part_before {p : ℕ} (hlarge : 2 ^ 32 ≤ p) (partSize : ℕ) :
    (p % 2 ^ 32 + 1) * partSize + partSize ≤ p * partSize := by
  have hmod := Nat.mod_lt p (show 0 < 2 ^ 32 by norm_num)
  have hle : p % 2 ^ 32 + 2 ≤ p := by omega
  have hmul := Nat.mul_le_mul_right partSize hle
  simp only [Nat.add_mul] at hmul ⊢
  omega

theorem partHasBody_lt {centralDirOffset p bound : ℕ} (hp : p * partSize < bound) (hbound : bound < 2 ^ 64)
    (hbody : partStart partSize p < partBodyEnd partSize centralDirOffset p) :
    p * partSize < centralDirOffset := by
  rw [partStart_eq hp hbound] at hbody
  exact hbody.trans_le (Nat.min_le_right _ _)

theorem partHasBody_of_lt {centralDirOffset p : ℕ} (hpart : 0 < partSize) (hbody : p * partSize < centralDirOffset)
    (hsize : centralDirOffset + partSize < 2 ^ 64) :
    partStart partSize p < partBodyEnd partSize centralDirOffset p := by
  rw [partStart_eq hbody (by omega), partBodyEnd_eq hbody hsize, Nat.add_one_mul]
  omega

/-- What the hybrid path takes from a segment. -/
theorem hybridBodyData_eq {centralDirOffset p : ℕ} {segment : BodyDataSegment}
    (h : segment.HoldsTo archive centralDirOffset) (hpart : 0 < partSize) (hbody : p * partSize < centralDirOffset)
    (hsize : centralDirOffset + partSize < 2 ^ 64) (hle : segment.archiveOffset ≤ p * partSize) :
    hybridBodyData partSize centralDirOffset p segment =
      slice archive (p * partSize) (min ((p + 1) * partSize) centralDirOffset) := by
  have hend : (p + 1) * partSize = p * partSize + partSize := Nat.add_one_mul p partSize
  rw [hybridBodyData, partStart_eq hbody (by omega), partBodyEnd_eq hbody hsize]
  exact h.slice_data hle (Nat.min_le_right _ _) (by omega)

/-- The stream of the only part. -/
theorem singlePartChunks_flatten (cdResult : CentralDirParseResult) (buffer : List UInt8) :
    (singlePartChunks cdResult buffer).flatten = buffer.take cdResult.centralDirOffset := by
  have hmin : buffer.take (min cdResult.centralDirOffset buffer.length) =
      buffer.take cdResult.centralDirOffset := by
    rw [List.take_eq_take_iff]
    omega
  rw [singlePartChunks]
  split
  · rw [List.flatten_singleton, hmin]
  · next hzero => rw [← hmin, Nat.eq_zero_of_not_pos hzero, List.take_zero, List.flatten_nil]

/-- A plan goes on with the tail and with segments of the archive. -/
def ExtractPlan.Holds (archive : List UInt8) (start partSize centralDirOffset : ℕ) : ExtractPlan → Prop
  | .failed => True
  | .hybrid _ ranges tail => tail = archive.drop start ∧ centralDirOffset < start ∧
      calculateCdFetchRanges centralDirOffset partSize start = some ranges
  | .singlePart cdResult tail => tail = archive.drop start ∧ cdResult.centralDirOffset = centralDirOffset ∧
      numPartsFor archive.length partSize ≤ 1
  | .concurrent cdResult segments => cdResult.centralDirOffset = centralDirOffset ∧
      cdResult.parts.length = numPartsFor archive.length partSize ∧
      BodySegments archive start partSize centralDirOffset segments

theorem extractFrom_holds {cdData : List UInt8} {segments : List BodyDataSegment}
    (hsegments : BodySegments archive start partSize loc.centralDirOffset
      (addTailBufferSegment segments (archive.drop start) start loc.centralDirOffset)) :
    (extractFrom partSize (archive.drop start) start archive.length loc cdData segments).Holds archive start
      partSize loc.centralDirOffset := by
  rw [extractFrom]
  split
  · trivial
  · next cdResult hparse =>
    have hoffset := centralDirParseFromCdBuffer_offset hparse
    have hparts := (centralDirParseFromCdBuffer_parsed hparse).numParts
    split
    · next hone => exact ⟨rfl, hoffset, hparts ▸ hone⟩
    · refine ⟨hoffset, hparts, ?_⟩
      rwa [hoffset]

/-- The segment of the first range, with nothing in front of the central directory in the tail. -/
theorem bodySegments_fetched {centralDirOffset : ℕ} (hpart : 0 < partSize) (hpart' : partSize < 2 ^ 64)
    (hoff : centralDirOffset < start) (hstart : start ≤ archive.length) (hsize : archive.length < 2 ^ 63)
    {ranges : List CdPartRange}
    (hcalculated : calculateCdFetchRanges centralDirOffset partSize start = some ranges) :
    ranges ≠ [] ∧ BodySegments archive start partSize centralDirOffset
      (addTailBufferSegment
        (rangeBodySegment ranges (ranges.map fun r ↦ slice archive r.start (r.rangeEnd + 1)))
        (archive.drop start) start centralDirOffset) := by
  obtain ⟨htile, hall⟩ := calculateCdFetchRanges_tile hpart hpart' (by omega) hoff hcalculated
  obtain ⟨hne, -⟩ := @rangeBodySegment_holdsTo archive _ _ _ _ hpart hoff htile hall
  rw [addTailBufferSegment_eq hstart (by omega) (by omega), if_pos hoff.le]
  exact ⟨hne, bodySegments_range hpart hoff htile hall⟩

theorem extractLocated_holds (haccepted : AcceptedPartSize partSize)
    (hstart : start = archive.length - burstPartSize) (hoff : loc.centralDirOffset ≤ archive.length)
    (hsize : archive.length < 2 ^ 63) {fetchRanges : List CdPartRange → Option (List (List UInt8))}
    (hranges : ∀ ranges buffers, fetchRanges ranges = some buffers →
      buffers = ranges.map fun r ↦ slice archive r.start (r.rangeEnd + 1)) (newMemory : ℕ → List UInt8) :
    (extractLocated partSize fetchRanges newMemory (archive.drop start) start archive.length loc).Holds archive
      start partSize loc.centralDirOffset := by
  have hpart := haccepted.le
  have hbelow : start ≤ archive.length := hstart.trans_le (Nat.sub_le _ _)
  rw [extractLocated]
  split
  · next hbefore =>
    split
    · trivial
    · next ranges hcalculated =>
      obtain ⟨hne, hsegments⟩ := bodySegments_fetched haccepted.pos (by omega) hbefore hbelow hsize hcalculated
      split
      · exact ⟨rfl, hbefore, hcalculated⟩
      · rw [if_pos hne]
        split
        · trivial
        · next buffers hfetched =>
          rw [hranges ranges buffers hfetched]
          exact extractFrom_holds hsegments
  · next hafter =>
    exact extractFrom_holds (bodySegments_tail haccepted.ge hstart (Nat.le_of_not_lt hafter) hoff (by omega))

/-- The segments that the hybrid path has in the end. -/
theorem hybridAssembleAndParseCd_holds (haccepted : AcceptedPartSize partSize) (hstart : start ≤ archive.length)
    (hoff : loc.centralDirOffset < start) (hsize : archive.length < 2 ^ 63)
    (hloc : centralDirParseEocdOnly (archive.drop start) archive.length = .ok loc) {ranges : List CdPartRange}
    (hcalculated : calculateCdFetchRanges loc.centralDirOffset partSize start = some ranges)
    {fullCd : CentralDirParseResult} {segments : List BodyDataSegment}
    (h : hybridAssembleAndParseCd partSize newMemory (archive.drop start) start archive.length ranges
      (ranges.map fun r ↦ slice archive r.start (r.rangeEnd + 1)) = some (fullCd, segments)) :
    (ExtractPlan.concurrent fullCd segments).Holds archive start partSize loc.centralDirOffset := by
  have hpart := haccepted.le
  obtain ⟨-, hsegments⟩ := bodySegments_fetched haccepted.pos (by omega) hoff hstart hsize hcalculated
  rw [hybridAssembleAndParseCd, hloc] at h
  dsimp only at h
  split at h
  · cases h
  · next hparse =>
    obtain ⟨rfl, rfl⟩ := Prod.mk.inj (Option.some.inj h)
    exact ⟨centralDirParseFromCdBuffer_offset hparse, (centralDirParseFromCdBuffer_parsed hparse).numParts,
      hsegments⟩

end

end Burst
