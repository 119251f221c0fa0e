import Burst.CdRangeBuffers
import Burst.PartialCentralDir

namespace Burst

open FormattedText LittleEndian Slices

/-- How `burst_downloader_extract` goes on once it has a central directory, or a part of it. -/
inductive ExtractPlan where
  | failed
  | hybrid (partialCd : CentralDirParseResult) (ranges : List CdPartRange) (tail : List UInt8)
  | singlePart (cdResult : CentralDirParseResult) (tail : List UInt8)
  | concurrent (cdResult : CentralDirParseResult) (segments : List BodyDataSegment)
  deriving DecidableEq, Repr

/-- The entries that the tail buffer holds, when the archive says where they begin. -/
def partialCentralDir (partSize : ℕ) (tail : List UInt8) (initialStart objectSize : ℕ)
    (loc : CentralDirLocation) (ranges : List CdPartRange) : Option CentralDirParseResult :=
  if loc.firstCdfhOffsetInTail ≠ 0 ∧ loc.firstCdfhOffsetInTail ≠ burstEocdNoCdfhInTail ∧ ranges ≠ [] then
    match centralDirParsePartial tail initialStart loc.centralDirOffset loc.firstCdfhOffsetInTail objectSize
      partSize loc.isZip64 with
    | .error _ => none
    | .ok partialCd => if partialCd.files ≠ [] then some partialCd else none
  else none

/-- The steps from the parse of the central directory on. -/
def extractFrom (partSize : ℕ) (tail : List UInt8) (initialStart objectSize : ℕ) (loc : CentralDirLocation)
    (cdData : List UInt8) (segments : List BodyDataSegment) : ExtractPlan :=
  match centralDirParseFromCdBuffer cdData loc.centralDirOffset loc.centralDirSize objectSize partSize
    loc.isZip64 with
  | .error _ => .failed
  | .ok cdResult =>
    if cdResult.parts.length ≤ 1 then .singlePart cdResult tail
    else .concurrent cdResult (addTailBufferSegment segments tail initialStart cdResult.centralDirOffset)

/-- The steps from the parse of the end records on. -/
def extractLocated (partSize : ℕ) (fetchRanges : List CdPartRange → Option (List (List UInt8)))
    (newMemory : ℕ → List UInt8) (tail : List UInt8) (initialStart objectSize : ℕ)
    (loc : CentralDirLocation) : ExtractPlan :=
  if loc.centralDirOffset < initialStart then
    match calculateCdFetchRanges loc.centralDirOffset partSize initialStart with
    | none => .failed
    | some ranges =>
      match partialCentralDir partSize tail initialStart objectSize loc ranges with
      | some partialCd => .hybrid partialCd ranges tail
      | none =>
        if ranges ≠ [] then
          match fetchRanges ranges with
          | none => .failed
          | some buffers =>
            let (cdBuffer, segments) := assembleCdBuffer (newMemory loc.centralDirSize) tail initialStart
              ranges buffers loc.centralDirOffset loc.centralDirSize
            extractFrom partSize tail initialStart objectSize loc cdBuffer segments
        else extractFrom partSize tail initialStart objectSize loc
          (tail.drop (sub64 loc.centralDirOffset initialStart)) []
  else extractFrom partSize tail initialStart objectSize loc
    (tail.drop (loc.centralDirOffset - initialStart)) []

/-- `burst_downloader_extract` up to where it hands the work on. `fetchRanges` gives the buffers of
`burst_downloader_fetch_cd_ranges`, and `newMemory` what is in the memory that `malloc` gives. -/
def burstDownloaderExtract (partSize : ℕ) (response : Response)
    (fetchRanges : List CdPartRange → Option (List (List UInt8))) (newMemory : ℕ → List UInt8) :
    ExtractPlan :=
  match burstDownloaderFetchCdPart response with
  | none => .failed
  | some (tail, initialStart, objectSize) =>
    match centralDirParseEocdOnly tail objectSize with
    | .error _ => .failed
    | .ok loc => extractLocated partSize fetchRanges newMemory tail initialStart objectSize loc

theorem burstDownloaderExtract_located {partSize : ℕ} {response : Response}
    {fetchRanges : List CdPartRange → Option (List (List UInt8))} {newMemory : ℕ → List UInt8}
    {tail : List UInt8} {initialStart objectSize : ℕ} {loc : CentralDirLocation}
    (hfetched : burstDownloaderFetchCdPart response = some (tail, initialStart, objectSize))
    (hloc : centralDirParseEocdOnly tail objectSize = .ok loc) :
    burstDownloaderExtract partSize response fetchRanges newMemory =
      extractLocated partSize fetchRanges newMemory tail initialStart objectSize loc := by
  rw [burstDownloaderExtract, hfetched]
  dsimp only
  rw [hloc]

/-- What `process_single_part_archive` feeds the processor of the only part. -/
def singlePartChunks (cdResult : CentralDirParseResult) (buffer : List UInt8) : List (List UInt8) :=
  let dataEnd := min cdResult.centralDirOffset buffer.length
  if dataEnd > 0 then [buffer.take dataEnd] else []

/-- What `process_part_with_body_data` feeds the processor of a part. -/
def bodyDataChunks (partSize centralDirOffset p : ℕ) (segment : BodyDataSegment) : List (List UInt8) :=
  let overlapStart := max (partStart partSize p) segment.archiveOffset
  let overlapEnd := min (partBodyEnd partSize centralDirOffset p) segment.archiveEnd
  if overlapStart < overlapEnd then
    [slice segment.data (overlapStart - segment.archiveOffset)
      (overlapStart - segment.archiveOffset + (overlapEnd - overlapStart))]
  else []

/-- The segment holds the bytes of the archive from where it begins up to the central directory. -/
structure BodyDataSegment.HoldsTo (segment : BodyDataSegment) (archive : List UInt8)
    (centralDirOffset : ℕ) : Prop where
  archiveEnd : segment.archiveOffset + segment.size = centralDirOffset
  data : segment.data.take segment.size = slice archive segment.archiveOffset centralDirOffset

theorem BodyDataSegment.HoldsTo.archiveEnd_eq {segment : BodyDataSegment} {archive : List UInt8}
    {centralDirOffset : ℕ} (h : segment.HoldsTo archive centralDirOffset) (hsize : centralDirOffset < 2 ^ 64) :
    segment.archiveEnd = centralDirOffset := by
  rw [BodyDataSegment.archiveEnd, h.archiveEnd, Nat.mod_eq_of_lt hsize]

/-- A segment with the whole body. -/
theorem BodyDataSegment.holdsTo_whole (archive : List UInt8) (centralDirOffset : ℕ) :
    BodyDataSegment.HoldsTo ⟨archive, centralDirOffset, 0⟩ archive centralDirOffset :=
  ⟨Nat.zero_add _, rfl⟩

/-- The bytes of a segment from a place on are those of the archive. -/
theorem BodyDataSegment.HoldsTo.slice_data {segment : BodyDataSegment} {archive : List UInt8}
    {centralDirOffset lo hi : ℕ} (h : segment.HoldsTo archive centralDirOffset)
    (hlo : segment.archiveOffset ≤ lo) (hhi : hi ≤ centralDirOffset) (hle : lo ≤ hi) :
    slice segment.data (lo - segment.archiveOffset) (lo - segment.archiveOffset + (hi - lo)) =
      slice archive lo hi := by
  have hend := h.archiveEnd
  have hdata : segment.data.take segment.size = slice segment.data 0 segment.size := rfl
  have hinside : slice segment.data (lo - segment.archiveOffset) (lo - segment.archiveOffset + (hi - lo)) =
      slice (segment.data.take segment.size) (lo - segment.archiveOffset)
        (lo - segment.archiveOffset + (hi - lo)) := by
    rw [hdata, slice_slice _ (by omega), Nat.zero_add, Nat.zero_add]
  rw [hinside, h.data, slice_slice _ (by omega)]
  congr 1 <;> omega

/-- The body data of a part that comes from a segment. -/
theorem bodyDataChunks_eq {archive : List UInt8} {segments : List BodyDataSegment}
    {partSize centralDirOffset p : ℕ}
    (hsegments : ∀ segment ∈ segments, segment.HoldsTo archive centralDirOffset) (hpart : 0 < partSize)
    (hsize : centralDirOffset + partSize < 2 ^ 64) (hbody : p * partSize < centralDirOffset)
    {segment : BodyDataSegment}
    (hfound : findBodySegmentForOffset segments (partStart partSize p) = some segment) :
    bodyDataChunks partSize centralDirOffset p segment =
      [slice archive (p * partSize) (min ((p + 1) * partSize) centralDirOffset)] := by
  have hholds := hsegments segment (List.mem_of_find?_eq_some hfound)
  have hinside := List.find?_some hfound
  rw [partStart_eq hbody (by omega), decide_eq_true_eq] at hinside
  have hend : (p + 1) * partSize = p * partSize + partSize := Nat.add_one_mul p partSize
  rw [bodyDataChunks, partStart_eq hbody (by omega), partBodyEnd_eq hbody (by omega),
    hholds.archiveEnd_eq (by omega), Nat.max_eq_left hinside.1]
  generalize hlast : min ((p + 1) * partSize) centralDirOffset = last
  have hmin : min last centralDirOffset = last := by omega
  rw [hmin, if_pos (by omega), hholds.slice_data hinside.1 (by omega) (by omega)]

/-- What a plan goes on with is right for an archive whose tail begins at an offset: a central directory as
parsing the archive in one piece gives it, entries from some header of that on, and segments with the archive's
own bytes. -/
def ExtractPlan.Agrees (archive : List UInt8) (start partSize : ℕ) : ExtractPlan → Prop
  | .failed => True
  | .hybrid partialCd _ tail => tail = archive.drop start ∧ partialCd.files ≠ [] ∧
      ∀ full, centralDirParse archive archive.length partSize = .ok full → partialCd.files <:+ full.files
  | .singlePart cdResult tail => tail = archive.drop start ∧ cdResult.parts.length ≤ 1 ∧
      centralDirParse archive archive.length partSize = .ok cdResult
  | .concurrent cdResult segments => 1 < cdResult.parts.length ∧
      centralDirParse archive archive.length partSize = .ok cdResult ∧
      ∀ segment ∈ segments, segment.HoldsTo archive cdResult.centralDirOffset

/-- Only as many bytes as the central directory has are looked at. -/
theorem centralDirParseFromCdBuffer_congr {cdBuffer cdBuffer' : List UInt8}
    {cdOffset cdSize archiveSize partSize : ℕ} {isZip64 : Bool} (hpos : 0 < cdBuffer.length)
    (hpos' : 0 < cdBuffer'.length) (hlen : cdSize ≤ cdBuffer.length) (hlen' : cdSize ≤ cdBuffer'.length)
    (h : cdBuffer.take cdSize = cdBuffer'.take cdSize) :
    centralDirParseFromCdBuffer cdBuffer cdOffset cdSize archiveSize partSize isZip64 =
      centralDirParseFromCdBuffer cdBuffer' cdOffset cdSize archiveSize partSize isZip64 := by
  have hfit (buffer : List UInt8) (hle : cdSize ≤ buffer.length) :
      ¬ (cdOffset - cdOffset + cdSize) % 2 ^ 64 > buffer.length := by
    have hmod := Nat.mod_le (cdOffset - cdOffset + cdSize) (2 ^ 64)
    omega
  have hentries : parseCentralDirectory cdBuffer cdOffset cdOffset (estimatedEntries cdSize) cdSize partSize =
      parseCentralDirectory cdBuffer' cdOffset cdOffset (estimatedEntries cdSize) cdSize partSize := by
    rw [parseCentralDirectory, parseCentralDirectory, if_neg (hfit _ hlen), if_neg (hfit _ hlen'),
      Nat.sub_self, List.drop_zero, List.drop_zero, h]
  rw [centralDirParseFromCdBuffer, centralDirParseFromCdBuffer, if_neg (by omega), if_neg (by omega),
    if_neg (by omega), if_neg (by omega), hentries]

/-- The ranges that are fetched follow one another from a part boundary up to the tail. -/
theorem calculateCdFetchRanges_tile {cdOffset partSize initialStart : ℕ} (hpart : 0 < partSize)
    (hpart' : partSize < 2 ^ 64) (hstart : initialStart < 2 ^ 63) (hoff : cdOffset < initialStart)
    {ranges : List CdPartRange} (h : calculateCdFetchRanges cdOffset partSize initialStart = some ranges) :
    RangesTile (cdOffset / partSize * partSize) initialStart ranges ∧
      ∀ r ∈ ranges, IsCdRange cdOffset partSize initialStart r := by
  have hfirst : cdOffset / partSize * partSize ≤ cdOffset := Nat.div_mul_le_self cdOffset partSize
  have hfit : cdOffset / partSize * partSize + partSize < 2 ^ 64 := by
    by_cases hbig : cdOffset < partSize
    · rw [Nat.div_eq_of_lt hbig]
      omega
    · omega
  have hfill := @fillCdRanges_tile cdOffset partSize initialStart hpart hstart (initialStart + 1) _
    (by omega) (Nat.dvd_mul_left _ _) (hfirst.trans_lt hoff) hfit
  rw [calculateCdFetchRanges, if_neg (by omega)] at h
  dsimp only at h
  rw [if_neg (by omega)] at h
  split at h
  · next hzero =>
    obtain rfl := Option.some.inj h
    rwa [hzero, fillCdRanges] at hfill
  · split at h
    · cases h
    · obtain rfl := Option.some.inj h
      exact hfill

theorem addTailBufferSegment_eq {archive : List UInt8} {start centralDirOffset : ℕ}
    (hstart : start ≤ archive.length) (hoff : centralDirOffset ≤ archive.length)
    (hsize : archive.length < 2 ^ 64) (segments : List BodyDataSegment) :
    addTailBufferSegment segments (archive.drop start) start centralDirOffset =
      if centralDirOffset ≤ start then segments
      else segments ++ [⟨archive.drop start, centralDirOffset - start, start⟩] := by
  have hend : (start + (archive.drop start).length) % 2 ^ 64 = archive.length := by
    rw [List.length_drop, Nat.add_sub_cancel' hstart, Nat.mod_eq_of_lt hsize]
  rw [addTailBufferSegment]
  by_cases hle : centralDirOffset ≤ start
  · rw [if_pos hle, if_pos hle]
  · simp only [if_neg hle, hend, if_neg (show ¬ centralDirOffset > archive.length by omega)]
    have hbody : sub64 centralDirOffset start = centralDirOffset - start := sub64_of_le (by omega) (by omega)
    rw [hbody, if_neg (by omega)]

/-- The bytes in front of the central directory in the tail. -/
theorem addTailBufferSegment_holdsTo {archive : List UInt8} {start centralDirOffset : ℕ}
    {segments : List BodyDataSegment} (h : ∀ segment ∈ segments, segment.HoldsTo archive centralDirOffset)
    (hstart : start ≤ archive.length) (hoff : centralDirOffset ≤ archive.length)
    (hsize : archive.length < 2 ^ 64) :
    ∀ segment ∈ addTailBufferSegment segments (archive.drop start) start centralDirOffset,
      segment.HoldsTo archive centralDirOffset := by
  rw [addTailBufferSegment_eq hstart hoff hsize]
  split
  · exact h
  · next hlt =>
    rw [List.forall_mem_append]
    refine ⟨h, ?_⟩
    intro segment hsegment
    rw [List.mem_singleton.mp hsegment]
    exact ⟨Nat.add_sub_cancel' (Nat.le_of_not_le hlt), rfl⟩

/-- The part of the first range that lies in front of the central directory. -/
theorem rangeBodySegment_holdsTo {archive : List UInt8} {centralDirOffset partSize initialStart : ℕ}
    {ranges : List CdPartRange} (hpart : 0 < partSize) (hoff : centralDirOffset < initialStart)
    (htile : RangesTile (centralDirOffset / partSize * partSize) initialStart ranges)
    (hall : ∀ r ∈ ranges, IsCdRange centralDirOffset partSize initialStart r) :
    ranges ≠ [] ∧ ∀ segment ∈ rangeBodySegment ranges
        (ranges.map fun r ↦ slice archive r.start (r.rangeEnd + 1)),
      segment.HoldsTo archive centralDirOffset := by
  obtain ⟨first, rest, rfl, -, hreach, hsegments⟩ := rangeBodySegment_eq hpart hoff htile hall
    fun r ↦ slice archive r.start (r.rangeEnd + 1)
  refine ⟨List.cons_ne_nil first rest, ?_⟩
  rw [hsegments]
  split
  · next hlt =>
    intro segment hsegment
    rw [List.mem_singleton.mp hsegment]
    refine ⟨Nat.add_sub_cancel' hlt.le, ?_⟩
    dsimp only
    rw [slice, List.take_take, slice]
    congr 1
    omega
  · intro segment hsegment
    cases hsegment

section

variable {w w' : BurstWriter} {start partSize : ℕ}

theorem finalized_slice (htracks : w.Tracks) (hfin : burstWriterFinalize w = (some (), w')) :
    slice w'.output.bytes w.position (w.position + (centralDirectoryBytes w.files).length) =
      centralDirectoryBytes w.files := by
  have hdrop := @finalized_drop w w' htracks hfin [] w.files rfl
  rw [centralDirectoryBytes_nil, List.length_nil, Nat.add_zero] at hdrop
  rw [slice, hdrop, Nat.add_sub_cancel_left, List.take_left' rfl]

/-- A buffer that begins with the central directory is parsed as the whole archive is. -/
theorem finalized_parseFrom (htracks : w.Tracks) (hfin : burstWriterFinalize w = (some (), w'))
    (hsize : w'.output.bytes.length < 2 ^ 64) {cdData : List UInt8} {cdResult : CentralDirParseResult}
    (hdata : cdData.take (centralDirectoryBytes w.files).length = centralDirectoryBytes w.files)
    (h : centralDirParseFromCdBuffer cdData w.position (centralDirectoryBytes w.files).length
      w'.output.bytes.length partSize true = .ok cdResult) :
    centralDirParse w'.output.bytes w'.output.bytes.length partSize = .ok cdResult := by
  have hwhole := finalized_centralDirParse htracks hfin hsize (Nat.zero_le w.position) partSize
  rw [List.drop_zero] at hwhole
  have hlen := congrArg List.length hdata
  rw [List.length_take] at hlen
  have hpos : 0 < cdData.length := by
    by_contra hzero
    rw [centralDirParseFromCdBuffer, if_pos (by omega)] at h
    cases h
  have hrecords := endRecords_length w.files w.position (centralDirectoryBytes w.files).length
  rw [hwhole, ← h]
  refine centralDirParseFromCdBuffer_congr ?_ hpos ?_ (by omega) ?_
  · rw [List.length_append]
    omega
  · rw [List.length_append]
    omega
  · rw [List.take_left' rfl, hdata]

/-- Going on with a buffer that begins with the central directory. -/
theorem extractFrom_agrees (htracks : w.Tracks) (hfin : burstWriterFinalize w = (some (), w'))
    (hsize : w'.output.bytes.length < 2 ^ 64) {loc : CentralDirLocation}
    (hoff : loc.centralDirOffset = w.position)
    (hcd : loc.centralDirSize = (centralDirectoryBytes w.files).length) (hzip64 : loc.isZip64 = true)
    {cdData : List UInt8}
    (hdata : cdData.take (centralDirectoryBytes w.files).length = centralDirectoryBytes w.files)
    {segments : List BodyDataSegment}
    (hsegments : ∀ segment ∈ segments, segment.HoldsTo w'.output.bytes w.position)
    (hstart : start ≤ w'.output.bytes.length) :
    (extractFrom partSize (w'.output.bytes.drop start) start w'.output.bytes.length loc cdData segments).Agrees
      w'.output.bytes start partSize := by
  have hlength := finalized_length htracks hfin
  rw [extractFrom, hoff, hcd, hzip64]
  cases hparse : centralDirParseFromCdBuffer cdData w.position (centralDirectoryBytes w.files).length
      w'.output.bytes.length partSize true with
  | error e => trivial
  | ok cdResult =>
    dsimp only
    have hwhole := finalized_parseFrom htracks hfin hsize hdata hparse
    by_cases hparts : cdResult.parts.length ≤ 1
    · rw [if_pos hparts]
      exact ⟨rfl, hparts, hwhole⟩
    · rw [if_neg hparts, centralDirParseFromCdBuffer_offset hparse]
      refine ⟨Nat.lt_of_not_le hparts, hwhole, ?_⟩
      rw [centralDirParseFromCdBuffer_offset hparse]
      exact addTailBufferSegment_holdsTo hsegments hstart (by omega) hsize

theorem tailStart_eq (n : ℕ) : tailStart n = n - burstPartSize := by
  unfold tailStart burstPartSize
  norm_num

/-- The entries that the tail holds are the last ones of the archive. -/
theorem partialCentralDir_agrees (htracks : w.Tracks) (hfin : burstWriterFinalize w = (some (), w'))
    (hsize : w'.output.bytes.length < 2 ^ 64) (he : ∀ e ∈ w.files, e.InRange ∧ e.NameDecodes)
    {loc : CentralDirLocation} (hzip64 : loc.isZip64 = true)
    (hfirst : loc.firstCdfhOffsetInTail =
      findFirstCdfhInTail w.files w.position w'.output.bytes.length % 2 ^ 24)
    (hstart : start = w'.output.bytes.length - burstPartSize) {ranges : List CdPartRange}
    {partialCd : CentralDirParseResult}
    (h : partialCentralDir partSize (w'.output.bytes.drop start) start w'.output.bytes.length loc ranges =
      some partialCd) :
    (ExtractPlan.hybrid partialCd ranges (w'.output.bytes.drop start)).Agrees w'.output.bytes start
      partSize := by
  rw [partialCentralDir] at h
  split at h
  · next hlocated =>
    split at h
    · cases h
    · next parsed hparse =>
      split at h
      · next hne =>
        obtain rfl := Option.some.inj h
        rw [hfirst] at hlocated hparse
        rw [hzip64] at hparse
        obtain ⟨-, before, e, after, hfiles, -, hheader⟩ := firstCdfhOffset_located
          (fun e hmem ↦ (he e hmem).2) (finalized_length htracks hfin) hlocated.1 hlocated.2.1
        rw [← hstart] at hheader
        obtain ⟨hentries, -⟩ := finalized_partialParse_ok htracks hfin (fun e hmem ↦ (he e hmem).1)
          (fun e hmem ↦ (he e hmem).2) hfiles hheader hparse
        refine ⟨rfl, hne, fun full hfull ↦ ?_⟩
        have hall := finalized_centralDirParse_files htracks hfin hsize (fun e hmem ↦ (he e hmem).1)
          (fun e hmem ↦ (he e hmem).2) (Nat.zero_le w.position) hfull
        rw [hentries, hall, hfiles, List.map_append]
        exact List.suffix_append _ _
      · cases h
  · cases h

/-- Going on once the end records have said where the central directory is. -/
theorem extractLocated_agrees (htracks : w.Tracks) (hfin : burstWriterFinalize w = (some (), w'))
    (hsize : w'.output.bytes.length < 2 ^ 63) (he : ∀ e ∈ w.files, e.InRange ∧ e.NameDecodes)
    (hpart : 0 < partSize) (hpart' : partSize < 2 ^ 64)
    {fetchRanges : List CdPartRange → Option (List (List UInt8))}
    (hranges : ∀ ranges buffers, fetchRanges ranges = some buffers →
      buffers = ranges.map fun r ↦ slice w'.output.bytes r.start (r.rangeEnd + 1))
    {newMemory : ℕ → List UInt8} (hmemory : ∀ n, (newMemory n).length = n)
    (hstart : start = w'.output.bytes.length - burstPartSize) {loc : CentralDirLocation}
    (hoffset : loc.centralDirOffset = w.position)
    (hcd : loc.centralDirSize = (centralDirectoryBytes w.files).length) (hzip64 : loc.isZip64 = true)
    (hfirst : loc.firstCdfhOffsetInTail =
      findFirstCdfhInTail w.files w.position w'.output.bytes.length % 2 ^ 24) :
    (extractLocated partSize fetchRanges newMemory (w'.output.bytes.drop start) start w'.output.bytes.length
      loc).Agrees w'.output.bytes start partSize := by
  have hlength := finalized_length htracks hfin
  have hsize64 : w'.output.bytes.length < 2 ^ 64 := hsize.trans (by norm_num)
  have hstart' : start ≤ w'.output.bytes.length := by omega
  have hslice := finalized_slice htracks hfin
  rw [extractLocated]
  by_cases hoff : loc.centralDirOffset < start
  · rw [if_pos hoff]
    rw [hoffset] at hoff
    cases hcalculated : calculateCdFetchRanges loc.centralDirOffset partSize start with
    | none => trivial
    | some ranges =>
      rw [hoffset] at hcalculated
      obtain ⟨htile, hall⟩ := calculateCdFetchRanges_tile hpart hpart' (by omega) hoff hcalculated
      obtain ⟨hne, hsegments⟩ := @rangeBodySegment_holdsTo w'.output.bytes _ _ _ _ hpart hoff htile hall
      dsimp only
      cases hfound : partialCentralDir partSize (w'.output.bytes.drop start) start w'.output.bytes.length loc
          ranges with
      | some partialCd => exact partialCentralDir_agrees htracks hfin hsize64 he hzip64 hfirst hstart hfound
      | none =>
        dsimp only
        rw [if_pos hne]
        cases hfetched : fetchRanges ranges with
        | none => trivial
        | some buffers =>
          have hassembled := assembleCdBuffer_cd htile (Nat.div_mul_le_self _ _) hoff hstart' hsize
            (show w.position + (centralDirectoryBytes w.files).length ≤ _ by omega) (hmemory _)
          rw [hslice] at hassembled
          rw [hranges ranges buffers hfetched]
          refine extractFrom_agrees htracks hfin hsize64 hoffset hcd hzip64 ?_ hsegments hstart'
          rw [hcd, hoffset, hassembled, List.take_length]
  · rw [if_neg hoff]
    refine extractFrom_agrees htracks hfin hsize64 hoffset hcd hzip64 ?_ (fun segment hsegment ↦ ?_) hstart'
    · rw [List.drop_drop, Nat.add_sub_cancel' (Nat.le_of_not_lt hoff), hoffset]
      rwa [slice, Nat.add_sub_cancel_left] at hslice
    · cases hsegment

/-- Going on once the tail has been fetched. -/
theorem extractFetched_agrees (htracks : w.Tracks) (hfin : burstWriterFinalize w = (some (), w'))
    (hsize : w'.output.bytes.length < 2 ^ 63) (he : ∀ e ∈ w.files, e.InRange ∧ e.NameDecodes)
    (hpart : 0 < partSize) (hpart' : partSize < 2 ^ 64) {response : Response}
    (hfetched : burstDownloaderFetchCdPart response =
      some (w'.output.bytes.drop start, start, w'.output.bytes.length))
    (hstart : start = w'.output.bytes.length - burstPartSize)
    {fetchRanges : List CdPartRange → Option (List (List UInt8))}
    (hranges : ∀ ranges buffers, fetchRanges ranges = some buffers →
      buffers = ranges.map fun r ↦ slice w'.output.bytes r.start (r.rangeEnd + 1))
    {newMemory : ℕ → List UInt8} (hmemory : ∀ n, (newMemory n).length = n) :
    (burstDownloaderExtract partSize response fetchRanges newMemory).Agrees w'.output.bytes start partSize := by
  have hlength := finalized_length htracks hfin
  rw [burstEocdCommentSize] at hlength
  have hsize64 : w'.output.bytes.length < 2 ^ 64 := hsize.trans (by norm_num)
  have heocd := finalized_eocdOnly htracks hfin hsize64 (show start + 106 ≤ w'.output.bytes.length by
    rw [burstPartSize] at hstart
    omega)
  rw [burstDownloaderExtract_located hfetched heocd]
  exact extractLocated_agrees htracks hfin hsize he hpart hpart' hranges hmemory hstart rfl rfl rfl rfl

end

/-- Whatever path `burst_downloader_extract` takes for a finalized archive, with the central directory in the
tail or put together from fetched ranges, it goes on with what parsing the archive in one piece gives. -/
theorem burstDownloaderExtract_agrees {w w' : BurstWriter} (htracks : w.Tracks)
    (hfin : burstWriterFinalize w = (some (), w')) (hsize : w'.output.bytes.length < 2 ^ 63)
    (he : ∀ e ∈ w.files, e.InRange ∧ e.NameDecodes) {partSize : ℕ} (hpart : 0 < partSize)
    (hpart' : partSize < 2 ^ 64) {response : Response} (hresponse : response.AnswersTail w'.output.bytes)
    {fetchRanges : List CdPartRange → Option (List (List UInt8))}
    (hranges : ∀ ranges buffers, fetchRanges ranges = some buffers →
      buffers = ranges.map fun r ↦ slice w'.output.bytes r.start (r.rangeEnd + 1))
    {newMemory : ℕ → List UInt8} (hmemory : ∀ n, (newMemory n).length = n) :
    (burstDownloaderExtract partSize response fetchRanges newMemory).Agrees w'.output.bytes
      (tailStart w'.output.bytes.length) partSize := by
  have htail := tailStart_eq w'.output.bytes.length
  have hfetched := hresponse.fetched (hsize.trans (by norm_num))
  generalize tailStart w'.output.bytes.length = start at htail hfetched ⊢
  exact extractFetched_agrees htracks hfin hsize he hpart hpart' hfetched htail hranges hmemory

/-- The store's answer for the tail of an object. -/
def tailResponse (object : List UInt8) : Response where
  headers := ⟨206, none,
    some (printed rangeFormat [tailStart object.length, object.length - 1, object.length])⟩
  chunks := [object.drop (tailStart object.length)]
  errorCode := 0

theorem tailResponse_answersTail (object : List UInt8) : (tailResponse object).AnswersTail object where
  status := ⟨by norm_num [tailResponse], by norm_num [tailResponse]⟩
  contentRange := rfl
  body := by rw [tailResponse, List.flatten_singleton]
  completes := rfl

/-- The entries in the tail are worked on first when the end records say where they begin. -/
theorem extractLocated_hybrid {partSize initialStart objectSize : ℕ} {tail : List UInt8}
    {loc : CentralDirLocation} {ranges : List CdPartRange} {partialCd : CentralDirParseResult}
    (hoff : loc.centralDirOffset < initialStart)
    (hranges : calculateCdFetchRanges loc.centralDirOffset partSize initialStart = some ranges)
    (hne : ranges ≠ []) (hzero : loc.firstCdfhOffsetInTail ≠ 0)
    (hnone : loc.firstCdfhOffsetInTail ≠ burstEocdNoCdfhInTail)
    (hparse : centralDirParsePartial tail initialStart loc.centralDirOffset loc.firstCdfhOffsetInTail objectSize
      partSize loc.isZip64 = .ok partialCd) (hfiles : partialCd.files ≠ [])
    (fetchRanges : List CdPartRange → Option (List (List UInt8))) (newMemory : ℕ → List UInt8) :
    extractLocated partSize fetchRanges newMemory tail initialStart objectSize loc =
      .hybrid partialCd ranges tail := by
  have hbuilt : partialCentralDir partSize tail initialStart objectSize loc ranges = some partialCd := by
    rw [partialCentralDir, if_pos ⟨hzero, hnone, hne⟩, hparse]
    exact if_pos hfiles
  rw [extractLocated, if_pos hoff, hranges]
  dsimp only
  rw [hbuilt]

/-- Where the tail begins behind the first entries of the central directory, the last ones come first. -/
theorem burstDownloaderExtract_hybrid {w w' : BurstWriter} (htracks : w.Tracks)
    (hfin : burstWriterFinalize w = (some (), w')) (hsize : w'.output.bytes.length < 2 ^ 63)
    (he : ∀ e ∈ w.files, e.InRange ∧ e.NameDecodes) {partSize : ℕ} (hpart : burstPartSize ∣ partSize)
    (hpos : 0 < partSize) {response : Response} (hresponse : response.AnswersTail w'.output.bytes)
    (hoff : w.position < tailStart w'.output.bytes.length)
    (hzero : read w'.output.bytes (w'.output.bytes.length - 3) 3 ≠ 0)
    (hnone : read w'.output.bytes (w'.output.bytes.length - 3) 3 ≠ burstEocdNoCdfhInTail)
    {ranges : List CdPartRange} (hne : ranges ≠ [])
    (hranges : calculateCdFetchRanges w.position partSize (tailStart w'.output.bytes.length) = some ranges)
    (fetchRanges : List CdPartRange → Option (List (List UInt8))) (newMemory : ℕ → List UInt8) :
    ∃ partialCd, burstDownloaderExtract partSize response fetchRanges newMemory =
      .hybrid partialCd ranges (w'.output.bytes.drop (tailStart w'.output.bytes.length)) := by
  have htail := tailStart_eq w'.output.bytes.length
  have hfetched := hresponse.fetched (hsize.trans (by norm_num))
  generalize tailStart w'.output.bytes.length = start at htail hfetched hoff hranges ⊢
  have hlength := finalized_length htracks hfin
  rw [burstEocdCommentSize] at hlength
  have hroom : start + 106 ≤ w'.output.bytes.length := by
    rw [burstPartSize] at htail
    omega
  have hsize64 : w'.output.bytes.length < 2 ^ 64 := hsize.trans (by norm_num)
  have hrange : ∀ e ∈ w.files, e.InRange := fun e hmem ↦ (he e hmem).1
  have hnames : ∀ e ∈ w.files, e.NameDecodes := fun e hmem ↦ (he e hmem).2
  obtain ⟨before, e, after, -, -, -, partialCd, hparse, hentries⟩ :=
    finalized_partialParse_exists htracks hfin hrange hnames hpart hpos htail rfl hzero hnone
  have heocd := finalized_eocdOnly htracks hfin hsize64 hroom
  have hfirst := finalized_firstCdfhOffset htracks hfin
  rw [hfirst] at hzero hnone hparse
  refine ⟨partialCd, ?_⟩
  rw [burstDownloaderExtract_located hfetched heocd]
  refine extractLocated_hybrid hoff hranges hne hzero hnone hparse ?_ fetchRanges newMemory
  rw [hentries]
  exact List.cons_ne_nil _ _

/-- The central directory of 200000 entries begins before the last 8 MiB, and the entries of which the headers
lie there are worked on while its first range is fetched. -/
theorem manyEntries_agrees : ∃ w' partialCd range, burstWriterFinalize (manyEntries 200000) = (some (), w') ∧
    tailStart w'.output.bytes.length = 4011498 ∧
    burstDownloaderExtract burstPartSize (tailResponse w'.output.bytes)
      (fun ranges ↦ some (ranges.map fun r ↦ slice w'.output.bytes r.start (r.rangeEnd + 1)))
      (fun n ↦ List.replicate n 0) = .hybrid partialCd [range] (w'.output.bytes.drop 4011498) ∧
    (ExtractPlan.hybrid partialCd [range] (w'.output.bytes.drop 4011498)).Agrees w'.output.bytes 4011498
      burstPartSize := by
  obtain ⟨w', hfin, -⟩ := burstWriterFinalize_completes
    (show Ready (manyEntries 200000) from ⟨rfl, by decide⟩)
  obtain ⟨hrange, hnames⟩ := @manyEntries_inRange 200000
  obtain ⟨hzero, hnone⟩ := manyEntries_firstCdfhOffset hfin
  have htracks : (manyEntries 200000).Tracks := rfl
  have hlength := manyEntries_length hfin
  have hsize : w'.output.bytes.length < 2 ^ 63 := by
    rw [hlength]
    norm_num
  have hstart : tailStart w'.output.bytes.length = 4011498 := by
    rw [tailStart_eq, hlength]
    norm_num [burstPartSize]
  obtain ⟨range, hranges⟩ : ∃ range, calculateCdFetchRanges 0 burstPartSize 4011498 = some [range] :=
    ⟨_, rfl⟩
  obtain ⟨partialCd, hplan⟩ := burstDownloaderExtract_hybrid htracks hfin hsize
    (fun e he ↦ ⟨hrange e he, hnames e he⟩) dvd_rfl (by norm_num [burstPartSize]) (tailResponse_answersTail _)
    (by rw [hstart]; exact show 0 < 4011498 by norm_num) hzero hnone (List.cons_ne_nil range [])
    (by rw [hstart]; exact hranges)
    (fun ranges ↦ some (ranges.map fun r ↦ slice w'.output.bytes r.start (r.rangeEnd + 1)))
    (fun n ↦ List.replicate n 0)
  have hagrees := @burstDownloaderExtract_agrees (manyEntries 200000) w' htracks hfin hsize
    (fun e he ↦ ⟨hrange e he, hnames e he⟩) burstPartSize (by norm_num [burstPartSize])
    (by norm_num [burstPartSize]) _ (tailResponse_answersTail w'.output.bytes)
    (fun ranges ↦ some (ranges.map fun r ↦ slice w'.output.bytes r.start (r.rangeEnd + 1)))
    (fun ranges buffers hbuffers ↦ (Option.some.inj hbuffers).symm) (fun n ↦ List.replicate n 0)
    fun n ↦ List.length_replicate
  rw [hstart] at hplan
  rw [hplan, hstart] at hagrees
  exact ⟨w', partialCd, range, hfin, hstart, hplan, hagrees⟩

end Burst
