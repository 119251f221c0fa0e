import Burst.PartStreams

namespace Burst

open Slices Tiling

section

variable {archive : List UInt8} {partSize start : ℕ} {newMemory : ℕ → List UInt8} {loc : CentralDirLocation}

/-- The only part gets the bytes of the tail. -/
theorem singlePart_isSlice_iff (hstart : start = archive.length - burstPartSize) {centralDirOffset : ℕ}
    (hoff : centralDirOffset ≤ archive.length) (hone : archive.length ≤ partSize)
    {cdResult : CentralDirParseResult} (hcd : cdResult.centralDirOffset = centralDirOffset) :
    (∀ complete, PartStream.IsSlice ⟨0, (singlePartChunks cdResult (archive.drop start)).flatten, complete⟩
      archive partSize centralDirOffset) ↔ TailHoldsBody archive centralDirOffset := by
  rw [singlePartChunks_flatten, hcd, TailHoldsBody]
  constructor
  · intro h
    obtain ⟨hbytes, hreaches⟩ := h true
    have hreach := hreaches rfl
    simp only [Nat.zero_mul, List.drop_zero, Nat.zero_add, Nat.one_mul, List.length_take,
      List.length_drop] at hbytes hreach
    rcases Nat.le_total archive.length burstPartSize with hfits | hlarge
    · exact .inl hfits
    · have hinside : centralDirOffset ≤ burstPartSize := by omega
      have hlength : ((archive.drop start).take centralDirOffset).length = centralDirOffset := by
        rw [List.length_take, List.length_drop]
        omega
      have htake := List.prefix_iff_eq_take.mp hbytes
      rw [hlength, hstart] at htake
      exact .inr ⟨hinside, htake⟩
  · intro h complete
    obtain ⟨hbytes, hlength⟩ : (archive.drop start).take centralDirOffset = archive.take centralDirOffset ∧
        centralDirOffset ≤ (archive.drop start).length := by
      rw [List.length_drop]
      rcases h with hfits | ⟨hinside, hsame⟩
      · rw [hstart, Nat.sub_eq_zero_of_le hfits, List.drop_zero]
        exact ⟨rfl, hoff⟩
      · rw [hstart]
        exact ⟨hsame, by omega⟩
    constructor
    · dsimp only
      rw [hbytes, Nat.zero_mul, List.drop_zero]
      exact List.take_prefix _ _
    · intro _
      dsimp only
      rw [List.length_take_of_le hlength]
      omega

/-- A part that is processed from a segment, on either path. -/
theorem BodySegments.isSlice {centralDirOffset : ℕ} {segments : List BodyDataSegment}
    (h : BodySegments archive start partSize centralDirOffset segments) (hpart : 0 < partSize)
    (hoff : centralDirOffset ≤ archive.length) (hcut : ¬ CutPartBuffered partSize start centralDirOffset)
    {segment : BodyDataSegment} (hmem : segment ∈ segments) {p : ℕ} (hbody : p * partSize < centralDirOffset)
    (hle : segment.archiveOffset ≤ p * partSize) {bytes : List UInt8}
    (hbytes : p < 2 ^ 32 → bytes = slice archive (p * partSize) (min ((p + 1) * partSize) centralDirOffset))
    (complete : Bool) :
    PartStream.IsSlice ⟨p % 2 ^ 32, bytes, complete⟩ archive partSize centralDirOffset := by
  have hp := h.part_lt hpart hcut hmem hbody hle
  rw [Nat.mod_eq_of_lt hp, hbytes hp]
  exact PartStream.isSlice_body hoff complete

/-- What is fed for a part that is cut to another one is too short. -/
theorem cut_not_isSlice {centralDirOffset p : ℕ} (hpart : 0 < partSize) (hbody : p * partSize < centralDirOffset)
    (hlarge : 2 ^ 32 ≤ p) {bytes : List UInt8} (hshort : bytes.length < partSize) :
    ¬ PartStream.IsSlice ⟨p % 2 ^ 32, bytes, true⟩ archive partSize centralDirOffset := by
  intro h
  have hbefore := cut_part_before hlarge partSize
  have hreach := h.reaches rfl
  rw [Nat.add_one_mul] at hbefore hreach
  dsimp only at hreach
  omega

/-- A number of a part of the archive. -/
theorem partNumber_lt (haccepted : AcceptedPartSize partSize) (hsize : archive.length < 2 ^ 63) {p : ℕ}
    (hne : 0 < archive.length) (hp : p < numPartsFor archive.length partSize) :
    p * partSize < archive.length := by
  have hpart := haccepted.le
  exact numPartsFor_start haccepted.pos (by omega) hne hp

theorem concurrent_isSlice_iff (haccepted : AcceptedPartSize partSize) (hsize : archive.length < 2 ^ 63)
    {centralDirOffset : ℕ} (hoff : centralDirOffset ≤ archive.length) {cdResult : CentralDirParseResult}
    {segments : List BodyDataSegment}
    (h : (ExtractPlan.concurrent cdResult segments).Holds archive start partSize centralDirOffset) :
    (∀ s, (ExtractPlan.concurrent cdResult segments).Feeds archive partSize start newMemory s →
      s.IsSlice archive partSize centralDirOffset) ↔ ¬ CutPartBuffered partSize start centralDirOffset := by
  obtain ⟨rfl, hparts, hsegments⟩ := h
  have hpart := haccepted.le
  have hpos := haccepted.pos
  constructor
  · intro hall hcut
    obtain ⟨hlarge, hbody⟩ := hcut.part hpos
    obtain ⟨segment, hmem, hle⟩ := (hsegments.buffered hcut.1).mp hcut
    generalize lastBodyPart partSize cdResult.centralDirOffset = p at hlarge hbody hle
    have hhas : partStart partSize p < partBodyEnd partSize cdResult.centralDirOffset p :=
      partHasBody_of_lt hpos hbody (by omega)
    have hcovers : segment.Covers partSize cdResult.centralDirOffset p := by
      rw [BodyDataSegment.Covers, partStart_eq hbody (by omega), partBodyEnd_eq hbody (by omega),
        (hsegments.holds segment hmem).archiveEnd_eq (by omega)]
      exact ⟨hle, Nat.min_le_right _ _⟩
    obtain ⟨found, hfound⟩ := findBodySegmentForOffset_of_covers hmem hcovers hhas
    have hbefore := cut_part_before hlarge partSize
    have hcutBody : p % 2 ^ 32 * partSize < cdResult.centralDirOffset := by
      rw [Nat.add_one_mul] at hbefore
      omega
    have hcutHas : partStart partSize (p % 2 ^ 32) <
        partBodyEnd partSize cdResult.centralDirOffset (p % 2 ^ 32) :=
      partHasBody_of_lt hpos hcutBody (by omega)
    have hnumber : p < cdResult.parts.length := by
      rw [hparts]
      exact lt_numPartsFor hpos (by omega) (hbody.trans_le hoff)
    have hempty : bodyDataChunks partSize cdResult.centralDirOffset (p % 2 ^ 32) found = [] := by
      -- the segment begins behind the part to which the last one is cut
      have hshort := hsegments.short found (List.mem_of_find?_eq_some hfound)
      have hend : partBodyEnd partSize cdResult.centralDirOffset (p % 2 ^ 32) ≤
          (p % 2 ^ 32 + 1) * partSize := by
        rw [partBodyEnd_eq hcutBody (by omega)]
        exact Nat.min_le_left _ _
      rw [bodyDataChunks]
      exact if_neg (by omega)
    have hfull : (concurrentCall 1 partSize cdResult segments).PartHasFullBodyData p :=
      ⟨hhas, segment, hmem, hcovers⟩
    refine cut_not_isSlice hpos hbody hlarge ?_ (hall _ (.segment hnumber hfull hfound hcutHas))
    rw [hempty]
    exact hpos
  · intro hcut s hs
    cases hs with
    | download hp _ hnumber hdownloaded =>
      exact hdownloaded.isSlice haccepted (hnumber.trans_lt (Nat.mod_lt _ (by norm_num))) hoff
    | @segment _ _ _ segment p complete hp hfull hfound hhas =>
      have hne : 0 < archive.length := by
        have hbodyEnd := hfull.1.trans_le (Nat.min_le_right _ _)
        exact (Nat.zero_le _).trans_lt (hbodyEnd.trans_le hoff)
      have hinside := partNumber_lt haccepted hsize hne (hparts ▸ hp)
      have hbody := partHasBody_lt hinside (by omega) hfull.1
      have hbegins := List.find?_some hfound
      rw [partStart_eq hinside (by omega), decide_eq_true_eq] at hbegins
      refine hsegments.isSlice hpos hoff hcut (List.mem_of_find?_eq_some hfound) hbody hbegins.1 ?_ complete
      intro hp32
      rw [Nat.mod_eq_of_lt hp32, bodyDataChunks_eq hsegments.holds hpos (by omega) hbody hfound,
        List.flatten_singleton]

theorem hybrid_isSlice_iff (haccepted : AcceptedPartSize partSize) (hsize : archive.length < 2 ^ 63)
    (hstart : start ≤ archive.length) (hoff : loc.centralDirOffset < start)
    (hloc : centralDirParseEocdOnly (archive.drop start) archive.length = .ok loc) {ranges : List CdPartRange}
    (hcalculated : calculateCdFetchRanges loc.centralDirOffset partSize start = some ranges)
    (partialCd : CentralDirParseResult) :
    (∀ s, (ExtractPlan.hybrid partialCd ranges (archive.drop start)).Feeds archive partSize start newMemory s →
      s.IsSlice archive partSize loc.centralDirOffset) ↔
    (CutPartBuffered partSize start loc.centralDirOffset →
      hybridAssembleAndParseCd partSize newMemory (archive.drop start) start archive.length ranges
        (ranges.map fun r ↦ slice archive r.start (r.rangeEnd + 1)) = none) := by
  have hpart := haccepted.le
  have hpos := haccepted.pos
  constructor
  · intro hall hcut
    by_contra hassembles
    obtain ⟨⟨fullCd, segments⟩, hassembled⟩ := Option.ne_none_iff_exists'.mp hassembles
    obtain ⟨hcd, hparts, hsegments⟩ :=
      hybridAssembleAndParseCd_holds haccepted hstart hoff hsize hloc hcalculated hassembled
    obtain ⟨hlarge, hbody⟩ := hcut.part hpos
    have hend := le_lastBodyPart_end hpos loc.centralDirOffset
    obtain ⟨segment, hmem, hle⟩ := (hsegments.buffered hcut.1).mp hcut
    generalize lastBodyPart partSize loc.centralDirOffset = p at hlarge hbody hend hle
    have hshort : loc.centralDirOffset < p * partSize + partSize := by
      have hremainder := hcut.2
      rw [if_pos hoff] at hremainder
      apply lt_of_le_of_ne hend
      intro hwhole
      apply hremainder
      rw [hwhole, ← Nat.add_one_mul, Nat.mul_mod_left]
    have hcovers : segment.Covers partSize fullCd.centralDirOffset p := by
      rw [hcd, BodyDataSegment.Covers, partStart_eq hbody (by omega), partBodyEnd_eq hbody (by omega),
        (hsegments.holds segment hmem).archiveEnd_eq (by omega)]
      exact ⟨hle, Nat.min_le_right _ _⟩
    obtain ⟨found, hfound⟩ : ∃ found, segments.find? (fun segment ↦
        segment.Covers partSize fullCd.centralDirOffset p) = some found := by
      rw [← Option.isSome_iff_exists, List.find?_isSome]
      exact ⟨segment, hmem, decide_eq_true hcovers⟩
    have hbegins : found.archiveOffset ≤ p * partSize := by
      have hfoundCovers := List.find?_some hfound
      rw [decide_eq_true_eq] at hfoundCovers
      exact hfoundCovers.1.trans_eq (partStart_eq hbody (by omega))
    have hbytes := hybridBodyData_eq (hsegments.holds found (List.mem_of_find?_eq_some hfound)) hpos hbody
      (by omega) hbegins
    have hnumber : p < fullCd.parts.length := by
      rw [hparts]
      exact lt_numPartsFor hpos (by omega) (by omega)
    have hhas : partStart partSize p < partBodyEnd partSize fullCd.centralDirOffset p := by
      rw [hcd]
      exact partHasBody_of_lt hpos hbody (by omega)
    refine cut_not_isSlice hpos hbody hlarge ?_ (hall _ (.hybridSegment hassembled hnumber hhas hfound))
    rw [hcd, hbytes, slice_length (by omega)]
    omega
  · intro h s hs
    cases hs with
    | hybridDownload hnumber hdownloaded => exact hdownloaded.isSlice haccepted hnumber (by omega)
    | @hybridSegment _ _ _ fullCd segments segment p complete hassembled hp hhas hfound =>
      obtain ⟨hcd, hparts, hsegments⟩ :=
        hybridAssembleAndParseCd_holds haccepted hstart hoff hsize hloc hcalculated hassembled
      have hcut : ¬ CutPartBuffered partSize start loc.centralDirOffset := by
        intro hcut
        rw [h hcut] at hassembled
        cases hassembled
      have hinside := partNumber_lt haccepted hsize (by omega) (hparts ▸ hp)
      rw [hcd] at hhas hfound ⊢
      have hbody := partHasBody_lt hinside (by omega) hhas
      have hmem := List.mem_of_find?_eq_some hfound
      have hcovers := List.find?_some hfound
      rw [decide_eq_true_eq] at hcovers
      have hbegins := hcovers.1.trans_eq (partStart_eq hbody (by omega))
      refine hsegments.isSlice hpos (by omega) hcut hmem hbody hbegins (fun _ ↦ ?_) complete
      exact hybridBodyData_eq (hsegments.holds segment hmem) hpos hbody (by omega) hbegins

/-- Every stream that `burst_downloader_extract` feeds to the processor of a part is what the archive has from
the start of the part on, up to the end of its body unless something has failed, if and only if the branch that
is taken suits the archive. -/
theorem burstDownloaderExtract_feeds_iff (haccepted : AcceptedPartSize partSize) (hsize : archive.length < 2 ^ 63)
    {response : Response} (hresponse : response.AnswersTail archive)
    {fetchRanges : List CdPartRange → Option (List (List UInt8))}
    (hranges : ∀ ranges buffers, fetchRanges ranges = some buffers →
      buffers = ranges.map fun r ↦ slice archive r.start (r.rangeEnd + 1)) (newMemory : ℕ → List UInt8)
    (hloc : centralDirParseEocdOnly (archive.drop (tailStart archive.length)) archive.length = .ok loc)
    (hoff : loc.centralDirOffset + loc.centralDirSize ≤ archive.length) :
    let plan := burstDownloaderExtract partSize response fetchRanges newMemory
    (∀ s, plan.Feeds archive partSize (tailStart archive.length) newMemory s →
      s.IsSlice archive partSize loc.centralDirOffset) ↔
    plan.Suits archive partSize (tailStart archive.length) loc.centralDirOffset newMemory := by
  have htail := tailStart_eq archive.length
  have hfetched := hresponse.fetched (hsize.trans (by norm_num))
  generalize tailStart archive.length = start at htail hfetched hloc ⊢
  have hoff : loc.centralDirOffset ≤ archive.length := by omega
  have hbelow : start ≤ archive.length := htail.trans_le (Nat.sub_le _ _)
  have hholds := extractLocated_holds haccepted htail hoff hsize hranges newMemory
  dsimp only
  rw [burstDownloaderExtract_located hfetched hloc]
  generalize extractLocated partSize fetchRanges newMemory (archive.drop start) start archive.length loc = plan
    at hholds ⊢
  cases plan with
  | failed => exact ⟨fun _ ↦ trivial, fun _ s hs ↦ by cases hs⟩
  | hybrid partialCd ranges tail =>
    obtain ⟨rfl, hbefore, hcalculated⟩ := hholds
    exact hybrid_isSlice_iff haccepted hsize hbelow hbefore hloc hcalculated partialCd
  | singlePart cdResult tail =>
    obtain ⟨rfl, hcd, hone⟩ := hholds
    have hpart := haccepted.le
    have hfew : archive.length ≤ partSize := by
      have hle := @le_numPartsFor archive.length _ haccepted.pos (by omega)
      have hmul := Nat.mul_le_mul_right partSize hone
      omega
    rw [ExtractPlan.Suits, ← singlePart_isSlice_iff htail hoff hfew hcd]
    constructor
    · intro hall complete
      exact hall _ .singlePart
    · intro hall s hs
      cases hs with
      | @singlePart _ _ complete => exact hall complete
  | concurrent cdResult segments => exact concurrent_isSlice_iff haccepted hsize hoff hholds

end

/-- An archive with its central directory in the tail is parsed, and extracted as a single part or as many. -/
theorem burstDownloaderExtract_inTail {w w' : BurstWriter} (htracks : w.Tracks)
    (hfin : burstWriterFinalize w = (some (), w')) (hsize : w'.output.bytes.length < 2 ^ 64)
    (he : ∀ e ∈ w.files, e.InRange ∧ e.NameDecodes) (hge : tailStart w'.output.bytes.length ≤ w.position)
    (hmemory : estimatedEntries (centralDirectoryBytes w.files).length * sizeofFileMetadata < 2 ^ 63)
    {partSize : ℕ} (hpart : burstPartSize ≤ partSize) {response : Response}
    (hresponse : response.AnswersTail w'.output.bytes)
    (fetchRanges : List CdPartRange → Option (List (List UInt8))) (newMemory : ℕ → List UInt8) :
    let tail := w'.output.bytes.drop (tailStart w'.output.bytes.length)
    ∃ loc cdResult, centralDirParseEocdOnly tail w'.output.bytes.length = .ok loc ∧
      loc.centralDirOffset = w.position ∧ loc.centralDirSize = (centralDirectoryBytes w.files).length ∧
      cdResult.centralDirOffset = w.position ∧
      cdResult.parts.length = numPartsFor w'.output.bytes.length partSize ∧
      burstDownloaderExtract partSize response fetchRanges newMemory =
        if cdResult.parts.length ≤ 1 then .singlePart cdResult tail
        else .concurrent cdResult
          (addTailBufferSegment [] tail (tailStart w'.output.bytes.length) w.position) := by
  have htail := tailStart_eq w'.output.bytes.length
  have hfetched := hresponse.fetched hsize
  generalize tailStart w'.output.bytes.length = start at htail hfetched hge ⊢
  have hlength := finalized_length htracks hfin
  rw [burstEocdCommentSize] at hlength
  have heocd := finalized_eocdOnly htracks hfin hsize (show start + 106 ≤ w'.output.bytes.length by omega)
  obtain ⟨cdResult, hwhole⟩ := finalized_centralDirParse_ok htracks hfin hsize (fun e hmem ↦ (he e hmem).1)
    (fun e hmem ↦ (he e hmem).2) hge hpart hmemory
  have hdrop := @finalized_drop w w' htracks hfin [] w.files rfl
  rw [finalized_centralDirParse htracks hfin hsize hge] at hwhole
  rw [centralDirectoryBytes_nil, List.length_nil, Nat.add_zero] at hdrop
  have hoffset := centralDirParseFromCdBuffer_offset hwhole
  have hparts := (centralDirParseFromCdBuffer_parsed hwhole).numParts
  refine ⟨_, cdResult, heocd, rfl, rfl, hoffset, hparts, ?_⟩
  rw [burstDownloaderExtract_located hfetched heocd, extractLocated, if_neg (Nat.not_lt_of_le hge), extractFrom,
    List.drop_drop, Nat.add_sub_cancel' hge, hdrop, hwhole]
  dsimp only
  rw [hoffset]

/-- The archive of the padded file has its central directory in the tail, behind the first 8 MiB. -/
theorem paddedFile_inTail {partSize : ℕ} (hpart : burstPartSize ≤ partSize) : ∃ w w' loc cdResult,
    addAll rawEnv (oneFile paddedFile) (burstWriterCreate ⟨[], []⟩ 3) = (some (), w) ∧
    burstWriterFinalize w = (some (), w') ∧ 8388754 ≤ w'.output.bytes.length ∧
    w'.output.bytes.length < 8650898 ∧
    centralDirParseEocdOnly (w'.output.bytes.drop (tailStart w'.output.bytes.length)) w'.output.bytes.length =
      .ok loc ∧ loc.centralDirOffset = 8388648 ∧
    loc.centralDirOffset + loc.centralDirSize ≤ w'.output.bytes.length ∧ cdResult.centralDirOffset = 8388648 ∧
    cdResult.parts.length = numPartsFor w'.output.bytes.length partSize ∧
    burstDownloaderExtract partSize (tailResponse w'.output.bytes) (fun _ ↦ none)
        (fun n ↦ List.replicate n 0) =
      if cdResult.parts.length ≤ 1 then
        .singlePart cdResult (w'.output.bytes.drop (tailStart w'.output.bytes.length))
      else .concurrent cdResult (addTailBufferSegment []
        (w'.output.bytes.drop (tailStart w'.output.bytes.length)) (tailStart w'.output.bytes.length)
        8388648) := by
  obtain ⟨w, w', hadd, hfin⟩ := oneFile_run (noise 8387734)
  obtain ⟨e, hrec, hrange, hname, -⟩ := oneFile_recorded paddedFile_data (by norm_num) paddedFile_size
    (by norm_num)
  have hfiles : w.files = [e] := (finalized_bytes hadd hfin).1.trans hrec
  have he : ∀ e ∈ w.files, e.InRange ∧ e.NameDecodes := by
    rw [hfiles, List.forall_mem_singleton]
    exact ⟨hrange, hname.decodes⟩
  have hposition : w.position = 8388648 := by
    rw [addAll_position hadd, ← itemBytes_length]
    exact oneFile_length paddedFile_data paddedFile_ending paddedFile_descriptor
  have hcd : (centralDirectoryBytes w.files).length < 262144 := by
    have hheader := centralHeaderBytes_length_lt e
    rw [hfiles, centralDirectoryBytes, List.flatMap_cons, List.flatMap_nil, List.append_nil]
    omega
  have hlength := finalized_length (addAll_tracks hadd) hfin
  have htail := tailStart_eq w'.output.bytes.length
  rw [burstEocdCommentSize] at hlength
  rw [burstPartSize] at htail
  have hmemory : estimatedEntries (centralDirectoryBytes w.files).length * sizeofFileMetadata < 2 ^ 63 := by
    rw [estimatedEntries, sizeofFileMetadata]
    split <;> omega
  obtain ⟨loc, cdResult, hloc, hoff, hsize, hcdResult, hparts, hplan⟩ :=
    burstDownloaderExtract_inTail (addAll_tracks hadd) hfin (by omega) he (by omega) hmemory hpart
      (tailResponse_answersTail w'.output.bytes) (fun _ ↦ none) fun n ↦ List.replicate n 0
  rw [hposition] at hoff hcdResult hplan
  exact ⟨w, w', loc, cdResult, hadd, hfin, by omega, by omega, hloc, hoff, by omega, hcdResult, hparts, hplan⟩

/-- With parts of 8 MiB, its first part is downloaded and its second comes from the tail. -/
theorem paddedFile_feeds : ∃ w w' cdResult segments,
    addAll rawEnv (oneFile paddedFile) (burstWriterCreate ⟨[], []⟩ 3) = (some (), w) ∧
    burstWriterFinalize w = (some (), w') ∧
    burstDownloaderExtract burstPartSize (tailResponse w'.output.bytes) (fun _ ↦ none)
      (fun n ↦ List.replicate n 0) = .concurrent cdResult segments ∧ cdResult.parts.length = 2 ∧
    ∀ s, (ExtractPlan.concurrent cdResult segments).Feeds w'.output.bytes burstPartSize
      (tailStart w'.output.bytes.length) (fun n ↦ List.replicate n 0) s →
        s.IsSlice w'.output.bytes burstPartSize 8388648 := by
  obtain ⟨w, w', loc, cdResult, hadd, hfin, hge, hlt, hloc, hoff, hinside, -, hparts, hplan⟩ :=
    @paddedFile_inTail burstPartSize le_rfl
  have htwo : cdResult.parts.length = 2 := by
    rw [hparts, numPartsFor, burstPartSize, Nat.mod_eq_of_lt (by omega)]
    have hdiv : (w'.output.bytes.length + 8 * 1024 * 1024 - 1) / (8 * 1024 * 1024) = 2 := by omega
    simp only [hdiv]
    rfl
  rw [if_neg (by omega)] at hplan
  refine ⟨w, w', cdResult, _, hadd, hfin, hplan, htwo, ?_⟩
  have haccepted : AcceptedPartSize burstPartSize := ⟨8, le_rfl, by norm_num, rfl, rfl⟩
  have hnothing (ranges : List CdPartRange) (buffers : List (List UInt8)) (hfetched : none = some buffers) :
      buffers = ranges.map fun r ↦ slice w'.output.bytes r.start (r.rangeEnd + 1) := by
    cases hfetched
  have hfeeds := burstDownloaderExtract_feeds_iff haccepted (by omega)
    (tailResponse_answersTail w'.output.bytes) hnothing (fun n ↦ List.replicate n 0) hloc hinside
  rw [hplan, hoff] at hfeeds
  apply hfeeds.mpr
  intro hcut
  have hmany := hcut.1
  norm_num [burstPartSize] at hmany

/-- With parts of 16 MiB, its only part is given the last 8 MiB of the archive, which begin after the first byte
and end before the central directory. -/
theorem paddedFile_feedsTail : ∃ w w' loc s,
    addAll rawEnv (oneFile paddedFile) (burstWriterCreate ⟨[], []⟩ 3) = (some (), w) ∧
    burstWriterFinalize w = (some (), w') ∧ AcceptedPartSize (2 * burstPartSize) ∧
    centralDirParseEocdOnly (w'.output.bytes.drop (tailStart w'.output.bytes.length)) w'.output.bytes.length =
      .ok loc ∧ loc.centralDirOffset + loc.centralDirSize ≤ w'.output.bytes.length ∧
    (burstDownloaderExtract (2 * burstPartSize) (tailResponse w'.output.bytes) (fun _ ↦ none)
      (fun n ↦ List.replicate n 0)).Feeds w'.output.bytes (2 * burstPartSize)
        (tailStart w'.output.bytes.length) (fun n ↦ List.replicate n 0) s ∧
    s.complete = true ∧ ¬ s.IsSlice w'.output.bytes (2 * burstPartSize) loc.centralDirOffset := by
  obtain ⟨w, w', loc, cdResult, hadd, hfin, hge, hlt, hloc, hoff, hinside, hcdResult, hparts, hplan⟩ :=
    @paddedFile_inTail (2 * burstPartSize) (Nat.le_mul_of_pos_left burstPartSize two_pos)
  have htail := tailStart_eq w'.output.bytes.length
  have hone : cdResult.parts.length = 1 := by
    rw [hparts, numPartsFor, burstPartSize, Nat.mod_eq_of_lt (by omega)]
    have hdiv : (w'.output.bytes.length + 2 * (8 * 1024 * 1024) - 1) / (2 * (8 * 1024 * 1024)) = 1 := by omega
    simp only [hdiv]
    rfl
  rw [if_pos hone.le] at hplan
  refine ⟨w, w', loc, ⟨0, (singlePartChunks cdResult
    (w'.output.bytes.drop (tailStart w'.output.bytes.length))).flatten, true⟩, hadd, hfin,
    ⟨16, by norm_num, by norm_num, rfl, rfl⟩, hloc, hinside, ?_, rfl, ?_⟩
  · rw [hplan]
    exact .singlePart
  · intro h
    have hreach := h.reaches rfl
    simp only [singlePartChunks_flatten, hcdResult, hoff, List.length_take, List.length_drop, htail,
      burstPartSize] at hreach
    omega

end Burst
