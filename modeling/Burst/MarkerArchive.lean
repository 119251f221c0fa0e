import Burst.CentralDirRoundTrip
import Burst.ContinuingFile
import Burst.SizeLaw

namespace Burst

open Tiling LittleEndian

theorem gapItems_total_le (env : WriterEnv) (pos lfhLen contentSize : ℕ) (dd : Bool) :
    total Item.len (gapItems env pos lfhLen contentSize dd) ≤ 65579 := by
  unfold gapItems
  split
  · simp only [total_cons, total_nil, Item.len_paddingHeader, paddingHeaderAt, paddingHeader,
      LocalFileHeader.len, paddingExtraFieldLen, List.length_append, List.length_replicate,
      paddingLfhFilename_length, paddingLfhFilenameLen]
    omega
  · simp

/-- A frame takes at most twice the compression bound and a Start-of-Part frame. -/
theorem frameItems_total_le {pos : ℕ} (offset : ℕ) (chunk : List UInt8) {frame : List UInt8}
    (hin : Inside pos) (hframe : frame.length ≤ zstdCompressBound zstdChunkSize) :
    total Item.len (frameItems pos offset chunk frame) ≤ 263216 := by
  have hbound : frame.length ≤ 131584 := hframe
  simp only [frameItems]
  obtain ⟨ha, -⟩ | ⟨ha, -⟩ | ⟨ha, hn, hspace, -⟩ :=
    alignmentDecide_cases pos frame.length (decide (chunk.length < zstdChunkSize))
  · simp [ha]
    omega
  · simp [ha]
    omega
  · simp only [ha, hn, reduceCtorEq, if_false, List.append_nil, List.cons_append, List.nil_append,
      total_cons, total_nil, paddingToBoundary_len hin, Item.len_startOfPart, Item.len_frame]
    split at hspace <;> omega

theorem chunkItems_total_le {env : WriterEnv} {level : ℤ} (hbound : FramesBounded env level)
    {pos : ℕ} (offset : ℕ) (chunks : List (List UInt8))
    (hlen : ∀ chunk ∈ chunks, chunk.length ≤ zstdChunkSize) (hin : Inside pos) :
    total Item.len (chunkItems env level pos offset chunks) ≤ 263216 * chunks.length := by
  induction chunks generalizing pos offset with
  | nil => simp [chunkItems]
  | cons chunk chunks ih =>
    have hframe := hbound.compressedFrame (hlen chunk List.mem_cons_self)
    have hnext := (frameItems_aligned offset chunk hin hframe).2.1
    have hfirst := frameItems_total_le offset chunk hin hframe
    have hrest := ih (offset + chunk.length) (fun c hc ↦ hlen c (List.mem_cons_of_mem _ hc)) hnext
    simp only [chunkItems, total_append, List.length_cons]
    omega

theorem frameEnd_ge (pos frameSize : ℕ) (atEof : Bool) :
    pos + frameSize ≤ frameEnd pos frameSize atEof := by
  rw [frameEnd, decisionEnd]
  split <;> omega

/-- Content that does not compress takes at least its own length. -/
theorem chunkItems_total_ge (level : ℤ) (pos offset : ℕ) (chunks : List (List UInt8)) :
    total List.length chunks ≤ total Item.len (chunkItems rawEnv level pos offset chunks) := by
  induction chunks generalizing pos offset with
  | nil => simp [chunkItems]
  | cons chunk chunks ih =>
    have hframe : chunk.length ≤ (compressedFrame rawEnv level chunk).length := by
      change _ ≤ (ZstdFrame.rawFrame chunk).length
      rw [ZstdFrame.rawFrame_length]
      omega
    have hitems := frameItems_total pos offset chunk (compressedFrame rawEnv level chunk)
    have hend := frameEnd_ge pos (compressedFrame rawEnv level chunk).length
      (decide (chunk.length < zstdChunkSize))
    have hrest := ih (pos + total Item.len (frameItems pos offset chunk
      (compressedFrame rawEnv level chunk))) (offset + chunk.length)
    simp only [chunkItems, total_cons, total_append]
    omega

theorem endingItems_total_le {pos : ℕ} (descriptorSize offset : ℕ) (hd : descriptorSize ≤ 24)
    (hin : Inside pos) : total Item.len (endingItems pos descriptorSize offset) ≤ 100 := by
  unfold endingItems
  split
  · simp only [total_cons, total_nil, paddingToBoundary_len hin, Item.len_startOfPart]
    omega
  · simp

theorem chunks_length_le (content : List UInt8) (seekable : Bool) :
    (InputFile.chunks ⟨content, none, seekable⟩).length ≤ content.length / zstdChunkSize + 1 := by
  have hmap := congrArg List.length
    (Pieces.cut_map_length (show 0 < zstdChunkSize by norm_num [zstdChunkSize]) content)
  rw [List.length_map, List.length_append, List.length_replicate] at hmap
  change (Pieces.cut zstdChunkSize content).length ≤ _
  rw [hmap]
  split <;> simp

/-- How much a file that does not compress can take. -/
theorem layoutFile_bounds {content : List UInt8} {lfh : LocalFileHeader} {pos : ℕ}
    (unixMode uid gid : ℕ) (hho : isHeaderOnly lfh = false) (hfit : lfh.len + 68 ≤ 65579)
    (hroom : 44 ≤ spaceUntilBoundary pos) :
    let items := (layoutCall rawEnv 3 pos (.file ⟨content, none, true⟩ lfh unixMode uid gid)).items
    content.length ≤ total Item.len items ∧
      total Item.len items ≤ 131282 + 263216 * (content.length / zstdChunkSize + 1) := by
  intro items
  have hbound := rawEnv_framesBounded 3
  obtain ⟨-, hspace⟩ := gapItems_aligned rawEnv lfh.len 0 true hroom (by simpa using hfit)
  have hgap := gapItems_total_le rawEnv pos lfh.len 0 true
  set start := pos + total Item.len (gapItems rawEnv pos lfh.len 0 true) + lfh.len with hstart
  rw [headerSpaceNeeded, paddingLfhMinSize, if_pos rfl] at hspace
  have hle := spaceUntilBoundary_le (pos + total Item.len (gapItems rawEnv pos lfh.len 0 true))
  have hlen : 30 ≤ lfh.len := by
    rw [LocalFileHeader.len]
    omega
  have hin : Inside start := by
    rw [hstart, Inside, spaceUntilBoundary_add (by omega)]
    omega
  have hchunks : ∀ chunk ∈ InputFile.chunks ⟨content, none, true⟩, chunk.length ≤ zstdChunkSize :=
    fun c hc ↦ (InputFile.chunks_length _ c hc).2
  have hcount := chunks_length_le content true
  have hdata := chunkItems_total_le hbound 0 _ hchunks hin
  have hge := chunkItems_total_ge 3 start 0 (InputFile.chunks ⟨content, none, true⟩)
  have hcontent : total List.length (InputFile.chunks ⟨content, none, true⟩) = content.length :=
    fileSize_eq content true
  have hinside := (chunkItems_aligned hbound 0 _ hchunks hin).2.1
  have hending := endingItems_total_le (getDataDescriptorSize (total Item.len
    (chunkItems rawEnv 3 start 0 (InputFile.chunks ⟨content, none, true⟩)))
    (fileSize ⟨content, none, true⟩)) (fileSize ⟨content, none, true⟩)
    (getDataDescriptorSize_le _ _) hinside
  have hdescriptor := fileDescriptor_len rawEnv 3 start ⟨content, none, true⟩
  have hsize := getDataDescriptorSize_le (total Item.len
    (chunkItems rawEnv 3 start 0 (InputFile.chunks ⟨content, none, true⟩)))
    (fileSize ⟨content, none, true⟩)
  have htotal : total Item.len items = total Item.len (gapItems rawEnv pos lfh.len 0 true) +
      (lfh.len + (total Item.len (chunkItems rawEnv 3 start 0
        (InputFile.chunks ⟨content, none, true⟩)) +
        total Item.len (fileEnding rawEnv 3 start ⟨content, none, true⟩) +
        (fileDescriptor rawEnv 3 start ⟨content, none, true⟩).len)) := by
    simp only [items, layoutCall, hho, Bool.false_eq_true, if_false, EntryLayout.items,
      EntryLayout.body, total_append, total_cons, total_nil, Item.len_localHeader, Nat.add_zero]
    rfl
  rw [fileEnding] at htotal
  rw [htotal]
  omega

theorem layoutDirectory_bounds (env : WriterEnv) (level : ℤ) (pos : ℕ) (lfh : LocalFileHeader)
    (unixMode uid gid : ℕ) :
    let items := (layoutCall env level pos (.directory lfh unixMode uid gid)).items
    lfh.len ≤ total Item.len items ∧ total Item.len items ≤ 65579 + lfh.len := by
  have hgap := gapItems_total_le env pos lfh.len 0 false
  simp only [layoutCall, EntryLayout.items, EntryLayout.body, List.append_nil, total_append,
    total_cons, total_nil, Item.len_localHeader]
  omega

theorem recordedEntry_offset_bounds (env : WriterEnv) (level : ℤ) (pos : ℕ) (call : AddCall) :
    pos ≤ (recordedEntry env level pos call).localHeaderOffset ∧
      (recordedEntry env level pos call).localHeaderOffset ≤ pos + 65579 ∧
      (recordedEntry env level pos call).localHeaderOffset <
        pos + total Item.len (layoutCall env level pos call).items := by
  have hgap : total Item.len (layoutCall env level pos call).gap ≤ 65579 := by
    cases call with
    | file =>
      simp only [layoutCall]
      split <;> exact gapItems_total_le _ _ _ _ _
    | symlink => exact gapItems_total_le _ _ _ _ _
    | directory => exact gapItems_total_le _ _ _ _ _
  have hheader : 30 ≤ (layoutCall env level pos call).header.len := by
    rw [LocalFileHeader.len]
    omega
  rw [recordedEntry_localHeaderOffset]
  change pos ≤ pos + _ ∧ pos + _ ≤ pos + 65579 ∧ pos + _ < _
  simp only [EntryLayout.items, total_append, total_cons, Item.len_localHeader]
  omega

theorem recordedFile {content : List UInt8} {lfh : LocalFileHeader} {pos : ℕ}
    (unixMode uid gid : ℕ) (hho : isHeaderOnly lfh = false) :
    let call := AddCall.file ⟨content, none, true⟩ lfh unixMode uid gid
    let entry := recordedEntry rawEnv 3 pos call
    entry.uncompressedSize = content.length ∧ content.length ≤ entry.compressedSize ∧
      entry.compressedSize ≤ total Item.len (layoutCall rawEnv 3 pos call).items ∧
      entry.crc32 < 2 ^ 32 ∧ entry.compressionMethod = lfh.fields.compressionMethod ∧
      entry.filename = lfh.filename ∧ entry.uid = uid ∧ entry.gid = gid := by
  intro call entry
  have hsize := fileSize_eq content true
  have hcompressed : entry.compressedSize = _ := recordedEntry_compressedSize rawEnv 3 pos call
  have hitems : total Item.len (layoutCall rawEnv 3 pos call).data ≤
      total Item.len (layoutCall rawEnv 3 pos call).items := by
    simp only [EntryLayout.items, EntryLayout.body, total_append, total_cons]
    omega
  have hge : content.length ≤ total Item.len (layoutCall rawEnv 3 pos call).data := by
    rw [← hsize]
    simp only [call, layoutCall, hho, Bool.false_eq_true, if_false]
    exact chunkItems_total_ge _ _ _ _
  refine ⟨?_, hcompressed ▸ hge, hcompressed ▸ hitems, ?_⟩
  · simp only [entry, call, recordedEntry, hho, Bool.false_eq_true, if_false, completedEntry, hsize]
  · simp only [entry, call, recordedEntry, hho, Bool.false_eq_true, if_false, completedEntry,
      populateEntryMetadata, allocateFileEntry, AddCall.lfh, and_self, and_true]
    exact Crc32.foldl_crc32_lt (by norm_num) _

/-- The local header of a file with a name of one byte. -/
def fileHeader (name : UInt8) : LocalFileHeader :=
  { sampleHeader zipFlagDataDescriptor zipMethodZstd with tail := name :: buildUnixExtraField 16 0 0 }

/-- The local header of a directory with a name of one byte. -/
def directoryHeader (name : UInt8) : LocalFileHeader where
  fields := { (sampleHeader 0 zipMethodStore).fields with
    versionNeeded := zipVersionStore
    filenameLength := 2 }
  tail := name :: 47 :: buildUnixExtraField 16 0 0

theorem directoryHeader_admissible (name : UInt8) :
    (AddCall.directory (directoryHeader name) 16877 0 0).Admissible rawEnv 3 := by
  constructor
  · simp [AddCall.Rejected, directoryHeader, sampleHeader]
  · trivial

/-- A large file `a`, a directory `b`, a file `c` and a directory `d`. -/
def markerCalls (large marker : List UInt8) : List AddCall :=
  [.file ⟨large, none, true⟩ (fileHeader 97) 33188 0 0,
    .directory (directoryHeader 98) 16877 0 0,
    .file ⟨marker, none, true⟩ (fileHeader 99) 33188 0 0,
    .directory (directoryHeader 100) 16877 0 0]

theorem markerCalls_admissible (large marker : List UInt8) :
    (∀ call ∈ markerCalls large marker, call.Admissible rawEnv 3) ∧
      (∀ call ∈ markerCalls large marker, call.lfh.fields.signature = zipLocalFileHeaderSig) ∧
      ∀ call ∈ markerCalls large marker, call.HeaderFits := by
  simp only [markerCalls, List.forall_mem_cons, List.not_mem_nil, false_implies, implies_true,
    and_true]
  refine ⟨⟨AddCall.admissible_file (fun _ ↦ rfl) _ _ _ _ _, directoryHeader_admissible 98,
    AddCall.admissible_file (fun _ ↦ rfl) _ _ _ _ _, directoryHeader_admissible 100⟩,
    ⟨rfl, rfl, rfl, rfl⟩, ?_⟩
  simp [AddCall.HeaderFits, AddCall.lfh, AddCall.targetLen, fileHeader, directoryHeader,
    LocalFileHeader.len, buildUnixExtraField]

/-- The records of the four entries when the large file has 2^36 bytes and the other one
4294967295. -/
structure MarkerEntries (a b c d : FileEntry) : Prop where
  inRange : ∀ e ∈ [a, b, c, d], e.InRange
  names : ∀ e ∈ [a, b, c, d], e.NameDecodes
  first : a.localHeaderOffset ≤ 65579
  large : 2 ^ 36 ≤ b.localHeaderOffset
  after : b.localHeaderOffset < c.localHeaderOffset
  last : c.localHeaderOffset < d.localHeaderOffset
  close : d.localHeaderOffset ≤ b.localHeaderOffset + 2 ^ 35
  marker : c.uncompressedSize = 0xFFFFFFFF
  decodes : ∀ e ∈ [a, b, d], e.OffsetDecodes

theorem recordedDirectory (pos : ℕ) (name : UInt8) (hname : name ≠ 0) :
    let entry := recordedEntry rawEnv 3 pos (.directory (directoryHeader name) 16877 0 0)
    (entry.localHeaderOffset < 2 ^ 64 → entry.InRange) ∧ entry.NameDecodes ∧
      entry.OffsetDecodes := by
  intro entry
  have hfilename : entry.filename = [name, 47] := by
    simp [entry, recordedEntry, populateEntryMetadata, allocateFileEntry, AddCall.lfh,
      directoryHeader, LocalFileHeader.filename, hname]
  refine ⟨fun hlt ↦ ⟨hlt, by norm_num [entry, recordedEntry], by norm_num [entry, recordedEntry],
    by norm_num [entry, recordedEntry], by norm_num [entry, recordedEntry, populateEntryMetadata,
      AddCall.lfh, directoryHeader, sampleHeader, zipMethodStore],
    by norm_num [entry, recordedEntry, populateEntryMetadata],
    by norm_num [entry, recordedEntry, populateEntryMetadata]⟩, ⟨?_, ?_⟩, fun _ ↦ ?_⟩
  · rw [hfilename]
    norm_num
  · rw [hfilename]
    simp [hname]
  · simp [entry, recordedEntry]

theorem fileHeader_len (name : UInt8) : (fileHeader name).len = 46 := by
  simp [fileHeader, LocalFileHeader.len, buildUnixExtraField]

theorem fileHeader_holdsData (name : UInt8) : isHeaderOnly (fileHeader name) = false := by
  simp [isHeaderOnly, fileHeader, sampleHeader, zipFlagDataDescriptor]

theorem recordedFileHeader {content : List UInt8} (pos : ℕ) (name : UInt8) (hname : name ≠ 0)
    (hroom : 44 ≤ spaceUntilBoundary pos) (hsize : content.length ≤ 2 ^ 36) :
    let call := AddCall.file ⟨content, none, true⟩ (fileHeader name) 33188 0 0
    let entry := recordedEntry rawEnv 3 pos call
    (entry.localHeaderOffset < 2 ^ 64 → entry.InRange) ∧ entry.NameDecodes ∧
      entry.uncompressedSize = content.length ∧ content.length ≤ entry.compressedSize ∧
      content.length ≤ total Item.len (layoutCall rawEnv 3 pos call).items ∧
      total Item.len (layoutCall rawEnv 3 pos call).items ≤
        131282 + 263216 * (content.length / 131072 + 1) := by
  intro call entry
  obtain ⟨hu, hge, hle, hcrc, hmethod, hfilename, huid, hgid⟩ :=
    @recordedFile content _ pos 33188 0 0 (fileHeader_holdsData name)
  obtain ⟨hlo, hhi⟩ := @layoutFile_bounds content _ pos 33188 0 0 (fileHeader_holdsData name)
    (by simp [fileHeader, LocalFileHeader.len, buildUnixExtraField]) hroom
  have hname' : (fileHeader name).filename = [name] := by
    simp [fileHeader, sampleHeader, LocalFileHeader.filename, hname]
  have hbound : entry.compressedSize ≤ 131282 + 263216 * (content.length / 131072 + 1) :=
    hle.trans hhi
  refine ⟨fun hlt ↦ ⟨hlt, by omega, by rw [hu]; omega, hcrc, ?_, ?_, ?_⟩, ⟨?_, ?_⟩, hu, hge, hlo, hhi⟩
  · rw [hmethod]
    norm_num [fileHeader, sampleHeader, zipMethodZstd]
  · rw [huid]
    norm_num
  · rw [hgid]
    norm_num
  · rw [hfilename, hname']
    norm_num
  · rw [hfilename, hname']
    simp [hname]

theorem markerCalls_recorded {large marker : List UInt8} (hlarge : large.length = 2 ^ 36)
    (hmarker : marker.length = 0xFFFFFFFF) : ∃ a b c d,
    recordedAll rawEnv 3 0 (markerCalls large marker) = [a, b, c, d] ∧ MarkerEntries a b c d ∧
      total Item.len (bodyItems (layoutAll rawEnv 3 0 (markerCalls large marker))) < 2 ^ 38 := by
  have hbound := rawEnv_framesBounded 3
  obtain ⟨-, hsigs, hfits⟩ := markerCalls_admissible large marker
  simp only [markerCalls, List.forall_mem_cons] at hsigs hfits
  obtain ⟨hsigA, hsigB, hsigC, -⟩ := hsigs
  obtain ⟨hfitA, hfitB, hfitC, -⟩ := hfits
  simp only [markerCalls, recordedAll, layoutAll, bodyItems, List.flatMap_cons, List.flatMap_nil,
    List.append_nil, total_append]
  have hroomA : 44 ≤ spaceUntilBoundary 0 := by norm_num [spaceUntilBoundary, burstPartSize]
  have hroomB := (layoutCall_aligned hbound hsigA hfitA hroomA).2.1.1
  have hroomC := (layoutCall_aligned hbound hsigB hfitB hroomB).2.1.1
  obtain ⟨hrangeA, hnameA, huA, hcA, hloA, hhiA⟩ :=
    recordedFileHeader 0 97 (by decide) hroomA hlarge.le
  set posB := 0 + total Item.len (layoutCall rawEnv 3 0
    (.file ⟨large, none, true⟩ (fileHeader 97) 33188 0 0)).items with hposB
  obtain ⟨hrangeB, hnameB, hdecB⟩ := recordedDirectory posB 98 (by decide)
  obtain ⟨hloB, hhiB⟩ := layoutDirectory_bounds rawEnv 3 posB (directoryHeader 98) 16877 0 0
  set posC := posB + total Item.len (layoutCall rawEnv 3 posB
    (.directory (directoryHeader 98) 16877 0 0)).items with hposC
  obtain ⟨hrangeC, hnameC, huC, hcC, hloC, hhiC⟩ :=
    recordedFileHeader posC 99 (by decide) hroomC (show marker.length ≤ 2 ^ 36 by omega)
  set posD := posC + total Item.len (layoutCall rawEnv 3 posC
    (.file ⟨marker, none, true⟩ (fileHeader 99) 33188 0 0)).items with hposD
  obtain ⟨hrangeD, hnameD, hdecD⟩ := recordedDirectory posD 100 (by decide)
  obtain ⟨hloD, hhiD⟩ := layoutDirectory_bounds rawEnv 3 posD (directoryHeader 100) 16877 0 0
  have hlen (name : UInt8) : (directoryHeader name).len = 47 := by
    simp [directoryHeader, LocalFileHeader.len, buildUnixExtraField]
  rw [hlen] at hloB hhiB hloD hhiD
  refine ⟨_, _, _, _, rfl, ?_, ?_⟩
  · obtain ⟨hoffA, hoffA', -⟩ := recordedEntry_offset_bounds rawEnv 3 0
      (.file ⟨large, none, true⟩ (fileHeader 97) 33188 0 0)
    obtain ⟨hoffB, hoffB', hendB⟩ := recordedEntry_offset_bounds rawEnv 3 posB
      (.directory (directoryHeader 98) 16877 0 0)
    obtain ⟨hoffC, hoffC', hendC⟩ := recordedEntry_offset_bounds rawEnv 3 posC
      (.file ⟨marker, none, true⟩ (fileHeader 99) 33188 0 0)
    obtain ⟨hoffD, hoffD', -⟩ := recordedEntry_offset_bounds rawEnv 3 posD
      (.directory (directoryHeader 100) 16877 0 0)
    refine ⟨?_, ?_, ?_, ?_, ?_, ?_, ?_, ?_, ?_⟩
    · simp only [List.forall_mem_cons, List.not_mem_nil, false_implies, implies_true, and_true]
      exact ⟨hrangeA (by omega), hrangeB (by omega), hrangeC (by omega), hrangeD (by omega)⟩
    · simp only [List.forall_mem_cons, List.not_mem_nil, false_implies, implies_true, and_true]
      exact ⟨hnameA, hnameB, hnameC, hnameD⟩
    · omega
    · omega
    · omega
    · omega
    · omega
    · rw [huC, hmarker]
    · simp only [List.forall_mem_cons, List.not_mem_nil, false_implies, implies_true, and_true]
      exact ⟨fun hlt ↦ by omega, hdecB, hdecD⟩
  · omega

/-- Where a file that does not compress lies, when there is room for its header and at its end. -/
theorem layoutFile_span {content : List UInt8} {lfh : LocalFileHeader} {pos d : ℕ} (unixMode uid gid : ℕ)
    (hdata : isHeaderOnly lfh = false) (hgap : gapItems rawEnv pos lfh.len 0 true = [])
    (hroom : 68 ≤ spaceUntilBoundary (pos + lfh.len + d))
    (hend : framesEnd (pos + lfh.len) (frameSizes rawEnv 3 ⟨content, none, true⟩) = pos + lfh.len + d)
    (hd : d < 2 ^ 32) (hsize : content.length < 2 ^ 32) :
    entrySpan pos (layoutCall rawEnv 3 pos (.file ⟨content, none, true⟩ lfh unixMode uid gid)) =
      ⟨pos, lfh.len, pos + lfh.len + d, pos + (lfh.len + (d + 16))⟩ := by
  have hframes : total Item.len (chunkItems rawEnv 3 (pos + lfh.len) 0
      (InputFile.chunks ⟨content, none, true⟩)) = d := by
    have htotal :=
      (chunkItems_total rawEnv 3 (pos + lfh.len) 0 (InputFile.chunks ⟨content, none, true⟩)).trans hend
    omega
  have hzip64 : usesZip64Descriptor d content.length = false := by
    simp only [usesZip64Descriptor, Bool.or_eq_false_iff, decide_eq_false_iff_not]
    omega
  have hdescriptor : getDataDescriptorSize d content.length = 16 := by
    rw [getDataDescriptorSize, if_neg (by omega)]
  have hending : fileEnding rawEnv 3 (pos + lfh.len) ⟨content, none, true⟩ = [] := by
    rw [fileEnding, hframes, fileSize_eq, hdescriptor, endingItems, if_neg (by omega)]
  have hlast : (fileDescriptor rawEnv 3 (pos + lfh.len) ⟨content, none, true⟩).len = 16 := by
    rw [fileDescriptor, Item.len_descriptor, hframes, fileSize_eq, hzip64]
    rfl
  simp only [layoutCall, hgap, hdata, Bool.false_eq_true, if_false, entrySpan, EntryLayout.headerPos,
    EntryLayout.dataPos, EntryLayout.items, EntryLayout.body, total_append, total_cons, total_nil,
    Item.len_localHeader, Nat.add_zero, Nat.zero_add, hframes, hending, hlast]

theorem layoutFile_total {content : List UInt8} {pos d : ℕ} (name : UInt8)
    (hgap : gapItems rawEnv pos 46 0 true = []) (hroom : 68 ≤ spaceUntilBoundary (pos + 46 + d))
    (hend : framesEnd (pos + 46) (frameSizes rawEnv 3 ⟨content, none, true⟩) = pos + 46 + d)
    (hd : d < 2 ^ 32) (hsize : content.length < 2 ^ 32) :
    let call := AddCall.file ⟨content, none, true⟩ (fileHeader name) 33188 0 0
    total Item.len (layoutCall rawEnv 3 pos call).items = d + 62 ∧
      (recordedEntry rawEnv 3 pos call).localHeaderOffset = pos := by
  intro call
  rw [← fileHeader_len name] at hgap hroom hend
  have hspan := layoutFile_span 33188 0 0 (fileHeader_holdsData name) hgap hroom hend hd hsize
  rw [fileHeader_len] at hspan
  have htotal : pos + total Item.len (layoutCall rawEnv 3 pos call).items = pos + (46 + (d + 16)) :=
    congrArg EntrySpan.endPos hspan
  rw [recordedEntry_localHeaderOffset, hspan]
  exact ⟨by omega, rfl⟩

/-- A file `a` that ends 70 bytes before the first part boundary, a directory `b`, and a file `c` that goes on
in part 2. -/
def spreadCalls (first second : List UInt8) : List AddCall :=
  [.file ⟨first, none, true⟩ (fileHeader 97) 33188 0 0,
    .directory (directoryHeader 98) 16877 0 0,
    .file ⟨second, none, true⟩ (fileHeader 99) 33188 0 0]

theorem spreadCalls_admissible (first second : List UInt8) :
    (∀ call ∈ spreadCalls first second, call.Admissible rawEnv 3) ∧
      (∀ call ∈ spreadCalls first second, call.lfh.fields.signature = zipLocalFileHeaderSig) ∧
      ∀ call ∈ spreadCalls first second, call.HeaderFits := by
  simp only [spreadCalls, List.forall_mem_cons, List.not_mem_nil, false_implies, implies_true, and_true]
  refine ⟨⟨AddCall.admissible_file (fun _ ↦ rfl) _ _ _ _ _, directoryHeader_admissible 98,
    AddCall.admissible_file (fun _ ↦ rfl) _ _ _ _ _⟩, ⟨rfl, rfl, rfl⟩, ?_⟩
  simp [AddCall.HeaderFits, AddCall.lfh, AddCall.targetLen, fileHeader, directoryHeader,
    LocalFileHeader.len, buildUnixExtraField]

/-- The header of `b` lies on the first part boundary, behind a padding header. -/
theorem spreadCalls_recorded {first second : List UInt8} (hfirst : first.length = 8387708)
    (hsecond : second.length = 9000000) : ∃ a b c h,
    recordedAll rawEnv 3 0 (spreadCalls first second) = [a, b, c] ∧
      (∀ e ∈ [a, b, c], e.InRange ∧ e.NameDecodes ∧ e.OffsetDecodes) ∧
      a.localHeaderOffset = 0 ∧ b.localHeaderOffset = 8388608 ∧ c.localHeaderOffset = 8388655 ∧
      .paddingHeader h ∈ bodyItems (layoutAll rawEnv 3 0 (spreadCalls first second)) ∧
      total Item.len (bodyItems (layoutAll rawEnv 3 0 (spreadCalls first second))) = 17519792 := by
  obtain ⟨htotalA, hoffA⟩ := @layoutFile_total first 0 8388476 97 (by decide) (by decide) (by
    rw [rawEnv_frameSizes, hfirst]
    decide +kernel) (by norm_num) (by omega)
  obtain ⟨htotalC, hoffC⟩ := @layoutFile_total second 8388655 9131075 99 (by decide) (by decide) (by
    rw [rawEnv_frameSizes, hsecond]
    decide +kernel) (by norm_num) (by omega)
  obtain ⟨h, hgap, hlen⟩ : ∃ h, gapItems rawEnv 8388538 47 0 false = [.paddingHeader h] ∧ h.len = 70 := by
    refine ⟨paddingHeaderAt rawEnv 8388538 (spaceUntilBoundary 8388538), ?_, by decide +kernel⟩
    rw [gapItems, if_pos (by decide)]
  have hdirectory : (directoryHeader 98).len = 47 := by
    simp [directoryHeader, LocalFileHeader.len, buildUnixExtraField]
  have hlayoutB : layoutCall rawEnv 3 8388538 (.directory (directoryHeader 98) 16877 0 0) =
      ⟨[.paddingHeader h], directoryHeader 98, [], [], []⟩ := by
    rw [layoutCall, hdirectory, hgap]
  have hoffB : (recordedEntry rawEnv 3 8388538 (.directory (directoryHeader 98) 16877 0 0)).localHeaderOffset =
      8388608 := by
    rw [recordedEntry_localHeaderOffset, entrySpan, hlayoutB]
    simp only [EntryLayout.headerPos, total_cons, total_nil, Item.len_paddingHeader, hlen]
  have htotalB : total Item.len (layoutCall rawEnv 3 8388538
      (.directory (directoryHeader 98) 16877 0 0)).items = 117 := by
    rw [hlayoutB]
    simp only [EntryLayout.items, EntryLayout.body, List.append_nil, List.cons_append, List.nil_append, total_cons,
      total_nil, Item.len_paddingHeader, Item.len_localHeader, hlen, hdirectory]
  have hroomC : 44 ≤ spaceUntilBoundary 8388655 := by decide
  obtain ⟨hrangeA, hnameA, -⟩ := @recordedFileHeader first 0 97 (by decide) (by decide) (by omega)
  obtain ⟨hrangeB, hnameB, hdecB⟩ := recordedDirectory 8388538 98 (by decide)
  obtain ⟨hrangeC, hnameC, -⟩ := @recordedFileHeader second 8388655 99 (by decide) hroomC (by omega)
  simp only [spreadCalls, recordedAll, layoutAll, bodyItems, List.flatMap_cons, List.flatMap_nil, List.append_nil,
    total_append, htotalA, htotalB, htotalC, Nat.zero_add, Nat.reduceAdd]
  refine ⟨_, _, _, h, rfl, ?_, hoffA, hoffB, hoffC, ?_, trivial⟩
  · simp only [List.forall_mem_cons, List.not_mem_nil, false_implies, implies_true, and_true]
    exact ⟨⟨hrangeA (by omega), hnameA, fun hlt ↦ by omega⟩, ⟨hrangeB (by omega), hnameB, hdecB⟩,
      hrangeC (by omega), hnameC, fun hlt ↦ by omega⟩
  · rw [hlayoutB]
    exact List.mem_append_right _ (List.mem_append_left _ List.mem_cons_self)

end Burst
