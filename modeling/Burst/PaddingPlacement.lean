import Burst.BoundaryDetection
import Burst.ItemFrames

namespace Burst

open Tiling

/-- What `check_alignment_and_pad` is for: the writer stays where it is with room for the entry and a
padding header after it, or one padding header takes it to the boundary. -/
def LeavesRoom (lfhLen contentSize : ℕ) (hasDataDescriptor : Bool) (w w' : BurstWriter) : Prop :=
  (w'.position = w.position ∧ w'.archive = w.archive ∧
    lfhLen + contentSize + (if hasDataDescriptor then 24 else 0) + 44 ≤
      alignmentNextBoundary w'.position - w'.position) ∨
  (w'.position = alignmentNextBoundary w.position ∧
    ∃ header : LocalFileHeader, header.WellFormed ∧ w'.archive = w.archive ++ header.bytes)

theorem alignmentNextBoundary_eq (pos : ℕ) :
    alignmentNextBoundary pos = pos + spaceUntilBoundary pos := by
  have hsub := alignmentNextBoundary_sub pos
  have hpos := spaceUntilBoundary_pos pos
  omega

/-- The length of a padding header is cut to what a 16-bit extra field allows. -/
theorem checkAlignmentAndPad_pads {env : WriterEnv} {lfhLen contentSize : ℕ} {dd : Bool}
    {w w' : BurstWriter}
    (h : checkAlignmentAndPad env lfhLen contentSize dd w = (some (), w'))
    (hlt : spaceUntilBoundary w.position < headerSpaceNeeded lfhLen contentSize dd) :
    44 ≤ spaceUntilBoundary w.position ∧
      w'.position = w.position + (44 + (spaceUntilBoundary w.position - 44) % 2 ^ 16) ∧
      w'.archive = w.archive ++
        (paddingHeaderAt env w.position (spaceUntilBoundary w.position)).bytes := by
  have hfits := checkAlignmentAndPad_ok h
  obtain ⟨-, happended⟩ := (checkAlignmentAndPad_emits hfits).appended rfl h
  rw [gapItems, if_pos hlt] at happended
  simp only [itemBytes_cons, itemBytes_nil, List.append_nil, Item.bytes] at happended
  have hlo := hfits hlt
  have hlen : (paddingHeaderAt env w.position (spaceUntilBoundary w.position)).bytes.length =
      44 + (spaceUntilBoundary w.position - 44) % 2 ^ 16 := by
    rw [LocalFileHeader.bytes_length]
    simp only [paddingHeaderAt, paddingHeader, LocalFileHeader.len, paddingExtraFieldLen,
      List.length_append, List.length_replicate, paddingLfhFilename_length, paddingLfhFilenameLen]
    omega
  exact ⟨hlo, by rw [happended.position, hlen], happended.archive⟩

/-- A padding header has a 16-bit extra field: it reaches the boundary exactly when the boundary is no
more than 44 + 65535 bytes away. -/
theorem checkAlignmentAndPad_leavesRoom_iff {env : WriterEnv} {lfhLen contentSize : ℕ} {dd : Bool}
    {w w' : BurstWriter}
    (h : checkAlignmentAndPad env lfhLen contentSize dd w = (some (), w')) :
    LeavesRoom lfhLen contentSize dd w w' ↔
      (spaceUntilBoundary w.position < headerSpaceNeeded lfhLen contentSize dd →
        spaceUntilBoundary w.position ≤ 65579) := by
  by_cases hlt : spaceUntilBoundary w.position < headerSpaceNeeded lfhLen contentSize dd
  · obtain ⟨hlo, hposition, harchive⟩ := checkAlignmentAndPad_pads h hlt
    constructor
    · rintro (⟨hsame, -, -⟩ | ⟨hboundary, -⟩)
      · omega
      · rw [alignmentNextBoundary_eq] at hboundary
        intro _
        omega
    · intro hsmall
      have hsmall := hsmall hlt
      right
      refine ⟨?_, _, paddingHeaderAt_wellFormed _ _ _, harchive⟩
      rw [alignmentNextBoundary_eq, hposition]
      omega
  · obtain ⟨-, happended⟩ := (checkAlignmentAndPad_emits (checkAlignmentAndPad_ok h)).appended rfl h
    rw [gapItems, if_neg hlt] at happended
    have hposition : w'.position = w.position := by simpa using happended.position
    have harchive : w'.archive = w.archive := by simpa using happended.archive
    refine iff_of_true (.inl ⟨hposition, harchive, ?_⟩) fun hpad ↦ (hlt hpad).elim
    rw [headerSpaceNeeded, paddingLfhMinSize] at hlt
    rw [alignmentNextBoundary_sub, hposition]
    omega

/-- A writer that stands 100 bytes before the first boundary. -/
def nearBoundary : BurstWriter :=
  { burstWriterCreate ⟨[], []⟩ 3 with currentOffset := burstPartSize - 100 }

theorem checkAlignmentAndPad_leavesRoom_sample :
    (checkAlignmentAndPad rawEnv 46 20 false nearBoundary).1 = some () ∧
      LeavesRoom 46 20 false nearBoundary (checkAlignmentAndPad rawEnv 46 20 false nearBoundary).2 := by
  have hok : (checkAlignmentAndPad rawEnv 46 20 false nearBoundary).1 = some () := by decide +kernel
  exact ⟨hok, (checkAlignmentAndPad_leavesRoom_iff (WriterM.ok_of_fst hok)).mpr
    fun _ ↦ by decide +kernel⟩

/-- A link to a target of 8 MiB, for which the whole first part would have to be padding. -/
theorem longTarget_missesBoundary :
    ∃ w', checkAlignmentAndPad rawEnv 46 8388608 false (burstWriterCreate ⟨[], []⟩ 3) =
        (some (), w') ∧ ¬ LeavesRoom 46 8388608 false (burstWriterCreate ⟨[], []⟩ 3) w' := by
  have hspace : spaceUntilBoundary 0 = 8388608 := by decide
  have hneed : spaceUntilBoundary 0 < headerSpaceNeeded 46 8388608 false := by
    rw [hspace]
    decide
  have hready : Ready (burstWriterCreate ⟨[], []⟩ 3) :=
    ⟨rfl, by simp [burstWriterCreate, writeBufferSize]⟩
  have hfits : GapFits 0 46 8388608 false := fun _ ↦ by
    rw [hspace]
    norm_num
  obtain ⟨w', hok, -⟩ :=
    (@checkAlignmentAndPad_emits rawEnv 0 46 8388608 false hfits).completes rfl hready
  obtain ⟨-, hposition, -⟩ := checkAlignmentAndPad_pads hok hneed
  rw [show (burstWriterCreate ⟨[], []⟩ 3).position = 0 from rfl, hspace] at hposition
  refine ⟨w', hok, ?_⟩
  rintro (⟨hsame, -, -⟩ | ⟨hboundary, -⟩)
  · rw [hsame] at hposition
    cases hposition
  · rw [hboundary] at hposition
    revert hposition
    decide

/-- Adding a file after other entries, up to a chunk: its header and the chunks before are written. -/
def addFileUpTo (env : WriterEnv) (calls : List AddCall) (lfh : LocalFileHeader)
    (unixMode uid gid : ℕ) (chunks : List (List UInt8)) : WriterM ChunkState := do
  addAll env calls
  let _ ← startEntry env lfh 0 true unixMode uid gid
  let w ← WriterM.get
  addChunks env w.compressionLevel ⟨0, 0⟩ chunks

/-- There is room for the 8 bytes of a padding frame's header, and the frame ends at the boundary. -/
structure ReachesBoundary (w : BurstWriter) (paddingSize : ℕ) : Prop where
  space : 8 ≤ alignmentNextBoundary w.position - w.position
  size : paddingSize = alignmentNextBoundary w.position - w.position - 8
  ends : w.position + (paddingFrameBytes paddingSize).length = alignmentNextBoundary w.position

theorem Inside.reachesBoundary {w : BurstWriter} (h : Inside w.position) :
    ReachesBoundary w (sub64 (spaceUntilBoundary w.position) 8) := by
  have hlt : spaceUntilBoundary w.position < 2 ^ 64 :=
    (spaceUntilBoundary_le _).trans_lt (by norm_num [burstPartSize])
  have hsize := sub64_of_le h.1 hlt
  have hlo := h.1
  refine ⟨?_, ?_, ?_⟩
  · rw [alignmentNextBoundary_sub]
    exact hlo
  · rw [alignmentNextBoundary_sub, hsize]
  · rw [paddingFrameBytes_length, hsize, alignmentNextBoundary_eq]
    omega

/-- The header of a file leaves room for a data descriptor and a padding header. -/
theorem startEntry_inside {env : WriterEnv} {lfh : LocalFileHeader} {unixMode uid gid : ℕ}
    {entry : FileEntry} {w w' : BurstWriter} (hroom : 44 ≤ spaceUntilBoundary w.position)
    (hlfh : lfh.len + 68 ≤ 65579)
    (h : startEntry env lfh 0 true unixMode uid gid w = (some entry, w')) : Inside w'.position := by
  obtain ⟨-, hhead⟩ := (startEntry_emits env unixMode uid gid (startEntry_ok h)).appended rfl h
  obtain ⟨-, hspace⟩ := gapItems_aligned env lfh.len 0 true hroom hlfh
  rw [headerSpaceNeeded, paddingLfhMinSize, if_pos rfl] at hspace
  have hle := spaceUntilBoundary_le
    (w.position + total Item.len (gapItems env w.position lfh.len 0 true))
  have hlen : 0 < lfh.len := by
    rw [LocalFileHeader.len]
    omega
  rw [hhead.position, itemBytes_length, total_append, total_cons, total_nil, Item.len_localHeader,
    Nat.add_zero, ← Nat.add_assoc, Inside, spaceUntilBoundary_add (by omega)]
  omega

theorem addChunks_inside {env : WriterEnv} {level : ℤ} (hbound : FramesBounded env level)
    {input : InputFile} {chunks : List (List UInt8)} {s s' : ChunkState} {w w' : BurstWriter}
    (hin : Inside w.position) (hchunks : chunks <+: input.chunks)
    (h : addChunks env level s chunks w = (some s', w')) : Inside w'.position := by
  have hlens : ∀ chunk ∈ chunks, chunk.length ≤ zstdChunkSize :=
    fun chunk hchunk ↦ (input.chunks_length chunk (hchunks.subset hchunk)).2
  obtain ⟨-, hend, hwritable⟩ := chunkItems_aligned hbound s.totalUncompressed chunks hlens hin
  obtain ⟨-, happended⟩ := (addChunks_emits (addChunks_ok h).1 hwritable).appended rfl h
  rw [happended.position, itemBytes_length]
  exact hend

/-- Between two chunks of a file the writer is inside a part. -/
theorem addFileUpTo_inside {env : WriterEnv} {level : ℤ} {limits : List ℕ} {calls : List AddCall}
    {lfh : LocalFileHeader} {unixMode uid gid : ℕ} {input : InputFile} {chunks : List (List UInt8)}
    {s : ChunkState} {w : BurstWriter} (hbound : FramesBounded env level)
    (hcalls : ∀ call ∈ calls, call.HeaderFits) (hlfh : lfh.len + 68 ≤ 65579)
    (hchunks : chunks <+: input.chunks)
    (hrun : addFileUpTo env calls lfh unixMode uid gid chunks (burstWriterCreate ⟨[], limits⟩ level) =
      (some s, w)) : Inside w.position := by
  rw [addFileUpTo, WriterM.bind_ok] at hrun
  obtain ⟨_, w₁, hadd, hrun⟩ := hrun
  obtain ⟨entry, w₂, hstart, hrun⟩ := WriterM.bind_ok.mp hrun
  obtain ⟨_, _, hget, hrun⟩ := WriterM.bind_ok.mp hrun
  obtain ⟨rfl, rfl⟩ := WriterM.get_ok.mp hget
  obtain ⟨-, hadded⟩ := addAll_ok hadd
  have hfresh : (burstWriterCreate ⟨[], limits⟩ level).position = 0 ∧
      (burstWriterCreate ⟨[], limits⟩ level).compressionLevel = level := ⟨rfl, rfl⟩
  rw [hfresh.1, hfresh.2] at hadded
  have hroom : 44 ≤ spaceUntilBoundary w₁.position := by
    rw [hadded.position, hfresh.1]
    exact layoutAll_room hbound hcalls (by norm_num [spaceUntilBoundary, burstPartSize])
  have hlevel : w₂.compressionLevel = level := by
    obtain ⟨-, hhead⟩ :=
      (startEntry_emits env unixMode uid gid (startEntry_ok hstart)).appended rfl hstart
    rw [hhead.compressionLevel, hadded.compressionLevel, hfresh.2]
  have hinside := startEntry_inside hroom hlfh hstart
  rw [hlevel] at hrun
  exact addChunks_inside hbound hinside hchunks hrun

/-- What the chunk loop writes for a chunk that it pads. -/
theorem addChunk_padded {env : WriterEnv} {level : ℤ} {s s' : ChunkState} {chunk frame : List UInt8}
    {w w' : BurstWriter} (hframe : env.compressChunk level chunk = some frame)
    (hpads : (alignmentDecide w.position frame.length (decide (chunk.length < zstdChunkSize))).action =
      .padThenMetadata)
    (h : addChunk env level s chunk w = (some s', w')) :
    w'.archive = w.archive ++
      (paddingFrameBytes (alignmentDecide w.position frame.length
          (decide (chunk.length < zstdChunkSize))).paddingSize ++
        (startOfPartBytes s.totalUncompressed ++ frame)) := by
  obtain ⟨hsome, hwritable⟩ := addChunk_ok h
  obtain ⟨-, happended⟩ := (addChunk_emits hsome hwritable).appended rfl h
  have hget : compressedFrame env level chunk = frame := by
    rw [compressedFrame, hframe]
    rfl
  rw [happended.archive, hget, frameItems]
  simp [hpads, Item.bytes]

theorem padBeforeDescriptor_padded {descriptorSize totalUncompressed : ℕ} {w w' : BurstWriter}
    (hpads : spaceUntilBoundary w.position < descriptorSize + 44 + 8)
    (h : padBeforeDescriptor descriptorSize totalUncompressed w = (some (), w')) :
    w'.archive = w.archive ++ (paddingFrameBytes (sub64 (spaceUntilBoundary w.position) 8) ++
      startOfPartBytes totalUncompressed) := by
  obtain ⟨-, happended⟩ := (padBeforeDescriptor_emits (padBeforeDescriptor_ok h)).appended rfl h
  have harchive := happended.archive
  rw [endingItems, if_pos hpads] at harchive
  simpa [Item.bytes] using harchive

/-- The chunk loop decides to pad before a frame. -/
def AlignmentDecision.Pads (decision : AlignmentDecision) : Prop :=
  decision.action = .padThenFrame ∨ decision.action = .padThenMetadata

theorem decision_reachesBoundary {w : BurstWriter} (hin : Inside w.position) {frameSize : ℕ}
    {atFileEnd : Bool} (hpads : (alignmentDecide w.position frameSize atFileEnd).Pads) :
    (alignmentDecide w.position frameSize atFileEnd).action = .padThenMetadata ∧
      ReachesBoundary w (alignmentDecide w.position frameSize atFileEnd).paddingSize := by
  obtain ⟨ha, -⟩ | ⟨ha, -⟩ | ⟨ha, hsize, -⟩ := alignmentDecide_cases w.position frameSize atFileEnd
  · rcases hpads with h | h
    · cases ha.symm.trans h
    · cases ha.symm.trans h
  · rcases hpads with h | h
    · cases ha.symm.trans h
    · cases ha.symm.trans h
  · refine ⟨ha, ?_⟩
    rw [hsize]
    exact hin.reachesBoundary

/-- Padding inside a file: whenever the chunk loop or the end of the file decides to pad, the header of
the padding frame fits, the frame ends at the next boundary, a Start-of-Part frame follows it, and
`parse_next_frame` tells the two apart. -/
theorem filePadding_reachesBoundary {env : WriterEnv} {level : ℤ} {limits : List ℕ}
    {calls : List AddCall} {lfh : LocalFileHeader} {unixMode uid gid : ℕ} {input : InputFile}
    {chunks : List (List UInt8)} {s : ChunkState} {w : BurstWriter} (hbound : FramesBounded env level)
    (hcalls : ∀ call ∈ calls, call.HeaderFits) (hlfh : lfh.len + 68 ≤ 65579)
    (hchunks : chunks <+: input.chunks)
    (hrun : addFileUpTo env calls lfh unixMode uid gid chunks (burstWriterCreate ⟨[], limits⟩ level) =
      (some s, w)) :
    (∀ chunk frame, env.compressChunk level chunk = some frame →
      let decision := alignmentDecide w.position frame.length (decide (chunk.length < zstdChunkSize))
      decision.Pads → ReachesBoundary w decision.paddingSize ∧
      ∀ s' w', addChunk env level s chunk w = (some s', w') →
        w'.archive = w.archive ++ (paddingFrameBytes decision.paddingSize ++
          (startOfPartBytes s.totalUncompressed ++ frame))) ∧
    (∀ compressedSize,
      let descriptorSize := getDataDescriptorSize compressedSize s.totalUncompressed
      let space := spaceUntilBoundary w.position
      space < descriptorSize + 44 + 8 → ReachesBoundary w (sub64 space 8) ∧
      ∀ w', padBeforeDescriptor descriptorSize s.totalUncompressed w = (some (), w') →
        w'.archive = w.archive ++ (paddingFrameBytes (sub64 space 8) ++
          startOfPartBytes s.totalUncompressed)) ∧
    ∀ zstd n offset rest, 8 + n < 2 ^ 32 →
      parseNextFrame zstd (paddingFrameBytes n ++ (startOfPartBytes offset ++ rest)) =
        .success ⟨.burstPadding, 8 + n, 0, 0⟩ ∧
      parseNextFrame zstd (startOfPartBytes offset ++ rest) =
        .success ⟨.burstStartOfPart, 24, 0, offset % 2 ^ 64⟩ := by
  have hinside := addFileUpTo_inside hbound hcalls hlfh hchunks hrun
  refine ⟨fun chunk frame hframe ↦ ?_, fun compressedSize ↦ ?_, fun zstd n offset rest hn ↦ ?_⟩
  · intro decision hpads
    obtain ⟨ha, hreaches⟩ := decision_reachesBoundary hinside hpads
    exact ⟨hreaches, fun s' w' h ↦ addChunk_padded hframe ha h⟩
  · intro descriptorSize space hlt
    exact ⟨hinside.reachesBoundary, fun w' h ↦ padBeforeDescriptor_padded hlt h⟩
  · exact ⟨parseNextFrame_padding zstd hn _, parseNextFrame_startOfPart zstd offset rest⟩

/-- What is written and counted until the descriptor of the only file. -/
theorem addFileUpTo_completes {env : WriterEnv} {level : ℤ} {lfh : LocalFileHeader} (unixMode uid gid : ℕ)
    {chunks : List (List UInt8)} (hgap : GapFits 0 lfh.len 0 true)
    (hframe : ∀ chunk ∈ chunks, (env.compressChunk level chunk).isSome)
    (hwritable : ∀ i ∈ chunkItems env level
      (itemBytes (gapItems env 0 lfh.len 0 true ++ [.localHeader lfh])).length 0 chunks, i.Writable) :
    let start := (itemBytes (gapItems env 0 lfh.len 0 true ++ [.localHeader lfh])).length
    ∃ w, addFileUpTo env [] lfh unixMode uid gid chunks (burstWriterCreate ⟨[], []⟩ level) =
        (some ⟨chunks.foldl env.crc32 0, 0 + total List.length chunks⟩, w) ∧
      w.position = start + total Item.len (chunkItems env level start 0 chunks) ∧ Ready w := by
  intro start
  have hready : Ready (burstWriterCreate ⟨[], []⟩ level) := ⟨rfl, by simp [burstWriterCreate, writeBufferSize]⟩
  have hstart := startEntry_emits env unixMode uid gid hgap
  obtain ⟨w₁, hok₁, hready₁⟩ := hstart.completes rfl hready
  obtain ⟨-, hhead⟩ := hstart.appended rfl hok₁
  have hpos₁ : w₁.position = start := hhead.position.trans (Nat.zero_add _)
  have hlevel : w₁.compressionLevel = level := hhead.compressionLevel
  have hchunks := @addChunks_emits env level start ⟨0, 0⟩ chunks hframe hwritable
  obtain ⟨w₂, hok₂, hready₂⟩ := hchunks.completes hpos₁ hready₁
  obtain ⟨-, hdata⟩ := hchunks.appended hpos₁ hok₂
  refine ⟨w₂, ?_, by rw [hdata.position, hpos₁, itemBytes_length], hready₂⟩
  rw [addFileUpTo, WriterM.bind_ok]
  refine ⟨(), _, rfl, WriterM.bind_ok.mpr ⟨_, w₁, hok₁, ?_⟩⟩
  refine WriterM.bind_ok.mpr ⟨w₁, w₁, WriterM.get_ok.mpr ⟨rfl, rfl⟩, ?_⟩
  rwa [hlevel]

/-- After the last chunk of the padded file 60 bytes are left of the part, and the data descriptor does
not go into them. -/
theorem paddedFile_reachesBoundary : ∃ s w w',
    addFileUpTo rawEnv [] (sampleHeader zipFlagDataDescriptor zipMethodZstd) 33188 0 0 paddedFile.chunks
      (burstWriterCreate ⟨[], []⟩ 3) = (some s, w) ∧ s.totalUncompressed = 8387734 ∧
    let descriptorSize := getDataDescriptorSize 8388502 s.totalUncompressed
    let space := spaceUntilBoundary w.position
    space = 60 ∧ space < descriptorSize + 44 + 8 ∧ ReachesBoundary w (sub64 space 8) ∧
      padBeforeDescriptor descriptorSize s.totalUncompressed w = (some (), w') ∧
      w'.archive = w.archive ++ (paddingFrameBytes (sub64 space 8) ++ startOfPartBytes s.totalUncompressed) := by
  have hlen : (sampleHeader zipFlagDataDescriptor zipMethodZstd).len = 46 := by decide
  have hgap : gapItems rawEnv 0 46 0 true = [] := by decide +kernel
  have hhead : (itemBytes (gapItems rawEnv 0 (sampleHeader zipFlagDataDescriptor zipMethodZstd).len 0 true ++
      [.localHeader (sampleHeader zipFlagDataDescriptor zipMethodZstd)])).length = 46 := by
    rw [hlen, hgap, List.nil_append, itemBytes_length, total_cons, total_nil, Item.len_localHeader, hlen]
  have hinside : Inside 46 := by
    constructor
    · decide
    · decide
  have hlens : ∀ chunk ∈ paddedFile.chunks, chunk.length ≤ zstdChunkSize :=
    fun chunk hchunk ↦ (paddedFile.chunks_length chunk hchunk).2
  obtain ⟨-, -, hwritable⟩ := chunkItems_aligned (rawEnv_framesBounded 3) 0 paddedFile.chunks hlens hinside
  obtain ⟨w, hrun, hpos, hready⟩ := @addFileUpTo_completes rawEnv 3
    (sampleHeader zipFlagDataDescriptor zipMethodZstd) 33188 0 0 paddedFile.chunks
    (by rw [hlen]; intro _; decide) (fun _ _ ↦ rfl) (by rw [hhead]; exact hwritable)
  have htotal : 0 + total List.length paddedFile.chunks = 8387734 := (Nat.zero_add _).trans paddedFile_size
  rw [htotal] at hrun
  rw [hhead, paddedFile_data] at hpos
  have hspace : spaceUntilBoundary w.position = 60 := by
    rw [hpos]
    decide
  have hdescriptor := getDataDescriptorSize_ge 8388502 8387734
  have hpads : spaceUntilBoundary w.position < getDataDescriptorSize 8388502 8387734 + 44 + 8 := by
    omega
  obtain ⟨-, hending, -⟩ := filePadding_reachesBoundary (rawEnv_framesBounded 3)
    (List.forall_mem_nil _) (by rw [hlen]; norm_num) (List.prefix_refl paddedFile.chunks) hrun
  obtain ⟨hreaches, harchive⟩ := hending 8388502 hpads
  have hemits := @padBeforeDescriptor_emits w.position (getDataDescriptorSize 8388502 8387734) 8387734 (by
    rw [endingItems, if_pos hpads, hspace]
    simp [Item.Writable, sub64])
  obtain ⟨w', hok, -⟩ := hemits.completes rfl hready
  exact ⟨_, w, w', hrun, rfl, hspace, hpads, hreaches, hok, harchive w' hok⟩

end Burst
