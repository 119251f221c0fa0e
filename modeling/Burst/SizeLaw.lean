import Burst.FailedAdds

namespace Burst

open Tiling

/-- Where a frame of `frameSize` bytes and what goes with it end. -/
def decisionEnd (pos frameSize : ℕ) (decision : AlignmentDecision) : ℕ :=
  match decision.action with
  | .writeFrame => pos + frameSize
  | .padThenFrame => pos + (8 + decision.paddingSize) + frameSize
  | .padThenMetadata => pos + (8 + decision.paddingSize) + 24 + frameSize
  | .writeFrameThenMetadata => pos + frameSize + 24

def frameEnd (pos frameSize : ℕ) (atEof : Bool) : ℕ :=
  decisionEnd pos frameSize (alignmentDecide pos frameSize atEof)

/-- Where the chunk loop ends, by the sizes of the frames and whether each chunk is short. -/
def framesEnd : ℕ → List (ℕ × Bool) → ℕ
  | pos, [] => pos
  | pos, (frameSize, atEof) :: frames => framesEnd (frameEnd pos frameSize atEof) frames

def frameSizes (env : WriterEnv) (level : ℤ) (input : InputFile) : List (ℕ × Bool) :=
  input.chunks.map fun chunk ↦
    ((compressedFrame env level chunk).length, decide (chunk.length < zstdChunkSize))

theorem frameItems_total (pos offset : ℕ) (chunk frame : List UInt8) :
    pos + total Item.len (frameItems pos offset chunk frame) =
      frameEnd pos frame.length (decide (chunk.length < zstdChunkSize)) := by
  rw [frameItems, frameEnd, decisionEnd]
  cases (alignmentDecide pos frame.length (decide (chunk.length < zstdChunkSize))).action <;>
    simp <;> omega

theorem chunkItems_total (env : WriterEnv) (level : ℤ) (pos offset : ℕ)
    (chunks : List (List UInt8)) :
    pos + total Item.len (chunkItems env level pos offset chunks) =
      framesEnd pos (chunks.map fun chunk ↦
        ((compressedFrame env level chunk).length, decide (chunk.length < zstdChunkSize))) := by
  induction chunks generalizing pos offset with
  | nil => simp [chunkItems, framesEnd]
  | cons chunk chunks ih =>
    rw [chunkItems, total_append, ← Nat.add_assoc, ih, frameItems_total, List.map_cons, framesEnd]

/-- Where the data of a file that is added at a position starts. -/
def fileDataStart (pos lfhLen : ℕ) : ℕ :=
  if spaceUntilBoundary pos < headerSpaceNeeded lfhLen 0 true then
    pos + (paddingLfhMinSize + paddingExtraFieldLen (spaceUntilBoundary pos)) + lfhLen
  else pos + lfhLen

theorem fileDataStart_eq (env : WriterEnv) (pos : ℕ) (lfh : LocalFileHeader) :
    pos + total Item.len (gapItems env pos lfh.len 0 true) + lfh.len = fileDataStart pos lfh.len := by
  rw [gapItems, fileDataStart]
  split
  · simp [paddingHeaderAt, paddingHeader, LocalFileHeader.len, paddingLfhFilenameLen,
      paddingLfhMinSize]
    omega
  · simp

/-- The data descriptor, with which the archive ends, starts where the recorded offset and sizes
say. -/
def SizeLaw (archive : List UInt8) (lfhLen : ℕ) (entry : FileEntry) : Prop :=
  ∃ before data, archive = before ++ data ++ dataDescriptorBytes entry.crc32 entry.compressedSize
      entry.uncompressedSize entry.usedZip64Descriptor ∧
    before.length = entry.localHeaderOffset + lfhLen ∧ data.length = entry.compressedSize

/-- The room after the last frame for the data descriptor, a skippable frame and a padding
header, so that the file is not padded after its size has been taken. -/
def EndsWithRoom (env : WriterEnv) (level : ℤ) (pos : ℕ) (input : InputFile) (lfhLen : ℕ) : Prop :=
  let start := fileDataStart pos lfhLen
  let stop := framesEnd start (frameSizes env level input)
  getDataDescriptorSize (stop - start) (fileSize input) + paddingLfhMinSize +
    burstMinSkippableFrameSize ≤ spaceUntilBoundary stop

theorem fileEnding_eq_nil_iff (env : WriterEnv) (level : ℤ) (pos : ℕ) (input : InputFile)
    (lfh : LocalFileHeader) :
    fileEnding env level (fileDataStart pos lfh.len) input = [] ↔
      EndsWithRoom env level pos input lfh.len := by
  have htotal := chunkItems_total env level (fileDataStart pos lfh.len) 0 input.chunks
  have hsize : framesEnd (fileDataStart pos lfh.len) (frameSizes env level input) -
      fileDataStart pos lfh.len =
        total Item.len (chunkItems env level (fileDataStart pos lfh.len) 0 input.chunks) := by
    rw [frameSizes, ← htotal, Nat.add_sub_cancel_left]
  rw [fileEnding, EndsWithRoom, endingItems, hsize, htotal, paddingLfhMinSize,
    burstMinSkippableFrameSize]
  change _ ↔ _ ≤ spaceUntilBoundary (framesEnd _ (frameSizes env level input))
  rw [frameSizes]
  split
  · next hlt => simpa using hlt
  · next hge => simpa using hge

theorem endingItems_total_eq_zero {pos descriptorSize offset : ℕ}
    (h : total Item.len (endingItems pos descriptorSize offset) = 0) :
    endingItems pos descriptorSize offset = [] := by
  unfold endingItems at h ⊢
  split at h
  · simp at h
  · rw [if_neg (by assumption)]

/-- The bytes of a file's entry from the end of its header. -/
theorem layoutCall_file_bytes (env : WriterEnv) (level : ℤ) (pos : ℕ) (input : InputFile)
    {lfh : LocalFileHeader} (unixMode uid gid : ℕ) (hho : isHeaderOnly lfh = false) :
    let call := AddCall.file input lfh unixMode uid gid
    let entry := recordedEntry env level pos call
    let start := fileDataStart pos lfh.len
    itemBytes (layoutCall env level pos call).items =
        itemBytes (gapItems env pos lfh.len 0 true) ++ lfh.bytes ++
        itemBytes (chunkItems env level start 0 input.chunks) ++
        itemBytes (fileEnding env level start input) ++
        dataDescriptorBytes entry.crc32 entry.compressedSize entry.uncompressedSize
          entry.usedZip64Descriptor ∧
      entry.localHeaderOffset = pos + total Item.len (gapItems env pos lfh.len 0 true) ∧
      entry.compressedSize = total Item.len (chunkItems env level start 0 input.chunks) := by
  simp only [recordedEntry, layoutCall, hho, Bool.false_eq_true, if_false, EntryLayout.items,
    EntryLayout.body, EntryLayout.headerPos, EntryLayout.dataPos, fileDataStart_eq, completedEntry,
    fileDescriptor, AddCall.lfh, populateEntryMetadata, itemBytes_append, itemBytes_cons,
    itemBytes_nil, Item.bytes, List.append_assoc, List.append_nil, and_self]

theorem layoutCall_file_sizeLaw {env : WriterEnv} {level : ℤ} {input : InputFile}
    {lfh : LocalFileHeader} {unixMode uid gid : ℕ} (hho : isHeaderOnly lfh = false)
    (archive : List UInt8) :
    let call := AddCall.file input lfh unixMode uid gid
    SizeLaw (archive ++ itemBytes (layoutCall env level archive.length call).items) lfh.len
        (recordedEntry env level archive.length call) ↔
      EndsWithRoom env level archive.length input lfh.len := by
  intro call
  obtain ⟨hbytes, hoffset, hsize⟩ :=
    layoutCall_file_bytes env level archive.length input unixMode uid gid hho
  rw [← fileEnding_eq_nil_iff env level archive.length input lfh, hbytes]
  set entry := recordedEntry env level archive.length call
  set gap := gapItems env archive.length lfh.len 0 true
  set start := fileDataStart archive.length lfh.len
  set data := chunkItems env level start 0 input.chunks
  set ending := fileEnding env level start input
  constructor
  · rintro ⟨before, data', heq, hbefore, hdata⟩
    have hlen := congrArg List.length heq
    simp only [List.length_append, itemBytes_length, LocalFileHeader.bytes_length] at hlen
    refine endingItems_total_eq_zero ?_
    change total Item.len ending = 0
    omega
  · intro hnil
    refine ⟨archive ++ itemBytes gap ++ lfh.bytes, itemBytes data, ?_, ?_, ?_⟩
    · simp [hnil]
    · simp [itemBytes_length, hoffset, Nat.add_assoc]
    · rw [itemBytes_length, hsize]

/-- The position the writer keeps is the length of what it has written. -/
def BurstWriter.Tracks (w : BurstWriter) : Prop := w.position = w.archive.length

theorem burstWriterCreate_tracks (limits : List ℕ) (level : ℤ) :
    (burstWriterCreate ⟨[], limits⟩ level).Tracks := rfl

theorem Added.tracks {w w' : BurstWriter} {items : List Item} {entries : List FileEntry}
    (h : Added w w' items entries) (hw : w.Tracks) : w'.Tracks := by
  rw [BurstWriter.Tracks, h.position, h.archive, List.length_append, itemBytes_length, hw]

theorem addedFile_sizeLaw {env : WriterEnv} {input : InputFile} {lfh : LocalFileHeader}
    {unixMode uid gid : ℕ} {w w' : BurstWriter} (hw : w.Tracks) (hho : isHeaderOnly lfh = false)
    (h : burstWriterAddFile env input lfh unixMode uid gid w = (some (), w')) :
    ∃ entry, w'.files = w.files ++ [entry] ∧
      (SizeLaw w'.archive lfh.len entry ↔
        EndsWithRoom env w.compressionLevel w.position input lfh.len) := by
  obtain ⟨-, hadded⟩ := burstWriterAddFile_ok h
  refine ⟨_, hadded.files, ?_⟩
  rw [hadded.archive, hw]
  exact layoutCall_file_sizeLaw hho w.archive

/-- The recorded compressed size of a file ends where its data descriptor starts exactly when the
file is not padded after its last frame. -/
theorem burstWriterAddFile_sizeLaw {env : WriterEnv} {input : InputFile} {lfh : LocalFileHeader}
    {unixMode uid gid : ℕ} {w w' : BurstWriter} (hw : w.Tracks) (hho : isHeaderOnly lfh = false)
    (h : burstWriterAddFile env input lfh unixMode uid gid w = (some (), w')) :
    ∃ entry, w'.files = w.files ++ [entry] ∧
      (SizeLaw w'.archive lfh.len entry ↔
        EndsWithRoom env w.compressionLevel w.position input lfh.len) :=
  addedFile_sizeLaw hw hho h

theorem burstWriterAddFile_sizeLaw_sample :
    ∃ entry, (burstWriterAddFile rawEnv ⟨[98, 99, 100], none, true⟩
        (sampleHeader zipFlagDataDescriptor zipMethodZstd) 33188 0 0
        (burstWriterCreate ⟨[], []⟩ 3)).2.files = [] ++ [entry] ∧
      (SizeLaw (burstWriterAddFile rawEnv ⟨[98, 99, 100], none, true⟩
        (sampleHeader zipFlagDataDescriptor zipMethodZstd) 33188 0 0
        (burstWriterCreate ⟨[], []⟩ 3)).2.archive 46 entry ↔
        EndsWithRoom rawEnv 3 0 ⟨[98, 99, 100], none, true⟩ 46) :=
  burstWriterAddFile_sizeLaw (burstWriterCreate_tracks [] 3) (by decide)
    (WriterM.ok_of_fst (by decide +kernel))

theorem fileSize_eq (content : List UInt8) (seekable : Bool) :
    fileSize ⟨content, none, seekable⟩ = content.length := by
  rw [fileSize, total, ← List.length_flatten]
  exact congrArg List.length (Pieces.cut_flatten (by norm_num [zstdChunkSize]) content)

/-- Bytes that do not compress. -/
def noise (n : ℕ) : List UInt8 :=
  (List.range n).map fun i ↦ UInt8.ofNat (i ^ 5 * 2654435761 / 2 ^ 32)

theorem rawEnv_frameSizes (level : ℤ) (content : List UInt8) :
    frameSizes rawEnv level ⟨content, none, true⟩ =
      (List.replicate (content.length / zstdChunkSize) zstdChunkSize ++
        if content.length % zstdChunkSize = 0 then [] else [content.length % zstdChunkSize]).map
      fun n ↦ (8 + (if n < 256 then 1 else if n < 65792 then 2 else 4) + n,
        decide (n < zstdChunkSize)) := by
  rw [← Pieces.cut_map_length (by norm_num [zstdChunkSize]), List.map_map, frameSizes]
  refine List.map_congr_left fun chunk _ ↦ ?_
  change ((ZstdFrame.rawFrame chunk).length, _) = _
  rw [ZstdFrame.rawFrame_length, Function.comp]

theorem getDataDescriptorSize_ge (c u : ℕ) : 16 ≤ getDataDescriptorSize c u := by
  unfold getDataDescriptorSize
  split <;> omega

/-- A file whose last frame ends 60 bytes before the boundary. -/
def paddedFile : InputFile := ⟨noise 8387734, none, true⟩

theorem noise_length (n : ℕ) : (noise n).length = n := by
  rw [noise, List.length_map, List.length_range]

theorem paddedFile_framesEnd : framesEnd 46 (frameSizes rawEnv 3 paddedFile) = 8388548 := by
  rw [paddedFile, rawEnv_frameSizes, noise_length]
  decide +kernel

theorem paddedFile_not_endsWithRoom : ¬ EndsWithRoom rawEnv 3 0 paddedFile 46 := by
  have hstop : framesEnd (fileDataStart 0 46) (frameSizes rawEnv 3 paddedFile) = 8388548 :=
    paddedFile_framesEnd
  intro h
  simp only [EndsWithRoom, hstop] at h
  have hspace : spaceUntilBoundary 8388548 = 60 := by decide
  have hd := getDataDescriptorSize_ge (8388548 - fileDataStart 0 46) (fileSize paddedFile)
  rw [hspace, paddingLfhMinSize, burstMinSkippableFrameSize] at h
  omega

/-- Of the calls with a header that fits, those of readable files are accepted. -/
theorem accepted_file {env : WriterEnv} {level : ℤ} (hbound : FramesBounded env level)
    (hcompress : ∀ chunk, (env.compressChunk level chunk).isSome) {pos : ℕ} {content : List UInt8}
    {lfh : LocalFileHeader} (unixMode uid gid : ℕ)
    (hsig : lfh.fields.signature = zipLocalFileHeaderSig) (hfit : lfh.len + 68 ≤ 65579)
    (hroom : 44 ≤ spaceUntilBoundary pos) :
    Accepted env level pos (.file ⟨content, none, true⟩ lfh unixMode uid gid) :=
  (AddCall.admissible_file hcompress content lfh unixMode uid gid).accepted hbound hsig hfit hroom

/-- A single file of 8387734 bytes that do not compress: 60 bytes of padding and a Start-of-Part
frame lie between the recorded end of its data and its data descriptor. -/
theorem paddedFile_breaks_sizeLaw :
    ∃ w' entry, burstWriterAddFile rawEnv paddedFile
        (sampleHeader zipFlagDataDescriptor zipMethodZstd) 33188 0 0
        (burstWriterCreate ⟨[], []⟩ 3) = (some (), w') ∧
      w'.files = [entry] ∧ ¬ SizeLaw w'.archive 46 entry := by
  have hacc : Accepted rawEnv 3 0 (.file paddedFile
      (sampleHeader zipFlagDataDescriptor zipMethodZstd) 33188 0 0) :=
    accepted_file (rawEnv_framesBounded 3) (fun _ ↦ rfl) 33188 0 0 rfl (by decide) (by decide)
  have hready : Ready (burstWriterCreate ⟨[], []⟩ 3) := ⟨rfl, by decide⟩
  obtain ⟨w', hok, -⟩ := burstWriterAddFile_completes hready hacc
  obtain ⟨entry, hfiles, hiff⟩ :=
    addedFile_sizeLaw (burstWriterCreate_tracks [] 3) (by decide) hok
  exact ⟨w', entry, hok, hfiles, fun hlaw ↦ paddedFile_not_endsWithRoom (hiff.mp hlaw)⟩

end Burst
