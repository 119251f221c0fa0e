import Burst.Lib.Tiling
import Burst.ZipRecords

namespace Burst

open LittleEndian

def zstdChunkSize : ℕ := 128 * 1024

/-- An open input file; reading stops with an error at `readError`. -/
structure InputFile where
  content : List UInt8
  readError : Option ℕ
  seekable : Bool
  deriving DecidableEq, Repr

/-- What the calls of `fread` return until one returns nothing. -/
def InputFile.chunks (f : InputFile) : List (List UInt8) :=
  Pieces.cut zstdChunkSize (match f.readError with
    | none => f.content
    | some n => f.content.take n)

def allocateFileEntry (lfh : LocalFileHeader) : FileEntry where
  filename := lfh.filename
  localHeaderOffset := 0
  compressedStartOffset := 0
  compressedSize := 0
  uncompressedSize := 0
  crc32 := 0
  compressionMethod := 0
  versionNeeded := 0
  generalPurposeFlags := 0
  lastModTime := 0
  lastModDate := 0
  unixMode := 0
  uid := 0
  gid := 0
  usedZip64Descriptor := false

def populateEntryMetadata (entry : FileEntry) (lfh : LocalFileHeader)
    (localHeaderOffset unixMode uid gid : ℕ) : FileEntry :=
  { entry with
    localHeaderOffset := localHeaderOffset
    compressionMethod := lfh.fields.compressionMethod
    versionNeeded := lfh.fields.versionNeeded
    generalPurposeFlags := lfh.fields.flags
    lastModTime := lfh.fields.lastModTime
    lastModDate := lfh.fields.lastModDate
    unixMode := unixMode
    uid := uid
    gid := gid }

/-- The `space_needed` of `check_alignment_and_pad`. -/
def headerSpaceNeeded (lfhLen contentSize : ℕ) (hasDataDescriptor : Bool) : ℕ :=
  lfhLen + contentSize + paddingLfhMinSize + if hasDataDescriptor then 24 else 0

def checkAlignmentAndPad (env : WriterEnv) (lfhLen contentSize : ℕ) (hasDataDescriptor : Bool) :
    WriterM Unit := do
  let w ← WriterM.get
  let spaceUntilBoundary := alignmentNextBoundary w.position - w.position
  if spaceUntilBoundary < headerSpaceNeeded lfhLen contentSize hasDataDescriptor then
    writePaddingLfh env spaceUntilBoundary
  else pure ()

/-- What the three add functions begin with: the padding header, the entry and the header. -/
def startEntry (env : WriterEnv) (lfh : LocalFileHeader) (contentSize : ℕ)
    (hasDataDescriptor : Bool) (unixMode uid gid : ℕ) : WriterM FileEntry := do
  checkAlignmentAndPad env lfh.len contentSize hasDataDescriptor
  let w ← WriterM.get
  burstWriterWrite lfh.bytes
  pure (populateEntryMetadata (allocateFileEntry lfh) lfh w.position unixMode uid gid)

structure ChunkState where
  crc : ℕ
  totalUncompressed : ℕ
  deriving DecidableEq, Repr

/-- The body of the chunk loop for the bytes one `fread` returned. -/
def addChunk (env : WriterEnv) (level : ℤ) (s : ChunkState) (chunk : List UInt8) :
    WriterM ChunkState :=
  let crc := env.crc32 s.crc chunk
  let totalUncompressed := s.totalUncompressed + chunk.length
  match env.compressChunk level chunk with
  | none => WriterM.fail
  | some frame => do
    let w ← WriterM.get
    let atEof := decide (chunk.length < zstdChunkSize)
    let decision := alignmentDecide w.position frame.length atEof
    (match decision.action with
      | .padThenFrame => alignmentWritePaddingFrame decision.paddingSize
      | .padThenMetadata => do
        alignmentWritePaddingFrame decision.paddingSize
        alignmentWriteStartOfPartFrame (totalUncompressed - chunk.length)
      | _ => pure ())
    burstWriterWrite frame
    (if decision.action = .writeFrameThenMetadata then
      alignmentWriteStartOfPartFrame totalUncompressed else pure ())
    pure ⟨crc, totalUncompressed⟩

def addChunks (env : WriterEnv) (level : ℤ) : ChunkState → List (List UInt8) → WriterM ChunkState
  | s, [] => pure s
  | s, chunk :: chunks => do
    let s ← addChunk env level s chunk
    addChunks env level s chunks

/-- The padding after the last chunk, when the data descriptor and a padding header would not fit
before the boundary. -/
def padBeforeDescriptor (descriptorSize totalUncompressed : ℕ) : WriterM Unit := do
  let w ← WriterM.get
  let spaceUntilBoundary := alignmentNextBoundary w.position - w.position
  if spaceUntilBoundary < descriptorSize + paddingLfhMinSize + burstMinSkippableFrameSize then do
    alignmentWritePaddingFrame (sub64 spaceUntilBoundary 8)
    alignmentWriteStartOfPartFrame totalUncompressed
  else pure ()

/-- `file_done` -/
def recordEntry (entry : FileEntry) : WriterM Unit :=
  WriterM.modify fun w ↦ { w with
    totalUncompressed := w.totalUncompressed + entry.uncompressedSize
    totalCompressed := w.totalCompressed + entry.compressedSize
    files := w.files ++ [entry] }

/-- From the first `fread` to the data descriptor. -/
def writeFileData (env : WriterEnv) (level : ℤ) (input : InputFile) (entry : FileEntry) :
    WriterM FileEntry := do
  let s ← addChunks env level ⟨0, 0⟩ input.chunks
  if input.readError.isSome then WriterM.fail
  else do
    let w ← WriterM.get
    let compressedSize := w.position - entry.compressedStartOffset
    let useZip64Descriptor :=
      decide (compressedSize > 0xFFFFFFFF) || decide (s.totalUncompressed > 0xFFFFFFFF)
    padBeforeDescriptor (getDataDescriptorSize compressedSize s.totalUncompressed)
      s.totalUncompressed
    burstWriterWrite
      (dataDescriptorBytes s.crc compressedSize s.totalUncompressed useZip64Descriptor)
    pure { entry with
      compressedSize := compressedSize
      uncompressedSize := s.totalUncompressed
      crc32 := s.crc
      usedZip64Descriptor := useZip64Descriptor }

def isHeaderOnly (lfh : LocalFileHeader) : Bool := lfh.fields.flags &&& zipFlagDataDescriptor = 0

def burstWriterAddFile (env : WriterEnv) (input : InputFile) (lfh : LocalFileHeader)
    (unixMode uid gid : ℕ) : WriterM Unit :=
  if isHeaderOnly lfh = false ∧ input.seekable = false then WriterM.fail
  else do
    let entry ← startEntry env lfh 0 true unixMode uid gid
    let w ← WriterM.get
    let entry := { entry with compressedStartOffset := w.position }
    if isHeaderOnly lfh then recordEntry entry
    else do
      let entry ← writeFileData env w.compressionLevel input entry
      recordEntry entry

def burstWriterAddSymlink (env : WriterEnv) (lfh : LocalFileHeader) (target : List UInt8)
    (unixMode uid gid : ℕ) : WriterM Unit :=
  if target.length = 0 then WriterM.fail
  else do
    let entry ← startEntry env lfh target.length false unixMode uid gid
    burstWriterWrite target
    recordEntry { entry with
      crc32 := lfh.fields.crc32
      compressedSize := target.length
      uncompressedSize := target.length
      usedZip64Descriptor := false }

def burstWriterAddDirectory (env : WriterEnv) (lfh : LocalFileHeader) (unixMode uid gid : ℕ) :
    WriterM Unit :=
  if lfh.fields.filenameLength = 0 ∨ lfh.tail[lfh.fields.filenameLength - 1]? ≠ some 47 then
    WriterM.fail
  else if lfh.fields.compressionMethod ≠ zipMethodStore ∨ lfh.fields.compressedSize ≠ 0 ∨
      lfh.fields.uncompressedSize ≠ 0 then WriterM.fail
  else do
    let entry ← startEntry env lfh 0 false unixMode uid gid
    recordEntry { entry with
      crc32 := 0
      compressedSize := 0
      uncompressedSize := 0
      usedZip64Descriptor := false }

def calculateCdfhSize (entry : FileEntry) : ℕ :=
  46 + entry.filename.length + 15 +
    if needZip64 entry then
      4 + (if entry.uncompressedSize > 0xFFFFFFFF then 8 else 0) +
        (if entry.compressedSize > 0xFFFFFFFF then 8 else 0) +
        if entry.localHeaderOffset > 0xFFFFFFFF then 8 else 0
    else 0

def findFirstCdfhFrom (tailStart : ℕ) : ℕ → List FileEntry → ℕ
  | _, [] => burstEocdNoCdfhInTail
  | cdfhOffset, entry :: entries =>
    if cdfhOffset ≥ tailStart then (cdfhOffset - tailStart) % 2 ^ 32
    else findFirstCdfhFrom tailStart (cdfhOffset + calculateCdfhSize entry) entries

def findFirstCdfhInTail (files : List FileEntry) (centralDirStart finalArchiveSize : ℕ) : ℕ :=
  if finalArchiveSize ≤ burstPartSize then 0
  else if centralDirStart ≥ finalArchiveSize - burstPartSize then 0
  else findFirstCdfhFrom (finalArchiveSize - burstPartSize) centralDirStart files

/-- The records after a central directory from `centralDirStart` to `centralDirEnd`. -/
def writeEndRecords (centralDirStart centralDirEnd firstCdfhOffset : ℕ) : WriterM Unit := do
  writeZip64EndCentralDirectory centralDirStart (centralDirEnd - centralDirStart)
  writeZip64EndCentralDirectoryLocator centralDirEnd
  writeEndCentralDirectory centralDirStart (centralDirEnd - centralDirStart) firstCdfhOffset

def burstWriterFinalize : WriterM Unit := do
  burstWriterFlush
  let start ← WriterM.get
  writeCentralDirectory
  let w ← WriterM.get
  writeEndRecords start.currentOffset w.position (findFirstCdfhInTail w.files start.currentOffset
    (w.position + 56 + 20 + 22 + burstEocdCommentSize))
  burstWriterFlush

/-- One call of the writer's interface. -/
inductive AddCall where
  | file (input : InputFile) (lfh : LocalFileHeader) (unixMode uid gid : ℕ)
  | symlink (lfh : LocalFileHeader) (target : List UInt8) (unixMode uid gid : ℕ)
  | directory (lfh : LocalFileHeader) (unixMode uid gid : ℕ)
  deriving DecidableEq, Repr

def AddCall.lfh : AddCall → LocalFileHeader
  | .file _ lfh _ _ _ => lfh
  | .symlink lfh _ _ _ _ => lfh
  | .directory lfh _ _ _ => lfh

def AddCall.targetLen : AddCall → ℕ
  | .symlink _ target _ _ _ => target.length
  | _ => 0

def AddCall.run (env : WriterEnv) : AddCall → WriterM Unit
  | .file input lfh unixMode uid gid => burstWriterAddFile env input lfh unixMode uid gid
  | .symlink lfh target unixMode uid gid => burstWriterAddSymlink env lfh target unixMode uid gid
  | .directory lfh unixMode uid gid => burstWriterAddDirectory env lfh unixMode uid gid

/-- A sequence of calls that all succeed. -/
def addAll (env : WriterEnv) : List AddCall → WriterM Unit
  | [] => pure ()
  | call :: calls => do
    call.run env
    addAll env calls

end Burst
