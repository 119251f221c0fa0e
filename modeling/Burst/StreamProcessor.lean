import Burst.CentralDirParse
import Burst.FileOps
import Burst.Lib.Incremental

namespace Burst

open LittleEndian

inductive StreamProcError where
  | memory
  | invalidFrame
  | io
  | btrfsWrite
  | unexpectedEof
  deriving DecidableEq, Repr

inductive ProcessorState where
  | init
  | continuingFile
  | expectLocalHeader
  | processingFrames
  | readingSymlink
  | done
  | error
  deriving DecidableEq, Repr

/-- `symlinkBuffer` holds the bytes read so far. -/
structure FileContext where
  filename : Path
  fdOpen : Bool
  uncompressedOffset : ℕ
  expectedTotalSize : ℕ
  unixMode : ℕ
  uid : ℕ
  gid : ℕ
  hasUnixMode : Bool
  hasUnixExtra : Bool
  isSymlink : Bool
  isDirectory : Bool
  symlinkBuffer : Option (List UInt8)
  usesZip64Descriptor : Bool
  deriving DecidableEq, Repr

/-- What a processor works with and does not change. -/
structure ProcessorEnv where
  os : Os
  zstd : ZstdLib
  cdResult : CentralDirParseResult
  outputDir : Path
  partIndex : ℕ
  partSize : ℕ

/-- What the main loop works on. `ops` are the system calls made so far. -/
structure PartProcessor where
  currentFile : Option FileContext
  nextEntryIdx : ℕ
  bytesProcessed : ℕ
  state : ProcessorState
  errorCode : Option StreamProcError
  ops : List FileOp
  deriving DecidableEq, Repr

/-- The processor with the first `frame_buffer_used` bytes of the frame buffer. -/
structure PartProcessorState extends PartProcessor where
  frameBuffer : List UInt8
  deriving DecidableEq, Repr

def partProcessorCreate (ops : List FileOp) : PartProcessorState where
  currentFile := none
  frameBuffer := []
  nextEntryIdx := 0
  bytesProcessed := 0
  state := .init
  errorCode := none
  ops := ops

namespace ProcessorEnv

def partStartOffset (env : ProcessorEnv) : ℕ := env.partIndex * env.partSize % 2 ^ 64

/-- `cd_result->parts[part_index]`; a processor is only created for a part there is. -/
def part (env : ProcessorEnv) : PartFiles :=
  (env.cdResult.parts[env.partIndex]?).getD ⟨[], none⟩

def continuingFile (env : ProcessorEnv) : Option FileMetadata :=
  env.part.continuingFile.bind fun i ↦ env.cdResult.files[i]?

/-- The metadata of the part's next entry. -/
def nextFile (env : ProcessorEnv) (nextEntryIdx : ℕ) : Option FileMetadata :=
  (env.part.entries[nextEntryIdx]?).bind fun entry ↦ env.cdResult.files[entry.fileIndex]?

end ProcessorEnv

def PartProcessor.fail (p : PartProcessor) (e : StreamProcError) : PartProcessor :=
  { p with state := .error, errorCode := some e }

/-- The system calls that restore permissions and ownership of an open file. -/
def restoreFileOps (os : Os) (f : FileContext) : List FileOp :=
  (if f.hasUnixMode then [.fchmod f.filename (f.unixMode % 0o10000)] else []) ++
  if f.hasUnixExtra ∧ os.isRoot then [.fchown f.filename f.uid f.gid] else []

/-- The system calls of `close_output_file`; none of their failures matters. -/
def closeOps (os : Os) (f : FileContext) : List FileOp :=
  match f.isSymlink, f.symlinkBuffer with
  | true, some target =>
    [.unlink f.filename, .symlink (target.takeWhile (· ≠ 0)) f.filename] ++
      if f.hasUnixExtra ∧ os.isRoot then [.lchown f.filename f.uid f.gid] else []
  | _, _ =>
    if f.fdOpen then
      [.ftruncate f.filename f.expectedTotalSize] ++ restoreFileOps os f ++ [.close f.filename]
    else []

def closeOutputFile (os : Os) (p : PartProcessor) : PartProcessor :=
  match p.currentFile with
  | none => p
  | some f => { p with currentFile := none, ops := p.ops ++ closeOps os f }

def fileContext (path : Path) (fileMeta : FileMetadata) : FileContext where
  filename := path
  fdOpen := false
  uncompressedOffset := 0
  expectedTotalSize := fileMeta.uncompressedSize
  unixMode := fileMeta.unixMode
  uid := fileMeta.uid
  gid := fileMeta.gid
  hasUnixMode := fileMeta.hasUnixMode
  hasUnixExtra := fileMeta.hasUnixExtra
  isSymlink := fileMeta.isSymlink
  isDirectory := fileMeta.filename.getLast? = some slash
  symlinkBuffer := none
  usesZip64Descriptor := fileMeta.usesZip64Descriptor

def makeDirectory (os : Os) (p : PartProcessor) (f : FileContext) :
    Option StreamProcError × PartProcessor :=
  let op := FileOp.mkdir f.filename 0o755
  let restore := (if f.hasUnixMode then [FileOp.chmod f.filename (f.unixMode % 0o10000)] else []) ++
    if f.hasUnixExtra ∧ os.isRoot then [.chown f.filename f.uid f.gid] else []
  match os.respond p.ops op with
  | .ok _ => (none, { p with currentFile := some f, ops := p.ops ++ [op] ++ restore })
  | .error .eexist => (none, { p with currentFile := some f, ops := p.ops ++ [op] ++ restore })
  | .error _ => (some .io, { p with ops := p.ops ++ [op] }.fail .io)

/-- No object is larger than `PTRDIFF_MAX`. -/
def allocateSymlinkBuffer (p : PartProcessor) (f : FileContext) :
    Option StreamProcError × PartProcessor :=
  if (f.expectedTotalSize + 1) % 2 ^ 64 ≥ 2 ^ 63 then (some .memory, p.fail .memory)
  else (none, { p with currentFile := some { f with symlinkBuffer := some [] } })

def openRegularFile (os : Os) (p : PartProcessor) (f : FileContext) :
    Option StreamProcError × PartProcessor :=
  match os.respond p.ops (.openFile f.filename) with
  | .ok _ => (none, { p with
      currentFile := some { f with fdOpen := true }, ops := p.ops ++ [.openFile f.filename] })
  | .error _ => (some .io, { p with ops := p.ops ++ [FileOp.openFile f.filename] }.fail .io)

/-- `open_output_file` once the file that was open is closed. -/
def openOutputPath (env : ProcessorEnv) (p : PartProcessor) (f : FileContext) :
    Option StreamProcError × PartProcessor :=
  match ensureDirectoryExists env.os p.ops f.filename with
  | (false, ops) => (some .io, { p with ops := ops }.fail .io)
  | (true, ops) =>
    if f.isDirectory then makeDirectory env.os { p with ops := ops } f
    else if f.isSymlink then allocateSymlinkBuffer { p with ops := ops } f
    else openRegularFile env.os { p with ops := ops } f

def openOutputFile (env : ProcessorEnv) (p : PartProcessor) (fileMeta : FileMetadata) :
    Option StreamProcError × PartProcessor :=
  openOutputPath env (closeOutputFile env.os p)
    (fileContext (env.outputDir ++ [slash] ++ fileMeta.filename) fileMeta)

def PartProcessor.setUncompressedOffset (p : PartProcessor) (offset : ℕ) : PartProcessor :=
  { p with currentFile := p.currentFile.map fun f ↦ { f with uncompressedOffset := offset } }

def PartProcessor.consume (p : PartProcessor) (n : ℕ) : PartProcessor :=
  { p with bytesProcessed := p.bytesProcessed + n }

def PartProcessor.enter (p : PartProcessor) (state : ProcessorState) : PartProcessor :=
  { p with state := state }

def handleStartOfPartFrame (env : ProcessorEnv) (p : PartProcessor) (uncompressedOffset : ℕ) :
    Option StreamProcError × PartProcessor :=
  match p.currentFile with
  | some _ => (none, p.setUncompressedOffset uncompressedOffset)
  | none =>
    match env.continuingFile with
    | none => (some .invalidFrame, p.fail .invalidFrame)
    | some fileMeta =>
      match openOutputFile env p fileMeta with
      | (some e, p) => (some e, p)
      | (none, p) => (none, p.setUncompressedOffset uncompressedOffset)

inductive LocalHeaderResult where
  | success (bytesConsumed : ℕ) (p : PartProcessor)
  | skippedPadding (bytesConsumed : ℕ)
  | needMoreData
  | error (e : StreamProcError) (p : PartProcessor)

def isPaddingHeader (header : List UInt8) : Bool :=
  read header 26 2 = paddingLfhFilenameLen ∧
    (header.drop 30).take paddingLfhFilenameLen = paddingLfhFilename

def handleLocalHeader (env : ProcessorEnv) (p : PartProcessor) (header : List UInt8) :
    LocalHeaderResult :=
  if header.length < 30 then .needMoreData
  else if header.length < localHeaderSize header then .needMoreData
  else if isPaddingHeader header then .skippedPadding (localHeaderSize header)
  else
    match env.nextFile p.nextEntryIdx with
    | none => .error .invalidFrame (p.fail .invalidFrame)
    | some fileMeta =>
      match openOutputFile env p fileMeta with
      | (some e, p) => .error e p
      | (none, p) => .success (localHeaderSize header) (p.setUncompressedOffset 0)

def handleZstdFrame (env : ProcessorEnv) (p : PartProcessor) (frame : List UInt8)
    (uncompressedSize : ℕ) : Option StreamProcError × PartProcessor :=
  match p.currentFile with
  | none => (some .invalidFrame, p.fail .invalidFrame)
  | some f =>
    if f.fdOpen = false then (some .invalidFrame, p.fail .invalidFrame)
    else
      match doWriteEncoded env.os env.zstd p.ops f.filename frame uncompressedSize
        f.uncompressedOffset with
      | (some _, ops) => (some .btrfsWrite, { p with ops := ops }.fail .btrfsWrite)
      | (none, ops) => (none, { p with ops := ops }.setUncompressedOffset
          ((f.uncompressedOffset + uncompressedSize) % 2 ^ 64))

/-- What one round of the main loop does: go on with what is left of the work buffer, jump to
`buffer_remaining`, or return an error. -/
abbrev LoopStep := Incremental.Step PartProcessor StreamProcError UInt8

/-- Goes on after a handler that succeeded, returns the error of one that did not. -/
def LoopStep.after (result : Option StreamProcError × PartProcessor)
    (next : PartProcessor → LoopStep) : LoopStep :=
  match result with
  | (some e, p) => .stop e p
  | (none, p) => next p

def stepInit (env : ProcessorEnv) (p : PartProcessor) (bs : List UInt8) : LoopStep :=
  if env.part.continuingFile.isSome then .next (p.enter .continuingFile) bs
  else .next (p.enter .expectLocalHeader) bs

def stepContinuingFile (env : ProcessorEnv) (p : PartProcessor) (bs : List UInt8) : LoopStep :=
  match parseNextFrame env.zstd bs with
  | .needMoreData => .wait p
  | .invalidFrame => .stop .invalidFrame (p.fail .invalidFrame)
  | .success info =>
    if info.type ≠ .burstStartOfPart then .stop .invalidFrame (p.fail .invalidFrame)
    else LoopStep.after (handleStartOfPartFrame env p (read bs 9 8)) fun p ↦
      .next ((p.consume info.frameSize).enter .processingFrames) (bs.drop info.frameSize)

/-- The state after a local header that belongs to an entry. -/
def afterLocalHeader (p : PartProcessor) : ProcessorState :=
  if p.currentFile.any FileContext.isSymlink then .readingSymlink else .processingFrames

def stepLocalHeader (env : ProcessorEnv) (p : PartProcessor) (bs : List UInt8) : LoopStep :=
  match handleLocalHeader env p bs with
  | .needMoreData => .wait p
  | .skippedPadding n => .next (p.consume n) (bs.drop n)
  | .error e p => .stop e p
  | .success n p =>
    .next ({ p.consume n with nextEntryIdx := p.nextEntryIdx + 1 }.enter (afterLocalHeader p))
      (bs.drop n)

def stepExpectLocalHeader (env : ProcessorEnv) (p : PartProcessor) (bs : List UInt8) : LoopStep :=
  if p.nextEntryIdx ≥ env.part.entries.length then .next (p.enter .done) bs
  else
    match parseNextFrame env.zstd bs with
    | .needMoreData => .wait p
    | .invalidFrame => .stop .invalidFrame (p.fail .invalidFrame)
    | .success info =>
      match info.type with
      | .burstPadding => .next (p.consume info.frameSize) (bs.drop info.frameSize)
      | .zipCentralDirectory => .next (p.enter .done) bs
      | .zipLocalHeader => stepLocalHeader env p bs
      | _ => .stop .invalidFrame (p.fail .invalidFrame)

def descriptorSize (p : PartProcessor) : ℕ :=
  if p.currentFile.any FileContext.usesZip64Descriptor then 24 else 16

def stepProcessingFrames (env : ProcessorEnv) (p : PartProcessor) (bs : List UInt8) : LoopStep :=
  match parseNextFrame env.zstd bs with
  | .needMoreData => .wait p
  | .invalidFrame => .stop .invalidFrame (p.fail .invalidFrame)
  | .success info =>
    match info.type with
    | .zstdCompressed =>
      if bs.length < info.frameSize then .wait p
      else LoopStep.after (handleZstdFrame env p (bs.take info.frameSize) info.uncompressedSize) fun p ↦
        .next (p.consume info.frameSize) (bs.drop info.frameSize)
    | .burstPadding => .next (p.consume info.frameSize) (bs.drop info.frameSize)
    | .burstStartOfPart =>
      if (env.partStartOffset + p.bytesProcessed) % 2 ^ 64 % burstPartSize ≠ 0 then
        .stop .invalidFrame (p.fail .invalidFrame)
      else LoopStep.after (handleStartOfPartFrame env p (read bs 9 8)) fun p ↦
        .next (p.consume info.frameSize) (bs.drop info.frameSize)
    | .zipDataDescriptor =>
      .next (((closeOutputFile env.os p).consume (descriptorSize p)).enter .expectLocalHeader)
        (bs.drop (descriptorSize p))
    | .zipLocalHeader => .next ((closeOutputFile env.os p).enter .expectLocalHeader) bs
    | .zipCentralDirectory => .next ((closeOutputFile env.os p).enter .done) bs

/-- How many of the bytes at hand belong to the target. -/
def symlinkBytesToCopy (f : FileContext) (target bs : List UInt8) : ℕ :=
  min bs.length (f.expectedTotalSize - target.length)

def PartProcessor.setSymlinkTarget (p : PartProcessor) (f : FileContext) (target : List UInt8) :
    PartProcessor :=
  { p with currentFile := some { f with symlinkBuffer := some target } }

/-- After a piece of the target has been read. -/
def afterSymlinkBytes (env : ProcessorEnv) (p : PartProcessor) (f : FileContext)
    (target rest : List UInt8) : LoopStep :=
  if target.length ≥ f.expectedTotalSize then
    .next ((closeOutputFile env.os (p.setSymlinkTarget f target)).enter .expectLocalHeader) rest
  else .next (p.setSymlinkTarget f target) rest

def stepReadingSymlink (env : ProcessorEnv) (p : PartProcessor) (bs : List UInt8) : LoopStep :=
  match p.currentFile with
  | none => .stop .invalidFrame (p.fail .invalidFrame)
  | some f =>
    match f.symlinkBuffer with
    | none => .stop .invalidFrame (p.fail .invalidFrame)
    | some target =>
      afterSymlinkBytes env (p.consume (symlinkBytesToCopy f target bs)) f
        (target ++ bs.take (symlinkBytesToCopy f target bs))
        (bs.drop (symlinkBytesToCopy f target bs))

/-- One round of the main loop. -/
def step (env : ProcessorEnv) (p : PartProcessor) (bs : List UInt8) : LoopStep :=
  match p.state with
  | .init => stepInit env p bs
  | .continuingFile => stepContinuingFile env p bs
  | .expectLocalHeader => stepExpectLocalHeader env p bs
  | .processingFrames => stepProcessingFrames env p bs
  | .readingSymlink => stepReadingSymlink env p bs
  | .done => .next p []
  | .error => .stop (p.errorCode.getD .invalidFrame) p

/-- How the main loop ends: with what is left of the work buffer to be kept, or with an error. -/
abbrev LoopEnd := Incremental.End PartProcessor StreamProcError UInt8

/-- The main loop for a number of rounds; `none` when it is not over by then. -/
def mainLoop (env : ProcessorEnv) : ℕ → PartProcessor → List UInt8 → Option LoopEnd :=
  Incremental.run (step env)

/-- More rounds than a loop that ends makes on a work buffer. -/
def loopRounds (bs : List UInt8) : ℕ := 4 * bs.length + 4

/-- One call with data; `none` when the call does not return. -/
def partProcessorProcessData (env : ProcessorEnv) (s : PartProcessorState) (data : List UInt8) :
    Option (Option StreamProcError × PartProcessorState) :=
  match s.state with
  | .error => some (s.errorCode, s)
  | .done => some (none, s)
  | _ =>
    let work := s.frameBuffer ++ data
    match mainLoop env (loopRounds work) s.toPartProcessor work with
    | none => none
    | some (.finished p remaining) => some (none, ⟨p, remaining⟩)
    | some (.stopped e p) => some (some e, ⟨p, if s.frameBuffer = [] then [] else work⟩)

def partProcessorFinalize (env : ProcessorEnv) (s : PartProcessorState) :
    Option StreamProcError × PartProcessorState :=
  let p := closeOutputFile env.os s.toPartProcessor
  if s.frameBuffer ≠ [] then (some .unexpectedEof, ⟨p.fail .unexpectedEof, s.frameBuffer⟩)
  else (none, ⟨p.enter .done, []⟩)

/-- An archive whose parts are extracted by a processor each, one after another or side by side. The
system may answer each of them differently. -/
structure Extraction where
  os : ℕ → Os
  zstd : ZstdLib
  cdResult : CentralDirParseResult
  outputDir : Path
  partSize : ℕ

namespace Extraction

def env (x : Extraction) (p : ℕ) : ProcessorEnv where
  os := x.os p
  zstd := x.zstd
  cdResult := x.cdResult
  outputDir := x.outputDir
  partIndex := p
  partSize := x.partSize

def path (x : Extraction) (fileMeta : FileMetadata) : Path :=
  x.outputDir ++ [slash] ++ fileMeta.filename

end Extraction

end Burst
