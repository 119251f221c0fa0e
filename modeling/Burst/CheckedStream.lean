import Burst.LoopTermination
import Burst.Lib.CheckedRead

namespace Burst

open LittleEndian Incremental

/-- The size that `open_output_file` computes for the buffer of a symlink target. -/
def FileContext.symlinkBufferSize (f : FileContext) : ℕ := (f.expectedTotalSize + 1) % 2 ^ 64

/-! The streaming processor again, with every read of the work buffer and every write to a symlink
buffer checked: `none` when one leaves its buffer. -/

namespace Checked

def parseLocalHeaderFrame (buffer : List UInt8) : Option FrameResult :=
  if buffer.length < 30 then return .needMoreData
  else do
    let filenameLength ← readChecked buffer 26 2
    let extraFieldLength ← readChecked buffer 28 2
    return .success ⟨.zipLocalHeader, 30 + filenameLength + extraFieldLength, 0, 0⟩

def parseSkippableFrame (buffer : List UInt8) : Option FrameResult :=
  if buffer.length < 8 then return .needMoreData
  else do
    let payloadSize ← readChecked buffer 4 4
    let frameSize := (8 + payloadSize) % 2 ^ 32
    if buffer.length < frameSize then return .needMoreData
    else if payloadSize > 0 then
      let typeByte ← readChecked buffer 8 1
      if typeByte = burstTypeStartOfPart ∧ payloadSize = 16 then
        let startOfPartOffset ← readChecked buffer 9 8
        return .success ⟨.burstStartOfPart, frameSize, 0, startOfPartOffset⟩
      else return .success ⟨.burstPadding, frameSize, 0, 0⟩
    else return .success ⟨.burstPadding, frameSize, 0, 0⟩

/-- libzstd is given the length of the buffer. -/
def parseNextFrame (zstd : ZstdLib) (buffer : List UInt8) : Option FrameResult :=
  if buffer.length < 4 then return .needMoreData
  else do
    let magic ← readChecked buffer 0 4
    if magic = zipLocalFileHeaderSig then parseLocalHeaderFrame buffer
    else if magic = zipDataDescriptorSig then return .success ⟨.zipDataDescriptor, 16, 0, 0⟩
    else if magic = zipCentralDirHeaderSig then return .success ⟨.zipCentralDirectory, 0, 0, 0⟩
    else if magic = zstdMagicNumber then return parseZstdFrame zstd buffer
    else if magic = burstSkippableMagic then parseSkippableFrame buffer
    else return .invalidFrame

/-- A symlink target is terminated before the link is made. -/
def closeOutputFile (os : Os) (p : PartProcessor) : Option PartProcessor :=
  match p.currentFile with
  | none => return p
  | some f =>
    match f.isSymlink, f.symlinkBuffer with
    | true, some target => do
      writeChecked f.symlinkBufferSize target.length 1
      return Burst.closeOutputFile os p
    | _, _ => return Burst.closeOutputFile os p

def openOutputFile (env : ProcessorEnv) (p : PartProcessor) (fileMeta : FileMetadata) :
    Option (Option StreamProcError × PartProcessor) := do
  let p ← closeOutputFile env.os p
  return openOutputPath env p
    (fileContext (env.outputDir ++ [slash] ++ fileMeta.filename) fileMeta)

def handleStartOfPartFrame (env : ProcessorEnv) (p : PartProcessor) (frame : List UInt8) :
    Option (Option StreamProcError × PartProcessor) := do
  let uncompressedOffset ← readChecked frame 9 8
  match p.currentFile with
  | some _ => return (none, p.setUncompressedOffset uncompressedOffset)
  | none =>
    match env.continuingFile with
    | none => return (some .invalidFrame, p.fail .invalidFrame)
    | some fileMeta =>
      match ← openOutputFile env p fileMeta with
      | (some e, p) => return (some e, p)
      | (none, p) => return (none, p.setUncompressedOffset uncompressedOffset)

def isPaddingHeader (header : List UInt8) (filenameLength : ℕ) : Option Bool :=
  if filenameLength = paddingLfhFilenameLen then do
    let filename ← sliceChecked header 30 paddingLfhFilenameLen
    return filename = paddingLfhFilename
  else return false

def handleLocalHeader (env : ProcessorEnv) (p : PartProcessor) (header : List UInt8) :
    Option LocalHeaderResult :=
  if header.length < 30 then return .needMoreData
  else do
    let filenameLength ← readChecked header 26 2
    let extraFieldLength ← readChecked header 28 2
    let headerSize := 30 + filenameLength + extraFieldLength
    if header.length < headerSize then return .needMoreData
    else if ← isPaddingHeader header filenameLength then return .skippedPadding headerSize
    else
      match env.nextFile p.nextEntryIdx with
      | none => return .error .invalidFrame (p.fail .invalidFrame)
      | some fileMeta =>
        match ← openOutputFile env p fileMeta with
        | (some e, p) => return .error e p
        | (none, p) => return .success headerSize (p.setUncompressedOffset 0)

def stepContinuingFile (env : ProcessorEnv) (p : PartProcessor) (bs : List UInt8) :
    Option LoopStep := do
  match ← parseNextFrame env.zstd bs with
  | .needMoreData => return .wait p
  | .invalidFrame => return .stop .invalidFrame (p.fail .invalidFrame)
  | .success info =>
    if info.type ≠ .burstStartOfPart then return .stop .invalidFrame (p.fail .invalidFrame)
    else
      let result ← handleStartOfPartFrame env p bs
      return LoopStep.after result fun p ↦
        .next ((p.consume info.frameSize).enter .processingFrames) (bs.drop info.frameSize)

def stepLocalHeader (env : ProcessorEnv) (p : PartProcessor) (bs : List UInt8) :
    Option LoopStep := do
  match ← handleLocalHeader env p bs with
  | .needMoreData => return .wait p
  | .skippedPadding n => return .next (p.consume n) (bs.drop n)
  | .error e p => return .stop e p
  | .success n p =>
    return .next ({ p.consume n with nextEntryIdx := p.nextEntryIdx + 1 }.enter (afterLocalHeader p))
      (bs.drop n)

def stepExpectLocalHeader (env : ProcessorEnv) (p : PartProcessor) (bs : List UInt8) :
    Option LoopStep :=
  if p.nextEntryIdx ≥ env.part.entries.length then return .next (p.enter .done) bs
  else do
    match ← parseNextFrame env.zstd bs with
    | .needMoreData => return .wait p
    | .invalidFrame => return .stop .invalidFrame (p.fail .invalidFrame)
    | .success info =>
      match info.type with
      | .burstPadding => return .next (p.consume info.frameSize) (bs.drop info.frameSize)
      | .zipCentralDirectory => return .next (p.enter .done) bs
      | .zipLocalHeader => stepLocalHeader env p bs
      | _ => return .stop .invalidFrame (p.fail .invalidFrame)

def stepProcessingFrames (env : ProcessorEnv) (p : PartProcessor) (bs : List UInt8) :
    Option LoopStep := do
  match ← parseNextFrame env.zstd bs with
  | .needMoreData => return .wait p
  | .invalidFrame => return .stop .invalidFrame (p.fail .invalidFrame)
  | .success info =>
    match info.type with
    | .zstdCompressed =>
      if bs.length < info.frameSize then return .wait p
      else
        let frame ← sliceChecked bs 0 info.frameSize
        return LoopStep.after (handleZstdFrame env p frame info.uncompressedSize) fun p ↦
          .next (p.consume info.frameSize) (bs.drop info.frameSize)
    | .burstPadding => return .next (p.consume info.frameSize) (bs.drop info.frameSize)
    | .burstStartOfPart =>
      if (env.partStartOffset + p.bytesProcessed) % 2 ^ 64 % burstPartSize ≠ 0 then
        return .stop .invalidFrame (p.fail .invalidFrame)
      else
        let result ← handleStartOfPartFrame env p bs
        return LoopStep.after result fun p ↦
          .next (p.consume info.frameSize) (bs.drop info.frameSize)
    | .zipDataDescriptor =>
      let closed ← closeOutputFile env.os p
      return .next ((closed.consume (descriptorSize p)).enter .expectLocalHeader)
        (bs.drop (descriptorSize p))
    | .zipLocalHeader =>
      let closed ← closeOutputFile env.os p
      return .next (closed.enter .expectLocalHeader) bs
    | .zipCentralDirectory =>
      let closed ← closeOutputFile env.os p
      return .next (closed.enter .done) bs

/-- The bytes needed are a 64-bit difference. -/
def symlinkBytesToCopy (f : FileContext) (target bs : List UInt8) : ℕ :=
  min bs.length ((f.expectedTotalSize + 2 ^ 64 - target.length) % 2 ^ 64)

def afterSymlinkBytes (env : ProcessorEnv) (p : PartProcessor) (f : FileContext)
    (target rest : List UInt8) : Option LoopStep :=
  if target.length ≥ f.expectedTotalSize then do
    let closed ← closeOutputFile env.os (p.setSymlinkTarget f target)
    return .next (closed.enter .expectLocalHeader) rest
  else return .next (p.setSymlinkTarget f target) rest

def stepReadingSymlink (env : ProcessorEnv) (p : PartProcessor) (bs : List UInt8) :
    Option LoopStep :=
  match p.currentFile with
  | none => return .stop .invalidFrame (p.fail .invalidFrame)
  | some f =>
    match f.symlinkBuffer with
    | none => return .stop .invalidFrame (p.fail .invalidFrame)
    | some target => do
      let n := symlinkBytesToCopy f target bs
      let piece ← sliceChecked bs 0 n
      writeChecked f.symlinkBufferSize target.length n
      afterSymlinkBytes env (p.consume n) f (target ++ piece) (bs.drop n)

def step (env : ProcessorEnv) (p : PartProcessor) (bs : List UInt8) : Option LoopStep :=
  match p.state with
  | .init => return stepInit env p bs
  | .continuingFile => stepContinuingFile env p bs
  | .expectLocalHeader => stepExpectLocalHeader env p bs
  | .processingFrames => stepProcessingFrames env p bs
  | .readingSymlink => stepReadingSymlink env p bs
  | .done => return .next p []
  | .error => return .stop (p.errorCode.getD .invalidFrame) p

end Checked

/-- The first eight bytes of a skippable frame, and no more, whose payload is so large that the size of
the frame wraps around. -/
def BareWrappedFrame (bs : List UInt8) : Prop :=
  bs.length = 8 ∧ read bs 0 4 = burstSkippableMagic ∧ 2 ^ 32 - 8 ≤ read bs 4 4

instance (bs : List UInt8) : Decidable (BareWrappedFrame bs) := inferInstanceAs (Decidable (_ ∧ _ ∧ _))

theorem Checked.parseSkippableFrame_eq {bs : List UInt8} (h : read bs 0 4 = burstSkippableMagic) :
    Checked.parseSkippableFrame bs =
      if BareWrappedFrame bs then none else some (Burst.parseSkippableFrame bs) := by
  by_cases hlen : bs.length < 8
  · have hbare : ¬ BareWrappedFrame bs := fun hbare ↦ by
      have height := hbare.1
      omega
    rw [Checked.parseSkippableFrame, Burst.parseSkippableFrame, if_pos hlen, if_pos hlen, if_neg hbare]
    rfl
  have hlt := read_lt bs 4 4
  have hpayload : readChecked bs 4 4 = some (read bs 4 4) := readChecked_inside (by omega)
  rw [Checked.parseSkippableFrame, Burst.parseSkippableFrame, if_neg hlen, if_neg hlen, hpayload,
    skippableFrameSize]
  simp only [Option.bind_eq_bind, Option.bind_some]
  by_cases hframe : bs.length < (8 + read bs 4 4) % 2 ^ 32
  · have hbare : ¬ BareWrappedFrame bs := fun hbare ↦ by
      obtain ⟨height, -, hwrap⟩ := hbare
      omega
    rw [if_pos hframe, if_pos hframe, if_neg hbare]
    rfl
  · rw [if_neg hframe, if_neg hframe]
    by_cases hpos : read bs 4 4 > 0
    · rw [if_pos hpos]
      by_cases hbare : BareWrappedFrame bs
      · rw [if_pos hbare, readChecked_outside (by rw [hbare.1]; omega)]
        rfl
      · have hnine : 8 + 1 ≤ bs.length := by
          by_contra hnot
          exact hbare ⟨by omega, h, by omega⟩
        rw [if_neg hbare, readChecked_inside hnine, Option.bind_some]
        by_cases hstart : read bs 8 1 = burstTypeStartOfPart ∧ read bs 4 4 = 16
        · have hoffset : readChecked bs 9 8 = some (read bs 9 8) := by
            apply readChecked_inside
            rw [hstart.2] at hframe
            omega
          rw [if_pos hstart, if_pos ⟨hpos, hstart⟩, hoffset]
          rfl
        · rw [if_neg hstart, if_neg fun hall ↦ hstart hall.2]
          rfl
    · have hbare : ¬ BareWrappedFrame bs := fun hbare ↦ by
        have hwrap := hbare.2.2
        omega
      rw [if_neg hpos, if_neg hbare, if_neg fun hall ↦ hpos hall.1]
      rfl

theorem Checked.parseLocalHeaderFrame_eq (bs : List UInt8) :
    Checked.parseLocalHeaderFrame bs = some (Burst.parseLocalHeaderFrame bs) := by
  rw [Checked.parseLocalHeaderFrame, Burst.parseLocalHeaderFrame]
  split
  · rfl
  · next hlen =>
    rw [readChecked_inside (show 26 + 2 ≤ bs.length by omega),
      readChecked_inside (show 28 + 2 ≤ bs.length by omega)]
    rfl

/-- The parser reads outside the buffer exactly where it has the first eight bytes of a skippable frame
whose size wraps around. -/
theorem Checked.parseNextFrame_eq (zstd : ZstdLib) (bs : List UInt8) :
    Checked.parseNextFrame zstd bs =
      if BareWrappedFrame bs then none else some (Burst.parseNextFrame zstd bs) := by
  by_cases hlen : bs.length < 4
  · have hbare : ¬ BareWrappedFrame bs := fun hbare ↦ by
      have height := hbare.1
      omega
    rw [Checked.parseNextFrame, Burst.parseNextFrame, if_pos hlen, if_pos hlen, if_neg hbare]
    rfl
  rw [Checked.parseNextFrame, Burst.parseNextFrame, if_neg hlen, if_neg hlen,
    readChecked_inside (by omega)]
  simp only [Option.bind_eq_bind, Option.bind_some]
  by_cases hmagic : read bs 0 4 = burstSkippableMagic
  · have hlocal : burstSkippableMagic ≠ zipLocalFileHeaderSig := by decide
    have hdescriptor : burstSkippableMagic ≠ zipDataDescriptorSig := by decide
    have hdirectory : burstSkippableMagic ≠ zipCentralDirHeaderSig := by decide
    have hzstd : burstSkippableMagic ≠ zstdMagicNumber := by decide
    simp only [hmagic, hlocal, hdescriptor, hdirectory, hzstd, if_false, if_true]
    exact Checked.parseSkippableFrame_eq hmagic
  · have hbare : ¬ BareWrappedFrame bs := fun hbare ↦ hmagic hbare.2.1
    rw [if_neg hbare, if_neg hmagic, if_neg hmagic, Checked.parseLocalHeaderFrame_eq]
    split_ifs <;> rfl

/-- The sizes of the file are 64-bit numbers, and no more of the target has been read than is
declared. -/
structure FileContext.Bounded (f : FileContext) : Prop where
  size : f.expectedTotalSize < 2 ^ 64
  symlink : ∀ target, f.symlinkBuffer = some target →
    f.isSymlink = true ∧ target.length ≤ f.expectedTotalSize

/-- What holds of the processor between two rounds. -/
structure PartProcessor.Bounded (p : PartProcessor) : Prop where
  file : ∀ f, p.currentFile = some f → f.Bounded
  idle : p.state = .init ∨ p.state = .continuingFile ∨ p.state = .expectLocalHeader →
    p.currentFile = none

/-- The file is a symlink whose declared size leaves no room for the terminator in 64 bits: the buffer
that is allocated for it is empty. -/
def HugeSymlink (p : PartProcessor) : Prop :=
  ∃ f ∈ p.currentFile, f.symlinkBuffer.isSome = true ∧ f.expectedTotalSize = 2 ^ 64 - 1

instance (p : PartProcessor) : Decidable (HugeSymlink p) :=
  inferInstanceAs (Decidable (∃ f ∈ p.currentFile, _ ∧ _))

theorem symlinkBufferSize_eq {f : FileContext} (hsize : f.expectedTotalSize < 2 ^ 64) :
    f.symlinkBufferSize = if f.expectedTotalSize = 2 ^ 64 - 1 then 0 else f.expectedTotalSize + 1 := by
  rw [FileContext.symlinkBufferSize]
  split
  · omega
  · exact Nat.mod_eq_of_lt (by omega)

theorem Checked.closeOutputFile_none (os : Os) {p : PartProcessor} (h : p.currentFile = none) :
    Checked.closeOutputFile os p = some (Burst.closeOutputFile os p) := by
  rw [Checked.closeOutputFile, Burst.closeOutputFile, h]
  rfl

/-- The terminator lies inside the buffer unless the buffer is empty. -/
theorem Checked.closeOutputFile_eq (os : Os) {p : PartProcessor}
    (h : ∀ f, p.currentFile = some f → f.Bounded) : Checked.closeOutputFile os p =
      if HugeSymlink p then none else some (Burst.closeOutputFile os p) := by
  cases hfile : p.currentFile with
  | none =>
    rw [Checked.closeOutputFile_none os hfile, if_neg]
    rintro ⟨f, hf, -⟩
    rw [hfile] at hf
    cases hf
  | some f =>
    obtain ⟨hsize, hsymlink⟩ := h f hfile
    rw [Checked.closeOutputFile, hfile]
    dsimp only
    cases htarget : f.symlinkBuffer with
    | none =>
      have hhuge : ¬ HugeSymlink p := by
        rintro ⟨g, hg, hsome, -⟩
        rw [hfile] at hg
        cases hg
        rw [htarget] at hsome
        cases hsome
      rw [if_neg hhuge]
      split
      · next heq => cases heq
      · rfl
    | some target =>
      obtain ⟨hlink, hle⟩ := hsymlink target htarget
      have hbuffer := symlinkBufferSize_eq hsize
      rw [hlink]
      dsimp only
      by_cases hmax : f.expectedTotalSize = 2 ^ 64 - 1
      · rw [if_pos hmax] at hbuffer
        rw [if_pos ⟨f, hfile, by rw [htarget]; rfl, hmax⟩, writeChecked_outside (by omega)]
        rfl
      · rw [if_neg hmax] at hbuffer
        have hhuge : ¬ HugeSymlink p := by
          rintro ⟨g, hg, -, hgmax⟩
          rw [hfile] at hg
          cases hg
          exact hmax hgmax
        rw [if_neg hhuge, writeChecked_inside (by omega)]
        rfl

theorem Checked.openOutputFile_eq (env : ProcessorEnv) {p : PartProcessor} (h : p.currentFile = none)
    (fileMeta : FileMetadata) :
    Checked.openOutputFile env p fileMeta = some (Burst.openOutputFile env p fileMeta) := by
  rw [Checked.openOutputFile, Checked.closeOutputFile_none env.os h]
  rfl

theorem Checked.handleStartOfPartFrame_eq (env : ProcessorEnv) (p : PartProcessor)
    {frame : List UInt8} (hframe : 17 ≤ frame.length) :
    Checked.handleStartOfPartFrame env p frame =
      some (Burst.handleStartOfPartFrame env p (read frame 9 8)) := by
  rw [Checked.handleStartOfPartFrame, Burst.handleStartOfPartFrame, readChecked_inside hframe]
  simp only [Option.bind_eq_bind, Option.bind_some]
  cases hfile : p.currentFile with
  | some f => rfl
  | none =>
    cases hcontinuing : env.continuingFile with
    | none => rfl
    | some fileMeta =>
      dsimp only
      rw [Checked.openOutputFile_eq env hfile]
      obtain ⟨_ | e, q⟩ := Burst.openOutputFile env p fileMeta
      · rfl
      · rfl

theorem Checked.isPaddingHeader_eq {header : List UInt8} (h : localHeaderSize header ≤ header.length) :
    Checked.isPaddingHeader header (read header 26 2) = some (Burst.isPaddingHeader header) := by
  rw [Checked.isPaddingHeader, Burst.isPaddingHeader]
  by_cases hlen : read header 26 2 = paddingLfhFilenameLen
  · have hname : 30 + paddingLfhFilenameLen ≤ header.length := by
      rw [← hlen]
      rw [localHeaderSize] at h
      omega
    rw [if_pos hlen, sliceChecked_inside hname]
    simp [hlen]
  · rw [if_neg hlen]
    simp [hlen]

theorem Checked.handleLocalHeader_eq (env : ProcessorEnv) {p : PartProcessor}
    (h : p.currentFile = none) (header : List UInt8) :
    Checked.handleLocalHeader env p header = some (Burst.handleLocalHeader env p header) := by
  rw [Checked.handleLocalHeader, Burst.handleLocalHeader]
  by_cases hlen : header.length < 30
  · rw [if_pos hlen, if_pos hlen]
    rfl
  rw [if_neg hlen, if_neg hlen, readChecked_inside (show 26 + 2 ≤ header.length by omega),
    readChecked_inside (show 28 + 2 ≤ header.length by omega)]
  simp only [Option.bind_eq_bind, Option.bind_some]
  rw [← localHeaderSize]
  by_cases hsize : header.length < localHeaderSize header
  · rw [if_pos hsize, if_pos hsize]
    rfl
  rw [if_neg hsize, if_neg hsize, Checked.isPaddingHeader_eq (Nat.not_lt.mp hsize), Option.bind_some]
  cases hpadding : Burst.isPaddingHeader header with
  | true => rfl
  | false =>
    cases hnext : env.nextFile p.nextEntryIdx with
    | none => rfl
    | some fileMeta =>
      simp only [Bool.false_eq_true, if_false]
      rw [Checked.openOutputFile_eq env h]
      obtain ⟨_ | e, q⟩ := Burst.openOutputFile env p fileMeta
      · rfl
      · rfl

/-- The sizes in the central directory are 64-bit numbers. -/
def ProcessorEnv.Sizes64 (env : ProcessorEnv) : Prop :=
  ∀ fileMeta ∈ env.cdResult.files, fileMeta.uncompressedSize < 2 ^ 64

instance (env : ProcessorEnv) : Decidable env.Sizes64 :=
  inferInstanceAs (Decidable (∀ fileMeta ∈ env.cdResult.files, _))

theorem ProcessorEnv.Sizes64.continuingFile {env : ProcessorEnv} (h : env.Sizes64)
    {fileMeta : FileMetadata} (hfile : env.continuingFile = some fileMeta) :
    fileMeta.uncompressedSize < 2 ^ 64 := by
  obtain ⟨i, -, hi⟩ := Option.bind_eq_some_iff.mp hfile
  exact h fileMeta (List.mem_of_getElem? hi)

theorem ProcessorEnv.Sizes64.nextFile {env : ProcessorEnv} (h : env.Sizes64) {i : ℕ}
    {fileMeta : FileMetadata} (hfile : env.nextFile i = some fileMeta) :
    fileMeta.uncompressedSize < 2 ^ 64 := by
  obtain ⟨entry, -, hentry⟩ := Option.bind_eq_some_iff.mp hfile
  exact h fileMeta (List.mem_of_getElem? hentry)

/-- The file that is open, if any, is bounded. -/
def PartProcessor.FileBounded (p : PartProcessor) : Prop :=
  ∀ f, p.currentFile = some f → f.Bounded

theorem PartProcessor.FileBounded.setUncompressedOffset {p : PartProcessor} (h : p.FileBounded)
    (offset : ℕ) : (p.setUncompressedOffset offset).FileBounded := by
  intro g hg
  obtain ⟨f, hf, rfl⟩ := Option.map_eq_some_iff.mp hg
  exact ⟨(h f hf).size, (h f hf).symlink⟩

theorem fileBounded_of_none {p : PartProcessor} (h : p.currentFile = none) : p.FileBounded := by
  intro f hf
  rw [h] at hf
  cases hf

theorem fileBounded_some {p : PartProcessor} {f : FileContext} (h : p.currentFile = some f)
    (hf : f.Bounded) : p.FileBounded := by
  intro g hg
  rw [h] at hg
  cases hg
  exact hf

theorem openOutputPath_fileBounded {env : ProcessorEnv} {p q : PartProcessor} {f : FileContext}
    (hsize : f.expectedTotalSize < 2 ^ 64) (hbuffer : f.symlinkBuffer = none)
    (h : openOutputPath env p f = (none, q)) : q.FileBounded := by
  have hf : f.Bounded := ⟨hsize, fun target htarget ↦ by simp [hbuffer] at htarget⟩
  rw [openOutputPath] at h
  split at h
  · cases h
  · split_ifs at h with hdirectory hsymlink
    · rw [makeDirectory] at h
      dsimp only at h
      split at h
      · cases h
        exact fileBounded_some rfl hf
      · cases h
        exact fileBounded_some rfl hf
      · cases h
    · rw [allocateSymlinkBuffer] at h
      split at h
      · cases h
      · cases h
        refine fileBounded_some rfl ⟨hsize, fun target htarget ↦ ⟨hsymlink, ?_⟩⟩
        cases htarget
        exact Nat.zero_le _
    · rw [openRegularFile] at h
      split at h
      · cases h
        exact fileBounded_some (f := { f with fdOpen := true }) rfl ⟨hsize, hf.symlink⟩
      · cases h

theorem openOutputFile_fileBounded {env : ProcessorEnv} {p q : PartProcessor}
    {fileMeta : FileMetadata} (hsize : fileMeta.uncompressedSize < 2 ^ 64)
    (h : openOutputFile env p fileMeta = (none, q)) : q.FileBounded :=
  openOutputPath_fileBounded hsize rfl h

theorem handleStartOfPartFrame_fileBounded {env : ProcessorEnv} (henv : env.Sizes64)
    {p q : PartProcessor} (hp : p.FileBounded) {offset : ℕ}
    (h : handleStartOfPartFrame env p offset = (none, q)) : q.FileBounded := by
  rw [handleStartOfPartFrame] at h
  split at h
  · cases h
    exact hp.setUncompressedOffset offset
  · split at h
    · cases h
    · next fileMeta hfile =>
      split at h
      · cases h
      · next r hopen =>
        cases h
        exact (openOutputFile_fileBounded (henv.continuingFile hfile) hopen).setUncompressedOffset _

theorem handleZstdFrame_fileBounded {env : ProcessorEnv} {p q : PartProcessor} (hp : p.FileBounded)
    {frame : List UInt8} {uncompressedSize : ℕ}
    (h : handleZstdFrame env p frame uncompressedSize = (none, q)) : q.FileBounded := by
  rw [handleZstdFrame] at h
  split at h
  · cases h
  · split at h
    · cases h
    · split at h
      · cases h
      · cases h
        exact PartProcessor.FileBounded.setUncompressedOffset (p := { p with ops := _ }) hp _

theorem handleLocalHeader_fileBounded {env : ProcessorEnv} (henv : env.Sizes64)
    {p q : PartProcessor} {header : List UInt8} {n : ℕ}
    (h : handleLocalHeader env p header = .success n q) : q.FileBounded := by
  rw [handleLocalHeader] at h
  split_ifs at h
  split at h
  · cases h
  · next fileMeta hfile =>
    split at h
    · cases h
    · next r hopen =>
      cases h
      exact (openOutputFile_fileBounded (henv.nextFile hfile) hopen).setUncompressedOffset _

theorem stepProcessingFrames_bounded {env : ProcessorEnv} (henv : env.Sizes64) {p q : PartProcessor}
    {bs rest : List UInt8} (hp : p.FileBounded) (hs : p.state = .processingFrames)
    (h : stepProcessingFrames env p bs = .next q rest) : q.Bounded := by
  have hnone := closeOutputFile_currentFile env.os p
  rw [stepProcessingFrames] at h
  split at h
  · cases h
  · cases h
  · split at h
    · split at h
      · cases h
      · obtain ⟨r, hr, hnext⟩ := LoopStep.after_next h
        cases hnext
        have hstate := (handleZstdFrame_handled env p _ _).success (congrArg Prod.fst hr)
        rw [hr, hs] at hstate
        have hbounded : r.FileBounded := handleZstdFrame_fileBounded hp hr
        exact ⟨hbounded, by simp [PartProcessor.consume, show r.state = .processingFrames from hstate]⟩
    · cases h
      exact ⟨hp, by simp [PartProcessor.consume, hs]⟩
    · split at h
      · cases h
      · obtain ⟨r, hr, hnext⟩ := LoopStep.after_next h
        cases hnext
        have hstate := (handleStartOfPartFrame_handled env p _).success (congrArg Prod.fst hr)
        rw [hr, hs] at hstate
        have hbounded : r.FileBounded := handleStartOfPartFrame_fileBounded henv hp hr
        exact ⟨hbounded, by simp [PartProcessor.consume, show r.state = .processingFrames from hstate]⟩
    · cases h
      exact ⟨fileBounded_of_none hnone, fun _ ↦ hnone⟩
    · cases h
      exact ⟨fileBounded_of_none hnone, fun _ ↦ hnone⟩
    · cases h
      exact ⟨fileBounded_of_none hnone, fun _ ↦ hnone⟩

theorem stepExpectLocalHeader_bounded {env : ProcessorEnv} (henv : env.Sizes64)
    {p q : PartProcessor} {bs rest : List UInt8} (hnone : p.currentFile = none)
    (h : stepExpectLocalHeader env p bs = .next q rest) : q.Bounded := by
  rw [stepExpectLocalHeader] at h
  split at h
  · cases h
    exact ⟨fileBounded_of_none hnone, fun _ ↦ hnone⟩
  · split at h
    · cases h
    · cases h
    · split at h
      · cases h
        exact ⟨fileBounded_of_none hnone, fun _ ↦ hnone⟩
      · cases h
        exact ⟨fileBounded_of_none hnone, fun _ ↦ hnone⟩
      · rw [stepLocalHeader] at h
        split at h
        · cases h
        · cases h
          exact ⟨fileBounded_of_none hnone, fun _ ↦ hnone⟩
        · cases h
        · next n r hheader =>
          cases h
          have hbounded : r.FileBounded := handleLocalHeader_fileBounded henv hheader
          refine ⟨hbounded, fun hidle ↦ ?_⟩
          rw [afterLocalHeader] at hidle
          split at hidle <;> simp [PartProcessor.enter] at hidle
      · cases h

theorem stepReadingSymlink_bounded {env : ProcessorEnv} {p q : PartProcessor}
    {bs rest : List UInt8} (hp : p.FileBounded) (hs : p.state = .readingSymlink)
    (h : stepReadingSymlink env p bs = .next q rest) : q.Bounded := by
  rw [stepReadingSymlink] at h
  split at h
  · cases h
  · next f hfile =>
    split at h
    · cases h
    · next target htarget =>
      rw [afterSymlinkBytes] at h
      split at h
      · cases h
        have hnone := closeOutputFile_currentFile env.os
          ((p.consume (symlinkBytesToCopy f target bs)).setSymlinkTarget f
            (target ++ bs.take (symlinkBytesToCopy f target bs)))
        exact ⟨fileBounded_of_none hnone, fun _ ↦ hnone⟩
      · next hmore =>
        cases h
        refine ⟨fileBounded_some rfl ⟨(hp f hfile).size, fun read hread ↦ ?_⟩,
          by simp [PartProcessor.consume, PartProcessor.setSymlinkTarget, hs]⟩
        cases hread
        exact ⟨((hp f hfile).symlink target htarget).1, (Nat.not_le.mp hmore).le⟩

/-- A round keeps the bounds. -/
theorem step_bounded {env : ProcessorEnv} (henv : env.Sizes64) {p q : PartProcessor}
    {bs rest : List UInt8} (hp : p.Bounded) (h : step env p bs = .next q rest) : q.Bounded := by
  rw [step] at h
  split at h
  · next hs =>
    have hnone := hp.idle (.inl hs)
    rw [stepInit] at h
    split at h
    · cases h
      exact ⟨hp.file, fun _ ↦ hnone⟩
    · cases h
      exact ⟨hp.file, fun _ ↦ hnone⟩
  · rw [stepContinuingFile] at h
    split at h
    · cases h
    · cases h
    · split at h
      · cases h
      · obtain ⟨r, hr, hnext⟩ := LoopStep.after_next h
        cases hnext
        have hbounded : r.FileBounded := handleStartOfPartFrame_fileBounded henv hp.file hr
        exact ⟨hbounded, by simp [PartProcessor.enter]⟩
  · next hs => exact stepExpectLocalHeader_bounded henv (hp.idle (.inr (.inr hs))) h
  · next hs => exact stepProcessingFrames_bounded henv hp.file hs h
  · next hs => exact stepReadingSymlink_bounded hp.file hs h
  · next hs =>
    cases h
    exact ⟨hp.file, by simp [hs]⟩
  · cases h

/-- Where a round looks at a frame. -/
def ParsesFrame (env : ProcessorEnv) (p : PartProcessor) : Prop :=
  p.state = .continuingFile ∨ p.state = .processingFrames ∨
    p.state = .expectLocalHeader ∧ p.nextEntryIdx < env.part.entries.length

/-- The buffer begins with what ends a file. -/
def ClosesFile (bs : List UInt8) : Prop :=
  4 ≤ bs.length ∧ (read bs 0 4 = zipDataDescriptorSig ∨ read bs 0 4 = zipCentralDirHeaderSig ∨
    read bs 0 4 = zipLocalFileHeaderSig ∧ 30 ≤ bs.length)

/-- A round meets eight bytes of a skippable frame whose size wraps around, or writes to the buffer of a
symlink for which an empty one is allocated. -/
def Overruns (env : ProcessorEnv) (p : PartProcessor) (bs : List UInt8) : Prop :=
  ParsesFrame env p ∧ BareWrappedFrame bs ∨
    HugeSymlink p ∧ (p.state = .readingSymlink ∨ p.state = .processingFrames ∧ ClosesFile bs)

instance (env : ProcessorEnv) (p : PartProcessor) : Decidable (ParsesFrame env p) :=
  inferInstanceAs (Decidable (_ ∨ _))

instance (bs : List UInt8) : Decidable (ClosesFile bs) := inferInstanceAs (Decidable (_ ∧ _))

instance (env : ProcessorEnv) (p : PartProcessor) (bs : List UInt8) :
    Decidable (Overruns env p bs) := inferInstanceAs (Decidable (_ ∨ _))

/-- The frames that close a file are those with their signatures. -/
theorem closesFile_iff {zstd : ZstdLib} {bs : List UInt8} {info : FrameInfo}
    (h : parseNextFrame zstd bs = .success info) : ClosesFile bs ↔ info.type = .zipDataDescriptor ∨
      info.type = .zipLocalHeader ∨ info.type = .zipCentralDirectory := by
  rw [parseNextFrame] at h
  rw [ClosesFile]
  split_ifs at h with hlen hlocal hdescriptor hdirectory hzstd hskippable
  · rw [parseLocalHeaderFrame] at h
    split at h
    · cases h
    · next hshort =>
      cases h
      simp only [true_or, or_true, iff_true]
      exact ⟨by omega, .inr (.inr ⟨hlocal, by omega⟩)⟩
  · cases h
    simp only [true_or, iff_true]
    exact ⟨by omega, .inl hdescriptor⟩
  · cases h
    simp only [or_true, iff_true]
    exact ⟨by omega, .inr (.inl hdirectory)⟩
  · have hnone : ¬ (4 ≤ bs.length ∧ (read bs 0 4 = zipDataDescriptorSig ∨
        read bs 0 4 = zipCentralDirHeaderSig ∨
        read bs 0 4 = zipLocalFileHeaderSig ∧ 30 ≤ bs.length)) := by
      rintro ⟨-, hd | hc | ⟨hl, -⟩⟩
      · exact hdescriptor hd
      · exact hdirectory hc
      · exact hlocal hl
    rw [parseZstdFrame] at h
    split at h
    · cases h
    · cases h
    · split at h
      · cases h
        simp only [hnone, false_iff]
        simp
      · cases h
      · cases h
  · obtain ⟨-, htype | ⟨htype, -⟩⟩ := parseSkippableFrame_success h
    · rw [htype]
      simp [hlocal, hdescriptor, hdirectory]
    · rw [htype]
      simp [hlocal, hdescriptor, hdirectory]

theorem ClosesFile.parses {bs : List UInt8} (h : ClosesFile bs) (zstd : ZstdLib) :
    ∃ info, parseNextFrame zstd bs = .success info := by
  obtain ⟨hlen, hsig⟩ := h
  have hfour : ¬ bs.length < 4 := by omega
  rw [parseNextFrame, if_neg hfour]
  rcases hsig with hdescriptor | hdirectory | ⟨hlocal, hfixed⟩
  · rw [hdescriptor, if_neg (by decide), if_pos rfl]
    exact ⟨_, rfl⟩
  · rw [hdirectory, if_neg (by decide), if_neg (by decide), if_pos rfl]
    exact ⟨_, rfl⟩
  · rw [if_pos hlocal, parseLocalHeaderFrame, if_neg (Nat.not_lt.mpr hfixed)]
    exact ⟨_, rfl⟩

theorem Checked.stepContinuingFile_eq (env : ProcessorEnv) (p : PartProcessor) (bs : List UInt8) :
    Checked.stepContinuingFile env p bs =
      if BareWrappedFrame bs then none else some (Burst.stepContinuingFile env p bs) := by
  rw [Checked.stepContinuingFile, Checked.parseNextFrame_eq, Burst.stepContinuingFile]
  by_cases hbare : BareWrappedFrame bs
  · rw [if_pos hbare, if_pos hbare]
    rfl
  rw [if_neg hbare, if_neg hbare]
  simp only [Option.bind_eq_bind, Option.bind_some]
  cases hparse : Burst.parseNextFrame env.zstd bs with
  | needMoreData => rfl
  | invalidFrame => rfl
  | success info =>
    dsimp only
    by_cases htype : info.type ≠ .burstStartOfPart
    · rw [if_pos htype, if_pos htype]
      rfl
    · obtain ⟨-, -, hstart, -⟩ := parseNextFrame_success hparse
      have hlen := (hstart (not_not.mp htype)).2
      rw [if_neg htype, if_neg htype, Checked.handleStartOfPartFrame_eq env p (by omega)]
      rfl

theorem Checked.stepLocalHeader_eq (env : ProcessorEnv) {p : PartProcessor}
    (h : p.currentFile = none) (bs : List UInt8) :
    Checked.stepLocalHeader env p bs = some (Burst.stepLocalHeader env p bs) := by
  rw [Checked.stepLocalHeader, Checked.handleLocalHeader_eq env h, Burst.stepLocalHeader]
  simp only [Option.bind_eq_bind, Option.bind_some]
  cases Burst.handleLocalHeader env p bs with
  | success n q => rfl
  | skippedPadding n => rfl
  | needMoreData => rfl
  | error e q => rfl

theorem Checked.stepExpectLocalHeader_eq (env : ProcessorEnv) {p : PartProcessor}
    (h : p.currentFile = none) (bs : List UInt8) : Checked.stepExpectLocalHeader env p bs =
      if p.nextEntryIdx < env.part.entries.length ∧ BareWrappedFrame bs then none
      else some (Burst.stepExpectLocalHeader env p bs) := by
  rw [Checked.stepExpectLocalHeader, Burst.stepExpectLocalHeader]
  by_cases hdone : p.nextEntryIdx ≥ env.part.entries.length
  · rw [if_pos hdone, if_pos hdone, if_neg fun hmore ↦ absurd hmore.1 (Nat.not_lt.mpr hdone)]
    rfl
  rw [if_neg hdone, if_neg hdone, Checked.parseNextFrame_eq]
  by_cases hbare : BareWrappedFrame bs
  · rw [if_pos hbare, if_pos ⟨Nat.not_le.mp hdone, hbare⟩]
    rfl
  rw [if_neg hbare, if_neg fun hmore ↦ hbare hmore.2]
  simp only [Option.bind_eq_bind, Option.bind_some]
  cases Burst.parseNextFrame env.zstd bs with
  | needMoreData => rfl
  | invalidFrame => rfl
  | success info =>
    dsimp only
    cases info.type with
    | burstPadding => rfl
    | zipCentralDirectory => rfl
    | zipLocalHeader => exact Checked.stepLocalHeader_eq env h bs
    | zstdCompressed => rfl
    | burstStartOfPart => rfl
    | zipDataDescriptor => rfl

theorem Checked.stepProcessingFrames_eq (env : ProcessorEnv) {p : PartProcessor}
    (hp : p.FileBounded) (bs : List UInt8) : Checked.stepProcessingFrames env p bs =
      if BareWrappedFrame bs ∨ HugeSymlink p ∧ ClosesFile bs then none
      else some (Burst.stepProcessingFrames env p bs) := by
  rw [Checked.stepProcessingFrames, Checked.parseNextFrame_eq, Burst.stepProcessingFrames]
  by_cases hbare : BareWrappedFrame bs
  · rw [if_pos hbare, if_pos (.inl hbare)]
    rfl
  rw [if_neg hbare]
  simp only [Option.bind_eq_bind, Option.bind_some]
  have hclose := Checked.closeOutputFile_eq env.os hp
  have hparses (hcloses : ClosesFile bs) := hcloses.parses env.zstd
  have hopen (hno : ¬ ClosesFile bs) :
      ¬ (BareWrappedFrame bs ∨ HugeSymlink p ∧ ClosesFile bs) :=
    fun hor ↦ hor.elim hbare fun hboth ↦ hno hboth.2
  have hfits (hno : ¬ HugeSymlink p) :
      ¬ (BareWrappedFrame bs ∨ HugeSymlink p ∧ ClosesFile bs) :=
    fun hor ↦ hor.elim hbare fun hboth ↦ hno hboth.1
  cases hparse : Burst.parseNextFrame env.zstd bs with
  | needMoreData =>
    simp only [hparse, reduceCtorEq, exists_false, imp_false] at hparses
    rw [if_neg (hopen hparses)]
    rfl
  | invalidFrame =>
    simp only [hparse, reduceCtorEq, exists_false, imp_false] at hparses
    rw [if_neg (hopen hparses)]
    rfl
  | success info =>
    have hcloses := closesFile_iff hparse
    have hstart := (parseNextFrame_success hparse).2.2.1
    dsimp only
    cases htype : info.type with
    | zstdCompressed =>
      simp only [htype, reduceCtorEq, or_self, iff_false] at hcloses
      rw [if_neg (hopen hcloses)]
      dsimp only
      by_cases hlen : bs.length < info.frameSize
      · rw [if_pos hlen, if_pos hlen]
        rfl
      · rw [if_neg hlen, if_neg hlen, sliceChecked_inside (by omega), List.drop_zero]
        rfl
    | burstPadding =>
      simp only [htype, reduceCtorEq, or_self, iff_false] at hcloses
      rw [if_neg (hopen hcloses)]
      rfl
    | burstStartOfPart =>
      simp only [htype, reduceCtorEq, or_self, iff_false] at hcloses
      rw [if_neg (hopen hcloses)]
      dsimp only
      split
      · rfl
      · have hlen := (hstart htype).2
        rw [Checked.handleStartOfPartFrame_eq env p (by omega)]
        rfl
    | zipDataDescriptor =>
      simp only [htype, true_or, iff_true] at hcloses
      dsimp only
      rw [hclose]
      by_cases hhuge : HugeSymlink p
      · rw [if_pos hhuge, if_pos (.inr ⟨hhuge, hcloses⟩)]
        rfl
      · rw [if_neg hhuge, if_neg (hfits hhuge)]
        rfl
    | zipLocalHeader =>
      simp only [htype, true_or, or_true, iff_true] at hcloses
      dsimp only
      rw [hclose]
      by_cases hhuge : HugeSymlink p
      · rw [if_pos hhuge, if_pos (.inr ⟨hhuge, hcloses⟩)]
        rfl
      · rw [if_neg hhuge, if_neg (hfits hhuge)]
        rfl
    | zipCentralDirectory =>
      simp only [htype, or_true, iff_true] at hcloses
      dsimp only
      rw [hclose]
      by_cases hhuge : HugeSymlink p
      · rw [if_pos hhuge, if_pos (.inr ⟨hhuge, hcloses⟩)]
        rfl
      · rw [if_neg hhuge, if_neg (hfits hhuge)]
        rfl

theorem Checked.symlinkBytesToCopy_eq {f : FileContext} (hsize : f.expectedTotalSize < 2 ^ 64)
    {target : List UInt8} (hle : target.length ≤ f.expectedTotalSize) (bs : List UInt8) :
    Checked.symlinkBytesToCopy f target bs = Burst.symlinkBytesToCopy f target bs := by
  have hneeded : (f.expectedTotalSize + 2 ^ 64 - target.length) % 2 ^ 64 =
      f.expectedTotalSize - target.length := by omega
  rw [Checked.symlinkBytesToCopy, Burst.symlinkBytesToCopy, hneeded]

/-- Bytes of a target are written outside its buffer exactly when the buffer is empty. -/
theorem Checked.stepReadingSymlink_eq (env : ProcessorEnv) {p : PartProcessor} (hp : p.FileBounded)
    {bs : List UInt8} (hbs : bs ≠ []) : Checked.stepReadingSymlink env p bs =
      if HugeSymlink p then none else some (Burst.stepReadingSymlink env p bs) := by
  rw [Checked.stepReadingSymlink, Burst.stepReadingSymlink]
  cases hfile : p.currentFile with
  | none =>
    rw [if_neg (by rintro ⟨f, hf, -⟩; simp [hfile] at hf)]
    rfl
  | some f =>
    obtain ⟨hsize, hsymlink⟩ := hp f hfile
    have hhuge : HugeSymlink p ↔ f.symlinkBuffer.isSome = true ∧ f.expectedTotalSize = 2 ^ 64 - 1 := by
      rw [HugeSymlink, hfile]
      simp
    dsimp only
    cases htarget : f.symlinkBuffer with
    | none =>
      rw [if_neg (by rw [hhuge, htarget]; simp)]
      rfl
    | some target =>
      obtain ⟨hlink, hle⟩ := hsymlink target htarget
      have hlen := List.length_pos_of_ne_nil hbs
      have hbuffer := symlinkBufferSize_eq hsize
      have hcopy := Checked.symlinkBytesToCopy_eq hsize hle bs
      have hn : Burst.symlinkBytesToCopy f target bs =
          min bs.length (f.expectedTotalSize - target.length) := rfl
      dsimp only
      rw [hcopy]
      generalize Burst.symlinkBytesToCopy f target bs = n at hn
      have hpiece : sliceChecked bs 0 n = some (bs.take n) := by
        rw [sliceChecked_inside (by omega), List.drop_zero]
      have htake : (target ++ bs.take n).length = target.length + n := by
        rw [List.length_append, List.length_take]
        omega
      rw [hpiece]
      simp only [Option.bind_eq_bind, Option.bind_some]
      -- the file after the bytes have been copied
      have hbounded : ((p.consume n).setSymlinkTarget f (target ++ bs.take n)).FileBounded := by
        refine fileBounded_some rfl ⟨hsize, fun read hread ↦ ?_⟩
        cases hread
        refine ⟨hlink, ?_⟩
        rw [htake]
        dsimp only
        omega
      have hclose := Checked.closeOutputFile_eq env.os hbounded
      have hsame : HugeSymlink ((p.consume n).setSymlinkTarget f (target ++ bs.take n)) ↔
          HugeSymlink p := by
        rw [hhuge, htarget, HugeSymlink]
        simp [PartProcessor.setSymlinkTarget]
      by_cases hmax : HugeSymlink p
      · rw [if_pos hmax]
        rw [if_pos (hhuge.mp hmax).2] at hbuffer
        by_cases hzero : target.length + n = 0
        · -- nothing of such a target can be missing
          have hfull := (hhuge.mp hmax).2
          omega
        · rw [writeChecked_outside (by omega), Option.bind_none]
      · rw [if_neg hmax]
        have hnot : f.expectedTotalSize ≠ 2 ^ 64 - 1 := fun hfull ↦
          hmax (hhuge.mpr ⟨by rw [htarget]; rfl, hfull⟩)
        rw [if_neg hnot] at hbuffer
        rw [writeChecked_inside (by omega), Option.bind_some, Checked.afterSymlinkBytes,
          Burst.afterSymlinkBytes, hclose, if_neg (hsame.not.mpr hmax)]
        split
        · rfl
        · rfl

/-- A round leaves its buffers exactly when it overruns one. -/
theorem Checked.step_eq (env : ProcessorEnv) {p : PartProcessor} (hp : p.Bounded) {bs : List UInt8}
    (hbs : bs ≠ []) : Checked.step env p bs =
      if Overruns env p bs then none else some (Burst.step env p bs) := by
  rw [Checked.step, Burst.step]
  cases hs : p.state with
  | init =>
    rw [if_neg (by simp [Overruns, ParsesFrame, hs])]
    rfl
  | continuingFile =>
    have hover : Overruns env p bs ↔ BareWrappedFrame bs := by simp [Overruns, ParsesFrame, hs]
    simp only [hover]
    exact Checked.stepContinuingFile_eq env p bs
  | expectLocalHeader =>
    have hover : Overruns env p bs ↔
        p.nextEntryIdx < env.part.entries.length ∧ BareWrappedFrame bs := by
      simp [Overruns, ParsesFrame, hs]
    simp only [hover]
    exact Checked.stepExpectLocalHeader_eq env (hp.idle (.inr (.inr hs))) bs
  | processingFrames =>
    have hover : Overruns env p bs ↔ BareWrappedFrame bs ∨ HugeSymlink p ∧ ClosesFile bs := by
      simp [Overruns, ParsesFrame, hs]
    simp only [hover]
    exact Checked.stepProcessingFrames_eq env hp.file bs
  | readingSymlink =>
    have hover : Overruns env p bs ↔ HugeSymlink p := by simp [Overruns, ParsesFrame, hs]
    simp only [hover]
    exact Checked.stepReadingSymlink_eq env hp.file hbs
  | done =>
    rw [if_neg (by simp [Overruns, ParsesFrame, hs])]
    rfl
  | error =>
    rw [if_neg (by simp [Overruns, ParsesFrame, hs])]
    rfl

end Burst
