import Burst.Writer

namespace Burst

/-- What the archive is made of before its central directory. A frame carries the chunk it was
compressed from and that chunk's offset in its file. -/
inductive Item where
  | paddingHeader (header : LocalFileHeader)
  | localHeader (header : LocalFileHeader)
  | frame (offset : ℕ) (chunk bytes : List UInt8)
  | padding (n : ℕ)
  | startOfPart (uncompressedOffset : ℕ)
  | descriptor (crc32 compressedSize uncompressedSize : ℕ) (useZip64 : Bool)
  | target (bytes : List UInt8)

namespace Item

def bytes : Item → List UInt8
  | paddingHeader header => header.bytes
  | localHeader header => header.bytes
  | frame _ _ bytes => bytes
  | padding n => paddingFrameBytes n
  | startOfPart offset => startOfPartBytes offset
  | descriptor crc32 compressedSize uncompressedSize useZip64 =>
    dataDescriptorBytes crc32 compressedSize uncompressedSize useZip64
  | target bytes => bytes

def len (i : Item) : ℕ := i.bytes.length

def Writable : Item → Prop
  | padding n => n < 2 ^ 63
  | _ => True

@[simp] theorem len_paddingHeader (h : LocalFileHeader) : (paddingHeader h).len = h.len :=
  h.bytes_length

@[simp] theorem len_localHeader (h : LocalFileHeader) : (localHeader h).len = h.len :=
  h.bytes_length

@[simp] theorem len_frame (offset : ℕ) (chunk bytes : List UInt8) :
    (frame offset chunk bytes).len = bytes.length := rfl

@[simp] theorem len_padding (n : ℕ) : (padding n).len = 8 + n := paddingFrameBytes_length n

@[simp] theorem len_startOfPart (offset : ℕ) : (startOfPart offset).len = 24 :=
  startOfPartBytes_length offset

@[simp] theorem len_target (bytes : List UInt8) : (target bytes).len = bytes.length := rfl

theorem len_descriptor (crc32 compressedSize uncompressedSize : ℕ) (useZip64 : Bool) :
    (descriptor crc32 compressedSize uncompressedSize useZip64).len = if useZip64 then 24 else 16 :=
  dataDescriptorBytes_length _ _ _ _

end Item

open Tiling

def itemBytes (is : List Item) : List UInt8 := is.flatMap Item.bytes

@[simp] theorem itemBytes_nil : itemBytes [] = [] := rfl

@[simp] theorem itemBytes_cons (i : Item) (is : List Item) :
    itemBytes (i :: is) = i.bytes ++ itemBytes is := by simp [itemBytes]

@[simp] theorem itemBytes_append (is js : List Item) :
    itemBytes (is ++ js) = itemBytes is ++ itemBytes js := by simp [itemBytes]

theorem itemBytes_length (is : List Item) : (itemBytes is).length = total Item.len is :=
  length_flatMap Item.bytes is

/-- The bytes from the start of an item on. -/
theorem drop_itemBytes (before : List Item) (i : Item) (after : List Item) (rest : List UInt8) :
    (itemBytes (before ++ i :: after) ++ rest).drop (total Item.len before) =
      i.bytes ++ (itemBytes after ++ rest) := by
  rw [itemBytes_append, itemBytes_cons, ← itemBytes_length, List.append_assoc,
    List.drop_left' rfl, List.append_assoc]

def gapItems (env : WriterEnv) (pos lfhLen contentSize : ℕ) (hasDataDescriptor : Bool) :
    List Item :=
  if spaceUntilBoundary pos < headerSpaceNeeded lfhLen contentSize hasDataDescriptor then
    [.paddingHeader (paddingHeaderAt env pos (spaceUntilBoundary pos))]
  else []

def frameItems (pos offset : ℕ) (chunk frame : List UInt8) : List Item :=
  let decision := alignmentDecide pos frame.length (decide (chunk.length < zstdChunkSize))
  (match decision.action with
    | .padThenFrame => [.padding decision.paddingSize]
    | .padThenMetadata => [.padding decision.paddingSize, .startOfPart offset]
    | _ => []) ++
  [.frame offset chunk frame] ++
  if decision.action = .writeFrameThenMetadata then [.startOfPart (offset + chunk.length)] else []

def compressedFrame (env : WriterEnv) (level : ℤ) (chunk : List UInt8) : List UInt8 :=
  (env.compressChunk level chunk).getD []

def chunkItems (env : WriterEnv) (level : ℤ) : ℕ → ℕ → List (List UInt8) → List Item
  | _, _, [] => []
  | pos, offset, chunk :: chunks =>
    let items := frameItems pos offset chunk (compressedFrame env level chunk)
    items ++ chunkItems env level (pos + total Item.len items) (offset + chunk.length) chunks

def endingItems (pos descriptorSize totalUncompressed : ℕ) : List Item :=
  if spaceUntilBoundary pos < descriptorSize + 44 + 8 then
    [.padding (sub64 (spaceUntilBoundary pos) 8), .startOfPart totalUncompressed]
  else []

/-- The items of one entry: the padding header before it, its header, its data up to the end of
the chunk loop, the padding at the end of the file and the data descriptor. -/
structure EntryLayout where
  gap : List Item
  header : LocalFileHeader
  data : List Item
  ending : List Item
  descriptor : List Item

namespace EntryLayout

def body (l : EntryLayout) : List Item := l.data ++ l.ending ++ l.descriptor

def items (l : EntryLayout) : List Item := l.gap ++ Item.localHeader l.header :: l.body

def headerPos (l : EntryLayout) (pos : ℕ) : ℕ := pos + total Item.len l.gap

def dataPos (l : EntryLayout) (pos : ℕ) : ℕ := l.headerPos pos + l.header.len

end EntryLayout

def fileSize (input : InputFile) : ℕ := total List.length input.chunks

def fileCrc (env : WriterEnv) (input : InputFile) : ℕ := input.chunks.foldl env.crc32 0

def usesZip64Descriptor (compressedSize uncompressedSize : ℕ) : Bool :=
  decide (compressedSize > 0xFFFFFFFF) || decide (uncompressedSize > 0xFFFFFFFF)

/-- The entry of a file whose data starts at a position, once all of it is written. -/
def completedEntry (env : WriterEnv) (level : ℤ) (pos : ℕ) (input : InputFile)
    (entry : FileEntry) : FileEntry :=
  let compressedSize := total Item.len (chunkItems env level pos 0 input.chunks)
  { entry with
    compressedSize := compressedSize
    uncompressedSize := fileSize input
    crc32 := fileCrc env input
    usedZip64Descriptor := usesZip64Descriptor compressedSize (fileSize input) }

/-- The items of a file's data from a position, with the padding at its end and the descriptor. -/
def fileEnding (env : WriterEnv) (level : ℤ) (pos : ℕ) (input : InputFile) : List Item :=
  let compressedSize := total Item.len (chunkItems env level pos 0 input.chunks)
  endingItems (pos + compressedSize) (getDataDescriptorSize compressedSize (fileSize input))
    (fileSize input)

def fileDescriptor (env : WriterEnv) (level : ℤ) (pos : ℕ) (input : InputFile) : Item :=
  let compressedSize := total Item.len (chunkItems env level pos 0 input.chunks)
  .descriptor (fileCrc env input) compressedSize (fileSize input)
    (usesZip64Descriptor compressedSize (fileSize input))

/-- What a call that succeeds at a position writes there. -/
def layoutCall (env : WriterEnv) (level : ℤ) (pos : ℕ) : AddCall → EntryLayout
  | .file input lfh _ _ _ =>
    let gap := gapItems env pos lfh.len 0 true
    let dataPos := pos + total Item.len gap + lfh.len
    if isHeaderOnly lfh then ⟨gap, lfh, [], [], []⟩
    else ⟨gap, lfh, chunkItems env level dataPos 0 input.chunks, fileEnding env level dataPos input,
      [fileDescriptor env level dataPos input]⟩
  | .symlink lfh target _ _ _ =>
    ⟨gapItems env pos lfh.len target.length false, lfh, [.target target], [], []⟩
  | .directory lfh _ _ _ => ⟨gapItems env pos lfh.len 0 false, lfh, [], [], []⟩

/-- What a call that succeeds at a position records. -/
def recordedEntry (env : WriterEnv) (level : ℤ) (pos : ℕ) (call : AddCall) : FileEntry :=
  let l := layoutCall env level pos call
  let entry (unixMode uid gid : ℕ) := populateEntryMetadata (allocateFileEntry call.lfh) call.lfh
    (l.headerPos pos) unixMode uid gid
  match call with
  | .file input lfh unixMode uid gid =>
    let started := { entry unixMode uid gid with compressedStartOffset := l.dataPos pos }
    if isHeaderOnly lfh then started
    else completedEntry env level (l.dataPos pos) input started
  | .symlink lfh target unixMode uid gid =>
    { entry unixMode uid gid with
      crc32 := lfh.fields.crc32
      compressedSize := target.length
      uncompressedSize := target.length
      usedZip64Descriptor := false }
  | .directory _ unixMode uid gid =>
    { entry unixMode uid gid with
      crc32 := 0
      compressedSize := 0
      uncompressedSize := 0
      usedZip64Descriptor := false }

/-- What successive successful calls write, from a position on. -/
def layoutAll (env : WriterEnv) (level : ℤ) : ℕ → List AddCall → List EntryLayout
  | _, [] => []
  | pos, call :: calls =>
    let l := layoutCall env level pos call
    l :: layoutAll env level (pos + total Item.len l.items) calls

def recordedAll (env : WriterEnv) (level : ℤ) : ℕ → List AddCall → List FileEntry
  | _, [] => []
  | pos, call :: calls =>
    recordedEntry env level pos call ::
      recordedAll env level (pos + total Item.len (layoutCall env level pos call).items) calls

def bodyItems (layouts : List EntryLayout) : List Item := layouts.flatMap EntryLayout.items

/-- The room `check_alignment_and_pad` needs for a padding header. -/
def GapFits (pos lfhLen contentSize : ℕ) (hasDataDescriptor : Bool) : Prop :=
  spaceUntilBoundary pos < headerSpaceNeeded lfhLen contentSize hasDataDescriptor →
    44 ≤ spaceUntilBoundary pos

/-- Everything a call needs to succeed apart from room on the disk. -/
def Accepted (env : WriterEnv) (level : ℤ) (pos : ℕ) (call : AddCall) : Prop :=
  match call with
  | .file input lfh _ _ _ =>
    GapFits pos lfh.len 0 true ∧ (isHeaderOnly lfh = false →
      input.seekable = true ∧ input.readError = none ∧
      (∀ chunk ∈ input.chunks, (env.compressChunk level chunk).isSome) ∧
      ∀ i ∈ (layoutCall env level pos call).data ++ (layoutCall env level pos call).ending,
        i.Writable)
  | .symlink lfh target _ _ _ => 0 < target.length ∧ GapFits pos lfh.len target.length false
  | .directory lfh _ _ _ =>
    lfh.fields.filenameLength ≠ 0 ∧ lfh.tail[lfh.fields.filenameLength - 1]? = some 47 ∧
    lfh.fields.compressionMethod = zipMethodStore ∧ lfh.fields.compressedSize = 0 ∧
    lfh.fields.uncompressedSize = 0 ∧ GapFits pos lfh.len 0 false

end Burst
