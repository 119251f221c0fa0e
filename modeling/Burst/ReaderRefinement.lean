import Burst.ObligingSystem
import Burst.StartOfPartOffsets

namespace Burst

open LittleEndian Incremental Tiling

def AddCall.isSymlink : AddCall → Bool
  | .symlink _ _ _ _ _ => true
  | _ => false

def AddCall.isDirectory : AddCall → Bool
  | .directory _ _ _ _ => true
  | _ => false

/-- The metadata tells what kind of entry it is, and how much it holds. -/
structure FileMetadata.Describes (fileMeta : FileMetadata) (call : AddCall) (e : FileEntry) : Prop where
  uncompressedSize : fileMeta.uncompressedSize = call.content.length
  isSymlink : fileMeta.isSymlink = call.isSymlink
  isDirectory : fileMeta.isDirectory = call.isDirectory
  usesZip64Descriptor : fileMeta.usesZip64Descriptor = e.usedZip64Descriptor

/-- How many of the entries before one start in a part. -/
def partRank (entries : List (AddCall × FileEntry)) (partSize p i : ℕ) : ℕ :=
  (entries.take i).countP fun x ↦ x.2.localHeaderOffset / partSize = p

/-- The entries of a body as a processor of one part knows them. -/
structure KnowsEntries (penv : ProcessorEnv) (path : ℕ → Path) (entries : List (AddCall × FileEntry)) :
    Prop where
  described : ∀ {i call e}, entries[i]? = some (call, e) → ∃ fileMeta,
    penv.cdResult.files[i]? = some fileMeta ∧ fileMeta.Describes call e ∧ penv.filePath fileMeta = path i
  listed : ∀ {i call e}, entries[i]? = some (call, e) →
    e.localHeaderOffset / penv.partSize = penv.partIndex →
      partRank entries penv.partSize penv.partIndex i < penv.part.entries.length ∧
        penv.nextFile (partRank entries penv.partSize penv.partIndex i) = penv.cdResult.files[i]?
  headers : ∀ x ∈ entries, x.1.lfh.WellFormed ∧ x.1.lfh.rawName ≠ paddingLfhFilename
  sizes : ∀ x ∈ entries, x.1.content.length < 2 ^ 64 ∧
    (x.1.isSymlink = true → 0 < x.1.content.length ∧ x.1.content.length + 1 < 2 ^ 63)

section

variable {penv : ProcessorEnv} {path : ℕ → Path} {entries : List (AddCall × FileEntry)}

/-- A processor is where the reader is. The file of an entry that holds nothing stays open until the next
header. -/
inductive ReadPos.Holds (penv : ProcessorEnv) (path : ℕ → Path) (entries : List (AddCall × FileEntry)) :
    ReadPos → PartProcessor → Prop where
  | header {i : ℕ} {p : PartProcessor} (state : p.state = .expectLocalHeader) (closed : p.currentFile = none)
    (next : p.nextEntryIdx = partRank entries penv.partSize penv.partIndex i) :
    Holds penv path entries (.header i) p
  | left {i : ℕ} {p : PartProcessor} {f : FileContext} (later : 0 < i) (state : p.state = .processingFrames)
    (opened : p.currentFile = some f)
    (next : p.nextEntryIdx = partRank entries penv.partSize penv.partIndex i) :
    Holds penv path entries (.header i) p
  | data {i offset : ℕ} {p : PartProcessor} {call : AddCall} {e : FileEntry} {fileMeta : FileMetadata}
    (hentry : entries[i]? = some (call, e)) (describes : fileMeta.Describes call e)
    (isFile : call.isSymlink = false) (atPath : penv.filePath fileMeta = path i)
    (inside : offset ≤ call.content.length)
    (state : p.state = .processingFrames)
    (opened : p.currentFile =
      some { penv.context fileMeta with fdOpen := true, uncompressedOffset := offset })
    (next : p.nextEntryIdx = partRank entries penv.partSize penv.partIndex (i + 1)) :
    Holds penv path entries (.data i offset) p
  | target {i : ℕ} {p : PartProcessor} {call : AddCall} {e : FileEntry} {fileMeta : FileMetadata}
    (hentry : entries[i]? = some (call, e)) (describes : fileMeta.Describes call e)
    (isLink : call.isSymlink = true) (atPath : penv.filePath fileMeta = path i)
    (state : p.state = .readingSymlink)
    (opened : p.currentFile =
      some { penv.context fileMeta with uncompressedOffset := 0, symlinkBuffer := some [] })
    (next : p.nextEntryIdx = partRank entries penv.partSize penv.partIndex (i + 1)) :
    Holds penv path entries (.target i) p

/-- What the system calls come to that a processor has made by then, with those that close the file of an
entry that holds nothing. -/
def ReadPos.done (penv : ProcessorEnv) (p : PartProcessor) : ReadPos → List FileOp
  | header _ => penv.deeds (closeOutputFile penv.os p).ops
  | data _ _ => penv.deeds p.ops
  | target _ => penv.deeds p.ops

/-- Where the processor is in the archive. -/
def PartProcessor.position (penv : ProcessorEnv) (p : PartProcessor) : ℕ :=
  penv.partIndex * penv.partSize + p.bytesProcessed

theorem partRank_succ {i : ℕ} {x : AddCall × FileEntry} (h : entries[i]? = some x) (partSize p : ℕ) :
    partRank entries partSize p (i + 1) = partRank entries partSize p i +
      if x.2.localHeaderOffset / partSize = p then 1 else 0 := by
  rw [partRank, partRank, List.take_add_one, h, List.countP_append, Option.toList_some,
    List.countP_singleton]
  simp only [decide_eq_true_eq]

theorem closeOutputFile_of_closed {os : Os} {p : PartProcessor} (h : p.currentFile = none) :
    closeOutputFile os p = p := by
  rw [closeOutputFile, h]

theorem ReadPos.done_of_closed {p : PartProcessor} (h : p.currentFile = none) (i : ℕ) :
    (ReadPos.header i).done penv p = penv.deeds p.ops := by
  rw [ReadPos.done, closeOutputFile_of_closed h]

/-- Before a header a file that is still open is closed. -/
theorem ReadPos.Holds.closes {i : ℕ} {p : PartProcessor} (hp : (ReadPos.header i).Holds penv path entries p)
    {h : LocalFileHeader} (hw : h.WellFormed) (rest : List UInt8) :
    ∃ q, Visits (step penv) p (h.bytes ++ rest) q (h.bytes ++ rest) ∧ q.state = .expectLocalHeader ∧
      q.currentFile = none ∧ q.nextEntryIdx = partRank entries penv.partSize penv.partIndex i ∧
      q.bytesProcessed = p.bytesProcessed ∧ q.ops = (closeOutputFile penv.os p).ops := by
  cases hp with
  | header state closed next =>
    refine ⟨p, .here, state, closed, next, rfl, ?_⟩
    rw [closeOutputFile_of_closed closed]
  | left later state opened next =>
    have hstep : step penv p (h.bytes ++ rest) =
        .next ((closeOutputFile penv.os p).enter .expectLocalHeader) (h.bytes ++ rest) := by
      rw [step, state]
      simp only [stepProcessingFrames, parseNextFrame_localHeader hw]
    have hbytes : h.bytes ++ rest ≠ [] := by
      apply List.ne_nil_of_length_pos
      rw [List.length_append, LocalFileHeader.bytes_length, LocalFileHeader.len]
      omega
    refine ⟨_, .later hbytes hstep .here, rfl, ?_, ?_, ?_, rfl⟩
    · exact closeOutputFile_currentFile penv.os p
    · exact (closeOutputFile_nextEntryIdx penv.os p).trans next
    · rw [closeOutputFile, opened]
      rfl

/-- The padding before a header is skipped. -/
theorem step_paddingHeader {p : PartProcessor} (hstate : p.state = .expectLocalHeader)
    (hnext : p.nextEntryIdx < penv.part.entries.length) {h : LocalFileHeader} (hw : h.WellFormed)
    (hname : h.rawName = paddingLfhFilename) (rest : List UInt8) :
    step penv p (h.bytes ++ rest) = .next (p.consume h.len) rest := by
  obtain ⟨n, hskip⟩ := (handleLocalHeader_skips_iff hw penv p rest).mpr hname
  have hn : n = h.len := (handleLocalHeader_consumed.2 hskip).trans (hw.localHeaderSize rest)
  rw [step, hstate]
  simp only [stepExpectLocalHeader, parseNextFrame_localHeader hw, stepLocalHeader, hskip]
  rw [if_neg (by omega), hn, List.drop_left' h.bytes_length]

/-- The processor after the header of an entry that it has opened. -/
def PartProcessor.afterHeader (p : PartProcessor) (f : FileContext) (n : ℕ) (ops : List FileOp) :
    PartProcessor :=
  { p with
    currentFile := some f
    nextEntryIdx := p.nextEntryIdx + 1
    bytesProcessed := p.bytesProcessed + n
    state := if f.isSymlink then .readingSymlink else .processingFrames
    ops := ops }

/-- The header of an entry of the part opens the entry. -/
theorem step_localHeader {p : PartProcessor} (hstate : p.state = .expectLocalHeader)
    (hnext : p.nextEntryIdx < penv.part.entries.length) {lfh : LocalFileHeader} (hw : lfh.WellFormed)
    (hname : lfh.rawName ≠ paddingLfhFilename) {fileMeta : FileMetadata}
    (hfile : penv.nextFile p.nextEntryIdx = some fileMeta) {f : FileContext} {ops : List FileOp}
    (hopen : openOutputFile penv p fileMeta = (none, { p with currentFile := some f, ops := ops }))
    (hoffset : f.uncompressedOffset = 0) (rest : List UInt8) :
    step penv p (lfh.bytes ++ rest) = .next (p.afterHeader f lfh.len ops) rest := by
  have hsize := hw.localHeaderSize rest
  have hpadding : isPaddingHeader (lfh.bytes ++ rest) = false :=
    Bool.eq_false_iff.mpr fun h ↦ hname ((hw.isPaddingHeader_iff rest).mp h)
  have hlen : (lfh.bytes ++ rest).length = lfh.len + rest.length := by
    rw [List.length_append, LocalFileHeader.bytes_length]
  have hmin : 30 ≤ lfh.len := by
    rw [LocalFileHeader.len]
    omega
  have hsame : PartProcessor.setUncompressedOffset { p with currentFile := some f, ops := ops } 0 =
      { p with currentFile := some f, ops := ops } := by
    rw [PartProcessor.setUncompressedOffset, Option.map_some, ← hoffset]
  have hheader : handleLocalHeader penv p (lfh.bytes ++ rest) =
      .success lfh.len { p with currentFile := some f, ops := ops } := by
    rw [handleLocalHeader, if_neg (by omega), if_neg (by omega), hpadding, if_neg Bool.false_ne_true, hfile]
    simp only [hopen, hsize, hsame]
  rw [step, hstate]
  simp only [stepExpectLocalHeader, parseNextFrame_localHeader hw, stepLocalHeader, hheader]
  rw [if_neg (by omega), List.drop_left' lfh.bytes_length]
  rfl

/-- A step of the reader's that the processor makes: it gets past the item, and does what the reader does. -/
def Simulates (penv : ProcessorEnv) (path : ℕ → Path) (entries : List (AddCall × FileEntry))
    (s s' : ReadPos) (p : PartProcessor) (bytes rest : List UInt8) (out : List FileOp) : Prop :=
  ∃ q, Visits (step penv) p (bytes ++ rest) q rest ∧ s'.Holds penv path entries q ∧
    s'.done penv q = s.done penv p ++ out ∧ q.position penv = p.position penv + bytes.length

/-- The processor opens the entry whose header it meets. -/
theorem header_simulates (hk : KnowsEntries penv path entries) (hos : penv.os.Obliges) {i : ℕ}
    {call : AddCall} {e : FileEntry} (hentry : entries[i]? = some (call, e))
    (hpart : e.localHeaderOffset / penv.partSize = penv.partIndex) {p : PartProcessor}
    (hstate : p.state = .expectLocalHeader) (hclosed : p.currentFile = none)
    (hnext : p.nextEntryIdx = partRank entries penv.partSize penv.partIndex i) (rest : List UInt8) :
    Simulates penv path entries (.header i) (call.opened (path i) i).2 p call.lfh.bytes rest
      (call.opened (path i) i).1 := by
  obtain ⟨fileMeta, hfile, hdescribes, hpath⟩ := hk.described hentry
  obtain ⟨hlisted, hnextFile⟩ := hk.listed hentry hpart
  obtain ⟨hw, hname⟩ := hk.headers _ (List.mem_of_getElem? hentry)
  obtain ⟨hsize, htarget⟩ := hk.sizes _ (List.mem_of_getElem? hentry)
  have hrank := partRank_succ hentry penv.partSize penv.partIndex
  rw [if_pos hpart] at hrank
  rw [← hnext] at hlisted hnextFile
  have hbytes : call.lfh.bytes ++ rest ≠ [] := by
    apply List.ne_nil_of_length_pos
    rw [List.length_append, LocalFileHeader.bytes_length, LocalFileHeader.len]
    omega
  have hdone : (ReadPos.header i).done penv p = penv.deeds p.ops := ReadPos.done_of_closed hclosed i
  have hsucc : p.nextEntryIdx + 1 = partRank entries penv.partSize penv.partIndex (i + 1) := by
    rw [hrank, hnext]
  have hposition (f : FileContext) (ops : List FileOp) :
      (p.afterHeader f call.lfh.len ops).position penv = p.position penv + call.lfh.bytes.length := by
    rw [LocalFileHeader.bytes_length, PartProcessor.position, PartProcessor.position, Nat.add_assoc]
    rfl
  -- the step, once the file of the entry is open
  have hstep {f : FileContext} {ops : List FileOp}
      (hopen : openOutputFile penv p fileMeta = (none, { p with currentFile := some f, ops := ops }))
      (hoffset : f.uncompressedOffset = 0) :
      Visits (step penv) p (call.lfh.bytes ++ rest) (p.afterHeader f call.lfh.len ops) rest :=
    .later hbytes (step_localHeader hstate hlisted hw hname (hnextFile.trans hfile) hopen hoffset rest) .here
  cases call with
  | file input lfh unixMode uid gid =>
    have hlink : fileMeta.isSymlink = false := hdescribes.isSymlink
    have hframes {f : FileContext} (hf : f.isSymlink = fileMeta.isSymlink) (ops : List FileOp) :
        (p.afterHeader f lfh.len ops).state = .processingFrames := if_neg (by simp [hf, hlink])
    obtain ⟨ops, hopen, hdoes⟩ := hos.openRegular hclosed hdescribes.isDirectory hlink
    rw [hpath] at hdoes
    cases hho : isHeaderOnly lfh with
    | true =>
      have hempty : fileMeta.uncompressedSize = 0 := by
        rw [hdescribes.uncompressedSize, AddCall.content, if_pos hho]
        rfl
      have hclose := hos.closeRegular hlink ops 0
      rw [hpath, hempty] at hclose
      simp only [AddCall.opened, hho, if_true]
      refine ⟨_, hstep hopen rfl, .left i.succ_pos (hframes rfl ops) rfl hsucc, ?_, hposition _ _⟩
      rw [hdone]
      exact (hdoes.trans hclose).deeds_eq
    | false =>
      simp only [AddCall.opened, hho, Bool.false_eq_true, if_false]
      refine ⟨_, hstep hopen rfl, .data hentry hdescribes rfl hpath (Nat.zero_le _) (hframes rfl ops) rfl hsucc,
        ?_, hposition _ _⟩
      rw [hdone]
      exact hdoes.deeds_eq
  | symlink lfh target unixMode uid gid =>
    have hlink : fileMeta.isSymlink = true := hdescribes.isSymlink
    have hsmall : fileMeta.uncompressedSize + 1 < 2 ^ 63 := by
      rw [hdescribes.uncompressedSize]
      exact (htarget rfl).2
    obtain ⟨ops, hopen, hdoes⟩ := hos.openSymlink hclosed hdescribes.isDirectory hlink hsmall
    refine ⟨_, hstep hopen rfl, .target hentry hdescribes rfl hpath (if_pos hlink) rfl hsucc, ?_,
      hposition _ _⟩
    rw [hdone]
    exact hdoes.deeds_eq
  | directory lfh unixMode uid gid =>
    have hlink : fileMeta.isSymlink = false := hdescribes.isSymlink
    obtain ⟨ops, hopen, hdoes⟩ := hos.openDirectory hclosed hdescribes.isDirectory
    have hframes : (p.afterHeader (penv.context fileMeta) lfh.len ops).state = .processingFrames := by
      apply if_neg
      change ¬ fileMeta.isSymlink = true
      rw [hlink]
      exact Bool.false_ne_true
    have hclose := closeOps_directory penv fileMeta 0
    refine ⟨_, hstep hopen rfl, .left i.succ_pos hframes rfl hsucc, ?_, hposition _ _⟩
    change penv.deeds (ops ++ closeOps penv.os { penv.context fileMeta with uncompressedOffset := 0 }) =
      (ReadPos.header i).done penv p ++ []
    rw [hclose, List.append_nil, hdone]
    exact hdoes.deeds_eq

/-- The header of an entry is got past, whether or not a file is still open. -/
theorem ReadPos.Holds.header_step (hk : KnowsEntries penv path entries) (hos : penv.os.Obliges) {i : ℕ}
    {call : AddCall} {e : FileEntry} (hentry : entries[i]? = some (call, e))
    (hpart : e.localHeaderOffset / penv.partSize = penv.partIndex) {p : PartProcessor}
    (hp : (ReadPos.header i).Holds penv path entries p) (rest : List UInt8) :
    Simulates penv path entries (.header i) (call.opened (path i) i).2 p call.lfh.bytes rest
      (call.opened (path i) i).1 := by
  obtain ⟨q, hclose, hstate, hclosed, hnext, hbytes, hops⟩ :=
    hp.closes (hk.headers _ (List.mem_of_getElem? hentry)).1 rest
  obtain ⟨r, hvisit, hr, hdone, hposition⟩ := header_simulates hk hos hentry hpart hstate hclosed hnext rest
  refine ⟨r, hclose.trans hvisit, hr, ?_, ?_⟩
  · rw [hdone, ReadPos.done_of_closed hclosed, hops]
    rfl
  · rw [hposition, PartProcessor.position, PartProcessor.position, hbytes]

/-- So is padding before a header, as long as the part has entries to come. -/
theorem ReadPos.Holds.paddingHeader_step {i : ℕ} {p : PartProcessor}
    (hp : (ReadPos.header i).Holds penv path entries p)
    (hlisted : partRank entries penv.partSize penv.partIndex i < penv.part.entries.length)
    {h : LocalFileHeader} (hw : h.WellFormed) (hname : h.rawName = paddingLfhFilename) (rest : List UInt8) :
    Simulates penv path entries (.header i) (.header i) p h.bytes rest [] := by
  obtain ⟨q, hclose, hstate, hclosed, hnext, hbytes, hops⟩ := hp.closes hw rest
  have hne : h.bytes ++ rest ≠ [] := by
    apply List.ne_nil_of_length_pos
    rw [List.length_append, LocalFileHeader.bytes_length, LocalFileHeader.len]
    omega
  have hstep := step_paddingHeader hstate (hnext.trans_lt hlisted) hw hname rest
  refine ⟨q.consume h.len, hclose.trans (.later hne hstep .here), .header hstate hclosed hnext, ?_, ?_⟩
  · have hclosed' : (q.consume h.len).currentFile = none := hclosed
    rw [List.append_nil, ReadPos.done_of_closed hclosed', ReadPos.done, ← hops]
    rfl
  · rw [PartProcessor.position, PartProcessor.position, LocalFileHeader.bytes_length, ← hbytes, Nat.add_assoc]
    rfl

/-- A frame of the file that is open is written. -/
theorem step_frame_obliged {env : WriterEnv} {level : ℤ} (hz : FramesDecode env level penv.zstd)
    (hos : penv.os.Obliges) {p : PartProcessor} {f : FileContext} {offset : ℕ} (hp : ReadsFile p f offset)
    (hopen : f.fdOpen = true) {chunk frame : List UInt8} (hframe : env.compressChunk level chunk = some frame)
    (hlen : chunk.length ≤ zstdChunkSize) (hlt : offset + chunk.length < 2 ^ 64) (rest : List UInt8) :
    ∃ ops, step penv p (frame ++ rest) =
        .next (p.afterData f (offset + chunk.length) frame.length ops) rest ∧
      Does penv p.ops ops [.pwrite f.filename chunk offset] := by
  have hframeLen := hz.length_ge hframe
  have hpos : frame ≠ [] := List.ne_nil_of_length_pos (by omega)
  have hextent : chunk.length ≤ maxExtentSize := by
    rw [maxExtentSize]
    rw [zstdChunkSize] at hlen
    omega
  obtain ⟨ops, hwrite, hdoes⟩ :=
    @Os.Obliges.doWriteEncoded penv hos f.filename frame chunk (hz.decompress hframe hlen) hpos
      chunk.length hextent p.ops offset
  refine ⟨ops, ?_, hdoes⟩
  have hfit : ¬ (frame ++ rest).length < frame.length := by
    rw [List.length_append]
    omega
  rw [step, hp.state]
  simp only [stepProcessingFrames, parseNextFrame_frame hz hframe hlen rest, handleZstdFrame,
    hp.currentFile, hopen, hp.uncompressedOffset, List.take_left' rfl, List.drop_left' rfl, hwrite,
    if_neg hfit, Bool.true_eq_false, if_false, LoopStep.after, Nat.mod_eq_of_lt hlt]
  rfl

theorem step_data_obliged {env : WriterEnv} {level : ℤ} (hz : FramesDecode env level penv.zstd)
    (hos : penv.os.Obliges) {pos offset offset' : ℕ} {item : Item}
    (hstep : DataStep env level pos offset item offset') (hlt : offset' < 2 ^ 64) {p : PartProcessor}
    {f : FileContext} (hp : ReadsFile p f offset) (hopen : f.fdOpen = true) (hpos : p.position penv = pos)
    (rest : List UInt8) :
    ∃ ops, step penv p (item.bytes ++ rest) = .next (p.afterData f offset' item.len ops) rest ∧
      Does penv p.ops ops (item.writes f.filename) := by
  have hsame (n : ℕ) : p.consume n = p.afterData f offset n p.ops := by
    have hf : { f with uncompressedOffset := offset } = f := by rw [← hp.uncompressedOffset]
    rw [PartProcessor.afterData, hf, PartProcessor.consume, ← hp.currentFile]
  cases hstep with
  | frame hframe hlen => exact step_frame_obliged hz hos hp hopen hframe hlen hlt rest
  | padding hn =>
    have hsmall : burstPartSize < 2 ^ 32 := by norm_num [burstPartSize]
    refine ⟨p.ops, ?_, .refl penv p.ops⟩
    rw [Item.bytes, step_padding hp.state (by omega), Item.len_padding, hsame]
  | startOfPart hdvd =>
    refine ⟨p.ops, ?_, .refl penv p.ops⟩
    rw [← hpos] at hdvd
    rw [Item.bytes, step_startOfPart_inside hp hlt hdvd rest, Item.len_startOfPart, hsame]

theorem DataStep.offset_le_length {env : WriterEnv} {level : ℤ} {pos offset offset' : ℕ} {item : Item}
    (h : DataStep env level pos offset item offset') {content : List UInt8}
    (hfits : ∀ o chunk bytes, item = .frame o chunk bytes → chunk <+: content.drop o)
    (hle : offset ≤ content.length) : offset' ≤ content.length := by
  cases h with
  | frame hframe hlen =>
    have hprefix := (hfits offset _ _ rfl).length_le
    rw [List.length_drop] at hprefix
    omega
  | padding => exact hle
  | startOfPart => exact hle

/-- What an item of the data of a file holds is written. -/
theorem ReadPos.Holds.data_step {env : WriterEnv} {level : ℤ} (hz : FramesDecode env level penv.zstd)
    (hk : KnowsEntries penv path entries) (hos : penv.os.Obliges) {pos i offset offset' : ℕ} {call : AddCall}
    {e : FileEntry} {item : Item} (hentry : entries[i]? = some (call, e))
    (hstep : DataStep env level pos offset item offset')
    (hfits : ∀ o chunk bytes, item = .frame o chunk bytes → chunk <+: call.content.drop o)
    {p : PartProcessor} (hp : (ReadPos.data i offset).Holds penv path entries p)
    (hpos : p.position penv = pos) (rest : List UInt8) :
    Simulates penv path entries (.data i offset) (.data i offset') p item.bytes rest
      (item.writes (path i)) := by
  obtain ⟨hsize, -⟩ := hk.sizes _ (List.mem_of_getElem? hentry)
  cases hp with
  | @data _ _ _ _ _ fileMeta hentry' describes isFile atPath inside state opened next =>
    obtain ⟨rfl, rfl⟩ := Prod.mk.inj (Option.some.inj (hentry.symm.trans hentry'))
    have hinside := hstep.offset_le_length hfits inside
    obtain ⟨ops, hnext, hdoes⟩ := step_data_obliged hz hos hstep (hinside.trans_lt hsize)
      ⟨state, opened, rfl⟩ rfl hpos rest
    have hpath : (penv.context fileMeta).filename = path i := atPath
    rw [hpath] at hdoes
    refine ⟨_, .later (Item.bytes_ne_nil (hstep.len_pos hz) rest) hnext .here,
      .data hentry describes isFile atPath hinside state rfl next, hdoes.deeds_eq, ?_⟩
    exact (Nat.add_assoc _ _ _).symm

/-- The descriptor of a file closes the file. -/
theorem ReadPos.Holds.descriptor_step (hos : penv.os.Obliges) {i crc32 compressedSize : ℕ} {call : AddCall}
    {e : FileEntry} (hentry : entries[i]? = some (call, e)) {p : PartProcessor}
    (hp : (ReadPos.data i call.content.length).Holds penv path entries p) (rest : List UInt8) :
    Simulates penv path entries (.data i call.content.length) (.header (i + 1)) p
      (dataDescriptorBytes crc32 compressedSize call.content.length e.usedZip64Descriptor) rest
      [.ftruncate (path i) call.content.length] := by
  cases hp with
  | @data _ _ _ _ _ fileMeta hentry' describes isFile atPath inside state opened next =>
    obtain ⟨rfl, rfl⟩ := Prod.mk.inj (Option.some.inj (hentry.symm.trans hentry'))
    have hlink : fileMeta.isSymlink = false := describes.isSymlink.trans isFile
    have hclose := hos.closeRegular hlink p.ops call.content.length
    rw [atPath, describes.uncompressedSize] at hclose
    have hsize : descriptorSize p = (dataDescriptorBytes crc32 compressedSize call.content.length
        e.usedZip64Descriptor).length := by
      rw [dataDescriptorBytes_length, descriptorSize, opened, ← describes.usesZip64Descriptor]
      rfl
    have hnext : step penv p (dataDescriptorBytes crc32 compressedSize call.content.length
        e.usedZip64Descriptor ++ rest) =
          .next (((closeOutputFile penv.os p).consume (descriptorSize p)).enter .expectLocalHeader) rest := by
      rw [step, state]
      simp only [stepProcessingFrames, parseNextFrame_descriptor]
      rw [List.drop_left' hsize.symm]
    have hne : dataDescriptorBytes crc32 compressedSize call.content.length e.usedZip64Descriptor ++ rest ≠
        [] := by
      apply List.ne_nil_of_length_pos
      rw [List.length_append, dataDescriptorBytes_length]
      split <;> omega
    have hclosed := closeOutputFile_currentFile penv.os p
    refine ⟨_, .later hne hnext .here, .header rfl hclosed ?_, ?_, ?_⟩
    · exact (closeOutputFile_nextEntryIdx penv.os p).trans next
    · refine (ReadPos.done_of_closed ?_ (i + 1)).trans ?_
      · exact hclosed
      · refine Eq.trans ?_ hclose.deeds_eq
        rw [closeOutputFile, opened]
        rfl
    · rw [← hsize, PartProcessor.position, PartProcessor.position, Nat.add_assoc]
      rw [closeOutputFile, opened]
      rfl

/-- The target of a symlink makes the symlink. -/
theorem ReadPos.Holds.target_step (hos : penv.os.Obliges) (hk : KnowsEntries penv path entries) {i : ℕ}
    {call : AddCall} {e : FileEntry} (hentry : entries[i]? = some (call, e)) {p : PartProcessor}
    (hp : (ReadPos.target i).Holds penv path entries p) (rest : List UInt8) :
    Simulates penv path entries (.target i) (.header (i + 1)) p call.content rest
      [.symlink (call.content.takeWhile (· ≠ 0)) (path i)] := by
  obtain ⟨-, htarget⟩ := hk.sizes _ (List.mem_of_getElem? hentry)
  cases hp with
  | @target _ _ _ _ fileMeta hentry' describes isLink atPath state opened next =>
    obtain ⟨rfl, rfl⟩ := Prod.mk.inj (Option.some.inj (hentry.symm.trans hentry'))
    have hlink : fileMeta.isSymlink = true := describes.isSymlink.trans isLink
    have hclose := hos.closeSymlink hlink p.ops 0 call.content
    rw [atPath] at hclose
    have hlen : (penv.context fileMeta).expectedTotalSize = call.content.length := describes.uncompressedSize
    have hnext : step penv p (call.content ++ rest) = .next ((closeOutputFile penv.os
        ((p.consume call.content.length).setSymlinkTarget
          { penv.context fileMeta with uncompressedOffset := 0, symlinkBuffer := some [] }
          call.content)).enter .expectLocalHeader) rest := by
      have hcopy : symlinkBytesToCopy { penv.context fileMeta with
          uncompressedOffset := 0, symlinkBuffer := some [] } [] (call.content ++ rest) =
            call.content.length := by
        rw [symlinkBytesToCopy, hlen, List.length_append, List.length_nil]
        omega
      rw [step, state]
      simp only [stepReadingSymlink, opened, hcopy, List.take_left' rfl, List.drop_left' rfl,
        List.nil_append, afterSymlinkBytes]
      exact if_pos hlen.le
    have hne : call.content ++ rest ≠ [] := by
      apply List.ne_nil_of_length_pos
      rw [List.length_append]
      exact Nat.lt_add_right _ (htarget isLink).1
    have hclosed := closeOutputFile_currentFile penv.os ((p.consume call.content.length).setSymlinkTarget
      { penv.context fileMeta with uncompressedOffset := 0, symlinkBuffer := some [] } call.content)
    refine ⟨_, .later hne hnext .here, .header rfl hclosed next, ?_, (Nat.add_assoc _ _ _).symm⟩
    refine (ReadPos.done_of_closed ?_ (i + 1)).trans ?_
    · exact hclosed
    · exact hclose.deeds_eq

end

end Burst
