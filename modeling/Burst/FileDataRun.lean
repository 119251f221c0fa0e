import Burst.FileEffects
import Burst.ItemFrames
import Burst.StreamChunking

namespace Burst

open Tiling LittleEndian Incremental

/-- An item of a file's data, between two offsets in the file. -/
inductive DataStep (env : WriterEnv) (level : ℤ) : ℕ → ℕ → Item → ℕ → Prop where
  | frame {pos offset : ℕ} {chunk bytes : List UInt8}
    (hframe : env.compressChunk level chunk = some bytes) (hlen : chunk.length ≤ zstdChunkSize) :
    DataStep env level pos offset (.frame offset chunk bytes) (offset + chunk.length)
  | padding {pos offset n : ℕ} (hn : 8 + n ≤ burstPartSize) :
    DataStep env level pos offset (.padding n) offset
  | startOfPart {pos offset : ℕ} (hpos : burstPartSize ∣ pos) :
    DataStep env level pos offset (.startOfPart offset) offset

/-- Reading a file's data. -/
abbrev DataWalk (env : WriterEnv) (level : ℤ) : ℕ → ℕ → List Item → ℕ → Prop :=
  Walk Item.len (DataStep env level)

theorem DataWalk.offset {env : WriterEnv} {level : ℤ} {pos offset offset' : ℕ} {is : List Item}
    (h : DataWalk env level pos offset is offset') :
    offset' = offset + total List.length (dataChunks is) := by
  induction h with
  | nil => rfl
  | cons hstep _ ih =>
    rw [ih]
    cases hstep with
    | frame => simp [dataChunks, Nat.add_assoc]
    | padding => rfl
    | startOfPart => rfl

theorem paddingToBoundary_walk {env : WriterEnv} {level : ℤ} {pos : ℕ} (offset : ℕ)
    (hin : Inside pos) : DataWalk env level pos offset
      [.padding (sub64 (spaceUntilBoundary pos) 8), .startOfPart offset] offset := by
  have hlen := paddingToBoundary_len hin
  have hle := spaceUntilBoundary_le pos
  refine .cons (.padding ?_) (.cons (.startOfPart ?_) (.nil _ _))
  · rw [← Item.len_padding, hlen]
    exact hle
  · rw [hlen]
    exact dvd_add_spaceUntilBoundary pos

theorem frameItems_walk {env : WriterEnv} {level : ℤ} {pos : ℕ} (offset : ℕ)
    {chunk frame : List UInt8} (hframe : env.compressChunk level chunk = some frame)
    (hlen : chunk.length ≤ zstdChunkSize) (hin : Inside pos) :
    DataWalk env level pos offset (frameItems pos offset chunk frame) (offset + chunk.length) := by
  have hone (q : ℕ) : DataWalk env level q offset [.frame offset chunk frame]
      (offset + chunk.length) := .cons (.frame hframe hlen) (.nil _ _)
  simp only [frameItems]
  obtain ⟨ha, -⟩ | ⟨ha, -, hspace⟩ | ⟨ha, hn, -⟩ :=
    alignmentDecide_cases pos frame.length (decide (chunk.length < zstdChunkSize))
  · simp only [ha, List.nil_append, reduceCtorEq, if_false, List.append_nil]
    exact hone pos
  · simp only [ha, List.nil_append, if_true]
    refine (hone pos).append (.cons (.startOfPart ?_) (.nil _ _))
    rw [total_cons, total_nil, Item.len_frame, Nat.add_zero, ← hspace]
    exact dvd_add_spaceUntilBoundary pos
  · simp only [ha, hn, reduceCtorEq, if_false, List.append_nil]
    exact (paddingToBoundary_walk offset hin).append (hone _)

theorem chunkItems_walk {env : WriterEnv} {level : ℤ} (hbound : FramesBounded env level) {pos : ℕ}
    (offset : ℕ) {chunks : List (List UInt8)} (hlen : ∀ chunk ∈ chunks, chunk.length ≤ zstdChunkSize)
    (hframes : ∀ chunk ∈ chunks, (env.compressChunk level chunk).isSome) (hin : Inside pos) :
    DataWalk env level pos offset (chunkItems env level pos offset chunks)
      (offset + total List.length chunks) := by
  induction chunks generalizing pos offset with
  | nil => exact .nil _ _
  | cons chunk chunks ih =>
    obtain ⟨hchunk, hchunks⟩ := List.forall_mem_cons.mp hlen
    obtain ⟨hframe, hframes⟩ := List.forall_mem_cons.mp hframes
    obtain ⟨frame, hframe⟩ := Option.isSome_iff_exists.mp hframe
    have hcompressed : compressedFrame env level chunk = frame := by
      rw [compressedFrame, hframe]
      rfl
    have hnext := (frameItems_aligned offset chunk hin (hbound.compressedFrame hchunk)).2.1
    rw [chunkItems, hcompressed]
    rw [hcompressed] at hnext
    refine (frameItems_walk offset hframe hchunk hin).append ?_
    rw [total_cons, ← Nat.add_assoc]
    exact ih _ hchunks hframes hnext

/-- What reading an item writes to the file it belongs to. -/
def Item.writes (path : Path) : Item → List FileOp
  | frame offset chunk _ => [.pwrite path chunk offset]
  | _ => []

/-- A processor in the middle of a file, at an offset. -/
structure ReadsFile (p : PartProcessor) (f : FileContext) (offset : ℕ) : Prop where
  state : p.state = .processingFrames
  currentFile : p.currentFile = some f
  uncompressedOffset : f.uncompressedOffset = offset

/-- The processor after an item of the data of the file that is open. -/
def PartProcessor.afterData (p : PartProcessor) (f : FileContext) (offset n : ℕ)
    (ops : List FileOp) : PartProcessor :=
  { p with
    currentFile := some { f with uncompressedOffset := offset }
    bytesProcessed := p.bytesProcessed + n
    ops := ops }

section
variable {env : WriterEnv} {level : ℤ} {penv : ProcessorEnv}
  (hz : FramesDecode env level penv.zstd)
include hz

theorem step_frame {p q : PartProcessor} {f : FileContext} {offset : ℕ} (hp : ReadsFile p f offset)
    {chunk frame : List UInt8} (hframe : env.compressChunk level chunk = some frame)
    (hlen : chunk.length ≤ zstdChunkSize) (hlt : offset + chunk.length < 2 ^ 64)
    {rest rest' : List UInt8} (h : step penv p (frame ++ rest) = .next q rest') :
    rest' = rest ∧ ∃ ops, q = p.afterData f (offset + chunk.length) frame.length ops ∧
      Performs penv.os penv.zstd p.ops ops [.pwrite f.filename chunk offset] := by
  rw [step, hp.state] at h
  simp only [stepProcessingFrames, parseNextFrame_frame hz hframe hlen rest] at h
  rw [if_neg (by rw [List.length_append]; omega), List.take_left' rfl, List.drop_left' rfl] at h
  obtain ⟨t, ht, hnext⟩ := LoopStep.after_next h
  obtain ⟨rfl, rfl⟩ := Incremental.Step.next.inj hnext
  refine ⟨rfl, ?_⟩
  simp only [handleZstdFrame, hp.currentFile] at ht
  split_ifs at ht
  · cases ht
  · cases hwrite : doWriteEncoded penv.os penv.zstd p.ops f.filename frame chunk.length
      f.uncompressedOffset with
    | mk error ops =>
      rw [hwrite] at ht
      cases error with
      | some e => cases ht
      | none =>
        obtain ⟨-, rfl⟩ := Prod.mk.inj ht
        rw [hp.uncompressedOffset] at hwrite
        refine ⟨ops, ?_, doWriteEncoded_performs (hz.decompress hframe hlen) hwrite⟩
        rw [hp.uncompressedOffset, Nat.mod_eq_of_lt hlt]
        simp only [PartProcessor.setUncompressedOffset, PartProcessor.consume,
          PartProcessor.afterData, Option.map_some]

end

theorem step_padding {penv : ProcessorEnv} {p : PartProcessor} (hp : p.state = .processingFrames)
    {n : ℕ} (hn : 8 + n < 2 ^ 32) (rest : List UInt8) :
    step penv p (paddingFrameBytes n ++ rest) = .next (p.consume (8 + n)) rest := by
  rw [step, hp]
  simp only [stepProcessingFrames, parseNextFrame_padding penv.zstd hn rest]
  rw [List.drop_left' (paddingFrameBytes_length n)]

theorem step_startOfPart {penv : ProcessorEnv} {p : PartProcessor} {f : FileContext} {offset : ℕ}
    (hp : ReadsFile p f offset) (o : ℕ) (rest : List UInt8) :
    step penv p (startOfPartBytes o ++ rest) =
      if (penv.partStartOffset + p.bytesProcessed) % 2 ^ 64 % burstPartSize ≠ 0 then
        .stop .invalidFrame (p.fail .invalidFrame)
      else .next ((p.setUncompressedOffset (o % 2 ^ 64)).consume 24) rest := by
  rw [step, hp.state]
  simp only [stepProcessingFrames, parseNextFrame_startOfPart penv.zstd o rest,
    (startOfPart_reads o rest).2.2.2, handleStartOfPartFrame, hp.currentFile, LoopStep.after]
  rw [List.drop_left' (startOfPartBytes_length o)]

/-- A step over an item of a file's data leaves everything but the offset, the position and the
system calls as it is. -/
theorem step_data {env : WriterEnv} {level : ℤ} {penv : ProcessorEnv}
    (hz : FramesDecode env level penv.zstd) {pos offset offset' : ℕ} {i : Item}
    (hstep : DataStep env level pos offset i offset') (hlt : offset' < 2 ^ 64)
    {p q : PartProcessor} {f : FileContext} (hp : ReadsFile p f offset) {rest rest' : List UInt8}
    (h : step penv p (i.bytes ++ rest) = .next q rest') :
    rest' = rest ∧ ∃ ops, q = p.afterData f offset' i.len ops ∧
      Performs penv.os penv.zstd p.ops ops (i.writes f.filename) := by
  cases hstep with
  | frame hframe hlen => exact step_frame hz hp hframe hlen hlt h
  | padding hn =>
    have hsmall : burstPartSize < 2 ^ 32 := by norm_num [burstPartSize]
    rw [Item.bytes, step_padding hp.state (by omega)] at h
    obtain ⟨rfl, rfl⟩ := Incremental.Step.next.inj h
    refine ⟨rfl, p.ops, ?_, .refl _ _ _⟩
    have hsame : { f with uncompressedOffset := offset } = f := by rw [← hp.uncompressedOffset]
    rw [Item.len_padding, PartProcessor.afterData, hsame, PartProcessor.consume, ← hp.currentFile]
  | startOfPart =>
    rw [Item.bytes, step_startOfPart hp] at h
    split_ifs at h
    obtain ⟨rfl, rfl⟩ := Incremental.Step.next.inj h
    refine ⟨rfl, p.ops, ?_, .refl _ _ _⟩
    rw [Nat.mod_eq_of_lt hlt]
    simp only [PartProcessor.setUncompressedOffset, PartProcessor.consume, Item.len_startOfPart,
      PartProcessor.afterData, hp.currentFile, Option.map_some]

theorem DataStep.len_pos {env : WriterEnv} {level : ℤ} {zstd : ZstdLib}
    (hz : FramesDecode env level zstd) {pos offset offset' : ℕ} {i : Item}
    (h : DataStep env level pos offset i offset') : 0 < i.len := by
  cases h with
  | frame hframe =>
    have := hz.length_ge hframe
    rw [Item.len_frame]
    omega
  | padding =>
    rw [Item.len_padding]
    omega
  | startOfPart =>
    rw [Item.len_startOfPart]
    omega

theorem DataStep.offset_le {env : WriterEnv} {level : ℤ} {pos offset offset' : ℕ} {i : Item}
    (h : DataStep env level pos offset i offset') : offset ≤ offset' := by
  cases h with
  | frame => omega
  | padding => exact le_rfl
  | startOfPart => exact le_rfl

theorem DataWalk.offset_le {env : WriterEnv} {level : ℤ} {pos offset offset' : ℕ} {is : List Item}
    (h : DataWalk env level pos offset is offset') : offset ≤ offset' := by
  rw [h.offset]
  omega

theorem Item.bytes_ne_nil {i : Item} (h : 0 < i.len) (rest : List UInt8) : i.bytes ++ rest ≠ [] := by
  intro hnil
  have hlen := congrArg List.length hnil
  rw [List.length_append, List.length_nil] at hlen
  rw [Item.len] at h
  omega

/-- Where a loop is after a stretch of a file's data, and what it has written. -/
structure PassedData (os : Os) (zstd : ZstdLib) (p q : PartProcessor) (path : Path) (offset : ℕ)
    (is : List Item) : Prop where
  reads : ∃ f, f.filename = path ∧ ReadsFile q f offset
  bytesProcessed : q.bytesProcessed = p.bytesProcessed + total Item.len is
  ops : Performs os zstd p.ops q.ops (is.flatMap (Item.writes path))

/-- A loop over a stretch of a file's data that gets to its end has the offset there. -/
theorem visits_data {env : WriterEnv} {level : ℤ} {penv : ProcessorEnv}
    (hz : FramesDecode env level penv.zstd) {pos offset offset' : ℕ} {is : List Item}
    (hwalk : DataWalk env level pos offset is offset') (hlt : offset' < 2 ^ 64)
    {p t : PartProcessor} {f : FileContext} (hp : ReadsFile p f offset) {rest rest' : List UInt8}
    (h : Visits (step penv) p (itemBytes is ++ rest) t rest') (hle : rest'.length ≤ rest.length) :
    ∃ q, PassedData penv.os penv.zstd p q f.filename offset' is ∧
      Visits (step penv) q rest t rest' := by
  induction hwalk generalizing p f with
  | nil => exact ⟨p, ⟨⟨f, rfl, hp⟩, rfl, .refl _ _ _⟩, h⟩
  | @cons pos offset next offset' i is hstep htail ih =>
    have hpos := hstep.len_pos hz
    rw [itemBytes_cons, List.append_assoc] at h
    cases h with
    | here =>
      rw [List.length_append, List.length_append] at hle
      rw [Item.len] at hpos
      omega
    | later _ hnext hvisit =>
      have hle' := DataWalk.offset_le htail
      obtain ⟨rfl, ops, rfl, hops⟩ := step_data hz hstep (by omega) hp hnext
      have hnext' : ReadsFile (p.afterData f next i.len ops)
          { f with uncompressedOffset := next } next := ⟨hp.state, rfl, rfl⟩
      obtain ⟨q, hq, hrest⟩ := ih hlt hnext' hvisit
      refine ⟨q, ⟨hq.reads, ?_, ?_⟩, hrest⟩
      · rw [hq.bytesProcessed, total_cons, PartProcessor.afterData, Nat.add_assoc]
      · rw [List.flatMap_cons]
        exact hops.trans hq.ops

theorem visits_measure {penv : ProcessorEnv} {p t : PartProcessor} {bs rest : List UInt8}
    (h : Visits (step penv) p bs t rest) : loopMeasure t rest ≤ loopMeasure p bs := by
  induction h with
  | here => exact le_rfl
  | later hbs hstep _ ih =>
    rcases step_measure hbs hstep with ⟨rfl, rfl⟩ | hlt
    · exact ih
    · exact ih.trans hlt.le

theorem fileData_walk {env : WriterEnv} {level : ℤ} (hbound : FramesBounded env level) {pos : ℕ}
    {input : InputFile} (hframes : ∀ chunk ∈ input.chunks, (env.compressChunk level chunk).isSome)
    (hin : Inside pos) : DataWalk env level pos 0
      (chunkItems env level pos 0 input.chunks ++ fileEnding env level pos input)
      (fileSize input) := by
  have hlen : ∀ chunk ∈ input.chunks, chunk.length ≤ zstdChunkSize :=
    fun c hc ↦ (input.chunks_length c hc).2
  have hdata := chunkItems_walk hbound 0 hlen hframes hin
  have hinside := (chunkItems_aligned hbound 0 _ hlen hin).2.1
  rw [Nat.zero_add] at hdata
  refine hdata.append ?_
  simp only [fileEnding, endingItems]
  split
  · exact paddingToBoundary_walk _ hinside
  · exact .nil _ _

/-- The data of a file that is added, from the end of its header on. -/
theorem Accepted.fileData_walk {env : WriterEnv} {level : ℤ} (hbound : FramesBounded env level)
    {pos : ℕ} {input : InputFile} {lfh : LocalFileHeader} {unixMode uid gid : ℕ}
    (h : Accepted env level pos (.file input lfh unixMode uid gid))
    (hho : isHeaderOnly lfh = false) (hfit : lfh.len + 68 ≤ 65579) :
    let l := layoutCall env level pos (.file input lfh unixMode uid gid)
    DataWalk env level (l.dataPos pos) 0 (l.data ++ l.ending) (fileSize input) := by
  obtain ⟨hgap, hfile⟩ := h
  obtain ⟨-, -, hframes, -⟩ := hfile hho
  have hroom : 44 ≤ spaceUntilBoundary pos := by
    by_contra hlt
    have := hgap (by rw [headerSpaceNeeded, paddingLfhMinSize]; omega)
    omega
  obtain ⟨-, hspace⟩ := gapItems_aligned env lfh.len 0 true hroom (by simpa using hfit)
  rw [headerSpaceNeeded, paddingLfhMinSize, if_pos rfl] at hspace
  have hle := spaceUntilBoundary_le (pos + total Item.len (gapItems env pos lfh.len 0 true))
  have hin : Inside (pos + total Item.len (gapItems env pos lfh.len 0 true) + lfh.len) := by
    have hlen : 30 ≤ lfh.len := by
      rw [LocalFileHeader.len]
      omega
    rw [Inside, spaceUntilBoundary_add (by omega)]
    omega
  simp only [layoutCall, hho, Bool.false_eq_true, if_false, EntryLayout.dataPos,
    EntryLayout.headerPos]
  exact Burst.fileData_walk hbound hframes hin

theorem DataWalk.split {env : WriterEnv} {level : ℤ} {pos offset offset' : ℕ} {is js : List Item}
    (h : DataWalk env level pos offset (is ++ js) offset') :
    DataWalk env level pos offset is (offset + total List.length (dataChunks is)) ∧
      DataWalk env level (pos + total Item.len is) (offset + total List.length (dataChunks is)) js
        offset' := by
  obtain ⟨next, hleft, hright⟩ := Walk.split h
  obtain rfl := DataWalk.offset hleft
  exact ⟨hleft, hright⟩

/-- A Start-of-Part frame in a file's data carries what the frames before it hold. -/
theorem DataWalk.startOfPart {env : WriterEnv} {level : ℤ} {pos offset : ℕ}
    {before after : List Item} {o : ℕ}
    (h : DataWalk env level pos 0 (before ++ .startOfPart o :: after) offset) :
    o = total List.length (dataChunks before) ∧ burstPartSize ∣ pos + total Item.len before := by
  obtain ⟨-, hright⟩ := DataWalk.split h
  rw [Nat.zero_add] at hright
  cases hright with
  | cons hstep _ =>
    cases hstep with
    | startOfPart hpos => exact ⟨rfl, hpos⟩

theorem DataWalk.frame {env : WriterEnv} {level : ℤ} {pos offset : ℕ}
    {before after : List Item} {o : ℕ} {chunk bytes : List UInt8}
    (h : DataWalk env level pos 0 (before ++ .frame o chunk bytes :: after) offset) :
    o = total List.length (dataChunks before) := by
  obtain ⟨-, hright⟩ := DataWalk.split h
  rw [Nat.zero_add] at hright
  cases hright with
  | cons hstep _ =>
    cases hstep with
    | frame => rfl

end Burst
