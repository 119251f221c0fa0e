import Burst.Layout

namespace Burst

open Tiling

theorem checkAlignmentAndPad_emits {env : WriterEnv} {pos lfhLen contentSize : ℕ} {dd : Bool}
    (h : GapFits pos lfhLen contentSize dd) :
    Emits pos (checkAlignmentAndPad env lfhLen contentSize dd) ()
      (itemBytes (gapItems env pos lfhLen contentSize dd)) := by
  refine Emits.get fun w hw ↦ ?_
  simp only [hw, alignmentNextBoundary_sub, gapItems]
  split
  · next hlt => exact (writePaddingLfh_emits (h hlt)).congr (by simp [Item.bytes])
  · exact Emits.done ()

theorem checkAlignmentAndPad_ok {env : WriterEnv} {lfhLen contentSize : ℕ} {dd : Bool}
    {w w' : BurstWriter} (h : checkAlignmentAndPad env lfhLen contentSize dd w = (some (), w')) :
    GapFits w.position lfhLen contentSize dd := by
  intro hlt
  simp only [checkAlignmentAndPad, WriterM.bind_ok, WriterM.get_ok] at h
  obtain ⟨_, _, ⟨rfl, rfl⟩, h⟩ := h
  rw [alignmentNextBoundary_sub, if_pos hlt] at h
  exact writePaddingLfh_ok h

theorem addChunk_emits {env : WriterEnv} {level : ℤ} {pos : ℕ} {s : ChunkState}
    {chunk : List UInt8} (hframe : (env.compressChunk level chunk).isSome)
    (hw : ∀ i ∈ frameItems pos s.totalUncompressed chunk (compressedFrame env level chunk),
      i.Writable) :
    Emits pos (addChunk env level s chunk)
      ⟨env.crc32 s.crc chunk, s.totalUncompressed + chunk.length⟩
      (itemBytes (frameItems pos s.totalUncompressed chunk (compressedFrame env level chunk))) := by
  obtain ⟨frame, hframe⟩ := Option.isSome_iff_exists.mp hframe
  have hget : compressedFrame env level chunk = frame := by rw [compressedFrame, hframe]; rfl
  rw [hget] at hw ⊢
  simp only [addChunk, hframe]
  refine Emits.get fun w hpos ↦ ?_
  simp only [hpos, Nat.add_sub_cancel]
  simp only [frameItems] at hw ⊢
  obtain ⟨ha, -⟩ | ⟨ha, -⟩ | ⟨ha, -⟩ :=
    alignmentDecide_cases pos frame.length (decide (chunk.length < zstdChunkSize))
  · simp only [ha, reduceCtorEq, if_false]
    exact ((Emits.done ()).andThen ((Emits.write _).andThen ((Emits.done ()).returning _))).congr
      (by simp [Item.bytes])
  · simp only [ha, if_true]
    exact ((Emits.done ()).andThen ((Emits.write _).andThen
      ((alignmentWriteStartOfPartFrame_emits _ _).returning _))).congr (by simp [Item.bytes])
  · simp only [ha, reduceCtorEq, if_false] at hw ⊢
    have hn := hw _ (List.mem_append_left _ (List.mem_append_left _ List.mem_cons_self))
    exact (((alignmentWritePaddingFrame_emits hn).andThen
      (alignmentWriteStartOfPartFrame_emits _ _)).andThen ((Emits.write _).andThen
        ((Emits.done ()).returning _))).congr (by simp [Item.bytes])

theorem addChunk_ok {env : WriterEnv} {level : ℤ} {s s' : ChunkState} {chunk : List UInt8}
    {w w' : BurstWriter} (h : addChunk env level s chunk w = (some s', w')) :
    (env.compressChunk level chunk).isSome ∧
      ∀ i ∈ frameItems w.position s.totalUncompressed chunk (compressedFrame env level chunk),
        i.Writable := by
  cases hframe : env.compressChunk level chunk with
  | none => simp [addChunk, hframe, WriterM.fail_ok] at h
  | some frame =>
    have hget : compressedFrame env level chunk = frame := by rw [compressedFrame, hframe]; rfl
    rw [hget]
    refine ⟨rfl, ?_⟩
    simp only [addChunk, hframe, WriterM.bind_ok, WriterM.get_ok] at h
    obtain ⟨_, _, ⟨rfl, rfl⟩, _, _, hpad, -⟩ := h
    simp only [frameItems]
    obtain ⟨ha, -⟩ | ⟨ha, -⟩ | ⟨ha, -⟩ :=
      alignmentDecide_cases w.position frame.length (decide (chunk.length < zstdChunkSize))
    · simp [ha, Item.Writable]
    · simp [ha, Item.Writable]
    · simp only [ha] at hpad
      obtain ⟨_, _, hpad, -⟩ := WriterM.bind_ok.mp hpad
      have hn := alignmentWritePaddingFrame_ok hpad
      simpa [ha, Item.Writable] using hn

theorem addChunks_emits {env : WriterEnv} {level : ℤ} {pos : ℕ} {s : ChunkState}
    {chunks : List (List UInt8)}
    (hframe : ∀ chunk ∈ chunks, (env.compressChunk level chunk).isSome)
    (hw : ∀ i ∈ chunkItems env level pos s.totalUncompressed chunks, i.Writable) :
    Emits pos (addChunks env level s chunks)
      ⟨chunks.foldl env.crc32 s.crc, s.totalUncompressed + total List.length chunks⟩
      (itemBytes (chunkItems env level pos s.totalUncompressed chunks)) := by
  induction chunks generalizing pos s with
  | nil => exact Emits.done _
  | cons chunk chunks ih =>
    simp only [chunkItems, List.mem_append] at hw
    have hfirst := addChunk_emits (s := s) (hframe chunk List.mem_cons_self)
      fun i hi ↦ hw i (.inl hi)
    have hrest := ih (s := ⟨env.crc32 s.crc chunk, s.totalUncompressed + chunk.length⟩)
      (fun c hc ↦ hframe c (List.mem_cons_of_mem _ hc)) fun i hi ↦ hw i (.inr hi)
    simp only [addChunks, List.foldl_cons, total_cons, chunkItems, itemBytes_append]
    rw [← Nat.add_assoc]
    exact hfirst.bind (by rw [itemBytes_length]; exact hrest)

theorem addChunks_ok {env : WriterEnv} {level : ℤ} {s s' : ChunkState}
    {chunks : List (List UInt8)} {w w' : BurstWriter}
    (h : addChunks env level s chunks w = (some s', w')) :
    (∀ chunk ∈ chunks, (env.compressChunk level chunk).isSome) ∧
      ∀ i ∈ chunkItems env level w.position s.totalUncompressed chunks, i.Writable := by
  induction chunks generalizing w s with
  | nil => simp [chunkItems]
  | cons chunk chunks ih =>
    obtain ⟨s₁, w₁, hchunk, hrest⟩ := WriterM.bind_ok.mp h
    obtain ⟨hframe, hw⟩ := addChunk_ok hchunk
    obtain ⟨rfl, happ⟩ := (addChunk_emits hframe hw).appended rfl hchunk
    obtain ⟨hframes, hws⟩ := ih hrest
    rw [happ.position, itemBytes_length] at hws
    refine ⟨List.forall_mem_cons.mpr ⟨hframe, hframes⟩, fun i hi ↦ ?_⟩
    rcases List.mem_append.mp hi with hi | hi
    · exact hw i hi
    · exact hws i hi

theorem padBeforeDescriptor_emits {pos descriptorSize totalUncompressed : ℕ}
    (hw : ∀ i ∈ endingItems pos descriptorSize totalUncompressed, i.Writable) :
    Emits pos (padBeforeDescriptor descriptorSize totalUncompressed) ()
      (itemBytes (endingItems pos descriptorSize totalUncompressed)) := by
  refine Emits.get fun w hpos ↦ ?_
  simp only [hpos, alignmentNextBoundary_sub, endingItems, paddingLfhMinSize,
    burstMinSkippableFrameSize] at hw ⊢
  split
  · next hlt =>
    rw [if_pos hlt] at hw
    have hn := hw _ List.mem_cons_self
    exact ((alignmentWritePaddingFrame_emits hn).andThen
      (alignmentWriteStartOfPartFrame_emits _ _)).congr (by simp [Item.bytes])
  · exact Emits.done ()

theorem padBeforeDescriptor_ok {descriptorSize totalUncompressed : ℕ} {w w' : BurstWriter}
    (h : padBeforeDescriptor descriptorSize totalUncompressed w = (some (), w')) :
    ∀ i ∈ endingItems w.position descriptorSize totalUncompressed, i.Writable := by
  simp only [padBeforeDescriptor, WriterM.bind_ok, WriterM.get_ok, alignmentNextBoundary_sub,
    paddingLfhMinSize, burstMinSkippableFrameSize] at h
  obtain ⟨_, _, ⟨rfl, rfl⟩, h⟩ := h
  unfold endingItems
  split
  · next hlt =>
    rw [if_pos hlt] at h
    obtain ⟨_, _, hpad, -⟩ := WriterM.bind_ok.mp h
    have hn := alignmentWritePaddingFrame_ok hpad
    simpa [Item.Writable] using hn
  · simp

/-- The effect of calls that succeed. -/
structure Added (w w' : BurstWriter) (items : List Item) (entries : List FileEntry) : Prop where
  archive : w'.archive = w.archive ++ itemBytes items
  position : w'.position = w.position + total Item.len items
  files : w'.files = w.files ++ entries
  compressionLevel : w'.compressionLevel = w.compressionLevel

theorem recordEntry_ok {entry : FileEntry} {w w' : BurstWriter}
    (h : recordEntry entry w = (some (), w')) : Added w w' [] [entry] := by
  rw [← WriterM.modify_ok.mp h]
  exact ⟨by simp [BurstWriter.archive], by simp [BurstWriter.position], rfl, rfl⟩

theorem recordEntry_completes (entry : FileEntry) {w : BurstWriter} (hw : Ready w) :
    ∃ w', recordEntry entry w = (some (), w') ∧ Ready w' := ⟨_, rfl, hw.unlimited, hw.room⟩

theorem Appended.added {w w₁ w' : BurstWriter} {items items' : List Item}
    {entries : List FileEntry} (h : Appended w w₁ (itemBytes items))
    (h' : Added w₁ w' items' entries) : Added w w' (items ++ items') entries where
  archive := by rw [h'.archive, h.archive, itemBytes_append, List.append_assoc]
  position := by rw [h'.position, h.position, itemBytes_length, total_append, Nat.add_assoc]
  files := by rw [h'.files, h.files]
  compressionLevel := h'.compressionLevel.trans h.compressionLevel

namespace Added

variable {w w₁ w₂ : BurstWriter} {items items' : List Item} {entries entries' : List FileEntry}

theorem refl (w : BurstWriter) : Added w w [] [] := ⟨by simp, by simp, by simp, rfl⟩

theorem trans (h : Added w w₁ items entries) (h' : Added w₁ w₂ items' entries') :
    Added w w₂ (items ++ items') (entries ++ entries') where
  archive := by rw [h'.archive, h.archive, itemBytes_append, List.append_assoc]
  position := by rw [h'.position, h.position, total_append, Nat.add_assoc]
  files := by rw [h'.files, h.files, List.append_assoc]
  compressionLevel := h'.compressionLevel.trans h.compressionLevel

end Added

theorem writeFileData_emits {env : WriterEnv} {level : ℤ} {pos : ℕ} {input : InputFile}
    (entry : FileEntry) (hstart : entry.compressedStartOffset = pos)
    (hread : input.readError = none)
    (hframe : ∀ chunk ∈ input.chunks, (env.compressChunk level chunk).isSome)
    (hw : ∀ i ∈ chunkItems env level pos 0 input.chunks ++ fileEnding env level pos input,
      i.Writable) :
    Emits pos (writeFileData env level input entry) (completedEntry env level pos input entry)
      (itemBytes (chunkItems env level pos 0 input.chunks ++ fileEnding env level pos input ++
        [fileDescriptor env level pos input])) := by
  have hchunks := addChunks_emits (s := ⟨0, 0⟩) hframe
    fun i hi ↦ hw i (List.mem_append_left _ hi)
  rw [itemBytes_append, itemBytes_append, List.append_assoc]
  refine hchunks.bind ?_
  simp only [hread, Option.isSome_none, Bool.false_eq_true, if_false, Nat.zero_add]
  refine Emits.get fun w hpos ↦ ?_
  have hsize : w.position - entry.compressedStartOffset =
      total Item.len (chunkItems env level pos 0 input.chunks) := by
    rw [hpos, hstart, itemBytes_length, Nat.add_sub_cancel_left]
  simp only [hsize]
  rw [itemBytes_length]
  exact ((padBeforeDescriptor_emits fun i hi ↦ hw i (List.mem_append_right _ hi)).andThen
    ((Emits.write _).returning _)).congr (by simp [fileEnding, fileDescriptor, Item.bytes, fileSize,
      fileCrc, usesZip64Descriptor])

theorem writeFileData_ok {env : WriterEnv} {level : ℤ} {input : InputFile} {entry entry' : FileEntry}
    {w w' : BurstWriter} (hstart : entry.compressedStartOffset = w.position)
    (h : writeFileData env level input entry w = (some entry', w')) :
    input.readError = none ∧ (∀ chunk ∈ input.chunks, (env.compressChunk level chunk).isSome) ∧
      ∀ i ∈ chunkItems env level w.position 0 input.chunks ++
        fileEnding env level w.position input, i.Writable := by
  obtain ⟨s, w₁, hchunks, h⟩ := WriterM.bind_ok.mp h
  obtain ⟨hframe, hw⟩ := addChunks_ok hchunks
  obtain ⟨rfl, happ⟩ := (addChunks_emits hframe hw).appended rfl hchunks
  split at h
  · exact (WriterM.fail_ok.mp h).elim
  · next hread =>
    obtain ⟨_, _, hget, h⟩ := WriterM.bind_ok.mp h
    obtain ⟨rfl, rfl⟩ := WriterM.get_ok.mp hget
    obtain ⟨_, _, hpad, -⟩ := WriterM.bind_ok.mp h
    have hending := padBeforeDescriptor_ok hpad
    have hsize : w₁.position - entry.compressedStartOffset =
        total Item.len (chunkItems env level w.position 0 input.chunks) := by
      rw [happ.position, hstart, itemBytes_length, Nat.add_sub_cancel_left]
    rw [hsize, happ.position, itemBytes_length, Nat.zero_add] at hending
    refine ⟨by simpa using hread, hframe, fun i hi ↦ ?_⟩
    rcases List.mem_append.mp hi with hi | hi
    · exact hw i hi
    · exact hending i hi

theorem startEntry_emits (env : WriterEnv) {pos : ℕ} {lfh : LocalFileHeader} {contentSize : ℕ}
    {dd : Bool} (unixMode uid gid : ℕ) (h : GapFits pos lfh.len contentSize dd) :
    let gap := gapItems env pos lfh.len contentSize dd
    Emits pos (startEntry env lfh contentSize dd unixMode uid gid)
      (populateEntryMetadata (allocateFileEntry lfh) lfh (pos + total Item.len gap) unixMode uid gid)
      (itemBytes (gap ++ [.localHeader lfh])) := by
  intro gap
  rw [itemBytes_append]
  refine (checkAlignmentAndPad_emits h).andThen (Emits.get fun w hpos ↦ ?_)
  rw [hpos, itemBytes_length]
  exact ((Emits.write _).returning _).congr (by simp [Item.bytes])

theorem startEntry_ok {env : WriterEnv} {lfh : LocalFileHeader} {contentSize : ℕ} {dd : Bool}
    {unixMode uid gid : ℕ} {entry : FileEntry} {w w' : BurstWriter}
    (h : startEntry env lfh contentSize dd unixMode uid gid w = (some entry, w')) :
    GapFits w.position lfh.len contentSize dd := by
  rw [startEntry, WriterM.bind_ok] at h
  obtain ⟨_, _, hgap, -⟩ := h
  exact checkAlignmentAndPad_ok hgap

theorem burstWriterAddFile_ok {env : WriterEnv} {input : InputFile} {lfh : LocalFileHeader}
    {unixMode uid gid : ℕ} {w w' : BurstWriter}
    (h : burstWriterAddFile env input lfh unixMode uid gid w = (some (), w')) :
    let call := AddCall.file input lfh unixMode uid gid
    Accepted env w.compressionLevel w.position call ∧
      Added w w' (layoutCall env w.compressionLevel w.position call).items
        [recordedEntry env w.compressionLevel w.position call] := by
  intro call
  rw [burstWriterAddFile] at h
  split at h
  · exact (WriterM.fail_ok.mp h).elim
  · next hseek =>
    obtain ⟨entry, w₁, hstart, h⟩ := WriterM.bind_ok.mp h
    obtain ⟨_, _, hget, h⟩ := WriterM.bind_ok.mp h
    obtain ⟨rfl, rfl⟩ := WriterM.get_ok.mp hget
    have hfits := startEntry_ok hstart
    obtain ⟨rfl, hhead⟩ := (startEntry_emits env unixMode uid gid hfits).appended rfl hstart
    have hpos : w₁.position = w.position +
        total Item.len (gapItems env w.position lfh.len 0 true) + lfh.len := by
      rw [hhead.position, itemBytes_length, total_append]
      simp [Nat.add_assoc]
    cases hho : isHeaderOnly lfh with
    | true =>
      simp only [hho, if_true] at h
      refine ⟨⟨hfits, by simp [hho]⟩, ?_⟩
      simpa [call, layoutCall, recordedEntry, hho, EntryLayout.items, EntryLayout.body,
        EntryLayout.headerPos, EntryLayout.dataPos, AddCall.lfh, hpos]
        using hhead.added (recordEntry_ok h)
    | false =>
      simp only [hho, Bool.false_eq_true, if_false, hhead.compressionLevel] at h
      obtain ⟨entry, w₂, hdata, hrec⟩ := WriterM.bind_ok.mp h
      obtain ⟨hread, hframe, hw⟩ := writeFileData_ok rfl hdata
      obtain ⟨rfl, hbody⟩ := (writeFileData_emits _ rfl hread hframe hw).appended rfl hdata
      rw [hpos] at hw
      refine ⟨⟨hfits, fun _ ↦ ⟨by simpa [hho] using hseek, hread, hframe, ?_⟩⟩, ?_⟩
      · simpa [call, layoutCall, hho] using hw
      · simpa [call, layoutCall, recordedEntry, hho, EntryLayout.items, EntryLayout.body,
          EntryLayout.headerPos, EntryLayout.dataPos, AddCall.lfh, hpos]
          using hhead.added (hbody.added (recordEntry_ok hrec))

theorem burstWriterAddSymlink_ok {env : WriterEnv} {lfh : LocalFileHeader} {target : List UInt8}
    {unixMode uid gid : ℕ} {w w' : BurstWriter}
    (h : burstWriterAddSymlink env lfh target unixMode uid gid w = (some (), w')) :
    let call := AddCall.symlink lfh target unixMode uid gid
    Accepted env w.compressionLevel w.position call ∧
      Added w w' (layoutCall env w.compressionLevel w.position call).items
        [recordedEntry env w.compressionLevel w.position call] := by
  intro call
  rw [burstWriterAddSymlink] at h
  split at h
  · exact (WriterM.fail_ok.mp h).elim
  · next htarget =>
    obtain ⟨entry, w₁, hstart, h⟩ := WriterM.bind_ok.mp h
    obtain ⟨_, w₂, hwrite, hrec⟩ := WriterM.bind_ok.mp h
    have hfits := startEntry_ok hstart
    obtain ⟨rfl, hhead⟩ := (startEntry_emits env unixMode uid gid hfits).appended rfl hstart
    have htgt : Appended w₁ w₂ (itemBytes [.target target]) := by
      simpa [Item.bytes] using burstWriterWrite_ok hwrite
    refine ⟨⟨by omega, hfits⟩, ?_⟩
    simpa [call, layoutCall, recordedEntry, EntryLayout.items, EntryLayout.body,
      EntryLayout.headerPos, AddCall.lfh] using hhead.added (htgt.added (recordEntry_ok hrec))

theorem burstWriterAddDirectory_ok {env : WriterEnv} {lfh : LocalFileHeader}
    {unixMode uid gid : ℕ} {w w' : BurstWriter}
    (h : burstWriterAddDirectory env lfh unixMode uid gid w = (some (), w')) :
    let call := AddCall.directory lfh unixMode uid gid
    Accepted env w.compressionLevel w.position call ∧
      Added w w' (layoutCall env w.compressionLevel w.position call).items
        [recordedEntry env w.compressionLevel w.position call] := by
  intro call
  rw [burstWriterAddDirectory] at h
  split at h
  · exact (WriterM.fail_ok.mp h).elim
  · next hname =>
    split at h
    · exact (WriterM.fail_ok.mp h).elim
    · next hsizes =>
      obtain ⟨entry, w₁, hstart, hrec⟩ := WriterM.bind_ok.mp h
      have hfits := startEntry_ok hstart
      obtain ⟨rfl, hhead⟩ := (startEntry_emits env unixMode uid gid hfits).appended rfl hstart
      push Not at hname hsizes
      refine ⟨⟨hname.1, hname.2, hsizes.1, hsizes.2.1, hsizes.2.2, hfits⟩, ?_⟩
      simpa [call, layoutCall, recordedEntry, EntryLayout.items, EntryLayout.body,
        EntryLayout.headerPos, AddCall.lfh] using hhead.added (recordEntry_ok hrec)

/-- A call that succeeds writes exactly its layout and records exactly its entry. -/
theorem AddCall.run_ok {env : WriterEnv} {call : AddCall} {w w' : BurstWriter}
    (h : call.run env w = (some (), w')) :
    Accepted env w.compressionLevel w.position call ∧
      Added w w' (layoutCall env w.compressionLevel w.position call).items
        [recordedEntry env w.compressionLevel w.position call] := by
  cases call with
  | file => exact burstWriterAddFile_ok h
  | symlink => exact burstWriterAddSymlink_ok h
  | directory => exact burstWriterAddDirectory_ok h

theorem burstWriterAddFile_completes {env : WriterEnv} {input : InputFile} {lfh : LocalFileHeader}
    {unixMode uid gid : ℕ} {w : BurstWriter} (hw : Ready w)
    (h : Accepted env w.compressionLevel w.position (.file input lfh unixMode uid gid)) :
    ∃ w', burstWriterAddFile env input lfh unixMode uid gid w = (some (), w') ∧ Ready w' := by
  obtain ⟨hfits, hdata⟩ := h
  have hseek : ¬ (isHeaderOnly lfh = false ∧ input.seekable = false) := by
    rintro ⟨hho, hseek⟩
    simp [(hdata hho).1] at hseek
  rw [burstWriterAddFile, if_neg hseek]
  have hstart := startEntry_emits env unixMode uid gid hfits
  obtain ⟨w₁, hok, hw₁⟩ := hstart.completes rfl hw
  have hhead := (hstart.appended rfl hok).2
  have hpos : w₁.position = w.position +
      total Item.len (gapItems env w.position lfh.len 0 true) + lfh.len := by
    rw [hhead.position, itemBytes_length, total_append]
    simp [Nat.add_assoc]
  set entry := populateEntryMetadata (allocateFileEntry lfh) lfh
    (w.position + total Item.len (gapItems env w.position lfh.len 0 true)) unixMode uid gid
  set started := { entry with compressedStartOffset := w₁.position } with hstarted
  suffices hrest : ∃ w', (if isHeaderOnly lfh then recordEntry started else do
      let entry ← writeFileData env w₁.compressionLevel input started
      recordEntry entry) w₁ = (some (), w') ∧ Ready w' by
    obtain ⟨w', hrest, hw'⟩ := hrest
    exact ⟨w', WriterM.bind_ok.mpr ⟨_, w₁, hok, WriterM.bind_ok.mpr
      ⟨w₁, w₁, WriterM.get_ok.mpr ⟨rfl, rfl⟩, hrest⟩⟩, hw'⟩
  cases hho : isHeaderOnly lfh with
  | true =>
    rw [if_pos rfl]
    exact recordEntry_completes _ hw₁
  | false =>
    obtain ⟨-, hread, hframe, hwritable⟩ := hdata hho
    simp only [layoutCall, hho, Bool.false_eq_true, if_false, ← hpos,
      ← hhead.compressionLevel] at hwritable hframe
    have hbody := writeFileData_emits started rfl hread hframe hwritable
    obtain ⟨w₂, hok₂, hw₂⟩ := hbody.completes rfl hw₁
    obtain ⟨w₃, hok₃, hw₃⟩ := recordEntry_completes
      (completedEntry env w₁.compressionLevel w₁.position input started) hw₂
    rw [if_neg (by simp)]
    exact ⟨w₃, WriterM.bind_ok.mpr ⟨_, w₂, hok₂, hok₃⟩, hw₃⟩

theorem AddCall.run_completes {env : WriterEnv} {call : AddCall} {w : BurstWriter} (hw : Ready w)
    (h : Accepted env w.compressionLevel w.position call) :
    ∃ w', call.run env w = (some (), w') ∧ Ready w' := by
  cases call with
  | file input lfh unixMode uid gid => exact burstWriterAddFile_completes hw h
  | symlink lfh target unixMode uid gid =>
    obtain ⟨htarget, hfits⟩ := h
    obtain ⟨w₁, hok₁, hw₁⟩ := (startEntry_emits env unixMode uid gid hfits).completes rfl hw
    obtain ⟨w₂, hok₂, hw₂⟩ := (Emits.write target).completes rfl hw₁
    obtain ⟨w₃, hok₃, hw₃⟩ := recordEntry_completes _ hw₂
    refine ⟨w₃, ?_, hw₃⟩
    rw [AddCall.run, burstWriterAddSymlink, if_neg (by omega)]
    exact WriterM.bind_ok.mpr ⟨_, w₁, hok₁, WriterM.bind_ok.mpr ⟨_, w₂, hok₂, hok₃⟩⟩
  | directory lfh unixMode uid gid =>
    obtain ⟨hlen, hslash, hmethod, hcompressed, huncompressed, hfits⟩ := h
    obtain ⟨w₁, hok₁, hw₁⟩ := (startEntry_emits env unixMode uid gid hfits).completes rfl hw
    obtain ⟨w₂, hok₂, hw₂⟩ := recordEntry_completes _ hw₁
    refine ⟨w₂, ?_, hw₂⟩
    rw [AddCall.run, burstWriterAddDirectory, if_neg (by simp [hlen, hslash]),
      if_neg (by simp [hmethod, hcompressed, huncompressed])]
    exact WriterM.bind_ok.mpr ⟨_, w₁, hok₁, hok₂⟩

/-- Each call is accepted where the ones before it leave off. -/
def AllAccepted (env : WriterEnv) (level : ℤ) : ℕ → List AddCall → Prop
  | _, [] => True
  | pos, call :: calls => Accepted env level pos call ∧
      AllAccepted env level (pos + total Item.len (layoutCall env level pos call).items) calls

/-- Calls that all succeed write their layouts one after another. -/
theorem addAll_ok {env : WriterEnv} {calls : List AddCall} {w w' : BurstWriter}
    (h : addAll env calls w = (some (), w')) :
    AllAccepted env w.compressionLevel w.position calls ∧
      Added w w' (bodyItems (layoutAll env w.compressionLevel w.position calls))
        (recordedAll env w.compressionLevel w.position calls) := by
  induction calls generalizing w with
  | nil =>
    obtain ⟨-, rfl⟩ := WriterM.pure_ok.mp h
    exact ⟨trivial, .refl w⟩
  | cons call calls ih =>
    rw [addAll, WriterM.bind_ok] at h
    obtain ⟨_, w₁, hcall, hrest⟩ := h
    obtain ⟨hacc, hadd⟩ := AddCall.run_ok hcall
    obtain ⟨haccs, hadds⟩ := ih hrest
    rw [hadd.position, hadd.compressionLevel] at haccs hadds
    exact ⟨⟨hacc, haccs⟩, hadd.trans hadds⟩

theorem addAll_completes {env : WriterEnv} {calls : List AddCall} {w : BurstWriter} (hw : Ready w)
    (h : AllAccepted env w.compressionLevel w.position calls) :
    ∃ w', addAll env calls w = (some (), w') ∧ Ready w' := by
  induction calls generalizing w with
  | nil => exact ⟨w, rfl, hw⟩
  | cons call calls ih =>
    obtain ⟨hacc, haccs⟩ := h
    obtain ⟨w₁, hok, hw₁⟩ := AddCall.run_completes hw hacc
    have hadd := (AddCall.run_ok hok).2
    rw [← hadd.position, ← hadd.compressionLevel] at haccs
    obtain ⟨w₂, hok₂, hw₂⟩ := ih hw₁ haccs
    exact ⟨w₂, WriterM.bind_ok.mpr ⟨(), w₁, hok, hok₂⟩, hw₂⟩

end Burst
