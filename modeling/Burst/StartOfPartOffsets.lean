import Burst.BoundaryDetection
import Burst.FileDataRun

namespace Burst

open Tiling LittleEndian Incremental

/-- A processor that has got into a file after some of its items: past the file's header, or past
the Start-of-Part frame that its part begins with. -/
inductive Enters (penv : ProcessorEnv) (lfh : LocalFileHeader) : List Item → PartProcessor → Prop
  | header {p q : PartProcessor} {rest : List UInt8} (hstate : p.state = .expectLocalHeader)
    (hstep : step penv p (lfh.bytes ++ rest) = .next q rest) (hframes : q.state = .processingFrames) :
    Enters penv lfh [] q
  | startOfPart {before : List Item} {offset : ℕ} {ops : List FileOp} {p q : PartProcessor}
    {rest bs : List UInt8}
    (hinit : step penv (partProcessorCreate ops).toPartProcessor (startOfPartBytes offset ++ rest) =
      .next p bs)
    (hstep : step penv p bs = .next q rest) :
    Enters penv lfh (before ++ [.startOfPart offset]) q

theorem openOutputFile_currentFile {env : ProcessorEnv} {p q : PartProcessor}
    {fileMeta : FileMetadata} (h : openOutputFile env p fileMeta = (none, q)) :
    ∃ f, q.currentFile = some f := by
  rw [openOutputFile, openOutputPath] at h
  split at h
  · cases h
  split_ifs at h
  · rw [makeDirectory] at h
    split at h
    · obtain ⟨-, rfl⟩ := Prod.mk.inj h
      exact ⟨_, rfl⟩
    · obtain ⟨-, rfl⟩ := Prod.mk.inj h
      exact ⟨_, rfl⟩
    · cases h
  · rw [allocateSymlinkBuffer] at h
    split_ifs at h
    · cases h
    · obtain ⟨-, rfl⟩ := Prod.mk.inj h
      exact ⟨_, rfl⟩
  · rw [openRegularFile] at h
    split at h
    · obtain ⟨-, rfl⟩ := Prod.mk.inj h
      exact ⟨_, rfl⟩
    · cases h

/-- A header that is accepted leaves a file open at its start. -/
theorem stepExpectLocalHeader_readsFile {penv : ProcessorEnv} {lfh : LocalFileHeader}
    (hw : lfh.WellFormed) {p q : PartProcessor} {rest : List UInt8}
    (hstate : p.state = .expectLocalHeader) (hstep : step penv p (lfh.bytes ++ rest) = .next q rest)
    (hframes : q.state = .processingFrames) : ∃ f, ReadsFile q f 0 := by
  rw [step, hstate] at hstep
  simp only [stepExpectLocalHeader, parseNextFrame_localHeader hw penv.zstd rest] at hstep
  split_ifs at hstep
  · obtain ⟨rfl, -⟩ := Incremental.Step.next.inj hstep
    cases hframes
  rw [stepLocalHeader] at hstep
  cases hheader : handleLocalHeader penv p (lfh.bytes ++ rest) with
  | needMoreData =>
    rw [hheader] at hstep
    cases hstep
  | error e q' =>
    rw [hheader] at hstep
    cases hstep
  | skippedPadding n =>
    rw [hheader] at hstep
    obtain ⟨rfl, -⟩ := Incremental.Step.next.inj hstep
    rw [PartProcessor.consume, hstate] at hframes
    cases hframes
  | success n q' =>
    rw [hheader] at hstep
    obtain ⟨rfl, -⟩ := Incremental.Step.next.inj hstep
    rw [handleLocalHeader] at hheader
    split_ifs at hheader
    split at hheader
    · cases hheader
    split at hheader
    · cases hheader
    · next hopen =>
      obtain ⟨-, rfl⟩ := LocalHeaderResult.success.inj hheader
      obtain ⟨f, hf⟩ := openOutputFile_currentFile hopen
      refine ⟨{ f with uncompressedOffset := 0 }, hframes, ?_, rfl⟩
      simp only [PartProcessor.setUncompressedOffset, PartProcessor.enter, PartProcessor.consume, hf,
        Option.map_some]

theorem handleStartOfPartFrame_opens {penv : ProcessorEnv} {p q : PartProcessor} {offset : ℕ}
    (h : handleStartOfPartFrame penv p offset = (none, q)) :
    ∃ f, q.currentFile = some f ∧ f.uncompressedOffset = offset := by
  rw [handleStartOfPartFrame] at h
  split at h
  · next f hf =>
    obtain ⟨-, rfl⟩ := Prod.mk.inj h
    exact ⟨_, by rw [PartProcessor.setUncompressedOffset, hf, Option.map_some], rfl⟩
  · split at h
    · cases h
    · split at h
      · cases h
      · next hopen =>
        obtain ⟨-, rfl⟩ := Prod.mk.inj h
        obtain ⟨f, hf⟩ := openOutputFile_currentFile hopen
        exact ⟨_, by rw [PartProcessor.setUncompressedOffset, hf, Option.map_some], rfl⟩

/-- A part that begins with a Start-of-Part frame begins writing where the frame says. -/
theorem createdProcessor_readsFile {penv : ProcessorEnv} {ops : List FileOp} {offset : ℕ}
    {p q : PartProcessor} {rest bs : List UInt8}
    (hinit : step penv (partProcessorCreate ops).toPartProcessor (startOfPartBytes offset ++ rest) =
      .next p bs) (hstep : step penv p bs = .next q rest) :
    ∃ f, ReadsFile q f (offset % 2 ^ 64) := by
  change stepInit penv _ _ = _ at hinit
  rw [stepInit] at hinit
  split_ifs at hinit
  · obtain ⟨rfl, rfl⟩ := Incremental.Step.next.inj hinit
    rw [step, PartProcessor.enter] at hstep
    simp only [stepContinuingFile, parseNextFrame_startOfPart penv.zstd offset rest,
      (startOfPart_reads offset rest).2.2.2, ne_eq, not_true_eq_false, if_false] at hstep
    obtain ⟨p, hopen, hnext⟩ := LoopStep.after_next hstep
    obtain ⟨rfl, -⟩ := Incremental.Step.next.inj hnext
    obtain ⟨f, hf, hoffset⟩ := handleStartOfPartFrame_opens hopen
    exact ⟨f, rfl, hf, hoffset⟩
  · -- with no file to go on with, the frame is either left alone or an error
    obtain ⟨rfl, rfl⟩ := Incremental.Step.next.inj hinit
    rw [step, PartProcessor.enter] at hstep
    simp only [stepExpectLocalHeader, parseNextFrame_startOfPart penv.zstd offset rest] at hstep
    split_ifs at hstep
    obtain ⟨-, hrest⟩ := Incremental.Step.next.inj hstep
    have hlen := congrArg List.length hrest
    rw [List.length_append, startOfPartBytes_length] at hlen
    omega

theorem Enters.readsFile {penv : ProcessorEnv} {lfh : LocalFileHeader} (hw : lfh.WellFormed)
    {env : WriterEnv} {level : ℤ} {pos offset : ℕ} {first rest : List Item} {p : PartProcessor}
    (hwalk : DataWalk env level pos 0 (first ++ rest) offset) (hlt : offset < 2 ^ 64)
    (h : Enters penv lfh first p) : ∃ f, ReadsFile p f (total List.length (dataChunks first)) := by
  cases h with
  | header hstate hstep hframes => exact stepExpectLocalHeader_readsFile hw hstate hstep hframes
  | @startOfPart before o ops p q bs _ hinit hstep =>
    have hchunks : dataChunks (before ++ [.startOfPart o]) = dataChunks before := by
      rw [dataChunks, List.filterMap_append]
      exact List.append_nil _
    obtain ⟨hleft, hright⟩ := DataWalk.split hwalk
    have hle := DataWalk.offset_le hright
    have ho := (DataWalk.startOfPart hleft).1
    rw [Nat.zero_add, hchunks] at hle
    obtain ⟨f, hf⟩ := createdProcessor_readsFile hinit hstep
    rw [Nat.mod_eq_of_lt (by omega), ho, ← hchunks] at hf
    exact ⟨f, hf⟩

/-- On a multiple of 8 MiB a Start-of-Part frame that carries the offset of the file that is open
is passed over. -/
theorem step_startOfPart_inside {penv : ProcessorEnv} {p : PartProcessor} {f : FileContext}
    {offset : ℕ} (hp : ReadsFile p f offset) (hlt : offset < 2 ^ 64)
    (hpos : burstPartSize ∣ penv.partIndex * penv.partSize + p.bytesProcessed) (rest : List UInt8) :
    step penv p (startOfPartBytes offset ++ rest) = .next (p.consume 24) rest := by
  have hunit : burstPartSize ∣ 2 ^ 64 := by norm_num [burstPartSize]
  have hsame : p.setUncompressedOffset (offset % 2 ^ 64) = p := by
    rw [Nat.mod_eq_of_lt hlt, PartProcessor.setUncompressedOffset, hp.currentFile, Option.map_some,
      ← hp.uncompressedOffset, ← hp.currentFile]
  rw [step_startOfPart hp, if_neg, hsame]
  rw [not_not, ProcessorEnv.partStartOffset, Nat.mod_add_mod, Nat.mod_mod_of_dvd _ hunit]
  exact Nat.mod_eq_zero_of_dvd hpos

/-- Getting to a Start-of-Part frame from further up in its file. -/
theorem Enters.reaches {penv : ProcessorEnv} {lfh : LocalFileHeader} (hw : lfh.WellFormed)
    {env : WriterEnv} {level : ℤ} (hz : FramesDecode env level penv.zstd) {pos offset o : ℕ}
    {first second after : List Item} {p t : PartProcessor} {rest : List UInt8}
    (hwalk : DataWalk env level pos 0 (first ++ second ++ .startOfPart o :: after) offset)
    (hlt : offset < 2 ^ 64) (h : Enters penv lfh first p)
    (hpos : penv.partIndex * penv.partSize + p.bytesProcessed = pos + total Item.len first)
    (hvisit : Visits (step penv) p (itemBytes second ++ (startOfPartBytes o ++ rest)) t
      (startOfPartBytes o ++ rest)) :
    (∃ f, ReadsFile t f o ∧
        Performs penv.os penv.zstd p.ops t.ops (second.flatMap (Item.writes f.filename))) ∧
      step penv t (startOfPartBytes o ++ rest) = .next (t.consume 24) rest := by
  obtain ⟨ho, hboundary⟩ := DataWalk.startOfPart hwalk
  obtain ⟨hleft, hright⟩ := DataWalk.split hwalk
  have hle := DataWalk.offset_le hright
  rw [Nat.zero_add, ← ho] at hle hleft
  obtain ⟨f, hf⟩ := h.readsFile hw (List.append_assoc first second _ ▸ hwalk) hlt
  have hsecond := (DataWalk.split hleft).2
  rw [Nat.zero_add] at hsecond
  obtain ⟨q, ⟨⟨g, hname, hg⟩, hbytes, hops⟩, hrest⟩ :=
    visits_data hz hsecond (by omega) hf hvisit le_rfl
  have hnext : step penv q (startOfPartBytes o ++ rest) = .next (q.consume 24) rest := by
    refine step_startOfPart_inside hg (by omega) ?_ rest
    rw [total_append] at hboundary
    rw [hbytes]
    have heq : penv.partIndex * penv.partSize + (p.bytesProcessed + total Item.len second) =
        pos + (total Item.len first + total Item.len second) := by omega
    rwa [heq]
  -- the frame is longer than what a loop can have before it once it is passed over
  cases hrest with
  | here =>
    rw [← hname] at hops
    exact ⟨⟨g, hg, hops⟩, hnext⟩
  | later _ hstep hlater =>
    rw [hnext] at hstep
    obtain ⟨-, rfl⟩ := Incremental.Step.next.inj hstep
    have hmeasure := visits_measure hlater
    have hrank : (q.consume 24).state.rank ≤ 3 := by cases (q.consume 24).state <;> decide
    obtain ⟨rfl, -⟩ := Incremental.Step.next.inj hstep
    rw [loopMeasure, loopMeasure, List.length_append, startOfPartBytes_length] at hmeasure
    omega

/-- A frame or a Start-of-Part frame after a file's header lies before the file's descriptor. -/
theorem layoutCall_body_split {env : WriterEnv} {level : ℤ} {pos : ℕ} {input : InputFile}
    {lfh : LocalFileHeader} {unixMode uid gid : ℕ} {before after : List Item} {i : Item}
    (hbody : (layoutCall env level pos (.file input lfh unixMode uid gid)).body =
      before ++ i :: after) (hdata : i.IsFileData) :
    isHeaderOnly lfh = false ∧ ∃ after',
      (layoutCall env level pos (.file input lfh unixMode uid gid)).data ++
        (layoutCall env level pos (.file input lfh unixMode uid gid)).ending =
          before ++ i :: after' := by
  cases hho : isHeaderOnly lfh with
  | true =>
    simp [layoutCall, hho, EntryLayout.body] at hbody
  | false =>
    refine ⟨rfl, ?_⟩
    simp only [layoutCall, hho, Bool.false_eq_true, if_false, EntryLayout.body] at hbody ⊢
    rcases after.eq_nil_or_concat with rfl | ⟨after', j, rfl⟩
    · obtain ⟨-, hlast⟩ := List.append_inj' hbody rfl
      obtain rfl := List.singleton_inj.mp hlast
      exact hdata.elim
    · rw [List.concat_eq_append, ← List.cons_append, ← List.append_assoc] at hbody
      exact ⟨after', (List.append_inj' hbody rfl).1⟩

/-- A file that is added at any position: every frame of it is at the sum of the sizes before it in
the file, and so is what every Start-of-Part frame inside it carries. A part that begins with such
a frame begins writing there; a processor that gets to it from the file's header or from an earlier
one is at that offset already and passes it over. -/
theorem burstWriterAddFile_startOfPart {env : WriterEnv} {input : InputFile}
    {lfh : LocalFileHeader} {unixMode uid gid : ℕ} {w w' : BurstWriter}
    (hbound : FramesBounded env w.compressionLevel) (hw : lfh.WellFormed)
    (hfit : lfh.len + 68 ≤ 65579) (hsize : fileSize input < 2 ^ 64)
    (h : burstWriterAddFile env input lfh unixMode uid gid w = (some (), w')) :
    let l := layoutCall env w.compressionLevel w.position (.file input lfh unixMode uid gid)
    w'.archive = w.archive ++ itemBytes l.items ∧
      (∀ before offset chunk bytes after, l.body = before ++ .frame offset chunk bytes :: after →
        offset = total List.length (dataChunks before)) ∧
      ∀ before offset after, l.body = before ++ .startOfPart offset :: after →
        offset = total List.length (dataChunks before) ∧
        ∀ penv, FramesDecode env w.compressionLevel penv.zstd →
          (∀ p, Enters penv lfh (before ++ [.startOfPart offset]) p → ∃ f, ReadsFile p f offset) ∧
          ∀ first second p t rest, before = first ++ second → Enters penv lfh first p →
            penv.partIndex * penv.partSize + p.bytesProcessed =
              l.dataPos w.position + total Item.len first →
            Visits (step penv) p (itemBytes second ++ (startOfPartBytes offset ++ rest)) t
              (startOfPartBytes offset ++ rest) →
            (∃ f, ReadsFile t f offset ∧
              Performs penv.os penv.zstd p.ops t.ops (second.flatMap (Item.writes f.filename))) ∧
            step penv t (startOfPartBytes offset ++ rest) = .next (t.consume 24) rest := by
  intro l
  obtain ⟨hacc, hadd⟩ := burstWriterAddFile_ok h
  refine ⟨hadd.archive, fun before offset chunk bytes after hbody ↦ ?_,
    fun before offset after hbody ↦ ?_⟩
  · obtain ⟨hho, after', hdata⟩ := layoutCall_body_split hbody trivial
    have hwalk : DataWalk env w.compressionLevel (l.dataPos w.position) 0 (l.data ++ l.ending)
        (fileSize input) := hacc.fileData_walk hbound hho hfit
    rw [show l.data ++ l.ending = _ from hdata] at hwalk
    exact DataWalk.frame hwalk
  · obtain ⟨hho, after', hdata⟩ := layoutCall_body_split hbody trivial
    have hwalk : DataWalk env w.compressionLevel (l.dataPos w.position) 0 (l.data ++ l.ending)
        (fileSize input) := hacc.fileData_walk hbound hho hfit
    rw [show l.data ++ l.ending = _ from hdata] at hwalk
    obtain ⟨hoffset, -⟩ := DataWalk.startOfPart hwalk
    refine ⟨hoffset, fun penv hz ↦ ⟨fun p hp ↦ ?_, ?_⟩⟩
    · have hchunks : dataChunks (before ++ [.startOfPart offset]) = dataChunks before := by
        rw [dataChunks, List.filterMap_append]
        exact List.append_nil _
      rw [← List.singleton_append, ← List.append_assoc] at hwalk
      obtain ⟨f, hf⟩ := hp.readsFile hw hwalk hsize
      rw [hchunks, ← hoffset] at hf
      exact ⟨f, hf⟩
    · rintro first second p t rest rfl hp hpos hvisit
      exact hp.reaches hw hz hwalk hsize hpos hvisit

theorem paddedFile_startOfPart : ∃ w' before after,
    let header := sampleHeader zipFlagDataDescriptor zipMethodZstd
    let l := layoutCall rawEnv 3 0 (.file paddedFile header 33188 0 0)
    burstWriterAddFile rawEnv paddedFile header 33188 0 0 (burstWriterCreate ⟨[], []⟩ 3) =
      (some (), w') ∧
    l.body = before ++ .startOfPart 8387734 :: after ∧
    8387734 = total List.length (dataChunks before) ∧
    ∀ penv : ProcessorEnv, penv.zstd = rawZstd →
      ∀ p, Enters penv header (before ++ [.startOfPart 8387734]) p → ∃ f, ReadsFile p f 8387734 := by
  have hacc : Accepted rawEnv 3 0 (.file paddedFile
      (sampleHeader zipFlagDataDescriptor zipMethodZstd) 33188 0 0) :=
    accepted_file (rawEnv_framesBounded 3) (fun _ ↦ rfl) 33188 0 0 rfl (by decide) (by decide)
  have hready : Ready (burstWriterCreate ⟨[], []⟩ 3) := ⟨rfl, by decide⟩
  obtain ⟨w', hok, -⟩ := burstWriterAddFile_completes hready hacc
  have hw : (sampleHeader zipFlagDataDescriptor zipMethodZstd).WellFormed := by
    constructor <;> decide
  have hending : fileEnding rawEnv 3 46 paddedFile = [.padding 52, .startOfPart 8387734] := by
    rw [fileEnding, paddedFile_data, paddedFile_size]
    rfl
  have hbody : (layoutCall rawEnv 3 0 (.file paddedFile
      (sampleHeader zipFlagDataDescriptor zipMethodZstd) 33188 0 0)).body =
      (chunkItems rawEnv 3 46 0 paddedFile.chunks ++ [.padding 52]) ++
        .startOfPart 8387734 :: [fileDescriptor rawEnv 3 46 paddedFile] := by
    rw [layoutCall_sample, EntryLayout.body, hending]
    simp only [List.append_assoc, List.cons_append, List.nil_append]
  obtain ⟨-, -, hall⟩ := burstWriterAddFile_startOfPart (rawEnv_framesBounded 3) hw (by decide)
    (by rw [paddedFile_size]; norm_num) hok
  obtain ⟨hoffset, hread⟩ := hall _ _ _ hbody
  refine ⟨w', _, _, hok, hbody, hoffset, fun penv hz ↦ (hread penv ?_).1⟩
  rw [hz]
  exact rawZstd_framesDecode 3

end Burst
