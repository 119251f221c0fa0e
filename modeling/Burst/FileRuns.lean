import Burst.Containment

namespace Burst

open LittleEndian Incremental

/-- The system calls that restore permissions and ownership of a directory. -/
def restoreDirectoryOps (os : Os) (f : FileContext) : List FileOp :=
  (if f.hasUnixMode then [.chmod f.filename (f.unixMode % 0o10000)] else []) ++
  if f.hasUnixExtra ∧ os.isRoot then [.chown f.filename f.uid f.gid] else []

def ProcessorEnv.context (env : ProcessorEnv) (fileMeta : FileMetadata) : FileContext :=
  fileContext (env.filePath fileMeta) fileMeta

/-- How the file of an entry comes to be open, once its directory is there and these system calls have been
made. -/
inductive Opening (env : ProcessorEnv) (done : List FileOp) (fileMeta : FileMetadata) :
    FileContext → List FileOp → Prop where
  | directory : fileMeta.isDirectory = true → Opening env done fileMeta (env.context fileMeta)
      (.mkdir (env.filePath fileMeta) 0o755 :: restoreDirectoryOps env.os (env.context fileMeta))
  | symlink : fileMeta.isDirectory = false → fileMeta.isSymlink = true →
      Opening env done fileMeta { env.context fileMeta with symlinkBuffer := some [] } []
  | regular {n} : fileMeta.isDirectory = false → fileMeta.isSymlink = false →
      env.os.respond done (.openFile (env.filePath fileMeta)) = .ok n →
      Opening env done fileMeta { env.context fileMeta with fdOpen := true }
        [.openFile (env.filePath fileMeta)]

/-- The system call by which the file of an entry could not be opened. -/
inductive FailedOpening (env : ProcessorEnv) (fileMeta : FileMetadata) : FileOp → Prop where
  | directory : fileMeta.isDirectory = true → FailedOpening env fileMeta (.mkdir (env.filePath fileMeta) 0o755)
  | regular : fileMeta.isDirectory = false → fileMeta.isSymlink = false →
      FailedOpening env fileMeta (.openFile (env.filePath fileMeta))

/-- The entries that a processor opens one after another, the file that is open and the system calls
made. -/
inductive FileRun (env : ProcessorEnv) :
    List FileMetadata → Option FileContext → List FileOp → Prop where
  | start : FileRun env [] none []
  | parent {opened ops fileMeta path} : FileRun env opened none ops → fileMeta ∈ env.cdResult.files →
      path ∈ directoryPaths (dirname (env.filePath fileMeta)) →
      FileRun env opened none (ops ++ [.mkdir path 0o755])
  | opens {opened ops fileMeta f made} : FileRun env opened none ops → fileMeta ∈ env.cdResult.files →
      Opening env ops fileMeta f made → FileRun env (opened ++ [fileMeta]) (some f) (ops ++ made)
  | moves {opened f ops} (offset : ℕ) : FileRun env opened (some f) ops →
      FileRun env opened (some { f with uncompressedOffset := offset }) ops
  | reads {opened f ops} (target : List UInt8) : FileRun env opened (some f) ops →
      f.symlinkBuffer.isSome = true →
      FileRun env opened (some { f with symlinkBuffer := some target }) ops
  | encodedWrite {opened f ops} (frame : List UInt8) (len offset : ℕ) : FileRun env opened (some f) ops →
      f.fdOpen = true → FileRun env opened (some f) (ops ++ [.encodedWrite f.filename frame len offset])
  | pwrite {opened f ops} (data : List UInt8) (offset : ℕ) : FileRun env opened (some f) ops →
      f.fdOpen = true → FileRun env opened (some f) (ops ++ [.pwrite f.filename data offset])
  | close {opened f ops} : FileRun env opened (some f) ops →
      FileRun env opened none (ops ++ closeOps env.os f)

/-- The entries that a processor opens in all: the file that goes on from the part before, and those that
its part lists. -/
def ProcessorEnv.openings (env : ProcessorEnv) : List FileMetadata :=
  env.continuingFile.toList ++ (List.range env.part.entries.length).filterMap env.nextFile

/-- The entries opened so far by a processor that goes on. -/
def openedFiles (env : ProcessorEnv) (p : PartProcessor) : List FileMetadata :=
  (openedEntries env 0 p).map Prod.fst

/-- What a processor has done is such a run, which may have ended with a file that could not be opened. -/
inductive PartProcessor.Follows (env : ProcessorEnv) (p : PartProcessor) : Prop where
  | runs {opened : List FileMetadata} (run : FileRun env opened p.currentFile p.ops)
    (openings : opened <+: env.openings)
    (entries : p.state ≠ .done → p.state ≠ .error → opened = openedFiles env p)
    (fresh : p.state = .init ∨ p.state = .continuingFile → p.currentFile = none ∧ p.nextEntryIdx = 0)
    (busy : p.state = .processingFrames → p.currentFile ≠ none)
  | failed {opened : List FileMetadata} {fileMeta : FileMetadata} {ops : List FileOp} {op : FileOp}
    (state : p.state = .error) (closed : p.currentFile = none) (run : FileRun env opened none ops)
    (openings : opened ++ [fileMeta] <+: env.openings) (listed : fileMeta ∈ env.cdResult.files)
    (fails : FailedOpening env fileMeta op) (ops_eq : p.ops = ops ++ [op])

theorem FileRun.closeOutputFile {env : ProcessorEnv} {opened : List FileMetadata} {p : PartProcessor}
    (h : FileRun env opened p.currentFile p.ops) :
    FileRun env opened none (closeOutputFile env.os p).ops := by
  rw [Burst.closeOutputFile]
  cases hfile : p.currentFile with
  | none =>
    rw [hfile] at h
    exact h
  | some f =>
    rw [hfile] at h
    exact h.close

theorem FileRun.mkdirAll {env : ProcessorEnv} {opened : List FileMetadata} {ops : List FileOp}
    (h : FileRun env opened none ops) {fileMeta : FileMetadata} (hfile : fileMeta ∈ env.cdResult.files)
    {paths : List Path} (hpaths : ∀ path ∈ paths, path ∈ directoryPaths (dirname (env.filePath fileMeta))) :
    FileRun env opened none (mkdirAll env.os ops paths).2 := by
  induction paths generalizing ops with
  | nil => exact h
  | cons path paths ih =>
    have hmade := h.parent hfile (hpaths path List.mem_cons_self)
    have hlater := ih hmade fun path hmem ↦ hpaths path (List.mem_cons_of_mem _ hmem)
    rw [Burst.mkdirAll]
    split
    · exact hlater
    · exact hlater
    · split
      · exact hlater
      · exact hmade

theorem FileRun.doWriteEncoded {env : ProcessorEnv} {opened : List FileMetadata} {ops : List FileOp}
    {f : FileContext} (h : FileRun env opened (some f) ops) (hopen : f.fdOpen = true) (frame : List UInt8)
    (len offset : ℕ) :
    FileRun env opened (some f) (doWriteEncoded env.os env.zstd ops f.filename frame len offset).2 := by
  have hplain {ops : List FileOp} (h : FileRun env opened (some f) ops) :
      FileRun env opened (some f)
        (doWriteUnencoded env.os env.zstd ops f.filename frame len offset).2 := by
    rw [doWriteUnencoded]
    split
    · exact h
    · split
      · exact h
      · split
        · exact h
        · dsimp only
          split
          · exact h.pwrite _ offset hopen
          · exact h.pwrite _ offset hopen
  have hencoded := h.encodedWrite frame len offset hopen
  rw [Burst.doWriteEncoded]
  split
  · exact h
  · split
    · exact hplain h
    · split
      · exact h
      · dsimp only
        split
        · exact hencoded
        · exact hplain hencoded
        · exact hplain hencoded
        · exact hencoded

/-- What comes of opening the file of an entry. -/
inductive OpeningEnds (env : ProcessorEnv) (opened : List FileMetadata) (fileMeta : FileMetadata) :
    Option StreamProcError × PartProcessor → Prop where
  | opened {q f} : FileRun env (opened ++ [fileMeta]) (some f) q.ops → q.currentFile = some f →
      OpeningEnds env opened fileMeta (none, q)
  | unopened {e q} : q.state = .error → q.currentFile = none → FileRun env opened none q.ops →
      OpeningEnds env opened fileMeta (some e, q)
  | failed {e q ops op} : q.state = .error → q.currentFile = none → FileRun env opened none ops →
      FailedOpening env fileMeta op → q.ops = ops ++ [op] → OpeningEnds env opened fileMeta (some e, q)

theorem openOutputFile_ends {env : ProcessorEnv} {p : PartProcessor} {opened : List FileMetadata}
    (h : FileRun env opened p.currentFile p.ops) {fileMeta : FileMetadata}
    (hfile : fileMeta ∈ env.cdResult.files) :
    OpeningEnds env opened fileMeta (openOutputFile env p fileMeta) := by
  have hnone := closeOutputFile_currentFile env.os p
  have hparents := h.closeOutputFile.mkdirAll hfile fun path hmem ↦ hmem
  have hpath : (fileContext (env.outputDir ++ [slash] ++ fileMeta.filename) fileMeta).filename =
      env.filePath fileMeta := rfl
  rw [openOutputFile, openOutputPath, ensureDirectoryExists, hpath]
  generalize closeOutputFile env.os p = closed at hnone hparents
  generalize mkdirAll env.os closed.ops (directoryPaths (dirname (env.filePath fileMeta))) = made
    at hparents
  obtain ⟨_ | _, ops⟩ := made
  · exact .unopened rfl hnone hparents
  · dsimp only
    split
    · next hdirectory =>
      have hmade : FileRun env (opened ++ [fileMeta]) (some (env.context fileMeta))
          (ops ++ [.mkdir (env.filePath fileMeta) 0o755] ++
            restoreDirectoryOps env.os (env.context fileMeta)) := by
        rw [List.append_assoc]
        exact hparents.opens hfile (.directory hdirectory)
      rw [makeDirectory]
      dsimp only
      split
      · exact .opened hmade rfl
      · exact .opened hmade rfl
      · exact .failed rfl hnone hparents (.directory hdirectory) rfl
    · next hdirectory =>
      have hother : fileMeta.isDirectory = false := Bool.eq_false_iff.mpr hdirectory
      split
      · next hlink =>
        rw [allocateSymlinkBuffer]
        split
        · exact .unopened rfl hnone hparents
        · have hmade := hparents.opens hfile (.symlink hother hlink)
          rw [List.append_nil] at hmade
          exact .opened hmade rfl
      · next hlink =>
        have hregular : fileMeta.isSymlink = false := Bool.eq_false_iff.mpr hlink
        rw [openRegularFile]
        split
        · next hok => exact .opened (hparents.opens hfile (.regular hother hregular hok)) rfl
        · exact .failed rfl hnone hparents (.regular hother hregular) rfl

theorem openedFiles_prefix (env : ProcessorEnv) {p : PartProcessor}
    (hp : p.state ≠ .init ∧ p.state ≠ .continuingFile) : openedFiles env p <+: env.openings := by
  have hentries : (List.range p.nextEntryIdx).filterMap env.nextFile <+:
      (List.range env.part.entries.length).filterMap env.nextFile := by
    rcases Nat.le_total p.nextEntryIdx env.part.entries.length with hle | hge
    · obtain ⟨more, hmore⟩ := Nat.exists_eq_add_of_le hle
      rw [hmore, List.range_add, List.filterMap_append]
      exact List.prefix_append _ _
    · obtain ⟨more, hmore⟩ := Nat.exists_eq_add_of_le hge
      have hnone : ((List.range more).map (env.part.entries.length + ·)).filterMap env.nextFile = [] := by
        apply List.filterMap_eq_nil_iff.mpr
        intro i hi
        obtain ⟨j, -, rfl⟩ := List.mem_map.mp hi
        simp only [ProcessorEnv.nextFile, List.getElem?_eq_none (Nat.le_add_right _ j), Option.bind_none]
      simp only [hmore, List.range_add, List.filterMap_append, hnone, List.append_nil, List.prefix_refl]
  rw [openedFiles, openedEntries, if_neg (by tauto), List.map_append, List.map_map, List.map_map,
    ProcessorEnv.openings]
  simpa [Function.comp_def] using hentries

/-- A processor that is over. -/
theorem Follows.ended {env : ProcessorEnv} {q : PartProcessor} {opened : List FileMetadata}
    (run : FileRun env opened q.currentFile q.ops) (openings : opened <+: env.openings)
    (hstate : q.state = .error ∨ q.state = .done) : q.Follows env := by
  refine .runs run openings ?_ ?_ ?_
  · intro hdone herror
    rcases hstate with hs | hs
    · exact (herror hs).elim
    · exact (hdone hs).elim
  · intro hfresh
    rcases hstate with hs | hs
    · simp [hs] at hfresh
    · simp [hs] at hfresh
  · intro hbusy
    rcases hstate with hs | hs
    · simp [hs] at hbusy
    · simp [hs] at hbusy

/-- A processor that has got beyond its start. -/
theorem Follows.goesOn {env : ProcessorEnv} {q : PartProcessor} {opened : List FileMetadata}
    (run : FileRun env opened q.currentFile q.ops) (hopened : openedFiles env q = opened)
    (hstate : q.state = .expectLocalHeader ∨ q.state = .readingSymlink ∨
      q.state = .processingFrames ∧ q.currentFile ≠ none) : q.Follows env := by
  have hbeyond : q.state ≠ .init ∧ q.state ≠ .continuingFile := by
    rcases hstate with hs | hs | ⟨hs, -⟩
    · simp [hs]
    · simp [hs]
    · simp [hs]
  refine .runs run (hopened ▸ openedFiles_prefix env hbeyond) (fun _ _ ↦ hopened.symm)
    (fun hfresh ↦ by tauto) ?_
  intro hbusy
  rcases hstate with hs | hs | ⟨-, hfile⟩
  · simp [hs] at hbusy
  · simp [hs] at hbusy
  · exact hfile

theorem openedFiles_same {env : ProcessorEnv} {p q : PartProcessor} (hidx : q.nextEntryIdx = p.nextEntryIdx)
    (hp : p.state ≠ .init ∧ p.state ≠ .continuingFile) (hq : q.state ≠ .init ∧ q.state ≠ .continuingFile) :
    openedFiles env q = openedFiles env p := by
  rw [openedFiles, openedFiles, openedEntries_eq 0 hidx hp hq]

theorem openedFiles_next {env : ProcessorEnv} {p q : PartProcessor} {fileMeta : FileMetadata}
    (hfile : env.nextFile p.nextEntryIdx = some fileMeta) (hidx : q.nextEntryIdx = p.nextEntryIdx + 1)
    (hp : p.state ≠ .init ∧ p.state ≠ .continuingFile) (hq : q.state ≠ .init ∧ q.state ≠ .continuingFile) :
    openedFiles env q = openedFiles env p ++ [fileMeta] := by
  rw [openedFiles, openedFiles, openedEntries_next hfile hidx hp hq, List.map_append]
  rfl

theorem FileRun.setUncompressedOffset {env : ProcessorEnv} {opened : List FileMetadata} {p : PartProcessor}
    (h : FileRun env opened p.currentFile p.ops) (offset : ℕ) :
    FileRun env opened (p.setUncompressedOffset offset).currentFile (p.setUncompressedOffset offset).ops := by
  have hset : (p.setUncompressedOffset offset).currentFile =
      p.currentFile.map fun f ↦ { f with uncompressedOffset := offset } := rfl
  rw [hset]
  cases hfile : p.currentFile with
  | none =>
    rw [hfile] at h
    exact h
  | some f =>
    rw [hfile] at h
    exact h.moves offset

theorem openOutputFile_run {env : ProcessorEnv} {p q : PartProcessor} {opened : List FileMetadata}
    (h : FileRun env opened p.currentFile p.ops) {fileMeta : FileMetadata}
    (hfile : fileMeta ∈ env.cdResult.files) (hopen : openOutputFile env p fileMeta = (none, q)) :
    FileRun env (opened ++ [fileMeta]) q.currentFile q.ops ∧ q.currentFile ≠ none := by
  have hends := openOutputFile_ends h hfile
  rw [hopen] at hends
  cases hends with
  | opened hrun hf =>
    rw [hf]
    exact ⟨hrun, by simp⟩

/-- An opening that does not succeed ends the run. -/
theorem openOutputFile_follows {env : ProcessorEnv} {p q : PartProcessor} {opened : List FileMetadata}
    (h : FileRun env opened p.currentFile p.ops) {fileMeta : FileMetadata}
    (hfile : fileMeta ∈ env.cdResult.files) (hopenings : opened ++ [fileMeta] <+: env.openings)
    {e : StreamProcError} (hopen : openOutputFile env p fileMeta = (some e, q)) : q.Follows env := by
  have hends := openOutputFile_ends h hfile
  rw [hopen] at hends
  cases hends with
  | unopened hstate hnone hrun =>
    rw [← hnone] at hrun
    exact Follows.ended hrun ((List.prefix_append _ _).trans hopenings) (.inl hstate)
  | failed hstate hnone hrun hfails hops => exact .failed hstate hnone hrun hopenings hfile hfails hops

theorem stepInit_follows {env : ProcessorEnv} {p : PartProcessor} (hp : p.Follows env)
    (hs : p.state = .init) (bs : List UInt8) : (stepInit env p bs).state.Follows env := by
  cases hp with
  | failed herror => simp [hs] at herror
  | @runs opened hrun hopenings hentries hfresh hbusy =>
    obtain ⟨hnone, hzero⟩ := hfresh (.inl hs)
    have hempty : opened = [] := by
      rw [hentries (by simp [hs]) (by simp [hs])]
      simp [openedFiles, openedEntries, hs, hzero]
    rw [stepInit]
    split
    · refine .runs hrun hopenings (fun _ _ ↦ ?_) (fun _ ↦ ⟨hnone, hzero⟩) (by rintro ⟨⟩)
      rw [hempty]
      simp [openedFiles, openedEntries, hzero, Step.state, PartProcessor.enter]
    · next hcontinuing =>
      have hfile : env.continuingFile = none := by
        rw [ProcessorEnv.continuingFile, Option.not_isSome_iff_eq_none.mp hcontinuing]
        rfl
      have hopened : openedFiles env (p.enter .expectLocalHeader) = opened := by
        rw [hempty]
        simp [openedFiles, openedEntries, hzero, hfile, PartProcessor.enter]
      exact Follows.goesOn hrun hopened (.inl rfl)

theorem stepContinuingFile_follows {env : ProcessorEnv} {p : PartProcessor} (hp : p.Follows env)
    (hs : p.state = .continuingFile) (bs : List UInt8) : (stepContinuingFile env p bs).state.Follows env := by
  cases hp with
  | failed herror => simp [hs] at herror
  | @runs opened hrun hopenings hentries hfresh hbusy =>
    obtain ⟨hnone, hzero⟩ := hfresh (.inr hs)
    have hempty : opened = [] := by
      rw [hentries (by simp [hs]) (by simp [hs])]
      simp [openedFiles, openedEntries, hs, hzero]
    have hfail : (p.fail .invalidFrame).Follows env := Follows.ended hrun hopenings (.inl rfl)
    rw [stepContinuingFile]
    split
    · exact .runs hrun hopenings hentries hfresh hbusy
    · exact hfail
    · split
      · exact hfail
      · rw [handleStartOfPartFrame, hnone]
        dsimp only
        split
        · exact hfail
        · next fileMeta hcontinuing =>
          have hmem := continuingFile_mem hcontinuing
          split
          · next hopen =>
            refine openOutputFile_follows hrun hmem ?_ hopen
            rw [hempty, ProcessorEnv.openings, hcontinuing]
            exact List.prefix_append _ _
          · next q hopen =>
            obtain ⟨hmade, hf⟩ := openOutputFile_run hrun hmem hopen
            have hidx := (openOutputFile_nextEntryIdx hopen).trans hzero
            refine Follows.goesOn (hmade.setUncompressedOffset (read bs 9 8)) ?_
              (.inr (.inr ⟨rfl, fun hnil ↦ hf (Option.map_eq_none_iff.mp hnil)⟩))
            rw [hempty]
            simp [openedFiles, openedEntries, hcontinuing, LoopStep.after, Step.state,
              PartProcessor.enter, PartProcessor.consume, PartProcessor.setUncompressedOffset, hidx]

theorem stepExpectLocalHeader_follows {env : ProcessorEnv} {p : PartProcessor} (hp : p.Follows env)
    (hs : p.state = .expectLocalHeader) (bs : List UInt8) :
    (stepExpectLocalHeader env p bs).state.Follows env := by
  cases hp with
  | failed herror => simp [hs] at herror
  | @runs opened hrun hopenings hentries hfresh hbusy =>
    have hopened : openedFiles env p = opened := (hentries (by simp [hs]) (by simp [hs])).symm
    have hfail : (p.fail .invalidFrame).Follows env := Follows.ended hrun hopenings (.inl rfl)
    have hdone : (p.enter .done).Follows env := Follows.ended hrun hopenings (.inr rfl)
    have hgoes (n : ℕ) : (p.consume n).Follows env := by
      refine Follows.goesOn hrun ?_ (.inl hs)
      rw [← hopened]
      exact openedFiles_same rfl (by simp [hs]) (by simp [PartProcessor.consume, hs])
    have hsame : p.Follows env := .runs hrun hopenings hentries hfresh hbusy
    rw [stepExpectLocalHeader]
    split
    · exact hdone
    · split
      · exact hsame
      · exact hfail
      · split
        · exact hgoes _
        · exact hdone
        · rw [stepLocalHeader, handleLocalHeader]
          split_ifs
          · exact hsame
          · exact hsame
          · exact hgoes _
          · cases hnext : env.nextFile p.nextEntryIdx with
            | none => exact hfail
            | some fileMeta =>
              have hmem := nextFile_mem hnext
              have hall {q : PartProcessor} (hidx : q.nextEntryIdx = p.nextEntryIdx + 1)
                  (hq : q.state ≠ .init ∧ q.state ≠ .continuingFile) :
                  openedFiles env q = opened ++ [fileMeta] := by
                rw [← hopened]
                exact openedFiles_next hnext hidx (by simp [hs]) hq
              have hprefix : opened ++ [fileMeta] <+: env.openings := by
                rw [← hall (q := { p with nextEntryIdx := p.nextEntryIdx + 1 }) rfl (by simp [hs])]
                exact openedFiles_prefix env (by simp [hs])
              dsimp only
              cases hopen : openOutputFile env p fileMeta with
              | mk e q =>
              cases e with
              | some e =>
                exact openOutputFile_follows hrun hmem hprefix hopen
              | none =>
                obtain ⟨hmade, hf⟩ := openOutputFile_run hrun hmem hopen
                have hidx := openOutputFile_nextEntryIdx hopen
                have hfile : (q.setUncompressedOffset 0).currentFile ≠ none :=
                  fun hnil ↦ hf (Option.map_eq_none_iff.mp hnil)
                have hstate : afterLocalHeader (q.setUncompressedOffset 0) = .readingSymlink ∨
                    afterLocalHeader (q.setUncompressedOffset 0) = .processingFrames := by
                  rw [afterLocalHeader]
                  split
                  · exact .inl rfl
                  · exact .inr rfl
                refine Follows.goesOn (hmade.setUncompressedOffset 0) (hall ?_ ?_)
                  (.inr (hstate.imp_right fun hs ↦ ⟨hs, hfile⟩))
                · exact congrArg (· + 1) hidx
                · rcases hstate with hs' | hs'
                  · simp [Step.state, PartProcessor.enter, hs']
                  · simp [Step.state, PartProcessor.enter, hs']
        · exact hfail

theorem stepProcessingFrames_follows {env : ProcessorEnv} {p : PartProcessor} (hp : p.Follows env)
    (hs : p.state = .processingFrames) (bs : List UInt8) :
    (stepProcessingFrames env p bs).state.Follows env := by
  cases hp with
  | failed herror => simp [hs] at herror
  | @runs opened hrun hopenings hentries hfresh hbusy =>
    have hopened : openedFiles env p = opened := (hentries (by simp [hs]) (by simp [hs])).symm
    obtain ⟨f, hf⟩ := Option.ne_none_iff_exists'.mp (hbusy hs)
    have hbeyond {q : PartProcessor} (hidx : q.nextEntryIdx = p.nextEntryIdx)
        (hq : q.state ≠ .init ∧ q.state ≠ .continuingFile) : openedFiles env q = opened := by
      rw [← hopened]
      exact openedFiles_same hidx (by simp [hs]) hq
    have hfail : (p.fail .invalidFrame).Follows env := Follows.ended hrun hopenings (.inl rfl)
    have hgoes (n : ℕ) : (p.consume n).Follows env := by
      refine Follows.goesOn hrun (hbeyond rfl ?_) (.inr (.inr ⟨hs, hbusy hs⟩))
      simp [PartProcessor.consume, hs]
    have hsame : p.Follows env := .runs hrun hopenings hentries hfresh hbusy
    have hclosed : FileRun env opened (closeOutputFile env.os p).currentFile
        (closeOutputFile env.os p).ops := by
      rw [closeOutputFile_currentFile]
      exact hrun.closeOutputFile
    have hidx := closeOutputFile_nextEntryIdx env.os p
    have hset {q : PartProcessor} (hrun : FileRun env opened q.currentFile q.ops)
        (hfile : q.currentFile ≠ none) (hidx : q.nextEntryIdx = p.nextEntryIdx) (hq : q.state = p.state)
        (offset n : ℕ) : ((q.setUncompressedOffset offset).consume n).Follows env := by
      have hstate : q.state = .processingFrames := hq.trans hs
      refine Follows.goesOn (hrun.setUncompressedOffset offset) (hbeyond hidx ?_)
        (.inr (.inr ⟨hstate, fun hnil ↦ hfile (Option.map_eq_none_iff.mp hnil)⟩))
      simp [PartProcessor.consume, PartProcessor.setUncompressedOffset, hstate]
    rw [stepProcessingFrames]
    split
    · exact hsame
    · exact hfail
    · next info _ =>
      split
      · split
        · exact hsame
        · rw [handleZstdFrame, hf]
          dsimp only
          split
          · exact hfail
          · next hopen =>
            rw [hf] at hrun
            have hwritten := hrun.doWriteEncoded (Bool.eq_true_of_not_eq_false hopen)
              (bs.take info.frameSize) info.uncompressedSize f.uncompressedOffset
            split
            · next ops hwrite =>
              rw [hwrite] at hwritten
              exact @Follows.ended _ ({ p with currentFile := some f, ops := ops }.fail .btrfsWrite) _ hwritten
                hopenings (.inl rfl)
            · next ops hwrite =>
              rw [hwrite] at hwritten
              exact @hset { p with currentFile := some f, ops := ops } hwritten (by simp) rfl rfl _ _
      · exact hgoes _
      · split
        · exact hfail
        · rw [handleStartOfPartFrame, hf]
          exact hset hrun (hbusy hs) rfl rfl _ _
      · exact Follows.goesOn hclosed (hbeyond hidx (by simp [Step.state, PartProcessor.enter])) (.inl rfl)
      · exact Follows.goesOn hclosed (hbeyond hidx (by simp [Step.state, PartProcessor.enter])) (.inl rfl)
      · exact Follows.ended hclosed hopenings (.inr rfl)

theorem stepReadingSymlink_follows {env : ProcessorEnv} {p : PartProcessor} (hp : p.Follows env)
    (hs : p.state = .readingSymlink) (bs : List UInt8) :
    (stepReadingSymlink env p bs).state.Follows env := by
  cases hp with
  | failed herror => simp [hs] at herror
  | @runs opened hrun hopenings hentries hfresh hbusy =>
    have hopened : openedFiles env p = opened := (hentries (by simp [hs]) (by simp [hs])).symm
    have hfail : (p.fail .invalidFrame).Follows env := Follows.ended hrun hopenings (.inl rfl)
    rw [stepReadingSymlink]
    split
    · exact hfail
    · next f hf =>
      split
      · exact hfail
      · next target htarget =>
        rw [hf] at hrun
        have hread (target : List UInt8) := hrun.reads target (by rw [htarget]; rfl)
        have hbeyond {q : PartProcessor} (hidx : q.nextEntryIdx = p.nextEntryIdx)
            (hq : q.state ≠ .init ∧ q.state ≠ .continuingFile) : openedFiles env q = opened := by
          rw [← hopened]
          exact openedFiles_same hidx (by simp [hs]) hq
        rw [afterSymlinkBytes]
        split
        · exact Follows.goesOn (hread _).close (hbeyond rfl (by simp [Step.state, PartProcessor.enter]))
            (.inl rfl)
        · refine Follows.goesOn (hread _) (hbeyond rfl ?_) (.inr (.inl hs))
          simp [Step.state, PartProcessor.setSymlinkTarget, PartProcessor.consume, hs]

/-- A round goes on with the run. -/
theorem step_follows {env : ProcessorEnv} {p : PartProcessor} (hp : p.Follows env) (bs : List UInt8) :
    (step env p bs).state.Follows env := by
  rw [step]
  cases hs : p.state with
  | init => exact stepInit_follows hp hs bs
  | continuingFile => exact stepContinuingFile_follows hp hs bs
  | expectLocalHeader => exact stepExpectLocalHeader_follows hp hs bs
  | processingFrames => exact stepProcessingFrames_follows hp hs bs
  | readingSymlink => exact stepReadingSymlink_follows hp hs bs
  | done => exact hp
  | error => exact hp

/-- The system calls of a run, and perhaps one more by which a file could not be opened. -/
inductive Attempts (env : ProcessorEnv) : List FileMetadata → List FileOp → Prop where
  | run {opened file ops} : FileRun env opened file ops → Attempts env opened ops
  | failed {opened fileMeta ops op} : FileRun env opened none ops → fileMeta ∈ env.cdResult.files →
      FailedOpening env fileMeta op → Attempts env (opened ++ [fileMeta]) (ops ++ [op])

/-- The system calls have been made to open entries of the part, each in its turn. -/
def ProcessorEnv.Tries (env : ProcessorEnv) (ops : List FileOp) : Prop :=
  ∃ opened, opened <+: env.openings ∧ Attempts env opened ops

theorem PartProcessor.Follows.tries {env : ProcessorEnv} {p : PartProcessor} (h : p.Follows env) :
    env.Tries p.ops := by
  cases h with
  | runs hrun hopenings => exact ⟨_, hopenings, .run hrun⟩
  | failed _ _ hrun hopenings hlisted hfails hops =>
    rw [hops]
    exact ⟨_, hopenings, .failed hrun hlisted hfails⟩

/-- Closing the file that is open ends the run. -/
theorem PartProcessor.Follows.close {env : ProcessorEnv} {p : PartProcessor} (h : p.Follows env) :
    env.Tries (closeOutputFile env.os p).ops := by
  cases h with
  | runs hrun hopenings => exact ⟨_, hopenings, .run hrun.closeOutputFile⟩
  | failed hstate hnone hrun hopenings hlisted hfails hops =>
    have hsame : closeOutputFile env.os p = p := by
      rw [closeOutputFile, hnone]
    rw [hsame, hops]
    exact ⟨_, hopenings, .failed hrun hlisted hfails⟩

/-- A processor that goes on with its run, or is over. -/
def PartProcessor.FollowsOrEnded (env : ProcessorEnv) (p : PartProcessor) : Prop :=
  p.Follows env ∨ (p.state = .done ∨ p.state = .error) ∧ p.currentFile = none ∧ env.Tries p.ops

theorem step_followsOrEnded {env : ProcessorEnv} {p : PartProcessor} (bs : List UInt8)
    (hp : p.FollowsOrEnded env) : (step env p bs).state.FollowsOrEnded env := by
  rcases hp with hp | ⟨hstate | hstate, hp⟩
  · exact .inl (step_follows hp bs)
  · rw [step, hstate]
    exact .inr ⟨.inl hstate, hp⟩
  · rw [step, hstate]
    exact .inr ⟨.inr hstate, hp⟩

theorem partProcessorFinalize_followsOrEnded {env : ProcessorEnv} {s : PartProcessorState}
    (hs : s.toPartProcessor.FollowsOrEnded env) :
    (partProcessorFinalize env s).2.toPartProcessor.FollowsOrEnded env := by
  have hclosed : env.Tries (closeOutputFile env.os s.toPartProcessor).ops := by
    rcases hs with hs | ⟨-, hnone, htries⟩
    · exact hs.close
    · have hsame : closeOutputFile env.os s.toPartProcessor = s.toPartProcessor := by
        rw [closeOutputFile, hnone]
      rw [hsame]
      exact htries
  have hnone := closeOutputFile_currentFile env.os s.toPartProcessor
  rw [partProcessorFinalize]
  split
  · exact .inr ⟨.inr rfl, hnone, hclosed⟩
  · exact .inr ⟨.inl rfl, hnone, hclosed⟩

theorem partProcessorCreate_follows (env : ProcessorEnv) :
    (partProcessorCreate []).toPartProcessor.Follows env :=
  .runs .start List.nil_prefix (fun _ _ ↦ rfl) (fun _ ↦ ⟨rfl, rfl⟩) (by rintro ⟨⟩)

theorem ProcessorEnv.Reaches.followsOrEnded {env : ProcessorEnv} {s : PartProcessorState}
    (h : env.Reaches s) : s.toPartProcessor.FollowsOrEnded env := by
  induction h with
  | create => exact .inl (partProcessorCreate_follows env)
  | @call s t call e _ hcall ih =>
    cases call with
    | data bytes =>
      exact @partProcessorProcessData_invariant env (·.FollowsOrEnded env)
        (fun _ bs hp ↦ step_followsOrEnded bs hp) _ _ _ _ ih hcall
    | finalize =>
      have hfinal := partProcessorFinalize_followsOrEnded ih
      rw [ProcessorCall.run, Option.some.injEq] at hcall
      rw [hcall] at hfinal
      exact hfinal

theorem PartProcessor.FollowsOrEnded.tries {env : ProcessorEnv} {p : PartProcessor}
    (h : p.FollowsOrEnded env) : env.Tries p.ops := by
  rcases h with h | ⟨-, -, h⟩
  · exact h.tries
  · exact h

/-- The system calls of a processor, whatever calls lead to them. -/
theorem ProcessorEnv.Makes.tries {env : ProcessorEnv} {ops : List FileOp} (h : env.Makes ops) :
    env.Tries ops := by
  obtain ⟨s, hs, rfl | ⟨data, q, rest, hvisit, rfl⟩⟩ := h
  · exact hs.followsOrEnded.tries
  · have hnext {p : PartProcessor} {bs : List UInt8} {q : PartProcessor} {rest : List UInt8}
        (hp : p.FollowsOrEnded env) (hstep : step env p bs = .next q rest) : q.FollowsOrEnded env := by
      have hkept := step_followsOrEnded bs hp
      rw [hstep] at hkept
      exact hkept
    have hvisited := @Visits.invariant _ _ _ _ (fun p _ ↦ p.FollowsOrEnded env) _ _ _ _ hvisit
      (fun hp _ hstep ↦ hnext hp hstep) hs.followsOrEnded
    exact hvisited.tries

theorem feedAll_follows {env : ProcessorEnv} {chunks : List (List UInt8)} {s t : PartProcessorState}
    (hs : s.toPartProcessor.Follows env ∧ s.state ≠ .error) (h : feedAll env s chunks = some t) :
    t.toPartProcessor.Follows env ∧ t.state ≠ .error := by
  induction chunks generalizing s with
  | nil =>
    cases h
    exact hs
  | cons data chunks ih =>
    rw [feedAll] at h
    split at h
    · next u hcall =>
      have hstate : u.state ≠ .error := @ProcessorCall.run_failed env s u (.data data) none hs.2 hcall
      have hfollows := @partProcessorProcessData_invariant env (·.Follows env)
        (fun _ bs hp ↦ step_follows hp bs) _ _ _ _ hs.1 hcall
      exact ih ⟨hfollows, hstate⟩ h
    · cases h

/-- A part that is extracted without an error has closed what it has opened. -/
theorem extractPart_run {env : ProcessorEnv} {chunks : List (List UInt8)} {t : PartProcessorState}
    (h : extractPart env chunks = some t) : ∃ opened, FileRun env opened none t.ops := by
  obtain ⟨s, hs, hfinal⟩ := Option.bind_eq_some_iff.mp h
  have hops : t.ops = (closeOutputFile env.os s.toPartProcessor).ops := by
    rw [finalizeAll_eq hfinal]
    rfl
  obtain ⟨hfollows, hstate⟩ :=
    feedAll_follows ⟨partProcessorCreate_follows env, by simp [partProcessorCreate]⟩ hs
  cases hfollows with
  | runs hrun =>
    rw [hops]
    exact ⟨_, hrun.closeOutputFile⟩
  | failed herror => exact (hstate herror).elim

/-- The file that is open is that of an entry. -/
inductive FileContext.IsOf (env : ProcessorEnv) (fileMeta : FileMetadata) : FileContext → Prop where
  | directory (offset : ℕ) : fileMeta.isDirectory = true →
      IsOf env fileMeta { env.context fileMeta with uncompressedOffset := offset }
  | symlink (offset : ℕ) (target : List UInt8) : fileMeta.isDirectory = false → fileMeta.isSymlink = true →
      IsOf env fileMeta { env.context fileMeta with
        uncompressedOffset := offset, symlinkBuffer := some target }
  | regular (offset : ℕ) : fileMeta.isDirectory = false → fileMeta.isSymlink = false →
      IsOf env fileMeta { env.context fileMeta with fdOpen := true, uncompressedOffset := offset }

theorem FileContext.IsOf.filename {env : ProcessorEnv} {fileMeta : FileMetadata} {f : FileContext}
    (h : f.IsOf env fileMeta) : f.filename = env.filePath fileMeta := by
  cases h with
  | directory => rfl
  | symlink => rfl
  | regular => rfl

theorem Opening.isOf {env : ProcessorEnv} {done : List FileOp} {fileMeta : FileMetadata} {f : FileContext}
    {made : List FileOp} (h : Opening env done fileMeta f made) : f.IsOf env fileMeta := by
  cases h with
  | directory hdirectory => exact .directory 0 hdirectory
  | symlink hother hlink => exact .symlink 0 [] hother hlink
  | regular hother hregular => exact .regular 0 hother hregular

theorem closeOps_directory (env : ProcessorEnv) (fileMeta : FileMetadata) (offset : ℕ) :
    closeOps env.os { env.context fileMeta with uncompressedOffset := offset } = [] := by
  rw [closeOps]
  cases hlink : (env.context fileMeta).isSymlink <;> rfl

theorem closeOps_symlink {env : ProcessorEnv} {fileMeta : FileMetadata} (hlink : fileMeta.isSymlink = true)
    (offset : ℕ) (target : List UInt8) :
    closeOps env.os { env.context fileMeta with
      uncompressedOffset := offset, symlinkBuffer := some target } =
      [.unlink (env.filePath fileMeta), .symlink (target.takeWhile (· ≠ 0)) (env.filePath fileMeta)] ++
        if fileMeta.hasUnixExtra ∧ env.os.isRoot then
          [.lchown (env.filePath fileMeta) fileMeta.uid fileMeta.gid] else [] := by
  have hsymlink : (env.context fileMeta).isSymlink = true := hlink
  rw [closeOps]
  simp only [hsymlink]
  rfl

theorem closeOps_regular {env : ProcessorEnv} {fileMeta : FileMetadata} (hlink : fileMeta.isSymlink = false)
    (offset : ℕ) :
    closeOps env.os { env.context fileMeta with fdOpen := true, uncompressedOffset := offset } =
      [.ftruncate (env.filePath fileMeta) fileMeta.uncompressedSize] ++
        restoreFileOps env.os (env.context fileMeta) ++ [.close (env.filePath fileMeta)] := by
  have hsymlink : (env.context fileMeta).isSymlink = false := hlink
  rw [closeOps]
  simp only [hsymlink]
  rfl

/-- The system calls that close a file. -/
inductive ClosingOp (os : Os) (f : FileContext) : FileOp → Prop where
  | unlink : f.symlinkBuffer.isSome = true → ClosingOp os f (.unlink f.filename)
  | symlink (target : List UInt8) : f.symlinkBuffer.isSome = true →
      ClosingOp os f (.symlink target f.filename)
  | lchown : f.symlinkBuffer.isSome = true → f.hasUnixExtra = true → os.isRoot = true →
      ClosingOp os f (.lchown f.filename f.uid f.gid)
  | ftruncate : f.fdOpen = true → ClosingOp os f (.ftruncate f.filename f.expectedTotalSize)
  | fchmod : f.fdOpen = true → f.hasUnixMode = true →
      ClosingOp os f (.fchmod f.filename (f.unixMode % 0o10000))
  | fchown : f.fdOpen = true → f.hasUnixExtra = true → os.isRoot = true →
      ClosingOp os f (.fchown f.filename f.uid f.gid)
  | close : f.fdOpen = true → ClosingOp os f (.close f.filename)

theorem closeOps_closing (os : Os) (f : FileContext) : ∀ op ∈ closeOps os f, ClosingOp os f op := by
  intro op hop
  rw [closeOps] at hop
  split at hop
  · next hbuffer =>
    have hlink : f.symlinkBuffer.isSome = true := by
      rw [hbuffer]
      rfl
    simp only [List.mem_append, List.mem_cons, List.not_mem_nil, or_false] at hop
    rcases hop with (rfl | rfl) | hown
    · exact .unlink hlink
    · exact .symlink _ hlink
    · split at hown
      · next hroot =>
        rw [List.mem_singleton.mp hown]
        exact .lchown hlink hroot.1 hroot.2
      · cases hown
  · split at hop
    · next hopen =>
      simp only [restoreFileOps, List.mem_append, List.mem_singleton] at hop
      rcases hop with (rfl | hmode | hown) | rfl
      · exact .ftruncate hopen
      · split at hmode
        · next hunix =>
          rw [List.mem_singleton.mp hmode]
          exact .fchmod hopen hunix
        · cases hmode
      · split at hown
        · next hroot =>
          rw [List.mem_singleton.mp hown]
          exact .fchown hopen hroot.1 hroot.2
        · cases hown
      · exact .close hopen
    · cases hop

/-- The file that is open is that of the entry opened last. -/
theorem FileRun.current {env : ProcessorEnv} {opened : List FileMetadata} {file : Option FileContext}
    {ops : List FileOp} (h : FileRun env opened file ops) {f : FileContext} (hf : file = some f) :
    ∃ before fileMeta, opened = before ++ [fileMeta] ∧ fileMeta ∈ env.cdResult.files ∧
      f.IsOf env fileMeta := by
  induction h generalizing f with
  | start => cases hf
  | parent => cases hf
  | close => cases hf
  | @opens opened ops fileMeta g made _ hfile hopening =>
    cases hf
    exact ⟨opened, fileMeta, rfl, hfile, hopening.isOf⟩
  | moves offset _ ih =>
    cases hf
    obtain ⟨before, fileMeta, hopened, hfile, hof⟩ := ih rfl
    refine ⟨before, fileMeta, hopened, hfile, ?_⟩
    cases hof with
    | directory _ hdirectory => exact .directory offset hdirectory
    | symlink _ target hother hlink => exact .symlink offset target hother hlink
    | regular _ hother hregular => exact .regular offset hother hregular
  | reads target _ hbuffer ih =>
    cases hf
    obtain ⟨before, fileMeta, hopened, hfile, hof⟩ := ih rfl
    refine ⟨before, fileMeta, hopened, hfile, ?_⟩
    cases hof with
    | directory => cases hbuffer
    | symlink offset _ hother hlink => exact .symlink offset target hother hlink
    | regular => cases hbuffer
  | encodedWrite frame len offset _ _ ih => exact ih hf
  | pwrite data offset _ _ ih => exact ih hf

/-- A file with a descriptor has been opened. -/
theorem FileRun.openFile_mem {env : ProcessorEnv} {opened : List FileMetadata} {file : Option FileContext}
    {ops : List FileOp} (h : FileRun env opened file ops) {f : FileContext} (hf : file = some f)
    (hopen : f.fdOpen = true) : .openFile f.filename ∈ ops := by
  induction h generalizing f with
  | start => cases hf
  | parent => cases hf
  | close => cases hf
  | opens _ _ hopening =>
    cases hf
    cases hopening with
    | directory => cases hopen
    | symlink => cases hopen
    | regular => exact List.mem_append_right _ (List.mem_singleton.mpr rfl)
  | moves offset _ ih =>
    cases hf
    have hmem := ih rfl hopen
    exact hmem
  | reads target _ _ ih =>
    cases hf
    have hmem := ih rfl hopen
    exact hmem
  | encodedWrite _ _ _ _ _ ih => exact List.mem_append_left _ (ih hf hopen)
  | pwrite _ _ _ _ ih => exact List.mem_append_left _ (ih hf hopen)

end Burst
