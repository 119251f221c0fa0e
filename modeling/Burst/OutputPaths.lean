import Burst.PartCompleteness

namespace Burst

open LittleEndian Incremental

/-- The path goes on with a slash. -/
def GoesOnWithSlash (path full : Path) : Prop := ∃ rest, path ++ slash :: rest = full

theorem GoesOnWithSlash.append {path full : Path} (h : GoesOnWithSlash path full) (rest : Path) :
    GoesOnWithSlash path (full ++ rest) := by
  obtain ⟨more, rfl⟩ := h
  exact ⟨more ++ rest, by simp⟩

theorem componentPaths_goesOn {visited rest path : Path} {inside : Bool}
    (h : path ∈ componentPaths visited inside rest) :
    path = visited ++ rest ∨ GoesOnWithSlash path (visited ++ rest) := by
  induction rest generalizing visited inside with
  | nil =>
    rw [componentPaths] at h
    split at h
    · left
      rw [List.mem_singleton.mp h, List.append_nil]
    · cases h
  | cons c rest ih =>
    rw [componentPaths] at h
    have hmore : visited ++ [c] ++ rest = visited ++ c :: rest := by simp
    split at h
    · next hc =>
      rcases List.mem_cons.mp h with rfl | hlater
      · right
        exact ⟨rest, by rw [hc]⟩
      · rw [← hmore]
        exact ih hlater
    · rw [← hmore]
      exact ih h

theorem directoryPaths_goesOn {dir path : Path} (h : path ∈ directoryPaths dir) :
    path = dir ∨ GoesOnWithSlash path dir := by
  have hdir := componentPaths_goesOn h
  rwa [List.takeWhile_append_dropWhile] at hdir

theorem stripTrailingSlashes_eq (path : Path) :
    ∃ slashes, (∀ c ∈ slashes, c = slash) ∧ path = stripTrailingSlashes path ++ slashes := by
  refine ⟨(path.reverse.takeWhile fun c ↦ decide (c = slash)).reverse, fun c hc ↦ ?_, ?_⟩
  · have hmem := List.mem_takeWhile_imp (List.mem_reverse.mp hc)
    exact of_decide_eq_true hmem
  · rw [stripTrailingSlashes, ← List.reverse_append, List.takeWhile_append_dropWhile,
      List.reverse_reverse]

theorem stripTrailingSlashes_concat (path : Path) :
    stripTrailingSlashes (path ++ [slash]) = stripTrailingSlashes path := by
  rw [stripTrailingSlashes, stripTrailingSlashes, List.reverse_append, List.reverse_singleton,
    List.singleton_append, List.dropWhile_cons_of_pos (by simp)]

/-- The directory of a path is the current one, the root or what stands before a slash of the path. -/
theorem dirname_cases (path : Path) :
    dirname path = [46] ∨ dirname path = [slash] ∨ GoesOnWithSlash (dirname path) path := by
  rw [dirname]
  dsimp only
  obtain ⟨slashes, -, hpath⟩ := stripTrailingSlashes_eq path
  generalize stripTrailingSlashes path = name at hpath ⊢
  split
  · split
    · exact .inl rfl
    · exact .inr (.inl rfl)
  · split
    · exact .inl rfl
    · next hslash =>
      split
      · exact .inr (.inl rfl)
      · right
        right
        -- what stands up to the last slash of the name
        obtain ⟨head, tail, hname, hupto⟩ : ∃ head tail, name = head ++ [slash] ++ tail ∧
            (name.reverse.dropWhile (· ≠ slash)).reverse = head ++ [slash] := by
          obtain ⟨tail, head, hreverse, hnone⟩ :=
            List.eq_append_cons_of_mem (List.mem_reverse.mpr (not_not.mp hslash))
          refine ⟨head.reverse, tail.reverse, ?_, ?_⟩
          · rw [← List.reverse_reverse name, hreverse]
            simp
          · rw [hreverse, List.dropWhile_append_of_pos fun c hc ↦ by
              simpa using fun heq : c = slash ↦ hnone (heq ▸ hc)]
            simp
        rw [hupto, stripTrailingSlashes_concat]
        obtain ⟨more, hmore, hhead⟩ := stripTrailingSlashes_eq head
        generalize stripTrailingSlashes head = dir at hhead ⊢
        rw [hpath, hname, hhead]
        cases more with
        | nil => exact ⟨tail ++ slashes, by simp⟩
        | cons c more =>
          obtain rfl := hmore c List.mem_cons_self
          exact ⟨more ++ [slash] ++ tail ++ slashes, by simp⟩

/-- The directories that are made for a path are what stands before its slashes. -/
theorem parentPaths_goesOn {full path : Path} (h : path ∈ directoryPaths (dirname full)) :
    path = [46] ∨ GoesOnWithSlash path full := by
  rcases dirname_cases full with hcurrent | hroot | hdir
  · rw [hcurrent] at h
    exact .inl (List.mem_singleton.mp h)
  · rw [hroot] at h
    cases h
  · right
    rcases directoryPaths_goesOn h with rfl | ⟨rest, hrest⟩
    · exact hdir
    · obtain ⟨more, hmore⟩ := hdir
      refine ⟨rest ++ slash :: more, ?_⟩
      rw [← hmore, ← hrest]
      simp

/-- The path that a system call resolves. -/
def FileOp.path? : FileOp → Option Path
  | mkdir path _ => some path
  | chmod path _ => some path
  | chown path _ _ => some path
  | openFile path => some path
  | unlink path => some path
  | symlink _ path => some path
  | lchown path _ _ => some path
  | _ => none

/-- The path of an entry, or of a directory in it that is made. -/
def ProcessorEnv.Touches (env : ProcessorEnv) (op : FileOp) : Prop :=
  ∀ path, op.path? = some path → (∃ fileMeta ∈ env.cdResult.files, path = env.filePath fileMeta) ∨
    ∃ mode, op = .mkdir path mode ∧
      (path = [46] ∨ ∃ fileMeta ∈ env.cdResult.files, GoesOnWithSlash path (env.filePath fileMeta))

/-- All system calls have been made with such paths, and the file that is open is that of an entry. -/
structure PartProcessor.KeepsPaths (env : ProcessorEnv) (p : PartProcessor) : Prop where
  ops : ∀ op ∈ p.ops, env.Touches op
  file : ∀ f ∈ p.currentFile, ∃ fileMeta ∈ env.cdResult.files, f.filename = env.filePath fileMeta

theorem touches_none {env : ProcessorEnv} {op : FileOp} (h : op.path? = none) : env.Touches op := by
  intro path hpath
  rw [h] at hpath
  cases hpath

theorem touches_filePath {env : ProcessorEnv} {op : FileOp} {fileMeta : FileMetadata}
    (hfile : fileMeta ∈ env.cdResult.files) (h : op.path? = some (env.filePath fileMeta)) :
    env.Touches op := by
  intro path hpath
  rw [h] at hpath
  cases hpath
  exact .inl ⟨fileMeta, hfile, rfl⟩

theorem forall_mem_append {α : Type*} {P : α → Prop} {xs ys : List α} (hxs : ∀ x ∈ xs, P x)
    (hys : ∀ y ∈ ys, P y) : ∀ x ∈ xs ++ ys, P x := by
  intro x hx
  rcases List.mem_append.mp hx with h | h
  · exact hxs x h
  · exact hys x h

theorem closeOps_touches {env : ProcessorEnv} {f : FileContext} {fileMeta : FileMetadata}
    (hfile : fileMeta ∈ env.cdResult.files) (hpath : f.filename = env.filePath fileMeta) :
    ∀ op ∈ closeOps env.os f, env.Touches op := by
  intro op hop
  rw [closeOps] at hop
  split at hop
  · rcases List.mem_append.mp hop with hlink | hown
    · simp only [List.mem_cons, List.not_mem_nil, or_false] at hlink
      rcases hlink with rfl | rfl
      · exact touches_filePath hfile (congrArg some hpath)
      · exact touches_filePath hfile (congrArg some hpath)
    · split at hown
      · obtain rfl := List.mem_singleton.mp hown
        exact touches_filePath hfile (congrArg some hpath)
      · cases hown
  · split at hop
    · refine touches_none ?_
      simp only [restoreFileOps, List.mem_append, List.mem_singleton] at hop
      rcases hop with (rfl | hmode | hown) | rfl
      · rfl
      · split at hmode
        · rw [List.mem_singleton.mp hmode]
          rfl
        · cases hmode
      · split at hown
        · rw [List.mem_singleton.mp hown]
          rfl
        · cases hown
      · rfl
    · cases hop

theorem closeOutputFile_keepsPaths {env : ProcessorEnv} {p : PartProcessor} (hp : p.KeepsPaths env) :
    (closeOutputFile env.os p).KeepsPaths env := by
  rw [closeOutputFile]
  split
  · exact hp
  · next f hf =>
    obtain ⟨fileMeta, hfile, hpath⟩ := hp.file f hf
    exact ⟨forall_mem_append hp.ops (closeOps_touches hfile hpath), by rintro _ ⟨⟩⟩

theorem mkdirAll_forall {os : Os} {P : FileOp → Prop} {ops : List FileOp} {paths : List Path}
    (hops : ∀ op ∈ ops, P op) (hpaths : ∀ path ∈ paths, P (.mkdir path 0o755)) :
    ∀ op ∈ (mkdirAll os ops paths).2, P op := by
  induction paths generalizing ops with
  | nil => exact hops
  | cons path paths ih =>
    have hmade : ∀ op ∈ ops ++ [.mkdir path 0o755], P op := by
      apply forall_mem_append hops
      intro op hop
      rw [List.mem_singleton.mp hop]
      exact hpaths path List.mem_cons_self
    have hlater := ih hmade fun path hmem ↦ hpaths path (List.mem_cons_of_mem _ hmem)
    rw [mkdirAll]
    split
    · exact hlater
    · exact hlater
    · split
      · exact hlater
      · exact hmade

theorem makeDirectory_keepsPaths {env : ProcessorEnv} {p : PartProcessor}
    (hp : ∀ op ∈ p.ops, env.Touches op) {f : FileContext} {fileMeta : FileMetadata}
    (hfile : fileMeta ∈ env.cdResult.files) (hpath : f.filename = env.filePath fileMeta)
    (hnone : p.currentFile = none) : (makeDirectory env.os p f).2.KeepsPaths env := by
  have hmade : ∀ op ∈ p.ops ++ [.mkdir f.filename 0o755], env.Touches op := by
    apply forall_mem_append hp
    intro op hop
    rw [List.mem_singleton.mp hop]
    exact touches_filePath hfile (congrArg some hpath)
  have hopened : ∀ g ∈ some f, ∃ fileMeta ∈ env.cdResult.files, g.filename = env.filePath fileMeta := by
    rintro g ⟨⟩
    exact ⟨fileMeta, hfile, hpath⟩
  have hrestore (op : FileOp) (hop : op ∈
      (if f.hasUnixMode then [FileOp.chmod f.filename (f.unixMode % 0o10000)] else []) ++
        if f.hasUnixExtra ∧ env.os.isRoot then [.chown f.filename f.uid f.gid] else []) :
      env.Touches op := by
    refine touches_filePath hfile ?_
    rcases List.mem_append.mp hop with hmode | hown
    · split at hmode
      · rw [List.mem_singleton.mp hmode]
        exact congrArg some hpath
      · cases hmode
    · split at hown
      · rw [List.mem_singleton.mp hown]
        exact congrArg some hpath
      · cases hown
  rw [makeDirectory]
  split
  · exact ⟨forall_mem_append hmade hrestore, hopened⟩
  · exact ⟨forall_mem_append hmade hrestore, hopened⟩
  · refine ⟨hmade, fun g hg ↦ ?_⟩
    rw [show p.currentFile = some g from hg] at hnone
    cases hnone

theorem openOutputPath_keepsPaths {env : ProcessorEnv} {p : PartProcessor} (hp : p.KeepsPaths env)
    (hnone : p.currentFile = none) {f : FileContext} {fileMeta : FileMetadata}
    (hfile : fileMeta ∈ env.cdResult.files) (hpath : f.filename = env.filePath fileMeta) :
    (openOutputPath env p f).2.KeepsPaths env := by
  have hparents (path : Path) (hmem : path ∈ directoryPaths (dirname f.filename)) :
      env.Touches (.mkdir path 0o755) := by
    rintro _ ⟨⟩
    rw [hpath] at hmem
    refine .inr ⟨0o755, rfl, ?_⟩
    exact (parentPaths_goesOn hmem).imp_right fun hgoes ↦ ⟨fileMeta, hfile, hgoes⟩
  have hdirs := @mkdirAll_forall env.os _ p.ops _ hp.ops hparents
  have hclosed (q : PartProcessor) (hops : ∀ op ∈ q.ops, env.Touches op) (hq : q.currentFile = none) :
      q.KeepsPaths env := by
    refine ⟨hops, fun g hg ↦ ?_⟩
    rw [hq] at hg
    cases hg
  have hopened (q : PartProcessor) (hops : ∀ op ∈ q.ops, env.Touches op) {g : FileContext}
      (hq : q.currentFile = some g) (hg : g.filename = f.filename) : q.KeepsPaths env := by
    refine ⟨hops, fun g' hg' ↦ ?_⟩
    rw [hq] at hg'
    cases hg'
    exact ⟨fileMeta, hfile, hg.trans hpath⟩
  rw [openOutputPath, ensureDirectoryExists]
  generalize mkdirAll env.os p.ops (directoryPaths (dirname f.filename)) = made at hdirs
  obtain ⟨_ | _, ops⟩ := made
  · exact hclosed _ hdirs hnone
  · dsimp only
    split
    · exact makeDirectory_keepsPaths hdirs hfile hpath hnone
    · split
      · rw [allocateSymlinkBuffer]
        split
        · exact hclosed _ hdirs hnone
        · exact hopened _ hdirs rfl rfl
      · have hopen : ∀ op ∈ ops ++ [.openFile f.filename], env.Touches op := by
          apply forall_mem_append hdirs
          intro op hop
          rw [List.mem_singleton.mp hop]
          exact touches_filePath hfile (congrArg some hpath)
        rw [openRegularFile]
        split
        · exact hopened _ hopen rfl rfl
        · exact hclosed _ hopen hnone

theorem openOutputFile_keepsPaths {env : ProcessorEnv} {p : PartProcessor} (hp : p.KeepsPaths env)
    {fileMeta : FileMetadata} (hfile : fileMeta ∈ env.cdResult.files) :
    (openOutputFile env p fileMeta).2.KeepsPaths env :=
  openOutputPath_keepsPaths (closeOutputFile_keepsPaths hp) (closeOutputFile_currentFile env.os p) hfile
    rfl

theorem continuingFile_mem {env : ProcessorEnv} {fileMeta : FileMetadata}
    (h : env.continuingFile = some fileMeta) : fileMeta ∈ env.cdResult.files := by
  obtain ⟨i, -, hi⟩ := Option.bind_eq_some_iff.mp h
  exact List.mem_of_getElem? hi

theorem nextFile_mem {env : ProcessorEnv} {i : ℕ} {fileMeta : FileMetadata}
    (h : env.nextFile i = some fileMeta) : fileMeta ∈ env.cdResult.files := by
  obtain ⟨entry, -, hentry⟩ := Option.bind_eq_some_iff.mp h
  exact List.mem_of_getElem? hentry

theorem PartProcessor.KeepsPaths.setUncompressedOffset {env : ProcessorEnv} {p : PartProcessor}
    (h : p.KeepsPaths env) (offset : ℕ) : (p.setUncompressedOffset offset).KeepsPaths env := by
  refine ⟨h.ops, fun g hg ↦ ?_⟩
  obtain ⟨f, hf, rfl⟩ := Option.map_eq_some_iff.mp hg
  exact h.file f hf

theorem handleStartOfPartFrame_keepsPaths {env : ProcessorEnv} {p : PartProcessor}
    (hp : p.KeepsPaths env) (offset : ℕ) : (handleStartOfPartFrame env p offset).2.KeepsPaths env := by
  rw [handleStartOfPartFrame]
  split
  · exact hp.setUncompressedOffset offset
  · split
    · exact ⟨hp.ops, hp.file⟩
    · next fileMeta hcontinuing =>
      have hopen := openOutputFile_keepsPaths hp (continuingFile_mem hcontinuing)
      split
      · next heq =>
        rw [heq] at hopen
        exact hopen
      · next heq =>
        rw [heq] at hopen
        exact hopen.setUncompressedOffset offset

theorem doWriteEncoded_path? (os : Os) (zstd : ZstdLib) {ops : List FileOp} {P : FileOp → Prop}
    (hops : ∀ op ∈ ops, P op) (hnone : ∀ op : FileOp, op.path? = none → P op) (path : Path)
    (frame : List UInt8) (len offset : ℕ) :
    ∀ op ∈ (doWriteEncoded os zstd ops path frame len offset).2, P op := by
  have hplain {ops : List FileOp} (hops : ∀ op ∈ ops, P op) :
      ∀ op ∈ (doWriteUnencoded os zstd ops path frame len offset).2, P op := by
    rw [doWriteUnencoded]
    split
    · exact hops
    · split
      · exact hops
      · split
        · exact hops
        · next data _ =>
          have hwritten : ∀ op ∈ ops ++ [.pwrite path data offset], P op := by
            apply forall_mem_append hops
            intro op hop
            rw [List.mem_singleton.mp hop]
            exact hnone _ rfl
          dsimp only
          split
          · exact hwritten
          · exact hwritten
  have hencoded : ∀ op ∈ ops ++ [.encodedWrite path frame len offset], P op := by
    apply forall_mem_append hops
    intro op hop
    rw [List.mem_singleton.mp hop]
    exact hnone _ rfl
  rw [doWriteEncoded]
  split
  · exact hops
  · split
    · exact hplain hops
    · split
      · exact hops
      · dsimp only
        split
        · exact hencoded
        · exact hplain hencoded
        · exact hplain hencoded
        · exact hencoded

theorem handleZstdFrame_keepsPaths {env : ProcessorEnv} {p : PartProcessor} (hp : p.KeepsPaths env)
    (frame : List UInt8) (uncompressedSize : ℕ) :
    (handleZstdFrame env p frame uncompressedSize).2.KeepsPaths env := by
  rw [handleZstdFrame]
  split
  · exact ⟨hp.ops, hp.file⟩
  · next f hf =>
    split
    · exact ⟨hp.ops, hp.file⟩
    · have hops := doWriteEncoded_path? env.os env.zstd hp.ops (fun op h ↦ touches_none h) f.filename frame
        uncompressedSize f.uncompressedOffset
      split
      · next heq =>
        rw [heq] at hops
        exact ⟨hops, hp.file⟩
      · next heq =>
        rw [heq] at hops
        exact PartProcessor.KeepsPaths.setUncompressedOffset (p := { p with ops := _ })
          ⟨hops, hp.file⟩ _

theorem LoopStep.after_keepsPaths {env : ProcessorEnv} {result : Option StreamProcError × PartProcessor}
    {next : PartProcessor → LoopStep} (h : result.2.KeepsPaths env)
    (hnext : ∀ p : PartProcessor, p.KeepsPaths env → (next p).state.KeepsPaths env) :
    (LoopStep.after result next).state.KeepsPaths env := by
  obtain ⟨_ | e, p⟩ := result
  · exact hnext p h
  · exact h

theorem stepLocalHeader_keepsPaths {env : ProcessorEnv} {p : PartProcessor} (hp : p.KeepsPaths env)
    (bs : List UInt8) : (stepLocalHeader env p bs).state.KeepsPaths env := by
  rw [stepLocalHeader, handleLocalHeader]
  split_ifs
  · exact hp
  · exact hp
  · exact ⟨hp.ops, hp.file⟩
  · cases hnext : env.nextFile p.nextEntryIdx with
    | none => exact ⟨hp.ops, hp.file⟩
    | some fileMeta =>
      have hopen := openOutputFile_keepsPaths hp (nextFile_mem hnext)
      dsimp only
      generalize openOutputFile env p fileMeta = result at hopen ⊢
      obtain ⟨_ | e, q⟩ := result
      · have hset := hopen.setUncompressedOffset 0
        exact ⟨hset.ops, hset.file⟩
      · exact hopen

/-- A round keeps to the paths of the entries. -/
theorem step_keepsPaths {env : ProcessorEnv} {p : PartProcessor} (hp : p.KeepsPaths env)
    (bs : List UInt8) : (step env p bs).state.KeepsPaths env := by
  have hclosed := closeOutputFile_keepsPaths hp
  rw [step]
  split
  · rw [stepInit]
    split
    · exact ⟨hp.ops, hp.file⟩
    · exact ⟨hp.ops, hp.file⟩
  · rw [stepContinuingFile]
    split
    · exact hp
    · exact ⟨hp.ops, hp.file⟩
    · split
      · exact ⟨hp.ops, hp.file⟩
      · exact LoopStep.after_keepsPaths (handleStartOfPartFrame_keepsPaths hp _)
          fun q hq ↦ ⟨hq.ops, hq.file⟩
  · rw [stepExpectLocalHeader]
    split
    · exact ⟨hp.ops, hp.file⟩
    · split
      · exact hp
      · exact ⟨hp.ops, hp.file⟩
      · split
        · exact ⟨hp.ops, hp.file⟩
        · exact ⟨hp.ops, hp.file⟩
        · exact stepLocalHeader_keepsPaths hp bs
        · exact ⟨hp.ops, hp.file⟩
  · rw [stepProcessingFrames]
    split
    · exact hp
    · exact ⟨hp.ops, hp.file⟩
    · split
      · split
        · exact hp
        · exact LoopStep.after_keepsPaths (handleZstdFrame_keepsPaths hp _ _)
            fun q hq ↦ ⟨hq.ops, hq.file⟩
      · exact ⟨hp.ops, hp.file⟩
      · split
        · exact ⟨hp.ops, hp.file⟩
        · exact LoopStep.after_keepsPaths (handleStartOfPartFrame_keepsPaths hp _)
            fun q hq ↦ ⟨hq.ops, hq.file⟩
      · exact ⟨hclosed.ops, hclosed.file⟩
      · exact ⟨hclosed.ops, hclosed.file⟩
      · exact ⟨hclosed.ops, hclosed.file⟩
  · rw [stepReadingSymlink]
    split
    · exact ⟨hp.ops, hp.file⟩
    · next f hf =>
      split
      · exact ⟨hp.ops, hp.file⟩
      · next target _ =>
        have hread (target : List UInt8) (n : ℕ) :
            ((p.consume n).setSymlinkTarget f target).KeepsPaths env := by
          refine ⟨hp.ops, fun g hg ↦ ?_⟩
          cases hg
          exact hp.file f hf
        rw [afterSymlinkBytes]
        split
        · have hlinked := closeOutputFile_keepsPaths (hread (target ++
            bs.take (symlinkBytesToCopy f target bs)) (symlinkBytesToCopy f target bs))
          exact ⟨hlinked.ops, hlinked.file⟩
        · exact hread _ _
  · exact hp
  · exact hp

end Burst
