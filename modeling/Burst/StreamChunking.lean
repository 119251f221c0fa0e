import Burst.StreamStability

namespace Burst

open LittleEndian Incremental

/-- Feeding chunks in order and finalizing: the first error any call returns, and the processor
afterwards; `none` when a call does not return. -/
def feed (env : ProcessorEnv) : PartProcessorState → List (List UInt8) →
    Option (Option StreamProcError × PartProcessorState)
  | s, [] => some (partProcessorFinalize env s)
  | s, chunk :: chunks =>
    match partProcessorProcessData env s chunk with
    | none => none
    | some (e, s) => (feed env s chunks).map fun r ↦ (e.or r.1, r.2)

/-- The outcome of feeding chunks and the system calls made. -/
def feedOutcome (env : ProcessorEnv) (s : PartProcessorState) (chunks : List (List UInt8)) :
    Option (Option StreamProcError × List FileOp) :=
  (feed env s chunks).map fun r ↦ (r.1, r.2.ops)

/-- No call meets a data descriptor that its work buffer cuts, unless no entries are to come. -/
def NoCutDescriptor (env : ProcessorEnv) : PartProcessorState → List (List UInt8) → Prop
  | _, [] => True
  | s, chunk :: chunks =>
    (∀ q bs, Visits (step env) s.toPartProcessor (s.frameBuffer ++ chunk) q bs →
      ¬ CutsDescriptor env q bs) ∧
    ∀ e t, partProcessorProcessData env s chunk = some (e, t) → NoCutDescriptor env t chunks

/-- What finalizing makes of the end of a loop. -/
def conclude (env : ProcessorEnv) : LoopEnd → Option StreamProcError × List FileOp
  | .finished p remaining => (if remaining = [] then none else some .unexpectedEof,
      (closeOutputFile env.os p).ops)
  | .stopped e p => (some e, (closeOutputFile env.os p).ops)

/-- The outcome of one loop over all of the bytes. -/
def Concludes (env : ProcessorEnv) (p : PartProcessor) (bs : List UInt8)
    (o : Option (Option StreamProcError × List FileOp)) : Prop :=
  (∃ r, Ends (step env) (settle env) p bs r ∧ o = some (conclude env r)) ∨
    ((∀ n, Incremental.run (step env) n p bs = none) ∧ o = none)

theorem Concludes.unique {env : ProcessorEnv} {p : PartProcessor} {bs : List UInt8}
    {o o' : Option (Option StreamProcError × List FileOp)} (h : Concludes env p bs o)
    (h' : Concludes env p bs o') : o = o' := by
  rcases h with ⟨r, hr, rfl⟩ | ⟨hnone, rfl⟩ <;> rcases h' with ⟨r', hr', rfl⟩ | ⟨hnone', rfl⟩
  · rw [hr.unique hr']
  · obtain ⟨n, q, hq, -⟩ := hr
    rw [hnone' n] at hq
    cases hq
  · obtain ⟨n, q, hq, -⟩ := hr'
    rw [hnone n] at hq
    cases hq
  · rfl

theorem closeOutputFile_enter_ops (os : Os) (p : PartProcessor) (state : ProcessorState) :
    (closeOutputFile os (p.enter state)).ops = (closeOutputFile os p).ops := by
  cases hf : p.currentFile <;> simp [closeOutputFile, PartProcessor.enter, hf]

theorem conclude_mapState (env : ProcessorEnv) (r : LoopEnd) :
    conclude env (r.mapState (settle env)) = conclude env r := by
  cases r with
  | finished p remaining =>
    simp only [End.mapState, conclude]
    by_cases h : p.state = .expectLocalHeader ∧ env.part.entries.length ≤ p.nextEntryIdx
    · rw [settle, if_pos h, closeOutputFile_enter_ops]
    · rw [settle, if_neg h]
  | stopped e p => rfl

/-- What the processor keeps in its buffer is what its loop waits with. -/
def Waiting (env : ProcessorEnv) (s : PartProcessorState) : Prop :=
  s.frameBuffer = [] ∨ step env s.toPartProcessor s.frameBuffer = .wait s.toPartProcessor

theorem feed_nil_concludes {env : ProcessorEnv} {s : PartProcessorState} (h : Waiting env s) :
    Concludes env s.toPartProcessor s.frameBuffer (feedOutcome env s []) := by
  left
  have hrun : Incremental.run (step env) 1 s.toPartProcessor s.frameBuffer =
      some (.finished s.toPartProcessor s.frameBuffer) := by
    by_cases hnil : s.frameBuffer = []
    · rw [hnil, run_nil]
    · exact run_wait hnil (h.resolve_left hnil) 0
  refine ⟨_, ⟨1, _, hrun, rfl⟩, ?_⟩
  rw [conclude_mapState]
  simp only [feedOutcome, feed, partProcessorFinalize, conclude, Option.map_some]
  by_cases hnil : s.frameBuffer = []
  · simp [hnil, PartProcessor.enter]
  · simp [hnil, PartProcessor.fail]

theorem concludes_done {env : ProcessorEnv} {p : PartProcessor} (hp : p.state = .done)
    (bs : List UInt8) (o : Option (Option StreamProcError × List FileOp)) :
    Concludes env p bs o ↔ o = some (conclude env (.finished p [])) := by
  have hend : Ends (step env) (settle env) p bs (.finished p []) := (ends_done hp bs _).mpr rfl
  constructor
  · intro h
    exact h.unique (.inl ⟨_, hend, rfl⟩)
  · rintro rfl
    exact .inl ⟨_, hend, rfl⟩

/-- After an error no call makes another system call before finalizing. -/
theorem feed_error (env : ProcessorEnv) {s : PartProcessorState} (h : s.state = .error)
    (chunks : List (List UInt8)) :
    ∃ e, feed env s chunks = some (e, (partProcessorFinalize env s).2) := by
  induction chunks with
  | nil => exact ⟨_, rfl⟩
  | cons chunk chunks ih =>
    obtain ⟨e, he⟩ := ih
    refine ⟨s.errorCode.or e, ?_⟩
    simp only [feed, partProcessorProcessData, h, he, Option.map_some]

theorem partProcessorFinalize_ops (env : ProcessorEnv) (s : PartProcessorState) :
    (partProcessorFinalize env s).2.ops = (closeOutputFile env.os s.toPartProcessor).ops := by
  rw [partProcessorFinalize]
  split <;> rfl

theorem partProcessorProcessData_eq (env : ProcessorEnv) {s : PartProcessorState}
    (herror : s.state ≠ .error) (hdone : s.state ≠ .done) (data : List UInt8) :
    partProcessorProcessData env s data =
      match mainLoop env (loopRounds (s.frameBuffer ++ data)) s.toPartProcessor
        (s.frameBuffer ++ data) with
      | none => none
      | some (.finished p remaining) => some (none, ⟨p, remaining⟩)
      | some (.stopped e p) =>
        some (some e, ⟨p, if s.frameBuffer = [] then [] else s.frameBuffer ++ data⟩) := by
  rw [partProcessorProcessData]
  split
  · next h => exact (herror h).elim
  · next h => exact (hdone h).elim
  · rfl

/-- Feeding chunks comes to what one loop over all of the bytes comes to. -/
theorem feed_concludes {env : ProcessorEnv} (hz : env.zstd.Stable) {s : PartProcessorState}
    {chunks : List (List UInt8)} (hcut : NoCutDescriptor env s chunks) (hwait : Waiting env s)
    (hstate : s.state ≠ .error) :
    Concludes env s.toPartProcessor (s.frameBuffer ++ chunks.flatten) (feedOutcome env s chunks) := by
  induction chunks generalizing s with
  | nil => simpa using feed_nil_concludes hwait
  | cons chunk chunks ih =>
    obtain ⟨hvisits, hrest⟩ := hcut
    by_cases hdone : s.state = .done
    · have hcall : partProcessorProcessData env s chunk = some (none, s) := by
        rw [partProcessorProcessData]
        simp only [hdone]
      have hbuffer : s.frameBuffer = [] := by
        refine hwait.resolve_right fun hstep ↦ ?_
        rw [step, hdone] at hstep
        cases hstep
      have hnext := ih (hrest none s hcall) hwait hstate
      have houtcome : feedOutcome env s (chunk :: chunks) = feedOutcome env s chunks := by
        simp [feedOutcome, feed, hcall]
      rw [houtcome]
      exact (concludes_done hdone _ _).mpr ((concludes_done hdone _ _).mp hnext)
    · rw [List.flatten_cons, ← List.append_assoc]
      have hext : Extensible (step env) (settle env) s.toPartProcessor (s.frameBuffer ++ chunk)
          chunks.flatten :=
        fun q bs hvisit hbs ↦ step_extends hz hbs (hvisits q bs hvisit) _
      have hcall := partProcessorProcessData_eq env hstate hdone chunk
      cases hrun : mainLoop env (loopRounds (s.frameBuffer ++ chunk)) s.toPartProcessor
          (s.frameBuffer ++ chunk) with
      | none =>
        rw [hrun] at hcall
        refine .inr ⟨fun n ↦ hext.endless_append (fun n ↦ ?_) n, ?_⟩
        · cases hn : Incremental.run (step env) n s.toPartProcessor (s.frameBuffer ++ chunk) with
          | none => rfl
          | some r => rw [mainLoop_enough hn] at hrun; cases hrun
        · simp [feedOutcome, feed, hcall]
      | some r =>
        cases r with
        | finished p remaining =>
          rw [hrun] at hcall
          have hnext := ih (hrest none ⟨p, remaining⟩ hcall) (hext.waits hrun)
            (mainLoop_finished_state hstate hrun)
          have houtcome : feedOutcome env s (chunk :: chunks) =
              feedOutcome env ⟨p, remaining⟩ chunks := by
            simp [feedOutcome, feed, hcall]
          rw [houtcome]
          rcases hnext with ⟨r, hr, ho⟩ | ⟨hnone, ho⟩
          · exact .inl ⟨r, (hext.ends_append hrun r).mpr hr, ho⟩
          · refine .inr ⟨fun n ↦ ?_, ho⟩
            cases hn : Incremental.run (step env) n s.toPartProcessor
                (s.frameBuffer ++ chunk ++ chunks.flatten) with
            | none => rfl
            | some q =>
              obtain ⟨m, q', hq', -⟩ := (hext.ends_append hrun _).mp ⟨n, q, hn, rfl⟩
              rw [hnone m] at hq'
              cases hq'
        | stopped e p =>
          rw [hrun] at hcall
          obtain ⟨e', he'⟩ := feed_error env
            (s := ⟨p, if s.frameBuffer = [] then [] else s.frameBuffer ++ chunk⟩)
            (mainLoop_stopped_state hrun) chunks
          refine .inl ⟨.stopped e p, hext.stopped_append hrun, ?_⟩
          simp only [feedOutcome, feed, hcall, he', Option.map_some, Option.some_or,
            partProcessorFinalize_ops, conclude]

/-- Two ways of cutting the same bytes into chunks lead to the same system calls and to the same
outcome, as long as no call meets a data descriptor that it cuts while entries are to come. -/
theorem feedOutcome_chunking {env : ProcessorEnv} (hz : env.zstd.Stable) (ops : List FileOp)
    {chunks chunks' : List (List UInt8)} (hsame : chunks.flatten = chunks'.flatten)
    (hcut : NoCutDescriptor env (partProcessorCreate ops) chunks)
    (hcut' : NoCutDescriptor env (partProcessorCreate ops) chunks') :
    feedOutcome env (partProcessorCreate ops) chunks =
      feedOutcome env (partProcessorCreate ops) chunks' := by
  have h := feed_concludes hz hcut (.inl rfl) (by simp [partProcessorCreate])
  have h' := feed_concludes hz hcut' (.inl rfl) (by simp [partProcessorCreate])
  rw [hsame] at h
  exact h.unique h'

/-- A local header as the downloader meets it, with a name of one letter. -/
def plainLocalHeader (name : UInt8) : List UInt8 :=
  ZipLocalHeader.fixedBytes {
    signature := zipLocalFileHeaderSig
    versionNeeded := zipVersionZstd
    flags := zipFlagDataDescriptor
    compressionMethod := zipMethodZstd
    lastModTime := 0
    lastModDate := 33
    crc32 := 0
    compressedSize := 0
    uncompressedSize := 0
    filenameLength := 1
    extraFieldLength := 0 } ++ [name]

def plainDescriptor : List UInt8 := dataDescriptorBytes 0 0 0 false

def plainFile (name : UInt8) (localHeaderOffset : ℕ) : FileMetadata where
  filename := [name]
  localHeaderOffset := localHeaderOffset
  compressedSize := 0
  uncompressedSize := 0
  crc32 := 0
  compressionMethod := zipMethodZstd
  partIndex := 0
  unixMode := 0
  uid := 0
  gid := 0
  hasUnixMode := false
  hasUnixExtra := false
  isSymlink := false
  usesZip64Descriptor := false

/-- Every call succeeds. -/
def obligingOs : Os where
  respond _ op := match op with
    | .pwrite _ data _ => .ok data.length
    | _ => .ok 0
  statIsDir _ _ := true
  isRoot := true

/-- No frame is ever complete. -/
def hungryZstd : ZstdLib where
  findFrameCompressedSize _ := .srcSizeWrong
  getFrameContentSize _ := .unknown
  decompressDCtx _ _ := none

theorem hungryZstd_stable : hungryZstd.Stable := by
  constructor <;> intro bs <;> simp [hungryZstd]

/-- The one part of an archive of the empty files `a` and `b`. -/
def twoFilesEnv : ProcessorEnv where
  os := obligingOs
  zstd := hungryZstd
  cdResult := {
    files := [plainFile 97 0, plainFile 98 47]
    parts := [⟨[⟨0, 0⟩, ⟨1, 47⟩], none⟩]
    centralDirOffset := 94
    centralDirSize := 94
    isZip64 := false }
  outputDir := []
  partIndex := 0
  partSize := burstPartSize

def twoFilesBytes : List UInt8 :=
  plainLocalHeader 97 ++ plainDescriptor ++ plainLocalHeader 98 ++ plainDescriptor

instance (env : ProcessorEnv) (p : PartProcessor) (bs : List UInt8) :
    Decidable (CutsDescriptor env p bs) := by
  unfold CutsDescriptor
  infer_instance

/-- Whether a loop of at most so many rounds comes by no data descriptor that it cuts. -/
def loopCutsNone (env : ProcessorEnv) : ℕ → PartProcessor → List UInt8 → Bool
  | 0, _, _ => false
  | n + 1, p, bs =>
    if CutsDescriptor env p bs then false
    else
      match step env p bs with
      | .next p rest => bs = [] || loopCutsNone env n p rest
      | _ => true

theorem loopCutsNone_visits {env : ProcessorEnv} {n : ℕ} {p q : PartProcessor} {bs rest : List UInt8}
    (hcheck : loopCutsNone env n p bs) (h : Visits (step env) p bs q rest) :
    ¬ CutsDescriptor env q rest := by
  induction h generalizing n with
  | here =>
    cases n with
    | zero => simp [loopCutsNone] at hcheck
    | succ n =>
      intro hcut
      simp [loopCutsNone, hcut] at hcheck
  | later hbs hstep _ ih =>
    cases n with
    | zero => simp [loopCutsNone] at hcheck
    | succ n =>
      rw [loopCutsNone, hstep] at hcheck
      split_ifs at hcheck with hcut
      exact ih (by simpa [hbs] using hcheck)

/-- Whether no call meets a data descriptor that its work buffer cuts. -/
def feedCutsNone (env : ProcessorEnv) : PartProcessorState → List (List UInt8) → Bool
  | _, [] => true
  | s, chunk :: chunks =>
    loopCutsNone env (loopRounds (s.frameBuffer ++ chunk)) s.toPartProcessor
        (s.frameBuffer ++ chunk) &&
      match partProcessorProcessData env s chunk with
      | none => true
      | some (_, s) => feedCutsNone env s chunks

theorem feedCutsNone_sound {env : ProcessorEnv} {s : PartProcessorState}
    {chunks : List (List UInt8)} (h : feedCutsNone env s chunks) : NoCutDescriptor env s chunks := by
  induction chunks generalizing s with
  | nil => trivial
  | cons chunk chunks ih =>
    rw [feedCutsNone, Bool.and_eq_true] at h
    refine ⟨fun q bs hvisit ↦ loopCutsNone_visits h.1 hvisit, fun e t hcall ↦ ih ?_⟩
    have hrest := h.2
    rw [hcall] at hrest
    exact hrest

theorem feedOutcome_chunking_sample :
    feedOutcome twoFilesEnv (partProcessorCreate []) [twoFilesBytes] =
      feedOutcome twoFilesEnv (partProcessorCreate [])
        [twoFilesBytes.take 10, (twoFilesBytes.drop 10).take 60, twoFilesBytes.drop 70] :=
  feedOutcome_chunking hungryZstd_stable [] (by decide +kernel) (feedCutsNone_sound (by decide +kernel))
    (feedCutsNone_sound (by decide +kernel))

/-- With the whole part in one chunk the two files come out; a chunk that ends after the signature
of the first data descriptor makes the rest of the descriptor the next frame. -/
theorem cutDescriptor_changes_outcome :
    ([twoFilesBytes].flatten = [twoFilesBytes.take 35, twoFilesBytes.drop 35].flatten ∧
      ∀ chunk ∈ [twoFilesBytes, twoFilesBytes.take 35, twoFilesBytes.drop 35], chunk ≠ []) ∧
    (feedOutcome twoFilesEnv (partProcessorCreate []) [twoFilesBytes]).map Prod.fst = some none ∧
    (feedOutcome twoFilesEnv (partProcessorCreate [])
      [twoFilesBytes.take 35, twoFilesBytes.drop 35]).map Prod.fst =
        some (some .invalidFrame) := by
  decide +kernel

end Burst
