import Burst.StreamProcessor

namespace Burst

open LittleEndian Incremental

def ProcessorState.rank : ProcessorState → ℕ
  | .init => 3
  | .continuingFile => 2
  | .processingFrames => 2
  | .readingSymlink => 2
  | .expectLocalHeader => 1
  | .done => 0
  | .error => 0

def loopMeasure (p : PartProcessor) (bs : List UInt8) : ℕ := 4 * bs.length + p.state.rank

theorem loopMeasure_lt_of_drop (p q : PartProcessor) {bs : List UInt8} {n : ℕ} (hn : 0 < n)
    (hbs : bs ≠ []) : loopMeasure q (bs.drop n) < loopMeasure p bs := by
  have hlen := List.length_pos_of_ne_nil hbs
  have hrank : q.state.rank ≤ 3 := by cases q.state <;> decide
  rw [loopMeasure, loopMeasure, List.length_drop]
  omega

theorem LoopStep.after_next {result : Option StreamProcError × PartProcessor}
    {next : PartProcessor → LoopStep} {q : PartProcessor} {rest : List UInt8}
    (h : LoopStep.after result next = .next q rest) :
    ∃ p, result = (none, p) ∧ next p = .next q rest := by
  obtain ⟨_ | e, p⟩ := result
  · exact ⟨p, rfl, h⟩
  · cases h

theorem handleZstdFrame_nil (env : ProcessorEnv) (p q : PartProcessor) (uncompressedSize : ℕ) :
    handleZstdFrame env p [] uncompressedSize ≠ (none, q) := by
  rw [handleZstdFrame]
  split
  · simp
  · split
    · simp
    · simp [doWriteEncoded]

theorem handleLocalHeader_consumed {env : ProcessorEnv} {p : PartProcessor} {bs : List UInt8} :
    (∀ {n q}, handleLocalHeader env p bs = .success n q → n = localHeaderSize bs) ∧
      ∀ {n}, handleLocalHeader env p bs = .skippedPadding n → n = localHeaderSize bs := by
  rw [handleLocalHeader]
  constructor
  · intro n q h
    split_ifs at h
    split at h
    · cases h
    · split at h
      · cases h
      · cases h
        rfl
  · intro n h
    split_ifs at h
    · cases h
      rfl
    · split at h
      · cases h
      · split at h <;> cases h

/-- A padding frame whose 32-bit size wraps around to zero. -/
def EmptyFrame (bs : List UInt8) : Prop :=
  8 ≤ bs.length ∧ read bs 0 4 = burstSkippableMagic ∧ read bs 4 4 = 2 ^ 32 - 8

/-- The loop is where it skips padding, and the padding takes no bytes. -/
def Stalls (env : ProcessorEnv) (p : PartProcessor) (bs : List UInt8) : Prop :=
  EmptyFrame bs ∧ (p.state = .processingFrames ∨
    p.state = .expectLocalHeader ∧ p.nextEntryIdx < env.part.entries.length)

instance (bs : List UInt8) : Decidable (EmptyFrame bs) := by
  unfold EmptyFrame
  infer_instance

instance (env : ProcessorEnv) (p : PartProcessor) (bs : List UInt8) :
    Decidable (Stalls env p bs) := by
  unfold Stalls
  infer_instance

theorem parseNextFrame_emptyFrame_iff {zstd : ZstdLib} {bs : List UInt8} :
    EmptyFrame bs ↔ ∃ info, parseNextFrame zstd bs = .success info ∧
      info.type = .burstPadding ∧ info.frameSize = 0 := by
  constructor
  · rintro ⟨hlen, hmagic, hpayload⟩
    refine ⟨⟨.burstPadding, 0, 0, 0⟩, ?_, rfl, rfl⟩
    rw [parseNextFrame, if_neg (by omega), hmagic, if_neg (by decide), if_neg (by decide),
      if_neg (by decide), if_neg (by decide), if_pos rfl, parseSkippableFrame, if_neg (by omega),
      skippableFrameSize, hpayload, if_neg (by omega), if_neg (by omega)]
    rfl
  · rintro ⟨info, hparse, htype, hsize⟩
    rw [parseNextFrame] at hparse
    split_ifs at hparse with hshort hlocal hdescriptor hdirectory hzstd hskippable
    · rw [parseLocalHeaderFrame] at hparse
      split_ifs at hparse
      obtain rfl := FrameResult.success.inj hparse
      cases htype
    · obtain rfl := FrameResult.success.inj hparse
      cases htype
    · obtain rfl := FrameResult.success.inj hparse
      cases htype
    · rw [parseZstdFrame] at hparse
      split at hparse
      · cases hparse
      · cases hparse
      · split at hparse
        · obtain rfl := FrameResult.success.inj hparse
          cases htype
        · cases hparse
        · cases hparse
    · rw [parseSkippableFrame] at hparse
      split_ifs at hparse with height
      · obtain rfl := FrameResult.success.inj hparse
        cases htype
      · obtain rfl := FrameResult.success.inj hparse
        have hread := read_lt bs 4 4
        change (8 + read bs 4 4) % 2 ^ 32 = 0 at hsize
        exact ⟨by omega, hskippable, by omega⟩

theorem stepProcessingFrames_measure {env : ProcessorEnv} {p q : PartProcessor}
    (hp : p.state = .processingFrames) {bs rest : List UInt8} (hbs : bs ≠ [])
    (h : stepProcessingFrames env p bs = .next q rest) :
    Stalls env p bs ∨ loopMeasure q rest < loopMeasure p bs := by
  rw [stepProcessingFrames] at h
  split at h
  · cases h
  · cases h
  · next info hparse =>
    split at h
    · split at h
      · cases h
      · next hlen =>
        obtain ⟨t, ht, hnext⟩ := LoopStep.after_next h
        obtain ⟨rfl, rfl⟩ := Step.next.inj hnext
        refine .inr (loopMeasure_lt_of_drop _ _ (Nat.pos_of_ne_zero fun hzero ↦ ?_) hbs)
        rw [hzero, List.take_zero] at ht
        exact handleZstdFrame_nil _ _ _ _ ht
    · next htype =>
      obtain ⟨rfl, rfl⟩ := Step.next.inj h
      rcases Nat.eq_zero_or_pos info.frameSize with hzero | hpos
      · exact .inl ⟨parseNextFrame_emptyFrame_iff.mpr ⟨info, hparse, htype, hzero⟩, .inl hp⟩
      · exact .inr (loopMeasure_lt_of_drop _ _ hpos hbs)
    · next htype =>
      split at h
      · cases h
      · obtain ⟨t, -, hnext⟩ := LoopStep.after_next h
        obtain ⟨rfl, rfl⟩ := Step.next.inj hnext
        obtain ⟨hsize, -⟩ := (parseNextFrame_success hparse).2.2.1 htype
        exact .inr (loopMeasure_lt_of_drop _ _ (by omega) hbs)
    · obtain ⟨rfl, rfl⟩ := Step.next.inj h
      refine .inr (loopMeasure_lt_of_drop _ _ ?_ hbs)
      unfold descriptorSize
      split <;> omega
    · obtain ⟨rfl, rfl⟩ := Step.next.inj h
      right
      simp [loopMeasure, hp, PartProcessor.enter, ProcessorState.rank]
    · obtain ⟨rfl, rfl⟩ := Step.next.inj h
      right
      simp [loopMeasure, hp, PartProcessor.enter, ProcessorState.rank]

theorem stepExpectLocalHeader_measure {env : ProcessorEnv} {p q : PartProcessor}
    (hp : p.state = .expectLocalHeader) {bs rest : List UInt8} (hbs : bs ≠ [])
    (h : stepExpectLocalHeader env p bs = .next q rest) :
    Stalls env p bs ∨ loopMeasure q rest < loopMeasure p bs := by
  rw [stepExpectLocalHeader] at h
  split at h
  · obtain ⟨rfl, rfl⟩ := Step.next.inj h
    right
    simp [loopMeasure, hp, PartProcessor.enter, ProcessorState.rank]
  · next hentries =>
    split at h
    · cases h
    · cases h
    · next info hparse =>
      split at h
      · next htype =>
        obtain ⟨rfl, rfl⟩ := Step.next.inj h
        rcases Nat.eq_zero_or_pos info.frameSize with hzero | hpos
        · exact .inl ⟨parseNextFrame_emptyFrame_iff.mpr ⟨info, hparse, htype, hzero⟩,
            .inr ⟨hp, by omega⟩⟩
        · exact .inr (loopMeasure_lt_of_drop _ _ hpos hbs)
      · obtain ⟨rfl, rfl⟩ := Step.next.inj h
        right
        simp [loopMeasure, hp, PartProcessor.enter, ProcessorState.rank]
      · right
        rw [stepLocalHeader] at h
        split at h
        · cases h
        · next n hskip =>
          obtain ⟨rfl, rfl⟩ := Step.next.inj h
          rw [handleLocalHeader_consumed.2 hskip]
          exact loopMeasure_lt_of_drop _ _ (by rw [localHeaderSize]; omega) hbs
        · cases h
        · next n t hheader =>
          obtain ⟨rfl, rfl⟩ := Step.next.inj h
          rw [handleLocalHeader_consumed.1 hheader]
          exact loopMeasure_lt_of_drop _ _ (by rw [localHeaderSize]; omega) hbs
      · cases h

theorem stepReadingSymlink_measure {env : ProcessorEnv} {p q : PartProcessor}
    (hp : p.state = .readingSymlink) {bs rest : List UInt8} (hbs : bs ≠ [])
    (h : stepReadingSymlink env p bs = .next q rest) : loopMeasure q rest < loopMeasure p bs := by
  have hlen := List.length_pos_of_ne_nil hbs
  rw [stepReadingSymlink] at h
  split at h
  · cases h
  · next f hf =>
    split at h
    · cases h
    · next target ht =>
      rcases Nat.eq_zero_or_pos (symlinkBytesToCopy f target bs) with hzero | hpos
      · rw [hzero, List.take_zero, List.append_nil, List.drop_zero, afterSymlinkBytes] at h
        rw [symlinkBytesToCopy] at hzero
        rw [if_pos (by omega)] at h
        obtain ⟨rfl, rfl⟩ := Step.next.inj h
        simp [loopMeasure, hp, PartProcessor.enter, ProcessorState.rank]
      · rw [afterSymlinkBytes] at h
        split at h
        · obtain ⟨rfl, rfl⟩ := Step.next.inj h
          exact loopMeasure_lt_of_drop _ _ hpos hbs
        · obtain ⟨rfl, rfl⟩ := Step.next.inj h
          exact loopMeasure_lt_of_drop _ _ hpos hbs

/-- A round makes progress unless it stalls on padding. -/
theorem step_progress {env : ProcessorEnv} {p q : PartProcessor} {bs rest : List UInt8}
    (hbs : bs ≠ []) (h : step env p bs = .next q rest) :
    Stalls env p bs ∨ loopMeasure q rest < loopMeasure p bs := by
  have hlen := List.length_pos_of_ne_nil hbs
  rw [step] at h
  cases hp : p.state with
  | init =>
    simp only [hp, stepInit] at h
    right
    split at h <;> obtain ⟨rfl, rfl⟩ := Step.next.inj h <;>
      simp [loopMeasure, hp, PartProcessor.enter, ProcessorState.rank]
  | continuingFile =>
    simp only [hp, stepContinuingFile] at h
    split at h
    · cases h
    · cases h
    · next info hparse =>
      split at h
      · cases h
      · next htype =>
        obtain ⟨t, -, hnext⟩ := LoopStep.after_next h
        obtain ⟨rfl, rfl⟩ := Step.next.inj hnext
        obtain ⟨hsize, -⟩ := (parseNextFrame_success hparse).2.2.1 (not_not.mp htype)
        exact .inr (loopMeasure_lt_of_drop _ _ (by omega) hbs)
  | expectLocalHeader =>
    simp only [hp] at h
    exact stepExpectLocalHeader_measure hp hbs h
  | processingFrames =>
    simp only [hp] at h
    exact stepProcessingFrames_measure hp hbs h
  | readingSymlink =>
    simp only [hp] at h
    exact .inr (stepReadingSymlink_measure hp hbs h)
  | done =>
    simp only [hp] at h
    obtain ⟨rfl, rfl⟩ := Step.next.inj h
    right
    simp [loopMeasure]
    omega
  | error =>
    simp only [hp] at h
    cases h

theorem Stalls.step_eq {env : ProcessorEnv} {p : PartProcessor} {bs : List UInt8}
    (h : Stalls env p bs) : bs ≠ [] ∧ step env p bs = .next p bs := by
  obtain ⟨hempty, hstate⟩ := h
  obtain ⟨info, hparse, htype, hsize⟩ :=
    (@parseNextFrame_emptyFrame_iff env.zstd bs).mp hempty
  refine ⟨List.ne_nil_of_length_pos (by have := hempty.1; omega), ?_⟩
  rcases hstate with hp | ⟨hp, hentries⟩
  · simp only [step, hp, stepProcessingFrames, hparse, htype, hsize, List.drop_zero]
    rfl
  · simp only [step, hp, stepExpectLocalHeader, if_neg (Nat.not_le.mpr hentries), hparse, htype,
      hsize, List.drop_zero]
    rfl

/-- A round that does not repeat itself for ever makes progress. -/
theorem step_measure {env : ProcessorEnv} {p q : PartProcessor} {bs rest : List UInt8}
    (hbs : bs ≠ []) (h : step env p bs = .next q rest) :
    (q = p ∧ rest = bs) ∨ loopMeasure q rest < loopMeasure p bs := by
  refine (step_progress hbs h).imp_left fun hstalls ↦ ?_
  rw [hstalls.step_eq.2] at h
  obtain ⟨rfl, rfl⟩ := Step.next.inj h
  exact ⟨rfl, rfl⟩

/-- The number of rounds allowed to a call is as good as any: a loop not over by then never is. -/
theorem mainLoop_enough {env : ProcessorEnv} {p : PartProcessor} {bs : List UInt8} {n : ℕ}
    {r : LoopEnd} (h : Incremental.run (step env) n p bs = some r) :
    mainLoop env (loopRounds bs) p bs = some r := by
  refine run_enough step_measure h ?_
  have hrank : p.state.rank ≤ 3 := by cases p.state <;> decide
  rw [loopMeasure, loopRounds]
  omega

/-- A handler that succeeds keeps the state of the machine, one that fails enters the error
state. -/
structure Handled (p : PartProcessor) (result : Option StreamProcError × PartProcessor) : Prop where
  success : result.1 = none → result.2.state = p.state
  failure : ∀ e, result.1 = some e → result.2.state = .error ∧ result.2.errorCode = some e

theorem handled_fail (p q : PartProcessor) (e : StreamProcError) : Handled p (some e, q.fail e) := by
  refine ⟨by simp, ?_⟩
  rintro _ ⟨⟩
  exact ⟨rfl, rfl⟩

theorem closeOutputFile_state (os : Os) (p : PartProcessor) :
    (closeOutputFile os p).state = p.state := by
  rw [closeOutputFile]
  split <;> rfl

theorem closeOutputFile_currentFile (os : Os) (p : PartProcessor) :
    (closeOutputFile os p).currentFile = none := by
  rw [closeOutputFile]
  split
  · assumption
  · rfl

theorem openOutputPath_handled (env : ProcessorEnv) (p : PartProcessor) (f : FileContext) :
    Handled p (openOutputPath env p f) := by
  rw [openOutputPath]
  split
  · exact handled_fail _ _ _
  · split
    · rw [makeDirectory]
      split
      · exact ⟨fun _ ↦ rfl, by simp⟩
      · exact ⟨fun _ ↦ rfl, by simp⟩
      · exact handled_fail _ _ _
    · split
      · rw [allocateSymlinkBuffer]
        split
        · exact handled_fail _ _ _
        · exact ⟨fun _ ↦ rfl, by simp⟩
      · rw [openRegularFile]
        split
        · exact ⟨fun _ ↦ rfl, by simp⟩
        · exact handled_fail _ _ _

theorem openOutputFile_handled (env : ProcessorEnv) (p : PartProcessor) (fileMeta : FileMetadata) :
    Handled p (openOutputFile env p fileMeta) := by
  have h := openOutputPath_handled env (closeOutputFile env.os p)
    (fileContext (env.outputDir ++ [slash] ++ fileMeta.filename) fileMeta)
  exact ⟨fun hnone ↦ (h.success hnone).trans (closeOutputFile_state env.os p), h.failure⟩

theorem handleStartOfPartFrame_handled (env : ProcessorEnv) (p : PartProcessor) (offset : ℕ) :
    Handled p (handleStartOfPartFrame env p offset) := by
  rw [handleStartOfPartFrame]
  split
  · exact ⟨fun _ ↦ rfl, by simp⟩
  · split
    · exact handled_fail _ _ _
    · next fileMeta _ =>
      have h := openOutputFile_handled env p fileMeta
      split
      · next e q hopen =>
        rw [hopen] at h
        refine ⟨by simp, ?_⟩
        rintro _ ⟨⟩
        exact h.failure e rfl
      · next q hopen =>
        rw [hopen] at h
        exact ⟨fun _ ↦ h.success rfl, by simp⟩

theorem handleZstdFrame_handled (env : ProcessorEnv) (p : PartProcessor) (frame : List UInt8)
    (uncompressedSize : ℕ) : Handled p (handleZstdFrame env p frame uncompressedSize) := by
  rw [handleZstdFrame]
  split
  · exact handled_fail _ _ _
  · split
    · exact handled_fail _ _ _
    · split
      · exact handled_fail _ _ _
      · exact ⟨fun _ ↦ rfl, by simp⟩

/-- The error state is entered by returning an error and by nothing else, and the error is kept. -/
def LoopStep.KeepsErrors (p : PartProcessor) : LoopStep → Prop
  | .next q _ => q.state ≠ .error
  | .wait q => q = p
  | .stop e q => q.state = .error ∧ (p.state ≠ .error → q.errorCode = some e)

theorem LoopStep.after_keepsErrors {p : PartProcessor}
    {result : Option StreamProcError × PartProcessor} {next : PartProcessor → LoopStep}
    (h : Handled p result) (hnext : ∀ q, q.state = p.state → (next q).KeepsErrors p) :
    (LoopStep.after result next).KeepsErrors p := by
  obtain ⟨_ | e, q⟩ := result
  · exact hnext q (h.success rfl)
  · exact ⟨(h.failure e rfl).1, fun _ ↦ (h.failure e rfl).2⟩

theorem stepLocalHeader_keepsErrors {env : ProcessorEnv} {p : PartProcessor}
    (hp : p.state = .expectLocalHeader) (bs : List UInt8) :
    (stepLocalHeader env p bs).KeepsErrors p := by
  rw [stepLocalHeader]
  cases hheader : handleLocalHeader env p bs with
  | needMoreData => exact rfl
  | skippedPadding n => simp [LoopStep.KeepsErrors, PartProcessor.consume, hp]
  | error e q =>
    rw [handleLocalHeader] at hheader
    split_ifs at hheader
    split at hheader
    · obtain ⟨rfl, rfl⟩ := LocalHeaderResult.error.inj hheader
      exact ⟨rfl, fun _ ↦ rfl⟩
    · next fileMeta _ =>
      have hopen := openOutputFile_handled env p fileMeta
      split at hheader
      · next e' q' hresult =>
        obtain ⟨rfl, rfl⟩ := LocalHeaderResult.error.inj hheader
        rw [hresult] at hopen
        exact ⟨(hopen.failure e' rfl).1, fun _ ↦ (hopen.failure e' rfl).2⟩
      · cases hheader
  | success n q =>
    simp only [LoopStep.KeepsErrors, PartProcessor.enter, afterLocalHeader]
    split <;> simp

theorem stepProcessingFrames_keepsErrors {env : ProcessorEnv} {p : PartProcessor}
    (hp : p.state = .processingFrames) (bs : List UInt8) :
    (stepProcessingFrames env p bs).KeepsErrors p := by
  have hkeep (q : PartProcessor) (hq : q.state = p.state) (n : ℕ) :
      LoopStep.KeepsErrors p (.next (q.consume n) (bs.drop n)) := by
    simp [LoopStep.KeepsErrors, PartProcessor.consume, hq, hp]
  rw [stepProcessingFrames]
  split
  · rfl
  · exact ⟨rfl, fun _ ↦ rfl⟩
  · split
    · split
      · rfl
      · exact LoopStep.after_keepsErrors (handleZstdFrame_handled _ _ _ _) fun q hq ↦ hkeep q hq _
    · exact hkeep p rfl _
    · split
      · exact ⟨rfl, fun _ ↦ rfl⟩
      · exact LoopStep.after_keepsErrors (handleStartOfPartFrame_handled _ _ _)
          fun q hq ↦ hkeep q hq _
    · simp [LoopStep.KeepsErrors, PartProcessor.enter]
    · simp [LoopStep.KeepsErrors, PartProcessor.enter]
    · simp [LoopStep.KeepsErrors, PartProcessor.enter]

theorem step_keepsErrors (env : ProcessorEnv) (p : PartProcessor) (bs : List UInt8) :
    (step env p bs).KeepsErrors p := by
  rw [step]
  cases hp : p.state with
  | init =>
    simp only [stepInit]
    split <;> simp [LoopStep.KeepsErrors, PartProcessor.enter]
  | continuingFile =>
    simp only [stepContinuingFile]
    split
    · rfl
    · exact ⟨rfl, fun _ ↦ rfl⟩
    · split
      · exact ⟨rfl, fun _ ↦ rfl⟩
      · exact LoopStep.after_keepsErrors (handleStartOfPartFrame_handled _ _ _)
          fun q _ ↦ by simp [LoopStep.KeepsErrors, PartProcessor.enter]
  | expectLocalHeader =>
    simp only [stepExpectLocalHeader]
    split
    · simp [LoopStep.KeepsErrors, PartProcessor.enter]
    · split
      · rfl
      · exact ⟨rfl, fun _ ↦ rfl⟩
      · split
        · simp [LoopStep.KeepsErrors, PartProcessor.consume, hp]
        · simp [LoopStep.KeepsErrors, PartProcessor.enter]
        · exact stepLocalHeader_keepsErrors hp bs
        · exact ⟨rfl, fun _ ↦ rfl⟩
  | processingFrames => exact stepProcessingFrames_keepsErrors hp bs
  | readingSymlink =>
    simp only [stepReadingSymlink]
    split
    · exact ⟨rfl, fun _ ↦ rfl⟩
    · split
      · exact ⟨rfl, fun _ ↦ rfl⟩
      · rw [afterSymlinkBytes]
        split
        · simp [LoopStep.KeepsErrors, PartProcessor.enter]
        · simp [LoopStep.KeepsErrors, PartProcessor.setSymlinkTarget, PartProcessor.consume, hp]
  | done => simp [LoopStep.KeepsErrors, hp]
  | error => exact ⟨hp, fun hne ↦ (hne hp).elim⟩

theorem mainLoop_finished_state {env : ProcessorEnv} {p q : PartProcessor} {bs rest : List UInt8}
    {n : ℕ} (hp : p.state ≠ .error) (h : mainLoop env n p bs = some (.finished q rest)) :
    q.state ≠ .error := by
  refine run_finished (P := fun q ↦ q.state ≠ .error) ?_ ?_ hp h
  · intro s bs t rest hstep
    have hkeep := step_keepsErrors env s bs
    rwa [hstep] at hkeep
  · intro s bs t hs hstep
    have hkeep := step_keepsErrors env s bs
    rw [hstep] at hkeep
    exact hkeep ▸ hs

theorem mainLoop_stopped_state {env : ProcessorEnv} {p q : PartProcessor} {bs : List UInt8}
    {e : StreamProcError} {n : ℕ} (h : mainLoop env n p bs = some (.stopped e q)) :
    q.state = .error := by
  refine run_stopped (P := fun _ ↦ True) (Q := fun _ q ↦ q.state = .error) (fun _ ↦ trivial) ?_
    trivial h
  intro s bs e t _ hstep
  have hkeep := step_keepsErrors env s bs
  rw [hstep] at hkeep
  exact hkeep.1

/-- A loop that stops keeps the error it returns. -/
theorem mainLoop_stopped_errorCode {env : ProcessorEnv} {p q : PartProcessor} {bs : List UInt8}
    {e : StreamProcError} {n : ℕ} (hp : p.state ≠ .error)
    (h : mainLoop env n p bs = some (.stopped e q)) : q.errorCode = some e := by
  refine run_stopped (P := fun q ↦ q.state ≠ .error) (Q := fun e q ↦ q.errorCode = some e) ?_ ?_
    hp h
  · intro s bs t rest hstep
    have hkeep := step_keepsErrors env s bs
    rwa [hstep] at hkeep
  · intro s bs e t hs hstep
    have hkeep := step_keepsErrors env s bs
    rw [hstep] at hkeep
    exact hkeep.2 hs

end Burst
