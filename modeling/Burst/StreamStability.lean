import Burst.StreamLoop

namespace Burst

open LittleEndian Incremental

theorem LoopStep.after_same {p : PartProcessor} {more : List UInt8}
    (result : Option StreamProcError × PartProcessor) {next longer : PartProcessor → LoopStep}
    (h : ∀ q, SameStep p more (next q) (longer q)) :
    SameStep p more (LoopStep.after result next) (LoopStep.after result longer) := by
  obtain ⟨_ | e, q⟩ := result
  · exact h q
  · exact .stop e q

theorem sameStep_drop (p q : PartProcessor) {n : ℕ} {bs : List UInt8} (h : n ≤ bs.length)
    (more : List UInt8) :
    SameStep (ε := StreamProcError) p more (.next q (bs.drop n)) (.next q ((bs ++ more).drop n)) := by
  rw [List.drop_append_of_le_length h]
  exact .next q (bs.drop n)

theorem stepContinuingFile_same {env : ProcessorEnv} (hz : env.zstd.Stable) (p : PartProcessor)
    (bs more : List UInt8) :
    SameStep p more (stepContinuingFile env p bs) (stepContinuingFile env p (bs ++ more)) := by
  rw [stepContinuingFile, stepContinuingFile]
  cases hparse : parseNextFrame env.zstd bs with
  | needMoreData => exact .wait _
  | invalidFrame =>
    rw [parseNextFrame_append hz more (by simp [hparse]), hparse]
    exact .stop _ _
  | success info =>
    rw [parseNextFrame_success_append hz more hparse]
    by_cases htype : info.type = .burstStartOfPart
    · obtain ⟨hsize, hlen⟩ := (parseNextFrame_success hparse).2.2.1 htype
      simp only [htype, ne_eq, not_true_eq_false, if_false]
      rw [read_append_left (by omega)]
      exact LoopStep.after_same _ fun q ↦ sameStep_drop _ _ (by omega) more
    · simp only [ne_eq, htype, not_false_eq_true, if_true]
      exact .stop _ _

theorem isPaddingHeader_append {bs : List UInt8} (h : localHeaderSize bs ≤ bs.length)
    (more : List UInt8) : isPaddingHeader (bs ++ more) = isPaddingHeader bs := by
  rw [localHeaderSize] at h
  rw [isPaddingHeader, isPaddingHeader, read_append_left (by omega)]
  by_cases hname : read bs 26 2 = paddingLfhFilenameLen
  · rw [paddingLfhFilenameLen] at hname
    rw [List.drop_append_of_le_length (by omega), List.take_append_of_le_length
      (by rw [List.length_drop, paddingLfhFilenameLen]; omega)]
  · simp [hname]

/-- A header that is there as a whole is handled the same when more follows. -/
theorem handleLocalHeader_append {env : ProcessorEnv} {p : PartProcessor} {bs : List UInt8}
    (h : handleLocalHeader env p bs ≠ .needMoreData) (more : List UInt8) :
    localHeaderSize bs ≤ bs.length ∧
      handleLocalHeader env p (bs ++ more) = handleLocalHeader env p bs := by
  have hfixed : 30 ≤ bs.length := by
    by_contra hlt
    exact h (by rw [handleLocalHeader, if_pos (by omega)])
  have hwhole : localHeaderSize bs ≤ bs.length := by
    by_contra hlt
    exact h (by rw [handleLocalHeader, if_neg (by omega), if_pos (by omega)])
  refine ⟨hwhole, ?_⟩
  have hshort : ¬ bs.length < 30 ∧ ¬ bs.length < localHeaderSize bs := by omega
  have hlong : ¬ (bs ++ more).length < 30 ∧ ¬ (bs ++ more).length < localHeaderSize bs := by
    rw [List.length_append]
    omega
  simp only [handleLocalHeader, localHeaderSize_append hfixed, isPaddingHeader_append hwhole,
    hshort, hlong, if_false]

theorem stepLocalHeader_same (env : ProcessorEnv) (p : PartProcessor) (bs more : List UInt8) :
    SameStep p more (stepLocalHeader env p bs) (stepLocalHeader env p (bs ++ more)) := by
  rw [stepLocalHeader, stepLocalHeader]
  by_cases hmore : handleLocalHeader env p bs = .needMoreData
  · rw [hmore]
    exact .wait _
  · obtain ⟨hwhole, hsame⟩ := handleLocalHeader_append hmore more
    rw [hsame]
    cases hheader : handleLocalHeader env p bs with
    | needMoreData => exact (hmore hheader).elim
    | skippedPadding n =>
      obtain rfl := handleLocalHeader_consumed.2 hheader
      exact sameStep_drop _ _ hwhole more
    | error e q => exact .stop _ _
    | success n q =>
      obtain rfl := handleLocalHeader_consumed.1 hheader
      exact sameStep_drop _ _ hwhole more

theorem stepExpectLocalHeader_same {env : ProcessorEnv} (hz : env.zstd.Stable) (p : PartProcessor)
    (bs more : List UInt8) :
    SameStep p more (stepExpectLocalHeader env p bs)
      (stepExpectLocalHeader env p (bs ++ more)) := by
  rw [stepExpectLocalHeader, stepExpectLocalHeader]
  split
  · exact .next _ bs
  · cases hparse : parseNextFrame env.zstd bs with
    | needMoreData => exact .wait _
    | invalidFrame =>
      rw [parseNextFrame_append hz more (by simp [hparse]), hparse]
      exact .stop _ _
    | success info =>
      rw [parseNextFrame_success_append hz more hparse]
      cases htype : info.type with
      | burstPadding =>
        simp only [htype]
        exact sameStep_drop _ _ ((parseNextFrame_success hparse).2.1 htype) more
      | zipCentralDirectory =>
        simp only [htype]
        exact .next _ bs
      | zipLocalHeader =>
        simp only [htype]
        exact stepLocalHeader_same env p bs more
      | zstdCompressed | burstStartOfPart | zipDataDescriptor =>
        simp only [htype]
        exact .stop _ _

/-- A data descriptor of which not all bytes are at hand, with more entries to come. -/
def CutsDescriptor (env : ProcessorEnv) (p : PartProcessor) (bs : List UInt8) : Prop :=
  p.state = .processingFrames ∧ read bs 0 4 = zipDataDescriptorSig ∧ 4 ≤ bs.length ∧
    bs.length < descriptorSize p ∧ p.nextEntryIdx < env.part.entries.length

theorem stepProcessingFrames_same {env : ProcessorEnv} (hz : env.zstd.Stable) (p : PartProcessor)
    {bs : List UInt8} (more : List UInt8)
    (hcut : ∀ info, parseNextFrame env.zstd bs = .success info → info.type = .zipDataDescriptor →
      descriptorSize p ≤ bs.length) :
    SameStep p more (stepProcessingFrames env p bs) (stepProcessingFrames env p (bs ++ more)) := by
  rw [stepProcessingFrames, stepProcessingFrames]
  cases hparse : parseNextFrame env.zstd bs with
  | needMoreData => exact .wait _
  | invalidFrame =>
    rw [parseNextFrame_append hz more (by simp [hparse]), hparse]
    exact .stop _ _
  | success info =>
    rw [parseNextFrame_success_append hz more hparse]
    cases htype : info.type with
    | zstdCompressed =>
      simp only [htype]
      by_cases hlen : bs.length < info.frameSize
      · rw [if_pos hlen]
        exact .wait _
      · rw [if_neg hlen, if_neg (by rw [List.length_append]; omega),
          List.take_append_of_le_length (by omega)]
        exact LoopStep.after_same _ fun q ↦ sameStep_drop _ _ (by omega) more
    | burstPadding =>
      simp only [htype]
      exact sameStep_drop _ _ ((parseNextFrame_success hparse).2.1 htype) more
    | burstStartOfPart =>
      obtain ⟨hsize, hlen⟩ := (parseNextFrame_success hparse).2.2.1 htype
      simp only [htype]
      rw [read_append_left (by omega)]
      split
      · exact .stop _ _
      · exact LoopStep.after_same _ fun q ↦ sameStep_drop _ _ (by omega) more
    | zipDataDescriptor =>
      simp only [htype]
      exact sameStep_drop _ _ (hcut info hparse htype) more
    | zipLocalHeader =>
      simp only [htype]
      exact .next _ bs
    | zipCentralDirectory =>
      simp only [htype]
      exact .next _ bs

/-- A processor that has seen all its entries is as good as done. -/
def settle (env : ProcessorEnv) (p : PartProcessor) : PartProcessor :=
  if p.state = .expectLocalHeader ∧ env.part.entries.length ≤ p.nextEntryIdx then p.enter .done
  else p

theorem ends_done {env : ProcessorEnv} {p : PartProcessor} (hp : p.state = .done)
    (bs : List UInt8) (r : LoopEnd) :
    Ends (step env) (settle env) p bs r ↔ r = .finished p [] := by
  have hsettle : settle env p = p := by
    rw [settle, if_neg (by simp [hp])]
  have hnil (r : LoopEnd) : Ends (step env) (settle env) p [] r ↔ r = .finished p [] := by
    have hend : Ends (step env) (settle env) p [] (.finished (settle env p) []) := ends_nil p
    rw [hsettle] at hend
    exact ⟨fun h ↦ h.unique hend, fun h ↦ h ▸ hend⟩
  by_cases hbs : bs = []
  · rw [hbs, hnil]
  · rw [ends_next hbs (by rw [step, hp]), hnil]

theorem ends_exhausted {env : ProcessorEnv} {p : PartProcessor} (hp : p.state = .expectLocalHeader)
    (hidx : env.part.entries.length ≤ p.nextEntryIdx) (bs : List UInt8) (r : LoopEnd) :
    Ends (step env) (settle env) p bs r ↔ r = .finished (p.enter .done) [] := by
  by_cases hbs : bs = []
  · have hend : Ends (step env) (settle env) p [] (.finished (settle env p) []) := ends_nil p
    rw [settle, if_pos ⟨hp, hidx⟩] at hend
    rw [hbs]
    exact ⟨fun h ↦ h.unique hend, fun h ↦ h ▸ hend⟩
  · have hstep : step env p bs = .next (p.enter .done) bs := by
      rw [step, hp]
      exact if_pos hidx
    rw [ends_next hbs hstep, ends_done rfl]

theorem ends_settle (env : ProcessorEnv) (p : PartProcessor) (bs : List UInt8) (r : LoopEnd) :
    Ends (step env) (settle env) (settle env p) bs r ↔ Ends (step env) (settle env) p bs r := by
  by_cases h : p.state = .expectLocalHeader ∧ env.part.entries.length ≤ p.nextEntryIdx
  · rw [settle, if_pos h, ends_exhausted h.1 h.2, ends_done rfl]
  · rw [settle, if_neg h]

/-- The last data descriptor of a part may be cut: nothing after it is looked at. -/
theorem lastDescriptor_extends {env : ProcessorEnv} (hz : env.zstd.Stable) {p : PartProcessor}
    (hp : p.state = .processingFrames) {bs : List UInt8} (hbs : bs ≠ []) {info : FrameInfo}
    (hparse : parseNextFrame env.zstd bs = .success info) (htype : info.type = .zipDataDescriptor)
    (hidx : env.part.entries.length ≤ p.nextEntryIdx) (hlen : bs.length < descriptorSize p)
    (more : List UInt8) : Extends (step env) (settle env) p bs more := by
  set q := ((closeOutputFile env.os p).consume (descriptorSize p)).enter .expectLocalHeader
  have hstep : step env p bs = .next q [] := by
    rw [step, hp]
    simp only [stepProcessingFrames, hparse, htype, List.drop_eq_nil_of_le hlen.le]
    rfl
  have hstep' : step env p (bs ++ more) = .next q ((bs ++ more).drop (descriptorSize p)) := by
    rw [step, hp]
    simp only [stepProcessingFrames, parseNextFrame_success_append hz more hparse, htype]
    rfl
  have hq : q.nextEntryIdx = p.nextEntryIdx := by
    simp only [q, PartProcessor.enter, PartProcessor.consume, closeOutputFile]
    split <;> rfl
  rw [Extends, hstep]
  refine .inr ⟨rfl, fun r ↦ ?_⟩
  rw [ends_next (by simp [hbs]) hstep', ends_exhausted rfl (hq ▸ hidx),
    ends_exhausted rfl (hq ▸ hidx)]

/-- Reading a target in two pieces. -/
theorem symlinkBytesToCopy_append {f : FileContext} {target bs : List UInt8}
    (h : bs.length < f.expectedTotalSize - target.length) (more : List UInt8) :
    symlinkBytesToCopy f target bs = bs.length ∧
      symlinkBytesToCopy f target (bs ++ more) =
        bs.length + symlinkBytesToCopy f (target ++ bs) more := by
  simp only [symlinkBytesToCopy, List.length_append]
  omega

theorem PartProcessor.consume_consume (p : PartProcessor) (n m : ℕ) :
    (p.consume n).consume m = p.consume (n + m) := by
  simp only [PartProcessor.consume, Nat.add_assoc]

theorem afterSymlinkBytes_next (env : ProcessorEnv) (p : PartProcessor) (f : FileContext)
    (target : List UInt8) :
    ∃ q, ∀ rest, afterSymlinkBytes env p f target rest = .next q rest := by
  by_cases h : target.length ≥ f.expectedTotalSize
  · exact ⟨_, fun rest ↦ if_pos h⟩
  · exact ⟨_, fun rest ↦ if_neg h⟩

theorem stepReadingSymlink_extends {env : ProcessorEnv} {p : PartProcessor}
    (hp : p.state = .readingSymlink) {bs : List UInt8} (hbs : bs ≠ []) (more : List UInt8) :
    Extends (step env) (settle env) p bs more := by
  have hstep {q : PartProcessor} (hq : q.state = .readingSymlink) (bs : List UInt8) :
      step env q bs = stepReadingSymlink env q bs := by rw [step, hq]
  cases hf : p.currentFile with
  | none =>
    rw [Extends, hstep hp, hstep hp, stepReadingSymlink, stepReadingSymlink, hf]
  | some f =>
    cases ht : f.symlinkBuffer with
    | none =>
      rw [Extends, hstep hp, hstep hp, stepReadingSymlink, stepReadingSymlink, hf]
      simp only [ht]
    | some target =>
      have hread (bs : List UInt8) : step env p bs =
          afterSymlinkBytes env (p.consume (symlinkBytesToCopy f target bs)) f
            (target ++ bs.take (symlinkBytesToCopy f target bs))
            (bs.drop (symlinkBytesToCopy f target bs)) := by
        rw [hstep hp, stepReadingSymlink, hf]
        simp only [ht]
      by_cases hlen : bs.length < f.expectedTotalSize - target.length
      · -- all there is belongs to the target, and more is to come
        obtain ⟨hall, hmore⟩ := symlinkBytesToCopy_append hlen more
        set q := (p.consume bs.length).setSymlinkTarget f (target ++ bs)
        have hfirst : step env p bs = .next q [] := by
          rw [hread, hall, List.take_length, List.drop_length, afterSymlinkBytes, if_neg]
          rw [List.length_append]
          omega
        rw [Extends, hfirst]
        refine .inr ⟨rfl, fun r ↦ ?_⟩
        by_cases hnil : more = []
        · rw [hnil, List.append_nil, ends_next hbs hfirst]
        · have hq : step env q more = afterSymlinkBytes env
              (p.consume (bs.length + symlinkBytesToCopy f (target ++ bs) more)) f
              (target ++ bs ++ more.take (symlinkBytesToCopy f (target ++ bs) more))
              (more.drop (symlinkBytesToCopy f (target ++ bs) more)) := by
            rw [hstep (show q.state = .readingSymlink from hp), stepReadingSymlink,
              ← PartProcessor.consume_consume]
            rfl
          have hboth : step env p (bs ++ more) = step env q more := by
            rw [hq, hread, hmore, List.take_length_add_append, List.drop_length_add_append,
              List.append_assoc]
          obtain ⟨t, hnext⟩ := afterSymlinkBytes_next env
            (p.consume (bs.length + symlinkBytesToCopy f (target ++ bs) more)) f
            (target ++ bs ++ more.take (symlinkBytesToCopy f (target ++ bs) more))
          rw [ends_next (by simp [hbs]) (hboth.trans (hq.trans (hnext _))),
            ends_next hnil (hq.trans (hnext _))]
      · have hn : symlinkBytesToCopy f target bs = f.expectedTotalSize - target.length ∧
            symlinkBytesToCopy f target (bs ++ more) = f.expectedTotalSize - target.length := by
          simp only [symlinkBytesToCopy, List.length_append]
          omega
        refine SameStep.extends ?_
        obtain ⟨t, hnext⟩ := afterSymlinkBytes_next env
          (p.consume (f.expectedTotalSize - target.length)) f
          (target ++ bs.take (f.expectedTotalSize - target.length))
        rw [hread, hread, hn.1, hn.2, List.take_append_of_le_length (by omega), hnext, hnext]
        exact sameStep_drop _ _ (by omega) more

/-- Every step extends unless it cuts a data descriptor. -/
theorem step_extends {env : ProcessorEnv} (hz : env.zstd.Stable) {p : PartProcessor}
    {bs : List UInt8} (hbs : bs ≠ []) (hcut : ¬ CutsDescriptor env p bs) (more : List UInt8) :
    Extends (step env) (settle env) p bs more := by
  have hsame (f : PartProcessor → List UInt8 → LoopStep) (hf : ∀ bs, step env p bs = f p bs)
      (h : SameStep p more (f p bs) (f p (bs ++ more))) :
      Extends (step env) (settle env) p bs more :=
    SameStep.extends (by rw [hf, hf]; exact h)
  cases hp : p.state with
  | init =>
    refine hsame (stepInit env) (fun bs ↦ by rw [step, hp]) ?_
    rw [stepInit, stepInit]
    split <;> exact .next _ bs
  | continuingFile =>
    exact hsame (stepContinuingFile env) (fun bs ↦ by rw [step, hp])
      (stepContinuingFile_same hz p bs more)
  | expectLocalHeader =>
    exact hsame (stepExpectLocalHeader env) (fun bs ↦ by rw [step, hp])
      (stepExpectLocalHeader_same hz p bs more)
  | processingFrames =>
    by_cases hlast : ∃ info, parseNextFrame env.zstd bs = .success info ∧
        info.type = .zipDataDescriptor ∧ bs.length < descriptorSize p
    · obtain ⟨info, hparse, htype, hlen⟩ := hlast
      obtain ⟨hsig, hfour⟩ := (parseNextFrame_success hparse).2.2.2 htype
      have hidx : env.part.entries.length ≤ p.nextEntryIdx := by
        by_contra hlt
        exact hcut ⟨hp, hsig, hfour, hlen, by omega⟩
      exact lastDescriptor_extends hz hp hbs hparse htype hidx hlen more
    · push Not at hlast
      exact hsame (stepProcessingFrames env) (fun bs ↦ by rw [step, hp])
        (stepProcessingFrames_same hz p more hlast)
  | readingSymlink => exact stepReadingSymlink_extends hp hbs more
  | done =>
    rw [Extends, step, hp]
    refine .inr ⟨rfl, fun r ↦ ?_⟩
    rw [ends_done hp, ends_done hp]
  | error =>
    refine hsame (fun p _ ↦ .stop (p.errorCode.getD .invalidFrame) p) (fun bs ↦ by rw [step, hp]) ?_
    exact .stop _ _

end Burst
