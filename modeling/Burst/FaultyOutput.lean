import Burst.BufferedWrites
import Burst.FailedAdds

namespace Burst

open Tiling

/-- A call of `burst_writer_write` or `burst_writer_flush` with the writer it is made on. -/
structure MadeCall where
  writer : BurstWriter
  call : BufferCall

/-- A function that leaves the buffer and the output alone. -/
def Quiet {α : Type} (m : WriterM α) : Prop :=
  ∀ w, (m w).2.output = w.output ∧ (m w).2.currentOffset = w.currentOffset ∧
    (m w).2.writeBuffer = w.writeBuffer

/-- The calls a writer function makes when it runs on a writer, also those that fail. -/
inductive Makes : {α : Type} → WriterM α → BurstWriter → List MadeCall → Prop where
  | call (call : BufferCall) (w : BurstWriter) : Makes call.run w [⟨w, call⟩]
  | quiet {α : Type} {m : WriterM α} (h : Quiet m) (w : BurstWriter) : Makes m w []
  | stop {α β : Type} {m : WriterM α} {f : α → WriterM β} {w w' : BurstWriter} {log : List MadeCall}
      (first : Makes m w log) (fails : m w = (none, w')) : Makes (m >>= f) w log
  | bind {α β : Type} {m : WriterM α} {f : α → WriterM β} {w w' : BurstWriter} {a : α}
      {log log' : List MadeCall} (first : Makes m w log) (succeeds : m w = (some a, w'))
      (rest : Makes (f a) w' log') : Makes (m >>= f) w (log ++ log')

/-- What the calls were given to write. -/
def writtenData (log : List MadeCall) : List UInt8 := log.flatMap fun made ↦ made.call.data

/-- The effect of calls on the output, however their `fwrite` calls end: `again` counts the bytes that
got to the file and stayed in the buffer, `lost` those that did not get into the buffer. -/
structure OutputEffect (w w' : BurstWriter) (data : List UInt8) (again lost : ℕ) : Prop where
  room : w'.writeBuffer.length ≤ writeBufferSize
  sizes : w'.archive.length + lost = w.archive.length + data.length + again
  offset : w'.currentOffset + w.output.bytes.length + again =
    w.currentOffset + w'.output.bytes.length
  bytes : again = 0 → lost = 0 → w'.archive = w.archive ++ data

namespace OutputEffect

variable {w w₁ w' : BurstWriter} {xs ys : List UInt8} {again again' lost lost' : ℕ}

theorem of_same (hroom : w.writeBuffer.length ≤ writeBufferSize)
    (h : w'.output = w.output ∧ w'.currentOffset = w.currentOffset ∧
      w'.writeBuffer = w.writeBuffer) : OutputEffect w w' [] 0 0 := by
  obtain ⟨houtput, hoffset, hbuffer⟩ := h
  have harchive : w'.archive = w.archive := by
    rw [BurstWriter.archive, BurstWriter.archive, houtput, hbuffer]
  exact ⟨by rwa [hbuffer], by rw [harchive]; rfl, by rw [hoffset, houtput, Nat.add_zero],
    fun _ _ ↦ by rw [harchive, List.append_nil]⟩

theorem trans (h : OutputEffect w w₁ xs again lost) (h' : OutputEffect w₁ w' ys again' lost') :
    OutputEffect w w' (xs ++ ys) (again + again') (lost + lost') where
  room := h'.room
  sizes := by
    have hfirst := h.sizes
    have hsecond := h'.sizes
    rw [List.length_append]
    omega
  offset := by
    have hfirst := h.offset
    have hsecond := h'.offset
    omega
  bytes hagain hlost := by
    rw [h'.bytes (by omega) (by omega), h.bytes (by omega) (by omega), List.append_assoc]

end OutputEffect

/-- No `fwrite` of a write call loses or repeats a byte: it takes all it is given, or it takes
nothing and the call has no more to copy. The buffer holds `used` bytes, `len` are to be copied. -/
def LosesNothing : List ℕ → ℕ → ℕ → Prop
  | [], _, _ => True
  | n :: limits, used, len => 0 < len → writeBufferSize ≤ used + len →
      writeBufferSize ≤ n ∧ LosesNothing limits 0 (used + len - writeBufferSize) ∨
        n = 0 ∧ used + len = writeBufferSize

theorem losesNothing_of_fits (limits : List ℕ) {used len : ℕ} (h : used + len < writeBufferSize) :
    LosesNothing limits used len := by
  cases limits with
  | nil => trivial
  | cons n limits => exact fun _ hfull ↦ (Nat.not_le.mpr h hfull).elim

theorem losesNothing_zero (limits : List ℕ) (used : ℕ) : LosesNothing limits used 0 := by
  cases limits with
  | nil => trivial
  | cons n limits => exact fun hpos ↦ (Nat.lt_irrefl 0 hpos).elim

theorem losesNothing_tail {limits : List ℕ} {used len : ℕ} (hlen : 0 < len)
    (hfull : writeBufferSize ≤ used + len) (hall : ∀ n ∈ limits.head?, writeBufferSize ≤ n) :
    LosesNothing limits used len ↔
      LosesNothing limits.tail 0 (used + len - writeBufferSize) := by
  cases limits with
  | nil => simp [LosesNothing]
  | cons n limits =>
    have hn : writeBufferSize ≤ n := hall n rfl
    have hpos : n ≠ 0 := by
      rw [writeBufferSize] at hn
      omega
    simp [LosesNothing, hlen, hfull, hn, hpos]

/-- The same of a call on a writer; a flush has nothing to copy. -/
def MadeCall.LosesNothing (made : MadeCall) : Prop :=
  match made.call with
  | .write data => Burst.LosesNothing made.writer.output.fwriteLimits made.writer.writeBuffer.length
      data.length
  | .flush => ∀ n ∈ made.writer.output.fwriteLimits.head?,
      made.writer.writeBuffer.length ≤ n ∨ n = 0

theorem copied_effect {w : BurstWriter} {data : List UInt8}
    (h : w.writeBuffer.length + data.length ≤ writeBufferSize) :
    OutputEffect w (w.copied data) data 0 0 where
  room := by simpa [BurstWriter.copied] using h
  sizes := by simp [BurstWriter.copied, BurstWriter.archive, Nat.add_assoc]
  offset := rfl
  bytes _ _ := by simp [BurstWriter.copied, BurstWriter.archive]

theorem flushed_effect (w : BurstWriter) :
    OutputEffect w (w.flushed w.writeBuffer) [] 0 0 where
  room := Nat.zero_le _
  sizes := by simp [BurstWriter.flushed, BurstWriter.archive]
  offset := by
    simp [BurstWriter.flushed]
    omega
  bytes _ _ := by simp [BurstWriter.flushed, BurstWriter.archive]

theorem flushFailed_effect {w : BurstWriter} {n : ℕ} (hn : n < w.writeBuffer.length)
    (hroom : w.writeBuffer.length ≤ writeBufferSize) :
    OutputEffect w (w.flushFailed w.writeBuffer n) [] n 0 where
  room := hroom
  sizes := by
    simp [BurstWriter.flushFailed, BurstWriter.archive]
    omega
  offset := by
    simp [BurstWriter.flushFailed]
    omega
  bytes hzero _ := by simp [BurstWriter.flushFailed, BurstWriter.archive, hzero]

/-- Bytes that were still to be written when a call stopped. -/
theorem OutputEffect.dropping {w w' : BurstWriter} {data : List UInt8} {again lost : ℕ}
    (h : OutputEffect w w' data again lost) (rest : List UInt8) :
    OutputEffect w w' (data ++ rest) again (lost + rest.length) where
  room := h.room
  sizes := by
    have hsizes := h.sizes
    rw [List.length_append]
    omega
  offset := h.offset
  bytes hagain hlost := by
    have hrest : rest = [] := List.eq_nil_of_length_eq_zero (by omega)
    rw [hrest, List.append_nil]
    exact h.bytes hagain (by omega)

theorem burstWriterCopy_effect {fuel : ℕ} {src : List UInt8} {w : BurstWriter}
    (hbuffer : w.writeBuffer.length ≤ writeBufferSize) (hfuel : copyRounds w src < fuel) :
    ∃ again lost, OutputEffect w (burstWriterCopy fuel src w).2 src again lost ∧
      (again = 0 ∧ lost = 0 ↔
        LosesNothing w.output.fwriteLimits w.writeBuffer.length src.length) := by
  induction fuel generalizing src w with
  | zero => cases hfuel
  | succ fuel ih =>
    by_cases hsrc : src = []
    · refine ⟨0, 0, ?_, by simp [hsrc, losesNothing_zero]⟩
      rw [hsrc]
      exact .of_same hbuffer ⟨rfl, rfl, rfl⟩
    have hpos := List.length_pos_iff.mpr hsrc
    have hcopied (k : ℕ) (hk : k ≤ writeBufferSize - w.writeBuffer.length) :
        OutputEffect w (w.copied (src.take k)) (src.take k) 0 0 := by
      refine copied_effect ?_
      rw [List.length_take]
      omega
    set room := writeBufferSize - w.writeBuffer.length with hroomdef
    obtain ⟨hfits, hround⟩ | ⟨hroom, hall, hround⟩ | ⟨hroom, n, limits, hlimits, hn, hround⟩ :=
      burstWriterCopy_cases hbuffer hsrc
    · refine ⟨0, 0, ?_, iff_of_true ⟨rfl, rfl⟩ (losesNothing_of_fits _ (by omega))⟩
      have hdone : burstWriterCopy fuel [] (w.copied src) = (some (), w.copied src) := by
        cases fuel with
        | zero =>
          rw [copyRounds] at hfuel
          omega
        | succ fuel => rfl
      rw [hround, hdone]
      exact copied_effect (by omega)
    · -- the buffer is full and empty again, and the loop goes on
      have hless := copyRounds_drop_lt hsrc hbuffer
      obtain ⟨again, lost, heffect, hnothing⟩ := @ih (src.drop room)
        ((w.copied (src.take room)).flushed (w.copied (src.take room)).writeBuffer) (Nat.zero_le _)
        (by rw [copyRounds_flushed, hroomdef]; omega)
      have hall' := ((hcopied room le_rfl).trans (flushed_effect _)).trans heffect
      rw [List.append_nil, List.take_append_drop, Nat.zero_add, Nat.zero_add] at hall'
      refine ⟨again, lost, by rw [hround]; exact hall', ?_⟩
      rw [hnothing, losesNothing_tail hpos (by omega) hall, List.length_drop]
      have hleft : src.length - room = w.writeBuffer.length + src.length - writeBufferSize := by
        omega
      rw [hleft]
      exact Iff.rfl
    · have hfull : (w.copied (src.take room)).writeBuffer.length = writeBufferSize := by
        rw [BurstWriter.copied, List.length_append, List.length_take]
        omega
      have hfailed := flushFailed_effect (w := w.copied (src.take room)) (hn.trans_eq hfull.symm)
        hfull.le
      have hall := ((hcopied room le_rfl).trans hfailed).dropping (src.drop room)
      rw [List.append_nil, List.take_append_drop, Nat.zero_add, Nat.zero_add, List.length_drop] at hall
      refine ⟨n, src.length - room, by rw [hround]; exact hall, ?_⟩
      have hshort : ¬ writeBufferSize ≤ n := Nat.not_le.mpr hn
      have hfill : writeBufferSize ≤ w.writeBuffer.length + src.length := by omega
      simp only [hlimits, LosesNothing, hpos, hfill, hshort, false_and, false_or, true_implies]
      omega

theorem MadeCall.effect (made : MadeCall) (hbuffer : made.writer.writeBuffer.length ≤ writeBufferSize) :
    ∃ again lost, OutputEffect made.writer (made.call.run made.writer).2 made.call.data again lost ∧
      (again = 0 ∧ lost = 0 ↔ made.LosesNothing) := by
  obtain ⟨w, call⟩ := made
  cases call with
  | write data =>
    refine burstWriterCopy_effect hbuffer ?_
    rw [copyRounds]
    split <;> omega
  | flush =>
    by_cases hempty : w.writeBuffer = []
    · have hflush : burstWriterFlush w = (some (), w) := by
        rw [burstWriterFlush, if_pos (by rw [hempty]; rfl)]
      refine ⟨0, 0, ?_, by simp [LosesNothing, hempty]⟩
      simp only [BufferCall.run, BufferCall.data, hflush]
      exact .of_same hbuffer ⟨rfl, rfl, rfl⟩
    · obtain ⟨hall, hflush⟩ | ⟨n, limits, hlimits, hn, hflush⟩ := burstWriterFlush_cases hempty
      · refine ⟨0, 0, ?_, iff_of_true ⟨rfl, rfl⟩ fun n hn ↦ .inl (hall n hn)⟩
        simp only [BufferCall.run, BufferCall.data, hflush]
        exact flushed_effect w
      · refine ⟨n, 0, ?_, ?_⟩
        · simp only [BufferCall.run, BufferCall.data, hflush]
          exact flushFailed_effect hn hbuffer
        · have hshort : ¬ w.writeBuffer.length ≤ n := Nat.not_le.mpr hn
          simp [LosesNothing, hlimits, hshort]

/-- Calls one after another, those that a function stops at among them. -/
theorem Makes.effect {α : Type} {m : WriterM α} {w : BurstWriter} {log : List MadeCall}
    (h : Makes m w log) (hbuffer : w.writeBuffer.length ≤ writeBufferSize) :
    ∃ again lost, OutputEffect w (m w).2 (writtenData log) again lost ∧
      (again = 0 ∧ lost = 0 ↔ ∀ made ∈ log, made.LosesNothing) := by
  induction h with
  | call call w =>
    obtain ⟨again, lost, heffect, hnothing⟩ := MadeCall.effect ⟨w, call⟩ hbuffer
    exact ⟨again, lost, by simpa [writtenData] using heffect, by simpa using hnothing⟩
  | quiet h w => exact ⟨0, 0, .of_same hbuffer (h w), by simp⟩
  | stop _ fails ih =>
    obtain ⟨again, lost, heffect, hnothing⟩ := ih hbuffer
    refine ⟨again, lost, ?_, hnothing⟩
    rw [fails] at heffect
    simpa [Bind.bind, fails] using heffect
  | bind _ succeeds _ ih ih' =>
    obtain ⟨again, lost, heffect, hnothing⟩ := ih hbuffer
    rw [succeeds] at heffect
    obtain ⟨again', lost', heffect', hnothing'⟩ := ih' heffect.room
    refine ⟨again + again', lost + lost', ?_, ?_⟩
    · have hboth := heffect.trans heffect'
      simpa [writtenData, Bind.bind, succeeds] using hboth
    · rw [List.forall_mem_append, ← hnothing, ← hnothing']
      omega

theorem bind_files {α β : Type} {m : WriterM α} {f : α → WriterM β}
    (hm : ∀ w, (m w).2.files = w.files) (hf : ∀ a w, (f a w).2.files = w.files) (w : BurstWriter) :
    ((m >>= f) w).2.files = w.files := by
  have hfirst := hm w
  cases hmw : m w with
  | mk result w' =>
    rw [hmw] at hfirst
    cases result with
    | none => simpa [Bind.bind, hmw] using hfirst
    | some a => simpa [Bind.bind, hmw] using (hf a w').trans hfirst

theorem bind_makes {α β : Type} {m : WriterM α} {f : α → WriterM β}
    (hm : ∀ w, ∃ log, Makes m w log) (hf : ∀ a w, ∃ log, Makes (f a) w log) (w : BurstWriter) :
    ∃ log, Makes (m >>= f) w log := by
  obtain ⟨log, hlog⟩ := hm w
  cases hmw : m w with
  | mk result w' =>
    cases result with
    | none => exact ⟨log, .stop hlog hmw⟩
    | some a =>
      obtain ⟨log', hlog'⟩ := hf a w'
      exact ⟨log ++ log', .bind hlog hmw hlog'⟩

/-- A function whose calls are known wherever it runs, and that records no entry. -/
structure OnlyWrites {α : Type} (m : WriterM α) : Prop where
  makes : ∀ w, ∃ log, Makes m w log
  files : ∀ w, (m w).2.files = w.files

namespace OnlyWrites

variable {α β : Type} {m : WriterM α} {f : α → WriterM β}

theorem quiet (h : Quiet m) (hfiles : ∀ w, (m w).2.files = w.files) : OnlyWrites m :=
  ⟨fun w ↦ ⟨[], .quiet h w⟩, hfiles⟩

theorem done (a : α) : OnlyWrites (pure a) := quiet (fun _ ↦ ⟨rfl, rfl, rfl⟩) fun _ ↦ rfl

theorem fail : OnlyWrites (WriterM.fail : WriterM α) :=
  quiet (fun _ ↦ ⟨rfl, rfl, rfl⟩) fun _ ↦ rfl

theorem bind (hm : OnlyWrites m) (hf : ∀ a, OnlyWrites (f a)) : OnlyWrites (m >>= f) where
  makes := bind_makes hm.makes fun a ↦ (hf a).makes
  files := bind_files hm.files fun a ↦ (hf a).files

theorem getting {f : BurstWriter → WriterM β} (hf : ∀ w, OnlyWrites (f w)) :
    OnlyWrites (WriterM.get >>= f) :=
  bind (quiet (fun _ ↦ ⟨rfl, rfl, rfl⟩) fun _ ↦ rfl) hf

theorem ite {c : Prop} [Decidable c] {m n : WriterM α} (hm : OnlyWrites m) (hn : OnlyWrites n) :
    OnlyWrites (if c then m else n) := by
  split
  · exact hm
  · exact hn

end OnlyWrites

theorem burstWriterFlush_files (w : BurstWriter) : (burstWriterFlush w).2.files = w.files := by
  by_cases hempty : w.writeBuffer = []
  · rw [burstWriterFlush, if_pos (by rw [hempty]; rfl)]
  · obtain ⟨-, hflush⟩ | ⟨n, limits, -, -, hflush⟩ := burstWriterFlush_cases hempty
    · rw [hflush]
      rfl
    · rw [hflush]
      rfl

theorem burstWriterCopy_files (fuel : ℕ) (src : List UInt8) (w : BurstWriter) :
    (burstWriterCopy fuel src w).2.files = w.files := by
  induction fuel generalizing src w with
  | zero => rfl
  | succ fuel ih =>
    rw [burstWriterCopy]
    split
    · rfl
    · refine bind_files (fun _ ↦ rfl) (fun v ↦ bind_files (fun _ ↦ rfl) fun _ ↦ bind_files ?_ ?_) w
      · intro w
        split
        · exact burstWriterFlush_files w
        · rfl
      · exact fun _ ↦ ih _

theorem write_onlyWrites (data : List UInt8) : OnlyWrites (burstWriterWrite data) :=
  ⟨fun w ↦ ⟨_, .call (.write data) w⟩, burstWriterCopy_files _ data⟩

theorem flush_onlyWrites : OnlyWrites burstWriterFlush :=
  ⟨fun w ↦ ⟨_, .call .flush w⟩, burstWriterFlush_files⟩

theorem addPaddingBytes_onlyWrites (n : ℕ) : OnlyWrites (addPaddingBytes n) :=
  .quiet (fun _ ↦ ⟨rfl, rfl, rfl⟩) fun _ ↦ rfl

theorem calloc_onlyWrites (n : ℕ) : OnlyWrites (calloc n) := .ite (.done _) .fail

theorem alignmentWritePaddingFrame_onlyWrites (paddingSize : ℕ) :
    OnlyWrites (alignmentWritePaddingFrame paddingSize) := by
  refine (write_onlyWrites _).bind fun _ ↦ (addPaddingBytes_onlyWrites _).bind fun _ ↦
    (write_onlyWrites _).bind fun _ ↦ (addPaddingBytes_onlyWrites _).bind fun _ ↦ .ite ?_ (.done _)
  exact (calloc_onlyWrites _).bind fun _ ↦ (write_onlyWrites _).bind fun _ ↦
    addPaddingBytes_onlyWrites _

theorem alignmentWriteStartOfPartFrame_onlyWrites (offset : ℕ) :
    OnlyWrites (alignmentWriteStartOfPartFrame offset) :=
  (write_onlyWrites _).bind fun _ ↦ (write_onlyWrites _).bind fun _ ↦
    (write_onlyWrites _).bind fun _ ↦ (write_onlyWrites _).bind fun _ ↦
      (write_onlyWrites _).bind fun _ ↦ addPaddingBytes_onlyWrites _

theorem writePaddingLfh_onlyWrites (env : WriterEnv) (targetSize : ℕ) :
    OnlyWrites (writePaddingLfh env targetSize) :=
  .ite .fail (.getting fun _ ↦ (write_onlyWrites _).bind fun _ ↦ (write_onlyWrites _).bind fun _ ↦
    (OnlyWrites.ite (write_onlyWrites _) (.done _)).bind fun _ ↦ addPaddingBytes_onlyWrites _)

theorem checkAlignmentAndPad_onlyWrites (env : WriterEnv) (lfhLen contentSize : ℕ) (dd : Bool) :
    OnlyWrites (checkAlignmentAndPad env lfhLen contentSize dd) :=
  .getting fun _ ↦ .ite (writePaddingLfh_onlyWrites _ _) (.done _)

theorem startEntry_onlyWrites (env : WriterEnv) (lfh : LocalFileHeader) (contentSize : ℕ) (dd : Bool)
    (unixMode uid gid : ℕ) : OnlyWrites (startEntry env lfh contentSize dd unixMode uid gid) :=
  (checkAlignmentAndPad_onlyWrites _ _ _ _).bind fun _ ↦ .getting fun _ ↦
    (write_onlyWrites _).bind fun _ ↦ .done _

theorem addChunk_onlyWrites (env : WriterEnv) (level : ℤ) (s : ChunkState) (chunk : List UInt8) :
    OnlyWrites (addChunk env level s chunk) := by
  rw [addChunk]
  cases env.compressChunk level chunk with
  | none => exact .fail
  | some frame =>
    refine .getting fun w ↦ .bind ?_ fun _ ↦ (write_onlyWrites _).bind fun _ ↦
      (OnlyWrites.ite (alignmentWriteStartOfPartFrame_onlyWrites _) (.done _)).bind fun _ ↦ .done _
    cases (alignmentDecide w.position frame.length (decide (chunk.length < zstdChunkSize))).action with
    | padThenFrame => exact alignmentWritePaddingFrame_onlyWrites _
    | padThenMetadata =>
      exact (alignmentWritePaddingFrame_onlyWrites _).bind fun _ ↦
        alignmentWriteStartOfPartFrame_onlyWrites _
    | writeFrame => exact .done _
    | writeFrameThenMetadata => exact .done _

theorem addChunks_onlyWrites (env : WriterEnv) (level : ℤ) (s : ChunkState)
    (chunks : List (List UInt8)) : OnlyWrites (addChunks env level s chunks) := by
  induction chunks generalizing s with
  | nil => exact .done s
  | cons chunk chunks ih => exact (addChunk_onlyWrites env level s chunk).bind fun s ↦ ih s

theorem padBeforeDescriptor_onlyWrites (descriptorSize totalUncompressed : ℕ) :
    OnlyWrites (padBeforeDescriptor descriptorSize totalUncompressed) :=
  .getting fun _ ↦ .ite ((alignmentWritePaddingFrame_onlyWrites _).bind fun _ ↦
    alignmentWriteStartOfPartFrame_onlyWrites _) (.done _)

theorem writeFileData_onlyWrites (env : WriterEnv) (level : ℤ) (input : InputFile)
    (entry : FileEntry) : OnlyWrites (writeFileData env level input entry) :=
  (addChunks_onlyWrites _ _ _ _).bind fun _ ↦ .ite .fail (.getting fun _ ↦
    (padBeforeDescriptor_onlyWrites _ _).bind fun _ ↦ (write_onlyWrites _).bind fun _ ↦ .done _)

/-- A function that fails before it records its entry or not at all. -/
structure RecordsLast {α : Type} (m : WriterM α) : Prop where
  makes : ∀ w, ∃ log, Makes m w log
  files : ∀ w, (m w).1 = none → (m w).2.files = w.files

namespace RecordsLast

variable {α β : Type} {m : WriterM α} {f : α → WriterM β}

theorem fail : RecordsLast (WriterM.fail : WriterM α) := ⟨OnlyWrites.fail.makes, fun _ _ ↦ rfl⟩

theorem record (entry : FileEntry) : RecordsLast (recordEntry entry) where
  makes w := ⟨[], .quiet (fun _ ↦ ⟨rfl, rfl, rfl⟩) w⟩
  files _ h := by cases h

theorem bind (hm : OnlyWrites m) (hf : ∀ a, RecordsLast (f a)) : RecordsLast (m >>= f) where
  makes := bind_makes hm.makes fun a ↦ (hf a).makes
  files w := by
    have hfirst := hm.files w
    cases hmw : m w with
    | mk result w' =>
      rw [hmw] at hfirst
      cases result with
      | none => simpa [Bind.bind, hmw] using hfirst
      | some a =>
        intro hfail
        have hrest := (hf a).files w'
        simp only [Bind.bind, hmw] at hfail ⊢
        exact (hrest hfail).trans hfirst

theorem ite {c : Prop} [Decidable c] {m n : WriterM α} (hm : RecordsLast m) (hn : RecordsLast n) :
    RecordsLast (if c then m else n) := by
  split
  · exact hm
  · exact hn

end RecordsLast

theorem AddCall.run_recordsLast (env : WriterEnv) (call : AddCall) : RecordsLast (call.run env) := by
  cases call with
  | file input lfh unixMode uid gid =>
    refine .ite .fail (.bind (startEntry_onlyWrites _ _ _ _ _ _ _) fun entry ↦
      .bind (.quiet (fun _ ↦ ⟨rfl, rfl, rfl⟩) fun _ ↦ rfl) fun w ↦ .ite (.record _) ?_)
    exact .bind (writeFileData_onlyWrites _ _ _ _) fun _ ↦ .record _
  | symlink lfh target unixMode uid gid =>
    exact .ite .fail (.bind (startEntry_onlyWrites _ _ _ _ _ _ _) fun _ ↦
      .bind (write_onlyWrites _) fun _ ↦ .record _)
  | directory lfh unixMode uid gid =>
    exact .ite .fail (.ite .fail (.bind (startEntry_onlyWrites _ _ _ _ _ _ _) fun _ ↦ .record _))

theorem writeCentralHeaders_onlyWrites (entries : List FileEntry) :
    OnlyWrites (writeCentralHeaders entries) := by
  induction entries with
  | nil => exact .done ()
  | cons entry entries ih =>
    refine .bind (.ite .fail ?_) fun _ ↦ ih
    exact (write_onlyWrites _).bind fun _ ↦ (write_onlyWrites _).bind fun _ ↦
      .ite (write_onlyWrites _) (.done _)

theorem writeEndRecords_onlyWrites (centralDirStart centralDirEnd firstCdfhOffset : ℕ) :
    OnlyWrites (writeEndRecords centralDirStart centralDirEnd firstCdfhOffset) := by
  rw [writeEndRecords, writeZip64EndCentralDirectory, writeZip64EndCentralDirectoryLocator,
    writeEndCentralDirectory]
  refine .bind (.getting fun _ ↦ write_onlyWrites _) fun _ ↦ ?_
  refine .bind (write_onlyWrites _) fun _ ↦ ?_
  exact .getting fun _ ↦ .bind (write_onlyWrites _) fun _ ↦ write_onlyWrites _

theorem burstWriterFinalize_onlyWrites : OnlyWrites burstWriterFinalize :=
  flush_onlyWrites.bind fun _ ↦ .getting fun _ ↦
    (OnlyWrites.getting fun _ ↦ writeCentralHeaders_onlyWrites _).bind fun _ ↦ .getting fun _ ↦
      (writeEndRecords_onlyWrites _ _ _).bind fun _ ↦ flush_onlyWrites

/-- The calls that the add functions and then `burst_writer_finalize` make. -/
inductive WritesOf (env : WriterEnv) : List AddCall → BurstWriter → List MadeCall → Prop where
  | finalize {w : BurstWriter} {log : List MadeCall} (h : Makes burstWriterFinalize w log) :
      WritesOf env [] w log
  | add {call : AddCall} {calls : List AddCall} {w : BurstWriter} {log log' : List MadeCall}
      (first : Makes (call.run env) w log) (rest : WritesOf env calls (call.run env w).2 log') :
      WritesOf env (call :: calls) w (log ++ log')

theorem writesOf_exists (env : WriterEnv) (calls : List AddCall) (w : BurstWriter) :
    ∃ log, WritesOf env calls w log := by
  induction calls generalizing w with
  | nil =>
    obtain ⟨log, hlog⟩ := burstWriterFinalize_onlyWrites.makes w
    exact ⟨log, .finalize hlog⟩
  | cons call calls ih =>
    obtain ⟨log, hlog⟩ := (call.run_recordsLast env).makes w
    obtain ⟨log', hlog'⟩ := ih (call.run env w).2
    exact ⟨log ++ log', .add hlog hlog'⟩

theorem WritesOf.effect {env : WriterEnv} {calls : List AddCall} {w : BurstWriter}
    {log : List MadeCall} (h : WritesOf env calls w log)
    (hbuffer : w.writeBuffer.length ≤ writeBufferSize) :
    ∃ again lost, OutputEffect w (burstWriterFinalize (addEach env calls w)).2 (writtenData log)
        again lost ∧
      (again = 0 ∧ lost = 0 ↔ ∀ made ∈ log, made.LosesNothing) := by
  induction h with
  | finalize h => exact h.effect hbuffer
  | add first _ ih =>
    obtain ⟨again, lost, heffect, hnothing⟩ := first.effect hbuffer
    obtain ⟨again', lost', heffect', hnothing'⟩ := ih heffect.room
    refine ⟨again + again', lost + lost', ?_, ?_⟩
    · have hboth := heffect.trans heffect'
      simpa [writtenData, addEach] using hboth
    · rw [List.forall_mem_append, ← hnothing, ← hnothing']
      omega

/-- The writer counts what reached the file, and every entry it has recorded has its header there. -/
structure HeadersInPlace (calls : List AddCall) (w : BurstWriter) : Prop where
  room : w.writeBuffer.length ≤ writeBufferSize
  offset : w.currentOffset = w.output.bytes.length
  headers : ∀ entry ∈ w.files, ∃ call ∈ calls, entry.filename = call.lfh.filename ∧
    call.lfh.bytes <+: w.archive.drop entry.localHeaderOffset

theorem HeadersInPlace.position {calls : List AddCall} {w : BurstWriter}
    (h : HeadersInPlace calls w) : w.position = w.archive.length := by
  rw [BurstWriter.position, BurstWriter.archive, List.length_append, h.offset]

theorem prefix_drop_append {xs ys : List UInt8} {n : ℕ} {archive : List UInt8}
    (h : xs <+: archive.drop n) : xs <+: (archive ++ ys).drop n := by
  by_cases hn : n ≤ archive.length
  · rw [List.drop_append_of_le_length hn]
    exact h.trans (List.prefix_append _ _)
  · rw [List.drop_eq_nil_of_le (by omega), List.prefix_nil] at h
    rw [h]
    exact List.nil_prefix

theorem recordedEntry_header (env : WriterEnv) (level : ℤ) (pos : ℕ) (call : AddCall) :
    (recordedEntry env level pos call).filename = call.lfh.filename ∧
      (recordedEntry env level pos call).localHeaderOffset =
        pos + total Item.len (layoutCall env level pos call).gap ∧
      (layoutCall env level pos call).header = call.lfh := by
  cases call with
  | file input lfh unixMode uid gid =>
    by_cases hho : isHeaderOnly lfh = true
    · simp [recordedEntry, hho, layoutCall, populateEntryMetadata, allocateFileEntry,
        EntryLayout.headerPos, AddCall.lfh]
    · simp [recordedEntry, hho, layoutCall, populateEntryMetadata, allocateFileEntry,
        EntryLayout.headerPos, AddCall.lfh, completedEntry]
  | symlink lfh target unixMode uid gid =>
    simp [recordedEntry, layoutCall, populateEntryMetadata, allocateFileEntry,
      EntryLayout.headerPos, AddCall.lfh]
  | directory lfh unixMode uid gid =>
    simp [recordedEntry, layoutCall, populateEntryMetadata, allocateFileEntry,
      EntryLayout.headerPos, AddCall.lfh]

/-- A call that loses nothing keeps the headers in place, whether it succeeds or not. -/
theorem headersInPlace_step {env : WriterEnv} {calls : List AddCall} {call : AddCall}
    {w : BurstWriter} {log : List MadeCall} (hcall : call ∈ calls) (h : HeadersInPlace calls w)
    (hlog : Makes (call.run env) w log) (hnothing : ∀ made ∈ log, made.LosesNothing) :
    HeadersInPlace calls (call.run env w).2 := by
  obtain ⟨again, lost, heffect, hiff⟩ := hlog.effect h.room
  obtain ⟨rfl, rfl⟩ := hiff.mpr hnothing
  have harchive := heffect.bytes rfl rfl
  have hkeeps (entry : FileEntry) (hentry : entry ∈ w.files) :
      ∃ c ∈ calls, entry.filename = c.lfh.filename ∧
        c.lfh.bytes <+: (call.run env w).2.archive.drop entry.localHeaderOffset := by
    obtain ⟨c, hmem, hname, hheader⟩ := h.headers entry hentry
    rw [harchive]
    exact ⟨c, hmem, hname, prefix_drop_append hheader⟩
  refine ⟨heffect.room, ?_, fun entry hentry ↦ ?_⟩
  · have hoffset := heffect.offset
    have hbefore := h.offset
    omega
  · cases hrun : (call.run env w).1 with
    | none =>
      rw [(call.run_recordsLast env).files w hrun] at hentry
      exact hkeeps entry hentry
    | some result =>
      have hadded := (AddCall.run_ok (WriterM.ok_of_fst hrun)).2
      rw [hadded.files] at hentry
      rcases List.mem_append.mp hentry with hold | hnew
      · exact hkeeps entry hold
      · obtain rfl := List.mem_singleton.mp hnew
        obtain ⟨hname, hoffset, hheader⟩ := recordedEntry_header env w.compressionLevel w.position call
        set l := layoutCall env w.compressionLevel w.position call
        have hlen : (w.archive ++ itemBytes l.gap).length = w.position + total Item.len l.gap := by
          rw [List.length_append, itemBytes_length, h.position]
        refine ⟨call, hcall, hname, ?_⟩
        rw [hadded.archive, hoffset, EntryLayout.items, itemBytes_append, itemBytes_cons,
          ← List.append_assoc, List.drop_left' hlen, hheader]
        exact List.prefix_append _ _

theorem WritesOf.headersInPlace {env : WriterEnv} {all calls : List AddCall} {w : BurstWriter}
    {log : List MadeCall} (hlog : WritesOf env calls w log) (hcalls : ∀ call ∈ calls, call ∈ all)
    (h : HeadersInPlace all w) (hnothing : ∀ made ∈ log, made.LosesNothing) :
    HeadersInPlace all (addEach env calls w) := by
  induction hlog with
  | finalize _ => exact h
  | add first _ ih =>
    obtain ⟨hcall, hrest⟩ := List.forall_mem_cons.mp hcalls
    obtain ⟨hlost, hlosts⟩ := List.forall_mem_append.mp hnothing
    exact ih hrest (headersInPlace_step hcall h first hlost) hlosts

theorem startEntry_noGap (env : WriterEnv) {lfh : LocalFileHeader} {contentSize : ℕ} {dd : Bool}
    (unixMode uid gid : ℕ) {w : BurstWriter}
    (hspace : headerSpaceNeeded lfh.len contentSize dd ≤ spaceUntilBoundary w.position)
    (hroom : w.writeBuffer.length + lfh.bytes.length < writeBufferSize) :
    startEntry env lfh contentSize dd unixMode uid gid w =
      (some (populateEntryMetadata (allocateFileEntry lfh) lfh w.position unixMode uid gid),
        w.copied lfh.bytes) := by
  have hpad : checkAlignmentAndPad env lfh.len contentSize dd w = (some (), w) := by
    rw [checkAlignmentAndPad, WriterM.bind_ok]
    refine ⟨w, w, WriterM.get_ok.mpr ⟨rfl, rfl⟩, ?_⟩
    rw [alignmentNextBoundary_sub, if_neg (Nat.not_lt.mpr hspace)]
    exact WriterM.pure_ok.mpr ⟨rfl, rfl⟩
  rw [startEntry, WriterM.bind_ok]
  refine ⟨(), w, hpad, ?_⟩
  rw [WriterM.bind_ok]
  refine ⟨w, w, WriterM.get_ok.mpr ⟨rfl, rfl⟩, ?_⟩
  rw [WriterM.bind_ok]
  exact ⟨(), _, burstWriterWrite_fits hroom, WriterM.pure_ok.mpr ⟨rfl, rfl⟩⟩

theorem burstWriterAddSymlink_fits (env : WriterEnv) {lfh : LocalFileHeader} {target : List UInt8}
    (unixMode uid gid : ℕ) {w : BurstWriter} (htarget : target ≠ [])
    (hspace : headerSpaceNeeded lfh.len target.length false ≤ spaceUntilBoundary w.position)
    (hroom : w.writeBuffer.length + lfh.bytes.length + target.length < writeBufferSize) :
    ∃ w', burstWriterAddSymlink env lfh target unixMode uid gid w = (some (), w') ∧
      w'.output = w.output ∧ w'.currentOffset = w.currentOffset ∧
      w'.writeBuffer = w.writeBuffer ++ lfh.bytes ++ target := by
  have hlen : ¬ target.length = 0 := fun hnil ↦ htarget (List.eq_nil_of_length_eq_zero hnil)
  have hstart := startEntry_noGap env unixMode uid gid hspace (by omega)
  have hwrite : burstWriterWrite target (w.copied lfh.bytes) =
      (some (), (w.copied lfh.bytes).copied target) := by
    refine burstWriterWrite_fits ?_
    rw [BurstWriter.copied, List.length_append]
    omega
  rw [burstWriterAddSymlink, if_neg hlen, WriterM.bind_some hstart, WriterM.bind_some hwrite]
  exact ⟨_, rfl, rfl, rfl, rfl⟩

/-- The target does not fit into the buffer and the `fwrite` is short. -/
theorem burstWriterAddSymlink_short (env : WriterEnv) {lfh : LocalFileHeader} {target : List UInt8}
    (unixMode uid gid : ℕ) {w : BurstWriter} {n : ℕ} {limits : List ℕ}
    (hspace : headerSpaceNeeded lfh.len target.length false ≤ spaceUntilBoundary w.position)
    (hroom : w.writeBuffer.length + lfh.bytes.length < writeBufferSize)
    (hfull : writeBufferSize ≤ w.writeBuffer.length + lfh.bytes.length + target.length)
    (hlimits : w.output.fwriteLimits = n :: limits) (hn : n < writeBufferSize) :
    ∃ w', burstWriterAddSymlink env lfh target unixMode uid gid w = (none, w') ∧
      w'.output.bytes.length = w.output.bytes.length + n ∧ w'.output.fwriteLimits = limits ∧
      w'.currentOffset = w.currentOffset ∧ w'.writeBuffer.length = writeBufferSize := by
  have hlen : ¬ target.length = 0 := by omega
  have hstart := startEntry_noGap env unixMode uid gid hspace hroom
  set v := w.copied lfh.bytes with hv
  have hcopied : v.writeBuffer.length = w.writeBuffer.length + lfh.bytes.length := by
    rw [hv, BurstWriter.copied, List.length_append]
  have hlt : v.writeBuffer.length < writeBufferSize := hcopied ▸ hroom
  have hover : writeBufferSize ≤ v.writeBuffer.length + target.length := hcopied ▸ hfull
  have hwrite := burstWriterWrite_short hlt hover hlimits hn
  set full := v.copied (target.take (writeBufferSize - v.writeBuffer.length)) with hfulldef
  have hbuffer : full.writeBuffer.length = writeBufferSize := by
    rw [hfulldef, BurstWriter.copied, List.length_append, List.length_take, hcopied]
    omega
  refine ⟨full.flushFailed full.writeBuffer n, ?_, ?_, congrArg List.tail hlimits, rfl, hbuffer⟩
  · rw [burstWriterAddSymlink, if_neg hlen, WriterM.bind_some hstart]
    exact WriterM.bind_none hwrite
  · simp only [BurstWriter.flushFailed, List.length_append, List.length_take, hbuffer,
      Nat.min_eq_left hn.le]
    rfl

def longTarget : List UInt8 := List.replicate 65536 99

/-- Links to targets of 3 and of 65536 bytes, on a disk that takes 10 bytes of the first buffer. -/
def tornCalls : List AddCall :=
  [.symlink (sampleHeader 0 zipMethodStore) [98, 99, 100] 0o120777 0 0,
    .symlink (sampleHeader 0 zipMethodStore) longTarget 0o120777 0 0]

/-- The second link is not added, and 10 bytes are in the file twice. -/
theorem tornCalls_finalize : ∃ w',
    burstWriterFinalize (addEach rawEnv tornCalls (burstWriterCreate ⟨[], [10]⟩ 3)) = (some (), w') ∧
      w'.currentOffset ≠ w'.output.bytes.length := by
  have hlen : (sampleHeader 0 zipMethodStore).len = 46 := by decide
  have hbytes : (sampleHeader 0 zipMethodStore).bytes.length = 46 := by
    rw [LocalFileHeader.bytes_length, hlen]
  have hspace : spaceUntilBoundary 0 = 8388608 ∧ spaceUntilBoundary 49 = 8388559 := by decide
  have hneed (n : ℕ) (hn : n < 70000) :
      headerSpaceNeeded (sampleHeader 0 zipMethodStore).len n false ≤ 8388559 := by
    rw [headerSpaceNeeded, hlen, paddingLfhMinSize]
    simp only [Bool.false_eq_true, if_false]
    omega
  set w := burstWriterCreate ⟨[], [10]⟩ 3 with hw
  have hlong : longTarget.length = 65536 := List.length_replicate
  have hroom : w.writeBuffer.length + (sampleHeader 0 zipMethodStore).bytes.length +
      ([98, 99, 100] : List UInt8).length < writeBufferSize := by
    rw [hbytes]
    decide
  have hstart : headerSpaceNeeded (sampleHeader 0 zipMethodStore).len
      ([98, 99, 100] : List UInt8).length false ≤ spaceUntilBoundary w.position := by
    rw [show w.position = 0 from rfl, hspace.1]
    exact (hneed 3 (by norm_num)).trans (by norm_num)
  obtain ⟨w₁, hfirst, houtput, hoffset, hbuffer⟩ :=
    burstWriterAddSymlink_fits rawEnv 0o120777 0 0 (List.cons_ne_nil _ _) hstart hroom
  have hused : w₁.writeBuffer.length = 49 := by
    rw [hbuffer, List.length_append, List.length_append, hbytes]
    rfl
  have hposition : w₁.position = 49 := by
    rw [BurstWriter.position, hoffset, hused]
    rfl
  have hnext : headerSpaceNeeded (sampleHeader 0 zipMethodStore).len longTarget.length false ≤
      spaceUntilBoundary w₁.position := by
    rw [hposition, hspace.2, hlong]
    exact hneed 65536 (by norm_num)
  obtain ⟨w₂, hsecond, hfile, hlimits, hoffset₂, hbuffer₂⟩ :=
    burstWriterAddSymlink_short rawEnv 0o120777 0 0 hnext
      (by rw [hused, hbytes]; decide) (by rw [hused, hbytes, hlong]; decide)
      (congrArg OutputFile.fwriteLimits houtput) (by decide)
  have hafter : addEach rawEnv tornCalls w = w₂ := by
    rw [tornCalls, addEach_cons, AddCall.run, hfirst, addEach_cons, AddCall.run, hsecond, addEach]
  obtain ⟨w', hfin, -⟩ := burstWriterFinalize_unlimited hlimits
  refine ⟨w', by rw [hafter]; exact hfin, fun hcount ↦ ?_⟩
  obtain ⟨happended, hempty⟩ := burstWriterFinalize_appended hfin
  have hpos := happended.position
  have harchive := congrArg List.length happended.archive
  rw [houtput] at hfile
  rw [hoffset] at hoffset₂
  simp only [BurstWriter.position, BurstWriter.archive, hempty, List.length_append, List.length_nil,
    hbuffer₂, hoffset₂, hfile] at hpos harchive
  rw [hw] at hpos harchive
  simp only [burstWriterCreate, List.length_nil] at hpos harchive
  omega

/-- The output file after `burst_writer_finalize` has returned 0: the bytes of all calls one after
another, with the headers and the central directory where the recorded offsets say. -/
structure IntactOutput (calls : List AddCall) (log : List MadeCall) (w : BurstWriter) : Prop where
  bytes : w.output.bytes = writtenData log
  offset : w.currentOffset = w.output.bytes.length
  headers : ∀ entry ∈ w.files, ∃ call ∈ calls, entry.filename = call.lfh.filename ∧
    call.lfh.bytes <+: w.output.bytes.drop entry.localHeaderOffset
  directory : ∃ before, w.output.bytes = before ++ centralDirectoryBytes w.files ++
    endRecords w.files before.length (centralDirectoryBytes w.files).length

/-- The output is intact exactly when no `fwrite` loses or repeats a byte. -/
theorem finalize_intact_iff {env : WriterEnv} {level : ℤ} {limits : List ℕ} {calls : List AddCall}
    {log : List MadeCall} {w' : BurstWriter}
    (hlog : WritesOf env calls (burstWriterCreate ⟨[], limits⟩ level) log)
    (hfin : burstWriterFinalize (addEach env calls (burstWriterCreate ⟨[], limits⟩ level)) =
      (some (), w')) :
    IntactOutput calls log w' ↔ ∀ made ∈ log, made.LosesNothing := by
  have hcreate : HeadersInPlace calls (burstWriterCreate ⟨[], limits⟩ level) :=
    ⟨Nat.zero_le _, rfl, fun entry hentry ↦ by cases hentry⟩
  obtain ⟨again, lost, heffect, hiff⟩ := hlog.effect hcreate.room
  rw [hfin] at heffect
  set w := addEach env calls (burstWriterCreate ⟨[], limits⟩ level)
  obtain ⟨happended, hempty⟩ := burstWriterFinalize_appended hfin
  have harchive : w'.archive = w'.output.bytes := by
    rw [BurstWriter.archive, hempty, List.append_nil]
  have hsizes := heffect.sizes
  have hoffset := heffect.offset
  have hbytes := heffect.bytes
  rw [harchive] at hsizes hbytes
  simp only [burstWriterCreate, BurstWriter.archive, List.append_nil, List.length_nil,
    List.nil_append, Nat.zero_add] at hsizes hoffset hbytes
  constructor
  · intro hintact
    have hwritten := congrArg List.length hintact.bytes
    have hcount := hintact.offset
    exact hiff.mp ⟨by omega, by omega⟩
  · intro hnothing
    obtain ⟨rfl, rfl⟩ := hiff.mpr hnothing
    have hplace := hlog.headersInPlace (fun _ hcall ↦ hcall) hcreate hnothing
    have hfiles : w'.files = w.files := by
      have hsame := burstWriterFinalize_onlyWrites.files w
      rwa [hfin] at hsame
    have hfinal := happended.archive
    rw [harchive] at hfinal
    refine ⟨hbytes rfl rfl, hoffset, fun entry hentry ↦ ?_, w.archive, ?_⟩
    · rw [hfiles] at hentry
      obtain ⟨call, hcall, hname, hheader⟩ := hplace.headers entry hentry
      rw [hfinal]
      exact ⟨call, hcall, hname, prefix_drop_append hheader⟩
    · rw [hfinal, hfiles, hplace.position, List.append_assoc]

/-- A disk that takes 10 bytes of the first buffer: some call loses or repeats bytes. -/
theorem finalize_intact_sample :
    ∃ log w', WritesOf rawEnv tornCalls (burstWriterCreate ⟨[], [10]⟩ 3) log ∧
      burstWriterFinalize (addEach rawEnv tornCalls (burstWriterCreate ⟨[], [10]⟩ 3)) = (some (), w') ∧
      (IntactOutput tornCalls log w' ↔ ∀ made ∈ log, made.LosesNothing) ∧
      ∃ made ∈ log, ¬ made.LosesNothing := by
  obtain ⟨log, hlog⟩ := writesOf_exists rawEnv tornCalls (burstWriterCreate ⟨[], [10]⟩ 3)
  obtain ⟨w', hfin, hcount⟩ := tornCalls_finalize
  have hiff := finalize_intact_iff hlog hfin
  refine ⟨log, w', hlog, hfin, hiff, ?_⟩
  by_contra hnone
  push Not at hnone
  exact hcount (hiff.mpr hnone).offset

theorem tornWrite_notIntact :
    ∃ log w', WritesOf rawEnv tornCalls (burstWriterCreate ⟨[], [10]⟩ 3) log ∧
      burstWriterFinalize (addEach rawEnv tornCalls (burstWriterCreate ⟨[], [10]⟩ 3)) =
        (some (), w') ∧ ¬ IntactOutput tornCalls log w' := by
  obtain ⟨log, hlog⟩ := writesOf_exists rawEnv tornCalls (burstWriterCreate ⟨[], [10]⟩ 3)
  obtain ⟨w', hfin, hcount⟩ := tornCalls_finalize
  exact ⟨log, w', hlog, hfin, fun hintact ↦ hcount hintact.offset⟩

end Burst
