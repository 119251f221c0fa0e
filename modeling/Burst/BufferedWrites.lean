import Burst.WriteBuffer
import Burst.Lib.Transition

namespace Burst

open Transition

/-- A call of `burst_writer_write` or `burst_writer_flush`. -/
inductive BufferCall where
  | write (data : List UInt8)
  | flush
  deriving DecidableEq, Repr

def BufferCall.run : BufferCall → WriterM Unit
  | write data => burstWriterWrite data
  | flush => burstWriterFlush

def BufferCall.data : BufferCall → List UInt8
  | write data => data
  | flush => []

/-- A call that returns 0. -/
def bufferStep (w : BurstWriter) (call : BufferCall) : Option BurstWriter :=
  match call.run w with
  | (some (), w') => some w'
  | (none, _) => none

/-- The writer after a buffer of `bytes` that the `fwrite` took whole. -/
def BurstWriter.flushed (w : BurstWriter) (bytes : List UInt8) : BurstWriter :=
  { w with
    output := ⟨w.output.bytes ++ bytes, w.output.fwriteLimits.tail⟩
    currentOffset := w.currentOffset + bytes.length
    writeBuffer := [] }

/-- The writer after an `fwrite` of the buffer that took `n` bytes only. -/
def BurstWriter.flushFailed (w : BurstWriter) (bytes : List UInt8) (n : ℕ) : BurstWriter :=
  { w with
    output := ⟨w.output.bytes ++ bytes.take n, w.output.fwriteLimits.tail⟩
    writeBuffer := bytes }

theorem burstWriterFlush_cases {w : BurstWriter} (h : w.writeBuffer ≠ []) :
    ((∀ n ∈ w.output.fwriteLimits.head?, w.writeBuffer.length ≤ n) ∧
      burstWriterFlush w = (some (), w.flushed w.writeBuffer)) ∨
    ∃ n limits, w.output.fwriteLimits = n :: limits ∧ n < w.writeBuffer.length ∧
      burstWriterFlush w = (none, w.flushFailed w.writeBuffer n) := by
  have hlen : ¬ w.writeBuffer.length = 0 := fun hnil ↦ h (List.eq_nil_of_length_eq_zero hnil)
  rw [burstWriterFlush, if_neg hlen]
  cases hlimits : w.output.fwriteLimits with
  | nil =>
    left
    simp [OutputFile.fwrite, hlimits, BurstWriter.flushed]
  | cons n limits =>
    by_cases hn : w.writeBuffer.length ≤ n
    · left
      have htake : w.writeBuffer.take n = w.writeBuffer := List.take_of_length_le hn
      simp [OutputFile.fwrite, hlimits, BurstWriter.flushed, htake, hn]
    · right
      refine ⟨n, limits, rfl, Nat.not_le.mp hn, ?_⟩
      have htake : (w.writeBuffer.take n).length ≠ w.writeBuffer.length := by
        rw [List.length_take]
        omega
      simp only [OutputFile.fwrite, hlimits]
      rw [if_pos htake]
      simp [BurstWriter.flushFailed, hlimits]

/-- The writer once `bytes` are copied into the buffer. -/
def BurstWriter.copied (w : BurstWriter) (bytes : List UInt8) : BurstWriter :=
  { w with writeBuffer := w.writeBuffer ++ bytes }

/-- What a round of the copy loop does: it takes all that is left, it fills the buffer and the
buffer gets to the file, or it fills the buffer and the `fwrite` is short. -/
theorem burstWriterCopy_cases {w : BurstWriter} (hbuffer : w.writeBuffer.length ≤ writeBufferSize)
    {src : List UInt8} (hsrc : src ≠ []) :
    let room := writeBufferSize - w.writeBuffer.length
    let full := w.copied (src.take room)
    (src.length < room ∧
      ∀ fuel, burstWriterCopy (fuel + 1) src w = burstWriterCopy fuel [] (w.copied src)) ∨
    (room ≤ src.length ∧ (∀ n ∈ w.output.fwriteLimits.head?, writeBufferSize ≤ n) ∧
      ∀ fuel, burstWriterCopy (fuel + 1) src w =
        burstWriterCopy fuel (src.drop room) (full.flushed full.writeBuffer)) ∨
    (room ≤ src.length ∧ ∃ n limits, w.output.fwriteLimits = n :: limits ∧ n < writeBufferSize ∧
      ∀ fuel, burstWriterCopy (fuel + 1) src w = (none, full.flushFailed full.writeBuffer n)) := by
  intro room full
  have hlen : ¬ src.length = 0 := fun hnil ↦ hsrc (List.eq_nil_of_length_eq_zero hnil)
  by_cases hfits : src.length < room
  · left
    refine ⟨hfits, fun fuel ↦ ?_⟩
    have hmin : min src.length (writeBufferSize - w.writeBuffer.length) = src.length :=
      Nat.min_eq_left hfits.le
    rw [burstWriterCopy, if_neg hlen]
    simp only [Bind.bind, WriterM.get, WriterM.modify, hmin]
    rw [if_neg (by omega), List.take_length, List.drop_length]
    rfl
  · right
    have hroom : room ≤ src.length := Nat.not_lt.mp hfits
    have hmin : min src.length (writeBufferSize - w.writeBuffer.length) = room :=
      Nat.min_eq_right hroom
    have hround (fuel : ℕ) : burstWriterCopy (fuel + 1) src w =
        (burstWriterFlush >>= fun _ ↦ burstWriterCopy fuel (src.drop room)) full := by
      rw [burstWriterCopy, if_neg hlen]
      simp only [Bind.bind, WriterM.get, WriterM.modify, hmin]
      rw [if_pos (by omega)]
      rfl
    have hfull : full.writeBuffer.length = writeBufferSize := by
      simp only [full, BurstWriter.copied, List.length_append, List.length_take]
      omega
    have hne : full.writeBuffer ≠ [] := by
      intro hnil
      rw [hnil, writeBufferSize] at hfull
      cases hfull
    obtain ⟨hall, hflush⟩ | ⟨n, limits, hlimits, hn, hflush⟩ := burstWriterFlush_cases hne
    · left
      rw [hfull] at hall
      exact ⟨hroom, hall, fun fuel ↦ by simp only [hround, Bind.bind, hflush]⟩
    · right
      rw [hfull] at hn
      exact ⟨hroom, n, limits, hlimits, hn, fun fuel ↦ by simp only [hround, Bind.bind, hflush]⟩

/-- Every `fwrite` of a write call takes all it is given: of a call with `used` bytes in the buffer
and `len` to copy. -/
def FwritesAll : List ℕ → ℕ → ℕ → Prop
  | [], _, _ => True
  | n :: limits, used, len => 0 < len → writeBufferSize ≤ used + len →
      writeBufferSize ≤ n ∧ FwritesAll limits 0 (used + len - writeBufferSize)

instance decidableFwritesAll : (limits : List ℕ) → (used len : ℕ) →
    Decidable (FwritesAll limits used len)
  | [], _, _ => isTrue trivial
  | n :: limits, used, len =>
    have := decidableFwritesAll limits 0 (used + len - writeBufferSize)
    inferInstanceAs (Decidable (0 < len → writeBufferSize ≤ used + len → writeBufferSize ≤ n ∧
      FwritesAll limits 0 (used + len - writeBufferSize)))

theorem fwritesAll_of_fits (limits : List ℕ) {used len : ℕ} (h : used + len < writeBufferSize) :
    FwritesAll limits used len := by
  cases limits with
  | nil => trivial
  | cons n limits => exact fun _ hfull ↦ (Nat.not_le.mpr h hfull).elim

theorem fwritesAll_zero (limits : List ℕ) (used : ℕ) : FwritesAll limits used 0 := by
  cases limits with
  | nil => trivial
  | cons n limits => exact fun hpos ↦ (Nat.lt_irrefl 0 hpos).elim

theorem fwritesAll_tail {limits : List ℕ} {used len : ℕ} (hlen : 0 < len)
    (hfull : writeBufferSize ≤ used + len) :
    FwritesAll limits used len ↔ (∀ n ∈ limits.head?, writeBufferSize ≤ n) ∧
      FwritesAll limits.tail 0 (used + len - writeBufferSize) := by
  cases limits with
  | nil => simp [FwritesAll]
  | cons n limits => simp [FwritesAll, hlen, hfull]

/-- The rounds the copy loop makes at most. -/
def copyRounds (w : BurstWriter) (src : List UInt8) : ℕ :=
  src.length + if w.writeBuffer.length = writeBufferSize then 1 else 0

theorem copyRounds_flushed (w : BurstWriter) (bytes src : List UInt8) :
    copyRounds (w.flushed bytes) src = src.length := by
  rw [copyRounds, if_neg (by simp [BurstWriter.flushed, writeBufferSize]), Nat.add_zero]

theorem copyRounds_drop_lt {w : BurstWriter} {src : List UInt8} (hsrc : src ≠ [])
    (hbuffer : w.writeBuffer.length ≤ writeBufferSize) :
    (src.drop (writeBufferSize - w.writeBuffer.length)).length < copyRounds w src := by
  have hpos := List.length_pos_iff.mpr hsrc
  rw [copyRounds, List.length_drop]
  split <;> omega

/-- The copy loop ends by itself: more rounds than these change nothing. -/
theorem burstWriterCopy_rounds {fuel : ℕ} {src : List UInt8} {w : BurstWriter}
    (hbuffer : w.writeBuffer.length ≤ writeBufferSize) (hfuel : copyRounds w src < fuel) :
    burstWriterCopy (fuel + 1) src w = burstWriterCopy fuel src w := by
  induction fuel generalizing src w with
  | zero => cases hfuel
  | succ fuel ih =>
    by_cases hsrc : src = []
    · simp [hsrc, burstWriterCopy]
    · obtain ⟨hfits, hround⟩ | ⟨-, -, hround⟩ | ⟨-, n, limits, -, -, hround⟩ :=
        burstWriterCopy_cases hbuffer hsrc
      · have hpos := List.length_pos_iff.mpr hsrc
        have hlen : (w.copied src).writeBuffer.length < writeBufferSize := by
          rw [BurstWriter.copied, List.length_append]
          omega
        rw [copyRounds] at hfuel
        rw [hround, hround]
        refine ih hlen.le ?_
        rw [copyRounds, if_neg hlen.ne, List.length_nil]
        omega
      · have hless := copyRounds_drop_lt hsrc hbuffer
        rw [hround, hround]
        refine ih (Nat.zero_le _) ?_
        rw [copyRounds_flushed]
        omega
      · rw [hround, hround]

theorem burstWriterWrite_rounds {w : BurstWriter}
    (hbuffer : w.writeBuffer.length ≤ writeBufferSize) (data : List UInt8) (more : ℕ) :
    burstWriterCopy (data.length + 2 + more) data w = burstWriterWrite data w := by
  induction more with
  | zero => rfl
  | succ more ih =>
    have hfuel : copyRounds w data < data.length + 2 + more := by
      rw [copyRounds]
      split <;> omega
    rw [← ih]
    exact burstWriterCopy_rounds hbuffer hfuel

theorem copied_lt {w : BurstWriter} {src : List UInt8}
    (hfits : src.length < writeBufferSize - w.writeBuffer.length) :
    (w.copied src).writeBuffer.length < writeBufferSize := by
  rw [BurstWriter.copied, List.length_append]
  omega

theorem burstWriterWrite_fits {w : BurstWriter} {data : List UInt8}
    (h : w.writeBuffer.length + data.length < writeBufferSize) :
    burstWriterWrite data w = (some (), w.copied data) := by
  by_cases hdata : data = []
  · rw [hdata, BurstWriter.copied, List.append_nil]
    rfl
  have hbuffer : w.writeBuffer.length ≤ writeBufferSize := by omega
  obtain ⟨-, hround⟩ | ⟨hroom, -⟩ | ⟨hroom, -⟩ := burstWriterCopy_cases hbuffer hdata
  · rw [burstWriterWrite, hround]
    rfl
  · omega
  · omega

theorem burstWriterWrite_short {w : BurstWriter} {data : List UInt8} {n : ℕ} {limits : List ℕ}
    (hbuffer : w.writeBuffer.length < writeBufferSize)
    (hfull : writeBufferSize ≤ w.writeBuffer.length + data.length)
    (hlimits : w.output.fwriteLimits = n :: limits) (hn : n < writeBufferSize) :
    let full := w.copied (data.take (writeBufferSize - w.writeBuffer.length))
    burstWriterWrite data w = (none, full.flushFailed full.writeBuffer n) := by
  have hdata : data ≠ [] := by
    rintro rfl
    rw [List.length_nil] at hfull
    omega
  obtain ⟨hfits, -⟩ | ⟨-, hall, -⟩ | ⟨-, m, rest, hlimits', -, hround⟩ :=
    burstWriterCopy_cases hbuffer.le hdata
  · omega
  · rw [hlimits] at hall
    exact (Nat.not_le.mpr hn (hall n rfl)).elim
  · rw [hlimits] at hlimits'
    cases hlimits'
    exact hround _

/-- A write call returns 0 exactly when none of its `fwrite` calls is short. -/
theorem burstWriterCopy_succeeds_iff {fuel : ℕ} {src : List UInt8} {w : BurstWriter}
    (hbuffer : w.writeBuffer.length ≤ writeBufferSize) (hfuel : copyRounds w src < fuel) :
    (burstWriterCopy fuel src w).1 = some () ↔
      FwritesAll w.output.fwriteLimits w.writeBuffer.length src.length := by
  induction fuel generalizing src w with
  | zero => cases hfuel
  | succ fuel ih =>
    by_cases hsrc : src = []
    · simp [hsrc, burstWriterCopy, fwritesAll_zero, Pure.pure]
    have hpos := List.length_pos_iff.mpr hsrc
    obtain ⟨hfits, hround⟩ | ⟨hroom, hall, hround⟩ | ⟨hroom, n, limits, hlimits, hn, hround⟩ :=
      burstWriterCopy_cases hbuffer hsrc
    · have hlt := copied_lt hfits
      have hrounds : copyRounds (w.copied src) [] < fuel := by
        rw [copyRounds] at hfuel ⊢
        rw [if_neg hlt.ne, List.length_nil]
        omega
      rw [hround, ih hlt.le hrounds, List.length_nil]
      exact iff_of_true (fwritesAll_zero _ _) (fwritesAll_of_fits _ (by omega))
    · have hless := copyRounds_drop_lt hsrc hbuffer
      rw [hround, ih (Nat.zero_le _) (by rw [copyRounds_flushed]; omega),
        fwritesAll_tail hpos (by omega), and_iff_right hall, List.length_drop]
      have hleft : src.length - (writeBufferSize - w.writeBuffer.length) =
          w.writeBuffer.length + src.length - writeBufferSize := by omega
      rw [hleft]
      exact Iff.rfl
    · rw [hround, fwritesAll_tail hpos (by omega), hlimits]
      refine iff_of_false (by simp) fun hall ↦ ?_
      exact Nat.not_le.mpr hn (hall.1 n rfl)

/-- A write call that returns 0 leaves room in the buffer. -/
theorem burstWriterCopy_room {fuel : ℕ} {src : List UInt8} {w w' : BurstWriter}
    (hbuffer : w.writeBuffer.length < writeBufferSize)
    (h : burstWriterCopy fuel src w = (some (), w')) : w'.writeBuffer.length < writeBufferSize := by
  induction fuel generalizing src w with
  | zero => cases h
  | succ fuel ih =>
    by_cases hsrc : src = []
    · rw [burstWriterCopy, if_pos (by rw [hsrc]; rfl)] at h
      obtain ⟨-, rfl⟩ := WriterM.pure_ok.mp h
      exact hbuffer
    obtain ⟨hfits, hround⟩ | ⟨-, -, hround⟩ | ⟨-, n, limits, -, -, hround⟩ :=
      burstWriterCopy_cases hbuffer.le hsrc
    · rw [hround] at h
      exact ih (copied_lt hfits) h
    · rw [hround] at h
      exact ih (by simp [BurstWriter.flushed, writeBufferSize]) h
    · rw [hround] at h
      cases h

/-- Every `fwrite` of a call takes all it is given. -/
def BufferCall.FwritesAll (w : BurstWriter) : BufferCall → Prop
  | write data => Burst.FwritesAll w.output.fwriteLimits w.writeBuffer.length data.length
  | flush => ∀ n ∈ w.output.fwriteLimits.head?, w.writeBuffer.length ≤ n

instance (w : BurstWriter) (call : BufferCall) : Decidable (call.FwritesAll w) :=
  match call with
  | .write data => decidableFwritesAll w.output.fwriteLimits w.writeBuffer.length data.length
  | .flush =>
    inferInstanceAs (Decidable (∀ n ∈ w.output.fwriteLimits.head?, w.writeBuffer.length ≤ n))

/-- The writer stands for a file to which bytes are appended at the end. -/
structure Represents (w : BurstWriter) (before bytes : List UInt8) : Prop where
  archive : w.output.bytes ++ w.writeBuffer = before ++ bytes
  position : w.currentOffset + w.writeBuffer.length = bytes.length
  room : w.writeBuffer.length < writeBufferSize

theorem create_represents (output : OutputFile) (level : ℤ) :
    Represents (burstWriterCreate output level) output.bytes [] where
  archive := rfl
  position := rfl
  room := by simp [burstWriterCreate, writeBufferSize]

theorem Represents.appended {w w' : BurstWriter} {before bytes data : List UInt8}
    (h : Represents w before bytes) (hw : Appended w w' data)
    (hroom : w'.writeBuffer.length < writeBufferSize) : Represents w' before (bytes ++ data) where
  archive := by
    have harchive := hw.archive
    rw [BurstWriter.archive, BurstWriter.archive, h.archive] at harchive
    rw [harchive, List.append_assoc]
  position := by
    have hposition := hw.position
    rw [BurstWriter.position, BurstWriter.position, h.position] at hposition
    rw [hposition, List.length_append]
  room := hroom

/-- A call appends its data. -/
theorem bufferStep_represents {w w' : BurstWriter} {before bytes : List UInt8} {call : BufferCall}
    (h : Represents w before bytes) (hstep : bufferStep w call = some w') :
    Represents w' before (bytes ++ call.data) := by
  have hrun : call.run w = (some (), w') := by
    rw [bufferStep] at hstep
    split at hstep
    · next heq =>
      cases hstep
      exact heq
    · cases hstep
  cases call with
  | write data => exact h.appended (burstWriterWrite_ok hrun) (burstWriterCopy_room h.room hrun)
  | flush =>
    obtain ⟨happended, hempty⟩ := burstWriterFlush_ok hrun
    refine h.appended happended ?_
    rw [hempty]
    decide

/-- A call none of whose `fwrite` calls is short returns 0. -/
theorem bufferStep_succeeds {w : BurstWriter} {call : BufferCall}
    (hroom : w.writeBuffer.length < writeBufferSize) (hfull : call.FwritesAll w) :
    ∃ w', bufferStep w call = some w' := by
  suffices hrun : (call.run w).1 = some () by
    refine ⟨(call.run w).2, ?_⟩
    rw [bufferStep, WriterM.ok_of_fst hrun]
  cases call with
  | write data =>
    have hfuel : copyRounds w data < data.length + 2 := by
      rw [copyRounds]
      split <;> omega
    exact (burstWriterCopy_succeeds_iff hroom.le hfuel).mpr hfull
  | flush =>
    by_cases hempty : w.writeBuffer = []
    · simp [BufferCall.run, burstWriterFlush, hempty]
    · obtain ⟨-, hflush⟩ | ⟨n, limits, hlimits, hn, -⟩ := burstWriterFlush_cases hempty
      · simp [BufferCall.run, hflush]
      · rw [BufferCall.FwritesAll, hlimits] at hfull
        exact (Nat.not_le.mpr hn (hfull n rfl)).elim

theorem runBuffer_represents {calls : List BufferCall} {w : BurstWriter} {before bytes : List UInt8}
    (h : Represents w before bytes) (hfull : Meets bufferStep BufferCall.FwritesAll w calls) :
    ∃ w', run bufferStep w calls = some w' ∧
      Represents w' before (bytes ++ calls.flatMap BufferCall.data) := by
  induction calls generalizing w bytes with
  | nil => exact ⟨w, rfl, by simpa using h⟩
  | cons call calls ih =>
    obtain ⟨hfirst, hrest⟩ := hfull
    obtain ⟨w₁, hstep⟩ := bufferStep_succeeds h.room hfirst
    obtain ⟨w', hrun, h'⟩ := ih (bufferStep_represents h hstep) (hrest w₁ hstep)
    refine ⟨w', run_cons.mpr ⟨w₁, hstep, hrun⟩, ?_⟩
    rw [List.flatMap_cons, ← List.append_assoc]
    exact h'

/-- The buffered writer refines appending: calls of which no `fwrite` is short return 0, and what
reached the file followed by the buffer is all that was written. The copy loop of a further call
ends by itself. -/
theorem bufferedWriter_refines (output : OutputFile) (level : ℤ) (calls : List BufferCall)
    (hfull : Meets bufferStep BufferCall.FwritesAll (burstWriterCreate output level) calls) :
    ∃ w, run bufferStep (burstWriterCreate output level) calls = some w ∧
      w.output.bytes ++ w.writeBuffer = output.bytes ++ calls.flatMap BufferCall.data ∧
      w.currentOffset + w.writeBuffer.length = (calls.flatMap BufferCall.data).length ∧
      w.writeBuffer.length < writeBufferSize ∧
      ∀ data more, burstWriterCopy (data.length + 2 + more) data w = burstWriterWrite data w := by
  obtain ⟨w, hrun, h⟩ := runBuffer_represents (create_represents output level) hfull
  exact ⟨w, hrun, h.archive, h.position, h.room, burstWriterWrite_rounds h.room.le⟩

theorem bufferedWriter_refines_sample :
    ∃ w, run bufferStep (burstWriterCreate ⟨[], [3]⟩ 3) [.write [1, 2], .write [], .write [3], .flush] =
        some w ∧
      w.output.bytes ++ w.writeBuffer = [1, 2, 3] ∧
      w.currentOffset + w.writeBuffer.length = 3 ∧
      w.writeBuffer.length < writeBufferSize ∧
      ∀ data more, burstWriterCopy (data.length + 2 + more) data w = burstWriterWrite data w :=
  bufferedWriter_refines ⟨[], [3]⟩ 3 [.write [1, 2], .write [], .write [3], .flush]
    (by decide +kernel)

end Burst
