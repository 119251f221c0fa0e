import Burst.WriteBuffer

namespace Burst

open LittleEndian

def alignmentNextBoundary (currentOffset : ℕ) : ℕ :=
  (currentOffset / burstPartSize + 1) * burstPartSize

inductive AlignmentAction where
  | writeFrame
  | padThenFrame
  | padThenMetadata
  | writeFrameThenMetadata
  deriving DecidableEq, Repr

structure AlignmentDecision where
  action : AlignmentAction
  paddingSize : ℕ
  nextBoundary : ℕ
  atFileEnd : Bool
  deriving DecidableEq, Repr

def alignmentDecide (currentOffset frameSize : ℕ) (atFileEnd : Bool) : AlignmentDecision :=
  let nextBoundary := alignmentNextBoundary currentOffset
  let spaceRequired := if atFileEnd then frameSize + 16 else frameSize
  let spaceUntilBoundary := nextBoundary - currentOffset
  if spaceUntilBoundary = spaceRequired then
    if atFileEnd then ⟨.writeFrame, 0, nextBoundary, atFileEnd⟩
    else ⟨.writeFrameThenMetadata, 0, nextBoundary, atFileEnd⟩
  else if spaceUntilBoundary ≥ spaceRequired + burstMinSkippableFrameSize then
    ⟨.writeFrame, 0, nextBoundary, atFileEnd⟩
  else ⟨.padThenMetadata, sub64 spaceUntilBoundary 8, nextBoundary, atFileEnd⟩

/-- No object is larger than `PTRDIFF_MAX`. -/
def calloc (n : ℕ) : WriterM (List UInt8) :=
  if n < 2 ^ 63 then pure (List.replicate n 0) else WriterM.fail

def alignmentWritePaddingFrame (paddingSize : ℕ) : WriterM Unit := do
  burstWriterWrite (encode 4 burstMagicNumber)
  addPaddingBytes 4
  burstWriterWrite (encode 4 paddingSize)
  addPaddingBytes 4
  if paddingSize > 0 then
    let padding ← calloc paddingSize
    burstWriterWrite padding
    addPaddingBytes (paddingSize % 2 ^ 32)
  else pure ()

def alignmentWriteStartOfPartFrame (uncompressedOffset : ℕ) : WriterM Unit := do
  burstWriterWrite (encode 4 burstMagicNumber)
  burstWriterWrite (encode 4 16)
  burstWriterWrite (encode 1 0x01)
  burstWriterWrite (encode 8 uncompressedOffset)
  burstWriterWrite (List.replicate 7 0)
  addPaddingBytes 24

/-- What is left of the part at a position. -/
def spaceUntilBoundary (pos : ℕ) : ℕ := burstPartSize - pos % burstPartSize

theorem alignmentNextBoundary_sub (pos : ℕ) :
    alignmentNextBoundary pos - pos = spaceUntilBoundary pos := by
  rw [alignmentNextBoundary, spaceUntilBoundary, burstPartSize]
  omega

theorem spaceUntilBoundary_pos (pos : ℕ) : 0 < spaceUntilBoundary pos := by
  rw [spaceUntilBoundary, burstPartSize]
  omega

theorem spaceUntilBoundary_le (pos : ℕ) : spaceUntilBoundary pos ≤ burstPartSize := by
  rw [spaceUntilBoundary]
  omega

theorem spaceUntilBoundary_add {pos n : ℕ} (h : n < spaceUntilBoundary pos) :
    spaceUntilBoundary (pos + n) = spaceUntilBoundary pos - n := by
  simp only [spaceUntilBoundary, burstPartSize] at *
  omega

theorem spaceUntilBoundary_boundary {pos n : ℕ} (h : n < burstPartSize) :
    spaceUntilBoundary (pos + spaceUntilBoundary pos + n) = burstPartSize - n := by
  simp only [spaceUntilBoundary, burstPartSize] at *
  omega

theorem dvd_add_spaceUntilBoundary (pos : ℕ) : burstPartSize ∣ pos + spaceUntilBoundary pos := by
  rw [spaceUntilBoundary, burstPartSize]
  omega

/-- The three ways a frame is placed, by the space it asks for and the space there is. -/
theorem alignmentDecide_cases (pos frameSize : ℕ) (atFileEnd : Bool) :
    let required := if atFileEnd then frameSize + 16 else frameSize
    ((alignmentDecide pos frameSize atFileEnd).action = .writeFrame ∧
      (spaceUntilBoundary pos = required ∧ atFileEnd = true ∨
        required + 8 ≤ spaceUntilBoundary pos)) ∨
    ((alignmentDecide pos frameSize atFileEnd).action = .writeFrameThenMetadata ∧
      atFileEnd = false ∧ spaceUntilBoundary pos = frameSize) ∨
    ((alignmentDecide pos frameSize atFileEnd).action = .padThenMetadata ∧
      (alignmentDecide pos frameSize atFileEnd).paddingSize = sub64 (spaceUntilBoundary pos) 8 ∧
      spaceUntilBoundary pos < required + 8 ∧ spaceUntilBoundary pos ≠ required) := by
  simp only [alignmentDecide, alignmentNextBoundary_sub, burstMinSkippableFrameSize]
  cases atFileEnd <;> simp only [if_true, Bool.false_eq_true, if_false] <;> split_ifs <;>
    simp <;> omega

def paddingFrameBytes (n : ℕ) : List UInt8 :=
  encode 4 burstMagicNumber ++ encode 4 n ++ List.replicate n 0

def startOfPartBytes (uncompressedOffset : ℕ) : List UInt8 :=
  encode 4 burstMagicNumber ++ encode 4 16 ++ [0x01] ++ encode 8 uncompressedOffset ++
    List.replicate 7 0

@[simp] theorem paddingFrameBytes_length (n : ℕ) : (paddingFrameBytes n).length = 8 + n := by
  simp only [paddingFrameBytes, List.length_append, encode_length, List.length_replicate]

@[simp] theorem startOfPartBytes_length (offset : ℕ) : (startOfPartBytes offset).length = 24 := by
  simp [startOfPartBytes]

theorem calloc_emits {pos n : ℕ} (h : n < 2 ^ 63) {m : List UInt8 → WriterM Unit}
    {xs : List UInt8} (hm : Emits pos (m (List.replicate n 0)) () xs) :
    Emits pos (calloc n >>= m) () xs := by
  rw [calloc, if_pos h]
  exact hm

theorem alignmentWritePaddingFrame_emits {pos n : ℕ} (h : n < 2 ^ 63) :
    Emits pos (alignmentWritePaddingFrame n) () (paddingFrameBytes n) := by
  have htail (pos : ℕ) : Emits pos (if n > 0 then do
      let padding ← calloc n
      burstWriterWrite padding
      addPaddingBytes (n % 2 ^ 32)
    else pure ()) () (List.replicate n 0) := by
    split
    · exact (calloc_emits h ((Emits.write _).andThen (addPaddingBytes_emits _ _))).congr (by simp)
    · next hn => exact (Emits.done ()).congr (by simp [show n = 0 by omega])
  exact ((Emits.write _).andThen ((addPaddingBytes_emits _ 4).andThen ((Emits.write _).andThen
    ((addPaddingBytes_emits _ 4).andThen (htail _))))).congr (by simp [paddingFrameBytes])

theorem alignmentWritePaddingFrame_ok {n : ℕ} {w w' : BurstWriter}
    (h : alignmentWritePaddingFrame n w = (some (), w')) : n < 2 ^ 63 := by
  by_contra! hn
  simp only [alignmentWritePaddingFrame, if_pos (show n > 0 by omega), WriterM.bind_ok] at h
  obtain ⟨_, _, _, _, _, _, _, _, _, _, _, _, _, _, hcalloc, _⟩ := h
  simp only [calloc, if_neg (show ¬ n < 2 ^ 63 by omega)] at hcalloc
  exact WriterM.fail_ok.mp hcalloc

/-- Padding that reaches the next boundary; it needs room for its own header. -/
theorem paddingToBoundary_ok {pos : ℕ} {w w' : BurstWriter}
    (h : alignmentWritePaddingFrame (sub64 (spaceUntilBoundary pos) 8) w = (some (), w')) :
    8 ≤ spaceUntilBoundary pos ∧
      sub64 (spaceUntilBoundary pos) 8 = spaceUntilBoundary pos - 8 := by
  have hn := alignmentWritePaddingFrame_ok h
  have hle := spaceUntilBoundary_le pos
  rw [burstPartSize] at hle
  rw [sub64] at hn ⊢
  omega

theorem alignmentWriteStartOfPartFrame_emits (pos offset : ℕ) :
    Emits pos (alignmentWriteStartOfPartFrame offset) () (startOfPartBytes offset) :=
  ((Emits.write _).andThen ((Emits.write _).andThen ((Emits.write _).andThen ((Emits.write _).andThen
    ((Emits.write _).andThen (addPaddingBytes_emits _ 24)))))).congr
      (by simp [startOfPartBytes, encode])

end Burst
