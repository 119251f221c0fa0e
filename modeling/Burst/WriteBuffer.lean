import Burst.ZipStructures

namespace Burst

/-- The output `FILE`, with the most bytes each coming `fwrite` accepts; once the list is used up
every call accepts all it is given. -/
structure OutputFile where
  bytes : List UInt8
  fwriteLimits : List ℕ
  deriving DecidableEq, Repr

def OutputFile.fwrite (f : OutputFile) (data : List UInt8) : ℕ × OutputFile :=
  match f.fwriteLimits with
  | [] => (data.length, ⟨f.bytes ++ data, []⟩)
  | n :: limits => ((data.take n).length, ⟨f.bytes ++ data.take n, limits⟩)

structure FileEntry where
  filename : List UInt8
  localHeaderOffset : ℕ
  compressedStartOffset : ℕ
  compressedSize : ℕ
  uncompressedSize : ℕ
  crc32 : ℕ
  compressionMethod : ℕ
  versionNeeded : ℕ
  generalPurposeFlags : ℕ
  lastModTime : ℕ
  lastModDate : ℕ
  unixMode : ℕ
  uid : ℕ
  gid : ℕ
  usedZip64Descriptor : Bool
  deriving DecidableEq, Repr

/-- `writeBuffer` holds the first `buffer_used` bytes of the buffer, `files` the first
`num_files` entries of the array. -/
structure BurstWriter where
  output : OutputFile
  currentOffset : ℕ
  compressionLevel : ℤ
  files : List FileEntry
  writeBuffer : List UInt8
  totalUncompressed : ℕ
  totalCompressed : ℕ
  paddingBytes : ℕ
  deriving DecidableEq, Repr

def writeBufferSize : ℕ := 64 * 1024

def burstWriterCreate (output : OutputFile) (compressionLevel : ℤ) : BurstWriter where
  output := output
  currentOffset := 0
  compressionLevel := compressionLevel
  files := []
  writeBuffer := []
  totalUncompressed := 0
  totalCompressed := 0
  paddingBytes := 0

/-- A writer function: `none` is the return value -1, and the writer keeps what was done
before the failure. -/
def WriterM (α : Type) : Type := BurstWriter → Option α × BurstWriter

namespace WriterM

variable {α β : Type}

instance : Monad WriterM where
  pure a := fun w ↦ (some a, w)
  bind m f := fun w ↦ match m w with
    | (none, w') => (none, w')
    | (some a, w') => f a w'

def fail : WriterM α := fun w ↦ (none, w)
def get : WriterM BurstWriter := fun w ↦ (some w, w)
def modify (f : BurstWriter → BurstWriter) : WriterM Unit := fun w ↦ (some (), f w)

theorem pure_ok {a b : α} {w w' : BurstWriter} :
    (pure a : WriterM α) w = (some b, w') ↔ a = b ∧ w = w' := by
  simp [Pure.pure]

theorem bind_ok {m : WriterM α} {f : α → WriterM β} {w w'' : BurstWriter} {b : β} :
    (m >>= f) w = (some b, w'') ↔ ∃ a w', m w = (some a, w') ∧ f a w' = (some b, w'') := by
  simp only [Bind.bind]
  rcases hm : m w with ⟨_ | a, w'⟩ <;> simp

theorem bind_some {m : WriterM α} {f : α → WriterM β} {w w' : BurstWriter} {a : α}
    (h : m w = (some a, w')) : (m >>= f) w = f a w' := by
  simp only [Bind.bind, h]

theorem bind_none {m : WriterM α} {f : α → WriterM β} {w w' : BurstWriter}
    (h : m w = (none, w')) : (m >>= f) w = (none, w') := by
  simp only [Bind.bind, h]

theorem fail_ok {w w' : BurstWriter} {a : α} : (fail : WriterM α) w = (some a, w') ↔ False := by
  simp [fail]

theorem get_ok {w w' v : BurstWriter} : get w = (some v, w') ↔ w = v ∧ w = w' := by
  simp [get]

theorem ok_of_fst {m : WriterM Unit} {w : BurstWriter} (h : (m w).1 = some ()) :
    m w = (some (), (m w).2) := Prod.ext h rfl

theorem modify_ok {f : BurstWriter → BurstWriter} {w w' : BurstWriter} {u : Unit} :
    modify f w = (some u, w') ↔ f w = w' := by simp [modify]

end WriterM

def burstWriterFlush : WriterM Unit := fun w ↦
  if w.writeBuffer.length = 0 then (some (), w)
  else
    let r := w.output.fwrite w.writeBuffer
    if r.1 ≠ w.writeBuffer.length then (none, { w with output := r.2 })
    else (some (), { w with
      output := r.2
      currentOffset := w.currentOffset + w.writeBuffer.length
      writeBuffer := [] })

/-- The copy loop; a round copies at least one byte unless it starts with a full buffer. -/
def burstWriterCopy : ℕ → List UInt8 → WriterM Unit
  | 0, _ => WriterM.fail
  | fuel + 1, src =>
    if src.length = 0 then pure ()
    else do
      let w ← WriterM.get
      let available := writeBufferSize - w.writeBuffer.length
      let toCopy := min src.length available
      WriterM.modify fun w ↦ { w with writeBuffer := w.writeBuffer ++ src.take toCopy }
      (if w.writeBuffer.length + toCopy = writeBufferSize then burstWriterFlush else pure ())
      burstWriterCopy fuel (src.drop toCopy)

def burstWriterWrite (data : List UInt8) : WriterM Unit := burstWriterCopy (data.length + 2) data

namespace BurstWriter

/-- What reached the file followed by what is still buffered. -/
def archive (w : BurstWriter) : List UInt8 := w.output.bytes ++ w.writeBuffer

/-- `alignment_get_write_position` -/
def position (w : BurstWriter) : ℕ := w.currentOffset + w.writeBuffer.length

end BurstWriter

/-- The effect of a successful write of `bytes`. -/
structure Appended (w w' : BurstWriter) (bytes : List UInt8) : Prop where
  archive : w'.archive = w.archive ++ bytes
  position : w'.position = w.position + bytes.length
  files : w'.files = w.files
  compressionLevel : w'.compressionLevel = w.compressionLevel

namespace Appended

variable {w w₁ w₂ : BurstWriter} {xs ys : List UInt8}

theorem refl (w : BurstWriter) : Appended w w [] := ⟨by simp, by simp, rfl, rfl⟩

theorem trans (h : Appended w w₁ xs) (h' : Appended w₁ w₂ ys) : Appended w w₂ (xs ++ ys) where
  archive := by rw [h'.archive, h.archive, List.append_assoc]
  position := by rw [h'.position, h.position, List.length_append, Nat.add_assoc]
  files := h'.files.trans h.files
  compressionLevel := h'.compressionLevel.trans h.compressionLevel

end Appended

theorem burstWriterFlush_ok {w w' : BurstWriter} (h : burstWriterFlush w = (some (), w')) :
    Appended w w' [] ∧ w'.writeBuffer = [] := by
  unfold burstWriterFlush at h
  split at h
  · next he =>
    obtain ⟨-, rfl⟩ := Prod.mk.inj h
    exact ⟨.refl w, List.eq_nil_of_length_eq_zero he⟩
  · dsimp only at h
    split at h
    · simp at h
    · next hne =>
      obtain ⟨-, rfl⟩ := Prod.mk.inj h
      refine ⟨⟨?_, by simp [BurstWriter.position], rfl, rfl⟩, rfl⟩
      simp only [not_not] at hne
      cases hl : w.output.fwriteLimits with
      | nil => simp [BurstWriter.archive, OutputFile.fwrite, hl]
      | cons n limits =>
        simp only [OutputFile.fwrite, hl] at hne
        have ht : w.writeBuffer.take n = w.writeBuffer :=
          List.take_of_length_le (by rw [List.length_take] at hne; omega)
        simp [BurstWriter.archive, OutputFile.fwrite, hl, ht]

theorem burstWriterCopy_ok {fuel : ℕ} {src : List UInt8} {w w' : BurstWriter}
    (h : burstWriterCopy fuel src w = (some (), w')) : Appended w w' src := by
  induction fuel generalizing src w with
  | zero => simp [burstWriterCopy, WriterM.fail_ok] at h
  | succ fuel ih =>
    rw [burstWriterCopy] at h
    split at h
    · next he =>
      rw [WriterM.pure_ok] at h
      rw [List.eq_nil_of_length_eq_zero he, ← h.2]
      exact .refl w
    · simp only [WriterM.bind_ok, WriterM.get_ok, WriterM.modify_ok] at h
      obtain ⟨_, _, ⟨rfl, rfl⟩, _, w₁, hw₁, h⟩ := h
      set toCopy := min src.length (writeBufferSize - w.writeBuffer.length)
      have hcopy : Appended w w₁ (src.take toCopy) := by
        rw [← hw₁]
        exact ⟨by simp [BurstWriter.archive], by simp [BurstWriter.position, Nat.add_assoc], rfl, rfl⟩
      obtain ⟨_, w₂, hflush, hloop⟩ := h
      have hrest : Appended w₁ w₂ [] := by
        split at hflush
        · exact (burstWriterFlush_ok hflush).1
        · obtain ⟨-, rfl⟩ := WriterM.pure_ok.mp hflush
          exact .refl w₁
      simpa using hcopy.trans (hrest.trans (ih hloop))

theorem burstWriterWrite_ok {data : List UInt8} {w w' : BurstWriter}
    (h : burstWriterWrite data w = (some (), w')) : Appended w w' data := burstWriterCopy_ok h

/-- The disk has room and so does the buffer, as it does between two writes. -/
structure Ready (w : BurstWriter) : Prop where
  unlimited : w.output.fwriteLimits = []
  room : w.writeBuffer.length < writeBufferSize

theorem burstWriterFlush_completes {w : BurstWriter} (h : w.output.fwriteLimits = []) :
    ∃ w', burstWriterFlush w = (some (), w') ∧ Ready w' := by
  unfold burstWriterFlush
  split
  · next he => exact ⟨w, rfl, h, by rw [he]; decide⟩
  · refine ⟨{ w with
      output := ⟨w.output.bytes ++ w.writeBuffer, []⟩
      currentOffset := w.currentOffset + w.writeBuffer.length
      writeBuffer := [] }, ?_, rfl, by simp [writeBufferSize]⟩
    simp [OutputFile.fwrite, h]

theorem burstWriterCopy_completes {fuel : ℕ} {src : List UInt8} {w : BurstWriter} (hw : Ready w)
    (hfuel : src.length < fuel) : ∃ w', burstWriterCopy fuel src w = (some (), w') ∧ Ready w' := by
  induction fuel generalizing src w with
  | zero => omega
  | succ fuel ih =>
    rw [burstWriterCopy]
    split
    · exact ⟨w, rfl, hw⟩
    · next hne =>
      have hroom := hw.room
      set toCopy := min src.length (writeBufferSize - w.writeBuffer.length) with htoCopy
      have hlen : (src.take toCopy).length = toCopy := by
        rw [List.length_take]
        omega
      set w₁ : BurstWriter := { w with writeBuffer := w.writeBuffer ++ src.take toCopy } with hw₁
      have hrest : (src.drop toCopy).length < fuel := by
        rw [List.length_drop]
        omega
      obtain ⟨w₂, hflush, hready⟩ : ∃ w₂, (if w.writeBuffer.length + toCopy = writeBufferSize
          then burstWriterFlush else pure ()) w₁ = (some (), w₂) ∧ Ready w₂ := by
        split
        · exact burstWriterFlush_completes hw.unlimited
        · next hpart =>
          refine ⟨w₁, rfl, hw.unlimited, ?_⟩
          rw [hw₁, List.length_append, hlen]
          omega
      obtain ⟨w₃, hloop, hready⟩ := ih hready hrest
      refine ⟨w₃, ?_, hready⟩
      simp only [WriterM.bind_ok, WriterM.get_ok, WriterM.modify_ok]
      exact ⟨w, w, ⟨rfl, rfl⟩, (), w₁, rfl, (), w₂, hflush, hloop⟩

/-- What a writer function that only writes does from a position: whenever it succeeds it
returns this value and has appended these bytes, and it succeeds when the disk has room. -/
structure Emits {α : Type} (pos : ℕ) (m : WriterM α) (a : α) (bytes : List UInt8) : Prop where
  appended : ∀ {w w' : BurstWriter} {b : α}, w.position = pos → m w = (some b, w') →
    b = a ∧ Appended w w' bytes
  completes : ∀ {w : BurstWriter}, w.position = pos → Ready w →
    ∃ w', m w = (some a, w') ∧ Ready w'

namespace Emits

variable {α β : Type} {pos : ℕ} {a : α} {b : β} {m : WriterM α} {f : α → WriterM β}
  {xs ys : List UInt8}

theorem bind (hm : Emits pos m a xs) (hf : Emits (pos + xs.length) (f a) b ys) :
    Emits pos (m >>= f) b (xs ++ ys) where
  appended hpos h := by
    obtain ⟨_, w₁, h₁, h₂⟩ := WriterM.bind_ok.mp h
    obtain ⟨rfl, hxs⟩ := hm.appended hpos h₁
    obtain ⟨rfl, hys⟩ := hf.appended (by rw [hxs.position, hpos]) h₂
    exact ⟨rfl, hxs.trans hys⟩
  completes hpos hw := by
    obtain ⟨w₁, h₁, hw₁⟩ := hm.completes hpos hw
    have hxs := (hm.appended hpos h₁).2
    obtain ⟨w₂, h₂, hw₂⟩ := hf.completes (by rw [hxs.position, hpos]) hw₁
    exact ⟨w₂, WriterM.bind_ok.mpr ⟨a, w₁, h₁, h₂⟩, hw₂⟩

theorem get {f : BurstWriter → WriterM β} (h : ∀ w, w.position = pos → Emits pos (f w) b xs) :
    Emits pos (WriterM.get >>= f) b xs where
  appended {w _ _} hpos hok := by
    obtain ⟨_, _, hget, hrest⟩ := WriterM.bind_ok.mp hok
    obtain ⟨rfl, rfl⟩ := WriterM.get_ok.mp hget
    exact (h w hpos).appended hpos hrest
  completes {w} hpos hw := (h w hpos).completes hpos hw

theorem done (a : α) : Emits pos (pure a) a [] where
  appended _ h := by
    obtain ⟨rfl, rfl⟩ := WriterM.pure_ok.mp h
    exact ⟨rfl, .refl _⟩
  completes _ hw := ⟨_, rfl, hw⟩

theorem write (data : List UInt8) : Emits pos (burstWriterWrite data) () data where
  appended _ h := ⟨rfl, burstWriterWrite_ok h⟩
  completes _ hw := burstWriterCopy_completes hw (by omega)

/-- A step that changes nothing but the statistics. -/
theorem statistics {f : BurstWriter → BurstWriter} (hf : ∀ w, Appended w (f w) [])
    (hready : ∀ w, Ready w → Ready (f w)) : Emits pos (WriterM.modify f) () [] where
  appended _ h := by
    rw [← WriterM.modify_ok.mp h]
    exact ⟨rfl, hf _⟩
  completes _ hw := ⟨_, rfl, hready _ hw⟩

theorem andThen {m : WriterM Unit} {n : WriterM β} (hm : Emits pos m () xs)
    (hn : Emits (pos + xs.length) n b ys) : Emits pos (m >>= fun _ ↦ n) b (xs ++ ys) := hm.bind hn

theorem returning (h : Emits pos m a xs) (b : β) : Emits pos (m >>= fun _ ↦ pure b) b xs := by
  simpa using h.bind (f := fun _ ↦ pure b) (done b)

theorem congr (h : Emits pos m a xs) (he : xs = ys) : Emits pos m a ys := he ▸ h

end Emits

def addPaddingBytes (n : ℕ) : WriterM Unit :=
  WriterM.modify fun w ↦ { w with paddingBytes := w.paddingBytes + n }

theorem addPaddingBytes_emits (pos n : ℕ) : Emits pos (addPaddingBytes n) () [] :=
  Emits.statistics (fun _ ↦ ⟨by simp [BurstWriter.archive], by simp [BurstWriter.position], rfl, rfl⟩)
    fun _ hw ↦ ⟨hw.unlimited, hw.room⟩

end Burst
