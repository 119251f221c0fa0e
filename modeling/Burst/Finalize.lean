import Burst.LayoutRefinement

namespace Burst

open LittleEndian Tiling

def centralDirectoryBytes (files : List FileEntry) : List UInt8 := files.flatMap centralHeaderBytes

/-- The records after a central directory of `size` bytes at `start`. -/
def endRecords (files : List FileEntry) (start size : ℕ) : List UInt8 :=
  Zip64EndCentralDir.bytes {
    signature := zipZip64EndCentralDirSig
    eocd64Size := 56 - 12
    versionMadeBy := 3 * 2 ^ 8 + zipVersionZstd
    versionNeeded := zipVersionZstd
    diskNumber := 0
    diskWithCd := 0
    numEntriesThisDisk := files.length
    numEntriesTotal := files.length
    centralDirSize := size
    centralDirOffset := start } ++
  Zip64EndCentralDirLocator.bytes {
    signature := zipZip64EndCentralDirLocatorSig
    diskWithEocd64 := 0
    eocd64Offset := start + size
    totalDisks := 1 } ++
  ZipEndCentralDir.bytes {
    signature := zipEndCentralDirSig
    diskNumber := 0
    diskWithCd := 0
    numEntriesThisDisk := if files.length > 0xFFFE then 0xFFFF else files.length
    numEntriesTotal := if files.length > 0xFFFE then 0xFFFF else files.length
    centralDirSize := if size > 0xFFFFFFFE then 0xFFFFFFFF else size
    centralDirOffset := if start > 0xFFFFFFFE then 0xFFFFFFFF else start
    commentLength := burstEocdCommentSize } ++
  buildBurstEocdComment (findFirstCdfhInTail files start
    (start + size + 56 + 20 + 22 + burstEocdCommentSize))

theorem endRecords_length (files : List FileEntry) (start size : ℕ) :
    (endRecords files start size).length = 106 := by
  simp [endRecords, buildBurstEocdComment]

theorem writeCentralDirectory_ok {w w' : BurstWriter}
    (h : writeCentralDirectory w = (some (), w')) :
    Appended w w' (centralDirectoryBytes w.files) := by
  rw [writeCentralDirectory, WriterM.bind_ok] at h
  obtain ⟨_, _, hget, h⟩ := h
  obtain ⟨rfl, rfl⟩ := WriterM.get_ok.mp hget
  exact ((writeCentralHeaders_emits _ _).appended rfl h).2

theorem writeEndRecords_ok {start size : ℕ} {w w' : BurstWriter}
    (h : writeEndRecords start (start + size) (findFirstCdfhInTail w.files start
      (start + size + 56 + 20 + 22 + burstEocdCommentSize)) w = (some (), w')) :
    Appended w w' (endRecords w.files start size) := by
  rw [writeEndRecords, WriterM.bind_ok] at h
  obtain ⟨_, w₁, heocd64, h⟩ := h
  obtain ⟨_, w₂, hlocator, heocd⟩ := WriterM.bind_ok.mp h
  rw [writeZip64EndCentralDirectory, WriterM.bind_ok] at heocd64
  obtain ⟨_, _, hget, heocd64⟩ := heocd64
  obtain ⟨rfl, rfl⟩ := WriterM.get_ok.mp hget
  have heocd64 := burstWriterWrite_ok heocd64
  have hlocator := burstWriterWrite_ok hlocator
  rw [writeEndCentralDirectory, WriterM.bind_ok] at heocd
  obtain ⟨_, _, hget, heocd⟩ := heocd
  obtain ⟨rfl, rfl⟩ := WriterM.get_ok.mp hget
  obtain ⟨_, w₃, heocd, hcomment⟩ := WriterM.bind_ok.mp heocd
  have heocd := burstWriterWrite_ok heocd
  have hcomment := burstWriterWrite_ok hcomment
  have hall := heocd64.trans (hlocator.trans (heocd.trans hcomment))
  rw [hlocator.files, heocd64.files] at hall
  rw [endRecords, List.append_assoc, List.append_assoc]
  rwa [Nat.add_sub_cancel_left] at hall

/-- Finalizing appends the central directory and the end records and empties the buffer. -/
theorem burstWriterFinalize_appended {w w' : BurstWriter}
    (h : burstWriterFinalize w = (some (), w')) :
    Appended w w' (centralDirectoryBytes w.files ++
      endRecords w.files w.position (centralDirectoryBytes w.files).length) ∧
      w'.writeBuffer = [] := by
  rw [burstWriterFinalize, WriterM.bind_ok] at h
  obtain ⟨_, w₁, hflush, h⟩ := h
  obtain ⟨hflush, hempty⟩ := burstWriterFlush_ok hflush
  have hstart : w₁.currentOffset = w.position := by
    have := hflush.position
    rw [BurstWriter.position, hempty] at this
    simpa using this
  obtain ⟨_, _, hget, h⟩ := WriterM.bind_ok.mp h
  obtain ⟨rfl, rfl⟩ := WriterM.get_ok.mp hget
  obtain ⟨_, w₂, hcd, h⟩ := WriterM.bind_ok.mp h
  have hcd := writeCentralDirectory_ok hcd
  obtain ⟨_, _, hget, h⟩ := WriterM.bind_ok.mp h
  obtain ⟨rfl, rfl⟩ := WriterM.get_ok.mp hget
  obtain ⟨_, w₃, hrecords, hlast⟩ := WriterM.bind_ok.mp h
  have hend : w₂.position = w.position + (centralDirectoryBytes w.files).length := by
    rw [hcd.position, hflush.position, hflush.files, List.length_nil, Nat.add_zero]
  rw [hstart, hend] at hrecords
  have hrecords := writeEndRecords_ok hrecords
  obtain ⟨hlast, hempty'⟩ := burstWriterFlush_ok hlast
  have hall := hflush.trans (hcd.trans (hrecords.trans hlast))
  rw [hcd.files, hflush.files, List.nil_append, List.append_nil] at hall
  exact ⟨hall, hempty'⟩

/-- Finalizing writes out the buffer, the central directory and the end records, in this order. -/
theorem burstWriterFinalize_ok {w w' : BurstWriter} (h : burstWriterFinalize w = (some (), w')) :
    w'.output.bytes = w.archive ++ centralDirectoryBytes w.files ++
      endRecords w.files w.position (centralDirectoryBytes w.files).length := by
  obtain ⟨hall, hempty⟩ := burstWriterFinalize_appended h
  have harchive := hall.archive
  rwa [BurstWriter.archive, hempty, List.append_nil, ← List.append_assoc] at harchive

theorem writeEndRecords_completes (start stop firstCdfhOffset : ℕ) {w : BurstWriter}
    (hw : Ready w) : ∃ w', writeEndRecords start stop firstCdfhOffset w = (some (), w') ∧
      Ready w' := by
  obtain ⟨w₁, h₁, hw₁⟩ := (Emits.write _).completes rfl hw
  obtain ⟨w₂, h₂, hw₂⟩ := (Emits.write _).completes rfl hw₁
  obtain ⟨w₃, h₃, hw₃⟩ := (Emits.write _).completes rfl hw₂
  obtain ⟨w₄, h₄, hw₄⟩ := (Emits.write _).completes rfl hw₃
  refine ⟨w₄, ?_, hw₄⟩
  rw [writeEndRecords, WriterM.bind_ok]
  refine ⟨(), w₁, ?_, WriterM.bind_ok.mpr ⟨(), w₂, h₂, ?_⟩⟩
  · rw [writeZip64EndCentralDirectory, WriterM.bind_ok]
    exact ⟨w, w, WriterM.get_ok.mpr ⟨rfl, rfl⟩, h₁⟩
  · rw [writeEndCentralDirectory, WriterM.bind_ok]
    exact ⟨w₂, w₂, WriterM.get_ok.mpr ⟨rfl, rfl⟩, WriterM.bind_ok.mpr ⟨(), w₃, h₃, h₄⟩⟩

/-- Finalizing succeeds when the disk has room, also with a full buffer. -/
theorem burstWriterFinalize_unlimited {w : BurstWriter} (hw : w.output.fwriteLimits = []) :
    ∃ w', burstWriterFinalize w = (some (), w') ∧ Ready w' := by
  obtain ⟨w₁, h₁, hw₁⟩ := burstWriterFlush_completes hw
  obtain ⟨w₂, h₂, hw₂⟩ := (writeCentralHeaders_emits w₁.position w₁.files).completes rfl hw₁
  obtain ⟨w₃, h₃, hw₃⟩ := writeEndRecords_completes w₁.currentOffset w₂.position
    (findFirstCdfhInTail w₂.files w₁.currentOffset
      (w₂.position + 56 + 20 + 22 + burstEocdCommentSize)) hw₂
  obtain ⟨w₄, h₄, hw₄⟩ := burstWriterFlush_completes hw₃.unlimited
  have hcd : writeCentralDirectory w₁ = (some (), w₂) := by
    rw [writeCentralDirectory, WriterM.bind_ok]
    exact ⟨w₁, w₁, WriterM.get_ok.mpr ⟨rfl, rfl⟩, h₂⟩
  refine ⟨w₄, ?_, hw₄⟩
  rw [burstWriterFinalize, WriterM.bind_ok]
  exact ⟨(), w₁, h₁, WriterM.bind_ok.mpr ⟨w₁, w₁, WriterM.get_ok.mpr ⟨rfl, rfl⟩,
    WriterM.bind_ok.mpr ⟨(), w₂, hcd, WriterM.bind_ok.mpr ⟨w₂, w₂, WriterM.get_ok.mpr ⟨rfl, rfl⟩,
      WriterM.bind_ok.mpr ⟨(), w₃, h₃, h₄⟩⟩⟩⟩⟩

theorem burstWriterFinalize_completes {w : BurstWriter} (hw : Ready w) :
    ∃ w', burstWriterFinalize w = (some (), w') ∧ Ready w' :=
  burstWriterFinalize_unlimited hw.unlimited

end Burst
