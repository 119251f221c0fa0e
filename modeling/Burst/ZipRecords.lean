import Burst.Alignment
import Burst.Lib.Codecs

namespace Burst

open LittleEndian

/-- `struct tm`, as far as it is read. -/
structure Tm where
  sec : ℤ
  min : ℤ
  hour : ℤ
  mday : ℤ
  mon : ℤ
  year : ℤ

/-- What the writer gets from its libraries. `time pos` is the time a call made at the write
position `pos` sees. -/
structure WriterEnv where
  compressChunk : ℤ → List UInt8 → Option (List UInt8)
  crc32 : ℕ → List UInt8 → ℕ
  time : ℕ → ℤ
  localtime : ℤ → Option Tm

def dosDatetimeFromTimeT (env : WriterEnv) (t : ℤ) : ℕ × ℕ :=
  match env.localtime t with
  | none => (0, 2 ^ 5 + 1)
  | some tm =>
    ((tm.hour % 32 * 2 ^ 11 + tm.min % 64 * 2 ^ 5 + tm.sec / 2 % 32).toNat,
      ((tm.year - 80) % 128 * 2 ^ 9 + (tm.mon + 1) % 16 * 2 ^ 5 + tm.mday % 32).toNat)

/-- Libraries for input that does not compress, with a clock that stands at the epoch. -/
def rawEnv : WriterEnv where
  compressChunk _ chunk := some (ZstdFrame.rawFrame chunk)
  crc32 := Crc32.crc32
  time _ := 0
  localtime _ := some ⟨0, 0, 0, 1, 0, 70⟩

/-- A local file header in memory: the fixed part and the bytes after it. -/
structure LocalFileHeader where
  fields : ZipLocalHeader
  tail : List UInt8
  deriving DecidableEq, Repr

namespace LocalFileHeader

def bytes (h : LocalFileHeader) : List UInt8 := h.fields.fixedBytes ++ h.tail

/-- `lfh_len` -/
def len (h : LocalFileHeader) : ℕ := 30 + h.tail.length

/-- `strndup(filename, lfh->filename_length)` -/
def filename (h : LocalFileHeader) : List UInt8 :=
  (h.tail.take h.fields.filenameLength).takeWhile (· ≠ 0)

@[simp] theorem bytes_length (h : LocalFileHeader) : h.bytes.length = h.len := by
  simp [bytes, len]

/-- A fully constructed header: the lengths in the fixed part are those of what follows. -/
structure WellFormed (h : LocalFileHeader) : Prop where
  signature : h.fields.signature = zipLocalFileHeaderSig
  tail_length : h.tail.length = h.fields.filenameLength + h.fields.extraFieldLength
  filenameLength_lt : h.fields.filenameLength < 2 ^ 16
  extraFieldLength_lt : h.fields.extraFieldLength < 2 ^ 16

end LocalFileHeader

def paddingHeader (modTime modDate extraFieldLen : ℕ) : LocalFileHeader where
  fields := {
    signature := zipLocalFileHeaderSig
    versionNeeded := zipVersionStore
    flags := 0
    compressionMethod := zipMethodStore
    lastModTime := modTime
    lastModDate := modDate
    crc32 := 0
    compressedSize := 0
    uncompressedSize := 0
    filenameLength := paddingLfhFilenameLen
    extraFieldLength := extraFieldLen }
  tail := paddingLfhFilename ++ List.replicate extraFieldLen 0

def paddingExtraFieldLen (targetSize : ℕ) : ℕ :=
  (targetSize - 30 - paddingLfhFilenameLen) % 2 ^ 16

def writePaddingLfh (env : WriterEnv) (targetSize : ℕ) : WriterM Unit :=
  if targetSize < paddingLfhMinSize then WriterM.fail
  else do
    let w ← WriterM.get
    let extraFieldLen := paddingExtraFieldLen targetSize
    let mod := dosDatetimeFromTimeT env (env.time w.position)
    burstWriterWrite (paddingHeader mod.1 mod.2 extraFieldLen).fields.fixedBytes
    burstWriterWrite paddingLfhFilename
    (if extraFieldLen > 0 then burstWriterWrite (List.replicate extraFieldLen 0) else pure ())
    addPaddingBytes targetSize

/-- The header `write_padding_lfh` writes at a position. -/
def paddingHeaderAt (env : WriterEnv) (pos targetSize : ℕ) : LocalFileHeader :=
  let mod := dosDatetimeFromTimeT env (env.time pos)
  paddingHeader mod.1 mod.2 (paddingExtraFieldLen targetSize)

theorem paddingHeaderAt_len (env : WriterEnv) (pos : ℕ) {targetSize : ℕ} (hlo : 44 ≤ targetSize)
    (hhi : targetSize < 44 + 2 ^ 16) : (paddingHeaderAt env pos targetSize).len = targetSize := by
  simp only [paddingHeaderAt, paddingHeader, LocalFileHeader.len, paddingExtraFieldLen,
    List.length_append, List.length_replicate, paddingLfhFilename_length, paddingLfhFilenameLen]
  omega

theorem paddingHeaderAt_wellFormed (env : WriterEnv) (pos targetSize : ℕ) :
    (paddingHeaderAt env pos targetSize).WellFormed where
  signature := rfl
  tail_length := by simp [paddingHeaderAt, paddingHeader]
  filenameLength_lt := by simp [paddingHeaderAt, paddingHeader, paddingLfhFilenameLen]
  extraFieldLength_lt := Nat.mod_lt _ (by norm_num)

theorem writePaddingLfh_emits {env : WriterEnv} {pos targetSize : ℕ} (h : 44 ≤ targetSize) :
    Emits pos (writePaddingLfh env targetSize) () (paddingHeaderAt env pos targetSize).bytes := by
  rw [writePaddingLfh, if_neg (by rw [paddingLfhMinSize]; omega)]
  refine Emits.get fun w hw ↦ ?_
  have hextra (pos : ℕ) : Emits pos (if paddingExtraFieldLen targetSize > 0
      then burstWriterWrite (List.replicate (paddingExtraFieldLen targetSize) 0) else pure ()) ()
      (List.replicate (paddingExtraFieldLen targetSize) 0) := by
    split
    · exact Emits.write _
    · next hn => exact (Emits.done ()).congr (by simp [show paddingExtraFieldLen targetSize = 0 by omega])
  exact ((Emits.write _).andThen ((Emits.write _).andThen ((hextra _).andThen
    (addPaddingBytes_emits _ _)))).congr (by
      simp [paddingHeaderAt, LocalFileHeader.bytes, paddingHeader, hw])

theorem writePaddingLfh_ok {env : WriterEnv} {targetSize : ℕ} {w w' : BurstWriter}
    (h : writePaddingLfh env targetSize w = (some (), w')) : 44 ≤ targetSize := by
  by_contra! hn
  rw [writePaddingLfh, if_pos (by rw [paddingLfhMinSize]; omega)] at h
  exact WriterM.fail_ok.mp h

def buildUnixExtraField (bufferSize uid gid : ℕ) : List UInt8 :=
  if bufferSize < 15 then []
  else encode 2 zipExtraUnix7875Id ++ encode 2 11 ++ encode 1 1 ++ encode 1 4 ++ encode 4 uid ++
    encode 1 4 ++ encode 4 gid

/-- One value of the ZIP64 extra field; only those that overflow 32 bits are there. -/
def zip64Value (value : ℕ) : List UInt8 := if value > 0xFFFFFFFF then encode 8 value else []

def buildZip64ExtraField (bufferSize compressedSize uncompressedSize localHeaderOffset : ℕ) :
    List UInt8 :=
  if ¬ uncompressedSize > 0xFFFFFFFF ∧ ¬ compressedSize > 0xFFFFFFFF ∧
      ¬ localHeaderOffset > 0xFFFFFFFF then []
  else
    let data := zip64Value uncompressedSize ++ zip64Value compressedSize ++
      zip64Value localHeaderOffset
    if bufferSize < 4 + data.length then []
    else encode 2 zipExtraZip64Id ++ encode 2 data.length ++ data

def needZip64 (entry : FileEntry) : Bool :=
  entry.compressedSize > 0xFFFFFFFF || entry.uncompressedSize > 0xFFFFFFFF ||
    entry.localHeaderOffset > 0xFFFFFFFF

/-- A 32-bit field of the central header, with the marker when the value does not fit. -/
def zip32Value (value : ℕ) : ℕ := if value > 0xFFFFFFFF then 0xFFFFFFFF else value

def centralExtraField (entry : FileEntry) : List UInt8 :=
  let unix := buildUnixExtraField 64 entry.uid entry.gid
  unix ++ if needZip64 entry then buildZip64ExtraField (64 - unix.length) entry.compressedSize
    entry.uncompressedSize entry.localHeaderOffset else []

def centralHeader (entry : FileEntry) : ZipCentralHeader where
  signature := zipCentralDirHeaderSig
  versionMadeBy := 3 * 2 ^ 8 + 63
  versionNeeded := entry.versionNeeded
  flags := entry.generalPurposeFlags
  compressionMethod := entry.compressionMethod
  lastModTime := entry.lastModTime
  lastModDate := entry.lastModDate
  crc32 := entry.crc32
  compressedSize := zip32Value entry.compressedSize
  uncompressedSize := zip32Value entry.uncompressedSize
  filenameLength := entry.filename.length
  extraFieldLength := (centralExtraField entry).length
  fileCommentLength := 0
  diskNumberStart := 0
  internalFileAttributes := 0
  externalFileAttributes := entry.unixMode * 2 ^ 16
  localHeaderOffset := zip32Value entry.localHeaderOffset

/-- The loop body of `write_central_directory`; a name is written up to its 16-bit length. -/
def writeCentralHeader (entry : FileEntry) : WriterM Unit :=
  if needZip64 entry ∧ buildZip64ExtraField (64 - (buildUnixExtraField 64 entry.uid entry.gid).length)
      entry.compressedSize entry.uncompressedSize entry.localHeaderOffset = [] then WriterM.fail
  else do
    burstWriterWrite (centralHeader entry).fixedBytes
    burstWriterWrite (entry.filename.take (entry.filename.length % 2 ^ 16))
    (if (centralExtraField entry).length > 0 then burstWriterWrite (centralExtraField entry)
      else pure ())

def writeCentralHeaders : List FileEntry → WriterM Unit
  | [] => pure ()
  | entry :: entries => do
    writeCentralHeader entry
    writeCentralHeaders entries

def writeCentralDirectory : WriterM Unit := do
  let w ← WriterM.get
  writeCentralHeaders w.files

def centralHeaderBytes (entry : FileEntry) : List UInt8 :=
  (centralHeader entry).fixedBytes ++ entry.filename.take (entry.filename.length % 2 ^ 16) ++
    centralExtraField entry

@[simp] theorem buildUnixExtraField_length (uid gid : ℕ) :
    (buildUnixExtraField 64 uid gid).length = 15 := by simp [buildUnixExtraField]

theorem zip64Value_length_le (value : ℕ) : (zip64Value value).length ≤ 8 := by
  unfold zip64Value
  split <;> simp

theorem buildZip64ExtraField_fits (compressedSize uncompressedSize localHeaderOffset : ℕ) :
    ¬ 49 < 4 + (zip64Value uncompressedSize ++ zip64Value compressedSize ++
      zip64Value localHeaderOffset).length := by
  have hu := zip64Value_length_le uncompressedSize
  have hc := zip64Value_length_le compressedSize
  have ho := zip64Value_length_le localHeaderOffset
  simp only [List.length_append]
  omega

theorem buildZip64ExtraField_ne_nil {entry : FileEntry} (h : needZip64 entry = true) :
    buildZip64ExtraField 49 entry.compressedSize entry.uncompressedSize
      entry.localHeaderOffset ≠ [] := by
  simp only [needZip64, Bool.or_eq_true, decide_eq_true_eq] at h
  rw [buildZip64ExtraField, if_neg (by omega)]
  simp only [if_neg (buildZip64ExtraField_fits _ _ _)]
  simp [zipExtraZip64Id, encode]

theorem writeCentralHeader_emits (pos : ℕ) (entry : FileEntry) :
    Emits pos (writeCentralHeader entry) () (centralHeaderBytes entry) := by
  have hbuild : ¬ (needZip64 entry ∧ buildZip64ExtraField
      (64 - (buildUnixExtraField 64 entry.uid entry.gid).length) entry.compressedSize
      entry.uncompressedSize entry.localHeaderOffset = []) := by
    rw [buildUnixExtraField_length]
    exact fun ⟨hneed, hnil⟩ ↦ buildZip64ExtraField_ne_nil hneed hnil
  rw [writeCentralHeader, if_neg hbuild]
  have hextra (pos : ℕ) : Emits pos (if (centralExtraField entry).length > 0
      then burstWriterWrite (centralExtraField entry) else pure ()) ()
      (centralExtraField entry) := by
    split
    · exact Emits.write _
    · next hn =>
      exact (Emits.done ()).congr (List.eq_nil_of_length_eq_zero (by omega)).symm
  exact ((Emits.write _).andThen ((Emits.write _).andThen (hextra _))).congr (by simp [centralHeaderBytes])

theorem writeCentralHeaders_emits (pos : ℕ) (entries : List FileEntry) :
    Emits pos (writeCentralHeaders entries) () (entries.flatMap centralHeaderBytes) := by
  induction entries generalizing pos with
  | nil => exact Emits.done ()
  | cons entry entries ih => exact (writeCentralHeader_emits pos entry).andThen (ih _)

def writeZip64EndCentralDirectory (centralDirStart centralDirSize : ℕ) : WriterM Unit := do
  let w ← WriterM.get
  burstWriterWrite (Zip64EndCentralDir.bytes {
    signature := zipZip64EndCentralDirSig
    eocd64Size := 56 - 12
    versionMadeBy := 3 * 2 ^ 8 + zipVersionZstd
    versionNeeded := zipVersionZstd
    diskNumber := 0
    diskWithCd := 0
    numEntriesThisDisk := w.files.length
    numEntriesTotal := w.files.length
    centralDirSize := centralDirSize
    centralDirOffset := centralDirStart })

def writeZip64EndCentralDirectoryLocator (eocd64Offset : ℕ) : WriterM Unit :=
  burstWriterWrite (Zip64EndCentralDirLocator.bytes {
    signature := zipZip64EndCentralDirLocatorSig
    diskWithEocd64 := 0
    eocd64Offset := eocd64Offset
    totalDisks := 1 })

def buildBurstEocdComment (firstCdfhOffsetInTail : ℕ) : List UInt8 :=
  encode 4 burstEocdCommentMagic ++ encode 1 burstEocdCommentVersion ++
    encode 3 firstCdfhOffsetInTail

def writeEndCentralDirectory (centralDirStart centralDirSize firstCdfhOffsetInTail : ℕ) :
    WriterM Unit := do
  let w ← WriterM.get
  burstWriterWrite (ZipEndCentralDir.bytes {
    signature := zipEndCentralDirSig
    diskNumber := 0
    diskWithCd := 0
    numEntriesThisDisk := if w.files.length > 0xFFFE then 0xFFFF else w.files.length
    numEntriesTotal := if w.files.length > 0xFFFE then 0xFFFF else w.files.length
    centralDirSize := if centralDirSize > 0xFFFFFFFE then 0xFFFFFFFF else centralDirSize
    centralDirOffset := if centralDirStart > 0xFFFFFFFE then 0xFFFFFFFF else centralDirStart
    commentLength := burstEocdCommentSize })
  burstWriterWrite (buildBurstEocdComment firstCdfhOffsetInTail)

end Burst
