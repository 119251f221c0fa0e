import Burst.Lib.LittleEndian

namespace Burst

open LittleEndian

def zipLocalFileHeaderSig : ℕ := 0x04034b50
def zipDataDescriptorSig : ℕ := 0x08074b50
def zipCentralDirHeaderSig : ℕ := 0x02014b50
def zipEndCentralDirSig : ℕ := 0x06054b50
def zipZip64EndCentralDirSig : ℕ := 0x06064b50
def zipZip64EndCentralDirLocatorSig : ℕ := 0x07064b50

def zipMethodStore : ℕ := 0
def zipMethodZstd : ℕ := 93
def zipFlagDataDescriptor : ℕ := 0x0008
def zipVersionStore : ℕ := 10
def zipVersionZstd : ℕ := 63

/-- `.burst_padding` -/
def paddingLfhFilename : List UInt8 := [46, 98, 117, 114, 115, 116, 95, 112, 97, 100, 100, 105, 110, 103]
def paddingLfhFilenameLen : ℕ := 14

@[simp] theorem paddingLfhFilename_length : paddingLfhFilename.length = paddingLfhFilenameLen := rfl

def paddingLfhMinSize : ℕ := 44

def zipExtraUnix7875Id : ℕ := 0x7875
def zipExtraZip64Id : ℕ := 0x0001

def burstEocdCommentMagic : ℕ := 0x54535242
def burstEocdCommentVersion : ℕ := 1
def burstEocdCommentSize : ℕ := 8
def burstEocdNoCdfhInTail : ℕ := 0xFFFFFF

def burstPartSize : ℕ := 8 * 1024 * 1024
def burstMinSkippableFrameSize : ℕ := 8
def burstMagicNumber : ℕ := 0x184D2A5B

/-- Unsigned 64-bit subtraction, which wraps below zero. -/
def sub64 (a b : ℕ) : ℕ := (a + 2 ^ 64 - b) % 2 ^ 64

theorem sub64_of_le {a b : ℕ} (h : b ≤ a) (ha : a < 2 ^ 64) : sub64 a b = a - b := by
  rw [sub64]
  omega

structure ZipLocalHeader where
  signature : ℕ
  versionNeeded : ℕ
  flags : ℕ
  compressionMethod : ℕ
  lastModTime : ℕ
  lastModDate : ℕ
  crc32 : ℕ
  compressedSize : ℕ
  uncompressedSize : ℕ
  filenameLength : ℕ
  extraFieldLength : ℕ
  deriving DecidableEq, Repr

def ZipLocalHeader.fixedBytes (h : ZipLocalHeader) : List UInt8 :=
  encode 4 h.signature ++ encode 2 h.versionNeeded ++ encode 2 h.flags ++
    encode 2 h.compressionMethod ++ encode 2 h.lastModTime ++ encode 2 h.lastModDate ++
    encode 4 h.crc32 ++ encode 4 h.compressedSize ++ encode 4 h.uncompressedSize ++
    encode 2 h.filenameLength ++ encode 2 h.extraFieldLength

@[simp] theorem ZipLocalHeader.fixedBytes_length (h : ZipLocalHeader) :
    h.fixedBytes.length = 30 := by simp [fixedBytes]

structure ZipCentralHeader where
  signature : ℕ
  versionMadeBy : ℕ
  versionNeeded : ℕ
  flags : ℕ
  compressionMethod : ℕ
  lastModTime : ℕ
  lastModDate : ℕ
  crc32 : ℕ
  compressedSize : ℕ
  uncompressedSize : ℕ
  filenameLength : ℕ
  extraFieldLength : ℕ
  fileCommentLength : ℕ
  diskNumberStart : ℕ
  internalFileAttributes : ℕ
  externalFileAttributes : ℕ
  localHeaderOffset : ℕ
  deriving DecidableEq, Repr

def ZipCentralHeader.fixedBytes (h : ZipCentralHeader) : List UInt8 :=
  encode 4 h.signature ++ encode 2 h.versionMadeBy ++ encode 2 h.versionNeeded ++
    encode 2 h.flags ++ encode 2 h.compressionMethod ++ encode 2 h.lastModTime ++
    encode 2 h.lastModDate ++ encode 4 h.crc32 ++ encode 4 h.compressedSize ++
    encode 4 h.uncompressedSize ++ encode 2 h.filenameLength ++ encode 2 h.extraFieldLength ++
    encode 2 h.fileCommentLength ++ encode 2 h.diskNumberStart ++
    encode 2 h.internalFileAttributes ++ encode 4 h.externalFileAttributes ++
    encode 4 h.localHeaderOffset

@[simp] theorem ZipCentralHeader.fixedBytes_length (h : ZipCentralHeader) :
    h.fixedBytes.length = 46 := by simp [fixedBytes]

/-- `struct zip_data_descriptor`, or its ZIP64 form with 64-bit sizes. -/
def dataDescriptorBytes (crc32 compressedSize uncompressedSize : ℕ) (useZip64 : Bool) : List UInt8 :=
  if useZip64 then
    encode 4 zipDataDescriptorSig ++ encode 4 crc32 ++ encode 8 compressedSize ++
      encode 8 uncompressedSize
  else
    encode 4 zipDataDescriptorSig ++ encode 4 crc32 ++ encode 4 compressedSize ++
      encode 4 uncompressedSize

theorem dataDescriptorBytes_length (crc32 compressedSize uncompressedSize : ℕ) (useZip64 : Bool) :
    (dataDescriptorBytes crc32 compressedSize uncompressedSize useZip64).length =
      if useZip64 then 24 else 16 := by
  cases useZip64 <;> simp [dataDescriptorBytes]

/-- `get_data_descriptor_size` -/
def getDataDescriptorSize (compressedSize uncompressedSize : ℕ) : ℕ :=
  if compressedSize > 0xFFFFFFFF ∨ uncompressedSize > 0xFFFFFFFF then 24 else 16

structure Zip64EndCentralDir where
  signature : ℕ
  eocd64Size : ℕ
  versionMadeBy : ℕ
  versionNeeded : ℕ
  diskNumber : ℕ
  diskWithCd : ℕ
  numEntriesThisDisk : ℕ
  numEntriesTotal : ℕ
  centralDirSize : ℕ
  centralDirOffset : ℕ

def Zip64EndCentralDir.bytes (r : Zip64EndCentralDir) : List UInt8 :=
  encode 4 r.signature ++ encode 8 r.eocd64Size ++ encode 2 r.versionMadeBy ++
    encode 2 r.versionNeeded ++ encode 4 r.diskNumber ++ encode 4 r.diskWithCd ++
    encode 8 r.numEntriesThisDisk ++ encode 8 r.numEntriesTotal ++ encode 8 r.centralDirSize ++
    encode 8 r.centralDirOffset

@[simp] theorem Zip64EndCentralDir.bytes_length (r : Zip64EndCentralDir) :
    r.bytes.length = 56 := by simp [bytes]

structure Zip64EndCentralDirLocator where
  signature : ℕ
  diskWithEocd64 : ℕ
  eocd64Offset : ℕ
  totalDisks : ℕ

def Zip64EndCentralDirLocator.bytes (r : Zip64EndCentralDirLocator) : List UInt8 :=
  encode 4 r.signature ++ encode 4 r.diskWithEocd64 ++ encode 8 r.eocd64Offset ++
    encode 4 r.totalDisks

@[simp] theorem Zip64EndCentralDirLocator.bytes_length (r : Zip64EndCentralDirLocator) :
    r.bytes.length = 20 := by simp [bytes]

structure ZipEndCentralDir where
  signature : ℕ
  diskNumber : ℕ
  diskWithCd : ℕ
  numEntriesThisDisk : ℕ
  numEntriesTotal : ℕ
  centralDirSize : ℕ
  centralDirOffset : ℕ
  commentLength : ℕ

def ZipEndCentralDir.bytes (r : ZipEndCentralDir) : List UInt8 :=
  encode 4 r.signature ++ encode 2 r.diskNumber ++ encode 2 r.diskWithCd ++
    encode 2 r.numEntriesThisDisk ++ encode 2 r.numEntriesTotal ++ encode 4 r.centralDirSize ++
    encode 4 r.centralDirOffset ++ encode 2 r.commentLength

@[simp] theorem ZipEndCentralDir.bytes_length (r : ZipEndCentralDir) :
    r.bytes.length = 22 := by simp [bytes]

end Burst
