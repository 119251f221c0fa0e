import Burst.ZipStructures

namespace Burst

open LittleEndian

inductive CentralDirParseError where
  | invalidBuffer
  | noEocd
  | truncated
  | invalidSignature
  | memory
  deriving DecidableEq, Repr

structure FileMetadata where
  filename : List UInt8
  localHeaderOffset : ℕ
  compressedSize : ℕ
  uncompressedSize : ℕ
  crc32 : ℕ
  compressionMethod : ℕ
  partIndex : ℕ
  unixMode : ℕ
  uid : ℕ
  gid : ℕ
  hasUnixMode : Bool
  hasUnixExtra : Bool
  isSymlink : Bool
  usesZip64Descriptor : Bool
  deriving DecidableEq, Repr

/-- Results of `parse_unix_extra_field`; the ids may be set although nothing was found. -/
structure UnixExtra where
  found : Bool
  uid : ℕ
  gid : ℕ
  deriving DecidableEq, Repr

def parseUnixExtraData (data : List UInt8) : UnixExtra :=
  if read data 0 1 ≠ 1 then ⟨false, 0, 0⟩
  else if data.length < 3 + read data 1 1 then ⟨false, 0, 0⟩
  else if data.length < 3 + read data 1 1 + read data (2 + read data 1 1) 1 then
    ⟨false, read data 2 (min (read data 1 1) 4), 0⟩
  else ⟨true, read data 2 (min (read data 1 1) 4),
    read data (3 + read data 1 1) (min (read data (2 + read data 1 1) 1) 4)⟩

/-- Walks over the records of an extra field; each takes at least four bytes. -/
def parseUnixExtraField : ℕ → List UInt8 → UnixExtra
  | 0, _ => ⟨false, 0, 0⟩
  | fuel + 1, extra =>
    if extra.length < 4 then ⟨false, 0, 0⟩
    else if read extra 0 2 = zipExtraUnix7875Id then
      if extra.length - 4 < read extra 2 2 ∨ read extra 2 2 < 3 then ⟨false, 0, 0⟩
      else parseUnixExtraData (extra.drop 4)
    else if extra.length - 4 < read extra 2 2 then ⟨false, 0, 0⟩
    else parseUnixExtraField fuel (extra.drop (4 + read extra 2 2))

structure Zip64Values where
  compressedSize : ℕ
  uncompressedSize : ℕ
  localHeaderOffset : ℕ
  deriving DecidableEq, Repr

/-- The next 64-bit value, when the 32-bit field holds the marker; `none` when it is missing. -/
def takeZip64Value (field : ℕ) (old : ℕ) (data : List UInt8) : Option (ℕ × List UInt8) :=
  if field = 0xFFFFFFFF then
    if data.length < 8 then none else some (read data 0 8, data.drop 8)
  else some (old, data)

def parseZip64Data (header : ZipCentralHeader) (data : List UInt8) (v : Zip64Values) :
    Zip64Values :=
  match takeZip64Value header.uncompressedSize v.uncompressedSize data with
  | none => v
  | some (uncompressedSize, data) =>
    match takeZip64Value header.compressedSize v.compressedSize data with
    | none => { v with uncompressedSize := uncompressedSize }
    | some (compressedSize, data) =>
      match takeZip64Value header.localHeaderOffset v.localHeaderOffset data with
      | none => { v with uncompressedSize := uncompressedSize, compressedSize := compressedSize }
      | some (localHeaderOffset, _) => ⟨compressedSize, uncompressedSize, localHeaderOffset⟩

def parseZip64ExtraField (header : ZipCentralHeader) :
    ℕ → List UInt8 → Zip64Values → Zip64Values
  | 0, _, v => v
  | fuel + 1, extra, v =>
    if extra.length < 4 then v
    else if read extra 0 2 = zipExtraZip64Id then
      if extra.length - 4 < read extra 2 2 then v
      else parseZip64Data header ((extra.drop 4).take (read extra 2 2)) v
    else if extra.length - 4 < read extra 2 2 then v
    else parseZip64ExtraField header fuel (extra.drop (4 + read extra 2 2)) v

def parseCentralHeader (bs : List UInt8) : ZipCentralHeader where
  signature := read bs 0 4
  versionMadeBy := read bs 4 2
  versionNeeded := read bs 6 2
  flags := read bs 8 2
  compressionMethod := read bs 10 2
  lastModTime := read bs 12 2
  lastModDate := read bs 14 2
  crc32 := read bs 16 4
  compressedSize := read bs 20 4
  uncompressedSize := read bs 24 4
  filenameLength := read bs 28 2
  extraFieldLength := read bs 30 2
  fileCommentLength := read bs 32 2
  diskNumberStart := read bs 34 2
  internalFileAttributes := read bs 36 2
  externalFileAttributes := read bs 38 4
  localHeaderOffset := read bs 42 4

/-- `(mode & S_IFMT) == S_IFLNK` -/
def isLnk (mode : ℕ) : Bool := mode / 0o10000 % 16 = 0o12

def variableLen (header : ZipCentralHeader) : ℕ :=
  header.filenameLength + header.extraFieldLength + header.fileCommentLength

/-- The metadata of an entry from its header and the variable-length fields after it. -/
def parseFileMetadata (partSize : ℕ) (header : ZipCentralHeader) (fields : List UInt8) :
    FileMetadata :=
  let extra := (fields.drop header.filenameLength).take header.extraFieldLength
  let unixMode := if header.versionMadeBy / 2 ^ 8 = 3 then header.externalFileAttributes / 2 ^ 16
    else 0
  let unix := parseUnixExtraField extra.length extra
  let zip64 := parseZip64ExtraField header extra.length extra
    ⟨header.compressedSize, header.uncompressedSize, header.localHeaderOffset⟩
  { filename := (fields.take header.filenameLength).takeWhile (· ≠ 0)
    localHeaderOffset := zip64.localHeaderOffset
    compressedSize := zip64.compressedSize
    uncompressedSize := zip64.uncompressedSize
    crc32 := header.crc32
    compressionMethod := header.compressionMethod
    partIndex := zip64.localHeaderOffset / partSize % 2 ^ 32
    unixMode := unixMode
    uid := unix.uid
    gid := unix.gid
    hasUnixMode := header.versionMadeBy / 2 ^ 8 = 3
    hasUnixExtra := unix.found
    isSymlink := header.versionMadeBy / 2 ^ 8 = 3 && isLnk unixMode
    usesZip64Descriptor := header.extraFieldLength > 0 &&
      (header.compressedSize = 0xFFFFFFFF || header.uncompressedSize = 0xFFFFFFFF) }

/-- The entry loop, over what is left of the directory. -/
def parseEntries (partSize : ℕ) : ℕ → Bool → List UInt8 →
    Except CentralDirParseError (List FileMetadata)
  | 0, _, _ => .ok []
  | numEntries + 1, first, cd =>
    if cd.length = 0 then .ok []
    else if cd.length < 46 then if first then .error .truncated else .ok []
    else
      let header := parseCentralHeader cd
      if header.signature ≠ zipCentralDirHeaderSig then
        if first then .error .invalidSignature else .ok []
      else if cd.length - 46 < variableLen header then .error .truncated
      else
        match parseEntries partSize numEntries false (cd.drop (46 + variableLen header)) with
        | .error e => .error e
        | .ok files => .ok (parseFileMetadata partSize header (cd.drop 46) :: files)

def sizeofFileMetadata : ℕ := 64

def parseCentralDirectory (buffer : List UInt8) (cdOffset bufferOffset numEntries cdSize
    partSize : ℕ) : Except CentralDirParseError (List FileMetadata) :=
  if cdOffset < bufferOffset then .error .truncated
  else if (cdOffset - bufferOffset + cdSize) % 2 ^ 64 > buffer.length then .error .truncated
  else if 2 ^ 63 ≤ numEntries * sizeofFileMetadata then .error .memory
  else parseEntries partSize numEntries true ((buffer.drop (cdOffset - bufferOffset)).take cdSize)

end Burst
