import Burst.CentralDirRoundTrip
import Burst.PartMap

namespace Burst

open LittleEndian

/-- The `struct central_dir_parse_result` of a successful parse. -/
structure CentralDirParseResult where
  files : List FileMetadata
  parts : List PartFiles
  centralDirOffset : ℕ
  centralDirSize : ℕ
  isZip64 : Bool
  deriving DecidableEq, Repr

/-- Searches for the end record from a position backwards. -/
def findEocdFrom (buffer : List UInt8) : ℕ → Option ℕ
  | 0 => if read buffer 0 4 = zipEndCentralDirSig then some 0 else none
  | n + 1 => if read buffer (n + 1) 4 = zipEndCentralDirSig then some (n + 1)
    else findEocdFrom buffer n

structure EocdPosition where
  eocdOffset : ℕ
  isZip64 : Bool
  locatorOffset : ℕ
  deriving DecidableEq, Repr

def findEocd (buffer : List UInt8) : Except CentralDirParseError EocdPosition :=
  if buffer.length < 22 then .error .noEocd
  else
    match findEocdFrom buffer (buffer.length - 22) with
    | none => .error .noEocd
    | some eocdOffset =>
      if eocdOffset ≥ 20 ∧ read buffer (eocdOffset - 20) 4 = zipZip64EndCentralDirLocatorSig then
        .ok ⟨eocdOffset, true, eocdOffset - 20⟩
      else .ok ⟨eocdOffset, false, 0⟩

/-- What the end records say; a standard record leaves the number of entries unset. -/
structure CentralDirLocation where
  centralDirOffset : ℕ
  centralDirSize : ℕ
  numEntries : Option ℕ
  isZip64 : Bool
  firstCdfhOffsetInTail : ℕ
  deriving DecidableEq, Repr

def parseZip64Eocd (buffer : List UInt8) (eocd64Offset : ℕ) :
    Except CentralDirParseError (ℕ × ℕ × Option ℕ) :=
  if (eocd64Offset + 56) % 2 ^ 64 > buffer.length then .error .truncated
  else if read buffer eocd64Offset 4 ≠ zipZip64EndCentralDirSig then .error .invalidSignature
  else .ok (read buffer (eocd64Offset + 48) 8, read buffer (eocd64Offset + 40) 8,
    some (read buffer (eocd64Offset + 32) 8))

def parseEocd (buffer : List UInt8) (eocdOffset : ℕ) :
    Except CentralDirParseError (ℕ × ℕ × Option ℕ) :=
  if eocdOffset + 22 > buffer.length then .error .truncated
  else if read buffer eocdOffset 4 ≠ zipEndCentralDirSig then .error .invalidSignature
  else .ok (read buffer (eocdOffset + 16) 4, read buffer (eocdOffset + 12) 4, none)

/-- The offset and the size of the central directory and its number of entries. -/
def centralDirExtent (buffer : List UInt8) (archiveSize : ℕ) (p : EocdPosition) :
    Except CentralDirParseError (ℕ × ℕ × Option ℕ) :=
  if p.isZip64 then
    if p.locatorOffset + 20 > buffer.length then .error .truncated
    else if read buffer (p.locatorOffset + 8) 8 < sub64 archiveSize buffer.length then
      .error .truncated
    else parseZip64Eocd buffer
      (read buffer (p.locatorOffset + 8) 8 - sub64 archiveSize buffer.length)
  else parseEocd buffer p.eocdOffset

/-- The offset in the BURST comment after an end record; zero when there is none. -/
def parseBurstEocdComment (buffer : List UInt8) (eocdOffset : ℕ) : ℕ :=
  if read buffer (eocdOffset + 20) 2 ≥ burstEocdCommentSize ∧
      eocdOffset + 22 + burstEocdCommentSize ≤ buffer.length ∧
      read buffer (eocdOffset + 22) 4 = burstEocdCommentMagic ∧
      read buffer (eocdOffset + 26) 1 = burstEocdCommentVersion then
    read buffer (eocdOffset + 27) 3
  else 0

def centralDirParseEocdOnly (buffer : List UInt8) (archiveSize : ℕ) :
    Except CentralDirParseError CentralDirLocation :=
  if buffer.length = 0 then .error .invalidBuffer
  else
    match findEocd buffer with
    | .error e => .error e
    | .ok p =>
      match centralDirExtent buffer archiveSize p with
      | .error e => .error e
      | .ok (cdOffset, cdSize, numEntries) =>
        if cdOffset ≥ archiveSize then .error .truncated
        else if (cdOffset + cdSize) % 2 ^ 64 > archiveSize then .error .truncated
        else .ok ⟨cdOffset, cdSize, numEntries, p.isZip64, parseBurstEocdComment buffer p.eocdOffset⟩

def estimatedEntries (cdSize : ℕ) : ℕ := if cdSize / 46 = 0 then 1 else cdSize / 46

def centralDirParseFromCdBuffer (cdBuffer : List UInt8) (cdOffset cdSize archiveSize partSize : ℕ)
    (isZip64 : Bool) : Except CentralDirParseError CentralDirParseResult :=
  if cdBuffer.length = 0 then .error .invalidBuffer
  else if cdBuffer.length < cdSize then .error .truncated
  else
    match parseCentralDirectory cdBuffer cdOffset cdOffset (estimatedEntries cdSize) cdSize
      partSize with
    | .error e => .error e
    | .ok files =>
      match buildPartMap files archiveSize partSize with
      | .error e => .error e
      | .ok parts => .ok ⟨files, parts, cdOffset, cdSize, isZip64⟩

/-- The entries from a header in the middle of the central directory on, read up to the end of the
buffer; they end where something else than a header begins. -/
def centralDirParsePartial (buffer : List UInt8) (bufferStartOffset centralDirOffset
    firstCdfhOffset archiveSize partSize : ℕ) (isZip64 : Bool) :
    Except CentralDirParseError CentralDirParseResult :=
  if buffer.length = 0 then .error .invalidBuffer
  else if partSize < burstPartSize ∨ partSize % burstPartSize ≠ 0 then .error .invalidBuffer
  else if firstCdfhOffset ≥ buffer.length then .error .truncated
  else
    match centralDirParseFromCdBuffer (buffer.drop firstCdfhOffset)
      ((bufferStartOffset + firstCdfhOffset) % 2 ^ 64) (buffer.length - firstCdfhOffset)
      archiveSize partSize isZip64 with
    | .error e => .error e
    | .ok result => .ok { result with centralDirOffset := centralDirOffset }

def centralDirParse (buffer : List UInt8) (archiveSize partSize : ℕ) :
    Except CentralDirParseError CentralDirParseResult :=
  match centralDirParseEocdOnly buffer archiveSize with
  | .error e => .error e
  | .ok loc =>
    if loc.centralDirOffset < sub64 archiveSize buffer.length then .error .truncated
    else centralDirParseFromCdBuffer
      (buffer.drop (loc.centralDirOffset - sub64 archiveSize buffer.length))
      loc.centralDirOffset loc.centralDirSize archiveSize partSize loc.isZip64

end Burst
