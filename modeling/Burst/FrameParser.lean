import Burst.ZipStructures

namespace Burst

open LittleEndian

/-- The answers of `ZSTD_findFrameCompressedSize`. -/
inductive FrameCompressedSize where
  | size (n : ℕ)
  | srcSizeWrong
  | error
  deriving DecidableEq, Repr

/-- The answers of `ZSTD_getFrameContentSize`. -/
inductive FrameContentSize where
  | size (n : ℕ)
  | unknown
  | error
  deriving DecidableEq, Repr

/-- What the downloader uses of libzstd. `decompressDCtx` is given the capacity of the output. -/
structure ZstdLib where
  findFrameCompressedSize : List UInt8 → FrameCompressedSize
  getFrameContentSize : List UInt8 → FrameContentSize
  decompressDCtx : ℕ → List UInt8 → Option (List UInt8)

def zstdMagicNumber : ℕ := 0xFD2FB528
def burstSkippableMagic : ℕ := 0x184D2A5B
def burstTypeStartOfPart : ℕ := 0x01

inductive FrameType where
  | zstdCompressed
  | burstPadding
  | burstStartOfPart
  | zipLocalHeader
  | zipDataDescriptor
  | zipCentralDirectory
  deriving DecidableEq, Repr

structure FrameInfo where
  type : FrameType
  frameSize : ℕ
  uncompressedSize : ℕ
  startOfPartOffset : ℕ
  deriving DecidableEq, Repr

inductive FrameResult where
  | success (info : FrameInfo)
  | needMoreData
  | invalidFrame
  deriving DecidableEq, Repr

/-- The fixed part, the name and the extra field of a local header. -/
def localHeaderSize (header : List UInt8) : ℕ := 30 + read header 26 2 + read header 28 2

def parseLocalHeaderFrame (buffer : List UInt8) : FrameResult :=
  if buffer.length < 30 then .needMoreData
  else .success ⟨.zipLocalHeader, localHeaderSize buffer, 0, 0⟩

def parseZstdFrame (zstd : ZstdLib) (buffer : List UInt8) : FrameResult :=
  match zstd.findFrameCompressedSize buffer with
  | .srcSizeWrong => .needMoreData
  | .error => .invalidFrame
  | .size frameSize =>
    match zstd.getFrameContentSize buffer with
    | .size contentSize => .success ⟨.zstdCompressed, frameSize, contentSize, 0⟩
    | .unknown => .invalidFrame
    | .error => .invalidFrame

/-- `8 + payload_size` is a 32-bit sum. -/
def skippableFrameSize (buffer : List UInt8) : ℕ := (8 + read buffer 4 4) % 2 ^ 32

def parseSkippableFrame (buffer : List UInt8) : FrameResult :=
  if buffer.length < 8 then .needMoreData
  else if buffer.length < skippableFrameSize buffer then .needMoreData
  else if read buffer 4 4 > 0 ∧ read buffer 8 1 = burstTypeStartOfPart ∧ read buffer 4 4 = 16 then
    .success ⟨.burstStartOfPart, skippableFrameSize buffer, 0, read buffer 9 8⟩
  else .success ⟨.burstPadding, skippableFrameSize buffer, 0, 0⟩

def parseNextFrame (zstd : ZstdLib) (buffer : List UInt8) : FrameResult :=
  if buffer.length < 4 then .needMoreData
  else if read buffer 0 4 = zipLocalFileHeaderSig then parseLocalHeaderFrame buffer
  else if read buffer 0 4 = zipDataDescriptorSig then .success ⟨.zipDataDescriptor, 16, 0, 0⟩
  else if read buffer 0 4 = zipCentralDirHeaderSig then .success ⟨.zipCentralDirectory, 0, 0, 0⟩
  else if read buffer 0 4 = zstdMagicNumber then parseZstdFrame zstd buffer
  else if read buffer 0 4 = burstSkippableMagic then parseSkippableFrame buffer
  else .invalidFrame

theorem parseSkippableFrame_success {bs : List UInt8} {info : FrameInfo}
    (h : parseSkippableFrame bs = .success info) :
    info.frameSize ≤ bs.length ∧ (info.type = .burstPadding ∨
      info.type = .burstStartOfPart ∧ info.frameSize = 24) := by
  rw [parseSkippableFrame] at h
  split_ifs at h with hlen hframe hstart
  · obtain rfl := FrameResult.success.inj h
    refine ⟨by simpa using hframe, .inr ⟨rfl, ?_⟩⟩
    simp [skippableFrameSize, hstart.2.2]
  · obtain rfl := FrameResult.success.inj h
    exact ⟨by simpa using hframe, .inl rfl⟩

/-- What is known to be there of a frame: a skippable frame as a whole, the fixed part of a local
header, the signature of a data descriptor. -/
theorem parseNextFrame_success {zstd : ZstdLib} {bs : List UInt8} {info : FrameInfo}
    (h : parseNextFrame zstd bs = .success info) :
    (info.type = .zipLocalHeader → 30 ≤ bs.length) ∧
      (info.type = .burstPadding → info.frameSize ≤ bs.length) ∧
      (info.type = .burstStartOfPart → info.frameSize = 24 ∧ 24 ≤ bs.length) ∧
      (info.type = .zipDataDescriptor → read bs 0 4 = zipDataDescriptorSig ∧ 4 ≤ bs.length) := by
  rw [parseNextFrame] at h
  split_ifs at h with hlen hlocal hdesc hcd hzstd hskip
  · rw [parseLocalHeaderFrame] at h
    split_ifs at h with hshort
    obtain rfl := FrameResult.success.inj h
    exact ⟨fun _ ↦ by omega, by simp, by simp, by simp⟩
  · obtain rfl := FrameResult.success.inj h
    exact ⟨by simp, by simp, by simp, fun _ ↦ ⟨hdesc, by omega⟩⟩
  · obtain rfl := FrameResult.success.inj h
    simp
  · rw [parseZstdFrame] at h
    split at h
    · cases h
    · cases h
    · split at h
      · obtain rfl := FrameResult.success.inj h
        simp
      · cases h
      · cases h
  · obtain ⟨hfits, htype | ⟨htype, hsize⟩⟩ := parseSkippableFrame_success h
    · simp [htype, hfits]
    · rw [hsize] at hfits
      simp [htype, hsize, hfits]

/-- Given more input, the answers on complete frames and on invalid ones do not change. -/
structure ZstdLib.Stable (zstd : ZstdLib) : Prop where
  size : ∀ {bs n} rest, zstd.findFrameCompressedSize bs = .size n →
    zstd.findFrameCompressedSize (bs ++ rest) = .size n
  error : ∀ {bs} rest, zstd.findFrameCompressedSize bs = .error →
    zstd.findFrameCompressedSize (bs ++ rest) = .error
  contentSize : ∀ {bs n} rest, zstd.findFrameCompressedSize bs = .size n →
    zstd.getFrameContentSize (bs ++ rest) = zstd.getFrameContentSize bs

theorem skippableFrameSize_append {bs : List UInt8} (h : 8 ≤ bs.length) (rest : List UInt8) :
    skippableFrameSize (bs ++ rest) = skippableFrameSize bs := by
  rw [skippableFrameSize, skippableFrameSize, read_append_left h]

theorem localHeaderSize_append {bs : List UInt8} (h : 30 ≤ bs.length) (rest : List UInt8) :
    localHeaderSize (bs ++ rest) = localHeaderSize bs := by
  rw [localHeaderSize, localHeaderSize, read_append_left (by omega), read_append_left (by omega)]

theorem parseLocalHeaderFrame_append {bs : List UInt8} (rest : List UInt8)
    (h : parseLocalHeaderFrame bs ≠ .needMoreData) :
    parseLocalHeaderFrame (bs ++ rest) = parseLocalHeaderFrame bs := by
  rw [parseLocalHeaderFrame] at h
  split at h
  · exact (h rfl).elim
  · next hlen =>
    rw [parseLocalHeaderFrame, parseLocalHeaderFrame, if_neg hlen,
      if_neg (by rw [List.length_append]; omega), localHeaderSize_append (by omega)]

theorem parseZstdFrame_append {zstd : ZstdLib} (hz : zstd.Stable) {bs : List UInt8}
    (rest : List UInt8) (h : parseZstdFrame zstd bs ≠ .needMoreData) :
    parseZstdFrame zstd (bs ++ rest) = parseZstdFrame zstd bs := by
  cases hsize : zstd.findFrameCompressedSize bs with
  | srcSizeWrong => simp [parseZstdFrame, hsize] at h
  | error => simp only [parseZstdFrame, hsize, hz.error rest hsize]
  | size n => simp only [parseZstdFrame, hsize, hz.size rest hsize, hz.contentSize rest hsize]

theorem parseSkippableFrame_append {bs : List UInt8} (rest : List UInt8)
    (h : parseSkippableFrame bs ≠ .needMoreData) :
    parseSkippableFrame (bs ++ rest) = parseSkippableFrame bs := by
  rw [parseSkippableFrame] at h
  split at h
  · exact (h rfl).elim
  · next hlen =>
    have hsize := skippableFrameSize_append (show 8 ≤ bs.length by omega) rest
    have hpayload : read (bs ++ rest) 4 4 = read bs 4 4 := read_append_left (by omega) rest
    split at h
    · exact (h rfl).elim
    · next hframe =>
      rw [parseSkippableFrame, parseSkippableFrame, if_neg hlen, if_neg hframe, hsize, hpayload,
        if_neg (by rw [List.length_append]; omega), if_neg (by rw [List.length_append]; omega)]
      by_cases h16 : read bs 4 4 = 16
      · -- a payload of 16 bytes is there as a whole
        have hlong : 24 ≤ bs.length := by
          rw [skippableFrameSize, h16] at hframe
          omega
        rw [read_append_left (show 8 + 1 ≤ bs.length by omega),
          read_append_left (show 9 + 8 ≤ bs.length by omega)]
      · rw [if_neg (by tauto), if_neg (by tauto)]

/-- What has been recognised stays as it is when more input arrives. -/
theorem parseNextFrame_append {zstd : ZstdLib} (hz : zstd.Stable) {bs : List UInt8}
    (rest : List UInt8) (h : parseNextFrame zstd bs ≠ .needMoreData) :
    parseNextFrame zstd (bs ++ rest) = parseNextFrame zstd bs := by
  have hlen : ¬ bs.length < 4 := fun hlt ↦ h (by rw [parseNextFrame, if_pos hlt])
  have hmagic : read (bs ++ rest) 0 4 = read bs 0 4 := read_append_left (by omega) rest
  rw [parseNextFrame, if_neg hlen] at h
  rw [parseNextFrame, parseNextFrame, if_neg hlen, if_neg (by rw [List.length_append]; omega), hmagic]
  split_ifs at h ⊢ with hlocal hdesc hcd hzstd hskip
  · exact parseLocalHeaderFrame_append rest h
  · rfl
  · rfl
  · exact parseZstdFrame_append hz rest h
  · exact parseSkippableFrame_append rest h
  · rfl

theorem parseNextFrame_success_append {zstd : ZstdLib} (hz : zstd.Stable) {bs : List UInt8}
    {info : FrameInfo} (rest : List UInt8) (h : parseNextFrame zstd bs = .success info) :
    parseNextFrame zstd (bs ++ rest) = .success info := by
  rw [parseNextFrame_append hz rest (by simp [h]), h]

end Burst
