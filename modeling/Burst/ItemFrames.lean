import Burst.BodyGrammar

namespace Burst

open Tiling LittleEndian

/-- What libzstd promises about the frames of the writer: a frame tells where it ends and how much
it holds, and decompressing it gives back the chunk. -/
structure FramesDecode (env : WriterEnv) (level : ℤ) (zstd : ZstdLib) : Prop where
  magic : ∀ {chunk frame}, env.compressChunk level chunk = some frame →
    encode 4 zstdMagicNumber <+: frame
  frameSize : ∀ {chunk frame} rest, env.compressChunk level chunk = some frame →
    chunk.length ≤ zstdChunkSize →
    zstd.findFrameCompressedSize (frame ++ rest) = .size frame.length
  contentSize : ∀ {chunk frame} rest, env.compressChunk level chunk = some frame →
    chunk.length ≤ zstdChunkSize →
    zstd.getFrameContentSize (frame ++ rest) = .size chunk.length
  decompress : ∀ {chunk frame}, env.compressChunk level chunk = some frame →
    chunk.length ≤ zstdChunkSize → zstd.decompressDCtx maxExtentSize frame = some chunk

theorem FramesDecode.length_ge {env : WriterEnv} {level : ℤ} {zstd : ZstdLib}
    (hz : FramesDecode env level zstd) {chunk frame : List UInt8}
    (h : env.compressChunk level chunk = some frame) : 4 ≤ frame.length := by
  obtain ⟨rest, rfl⟩ := hz.magic h
  simp

theorem FramesDecode.read_magic {env : WriterEnv} {level : ℤ} {zstd : ZstdLib}
    (hz : FramesDecode env level zstd) {chunk frame : List UInt8}
    (h : env.compressChunk level chunk = some frame) (rest : List UInt8) :
    read (frame ++ rest) 0 4 = zstdMagicNumber := by
  obtain ⟨tail, rfl⟩ := hz.magic h
  rw [List.append_assoc, read_zero_append]
  rfl

/-- A decoder of frames that consist of one raw block. -/
def rawZstd : ZstdLib where
  findFrameCompressedSize bs :=
    if bs.length < 5 ∨ bs.length < ZstdFrame.contentStart bs then .srcSizeWrong
    else if ¬ ZstdFrame.HasRawBlock bs then .error
    else if bs.length < ZstdFrame.contentStart bs + ZstdFrame.contentSize bs then .srcSizeWrong
    else .size (ZstdFrame.contentStart bs + ZstdFrame.contentSize bs)
  getFrameContentSize bs := .size (ZstdFrame.contentSize bs)
  decompressDCtx capacity frame :=
    if ZstdFrame.HasRawBlock frame ∧ ZstdFrame.contentSize frame ≤ capacity then
      some (frame.drop (ZstdFrame.contentStart frame))
    else none

theorem rawZstd_framesDecode (level : ℤ) : FramesDecode rawEnv level rawZstd := by
  constructor
  · rintro chunk frame ⟨⟩
    simp only [ZstdFrame.rawFrame, ZstdFrame.header, List.append_assoc]
    exact List.prefix_append _ _
  · rintro chunk frame rest ⟨⟩ hlen
    rw [zstdChunkSize] at hlen
    obtain ⟨hstart, hsize, hblock⟩ := ZstdFrame.rawFrame_reads (show chunk.length < 2 ^ 21 by omega) rest
    have hmin : 5 ≤ (ZstdFrame.rawFrame chunk).length := by
      rw [ZstdFrame.rawFrame_length]
      omega
    have hall : (ZstdFrame.rawFrame chunk ++ rest).length =
        (ZstdFrame.rawFrame chunk).length + rest.length := List.length_append
    simp only [rawZstd]
    rw [if_neg (by omega), if_neg (not_not.mpr hblock), hsize, hstart, if_neg (by omega)]
  · rintro chunk frame rest ⟨⟩ hlen
    rw [zstdChunkSize] at hlen
    obtain ⟨-, hsize, -⟩ := ZstdFrame.rawFrame_reads (show chunk.length < 2 ^ 21 by omega) rest
    simp only [rawZstd, hsize]
  · rintro chunk frame ⟨⟩ hlen
    rw [zstdChunkSize] at hlen
    obtain ⟨hstart, hsize, hblock⟩ := ZstdFrame.rawFrame_reads (show chunk.length < 2 ^ 21 by omega) []
    rw [List.append_nil] at hstart hsize hblock
    have hdrop : (ZstdFrame.rawFrame chunk).drop
        (ZstdFrame.contentStart (ZstdFrame.rawFrame chunk)) = chunk := by
      rw [ZstdFrame.rawFrame, List.length_append] at hstart
      rw [ZstdFrame.rawFrame]
      exact List.drop_left' (by omega)
    simp only [rawZstd]
    rw [if_pos ⟨hblock, by rw [hsize, maxExtentSize]; omega⟩, hdrop]

theorem rawZstd_stable : rawZstd.Stable := by
  constructor
  · intro bs n rest h
    simp only [rawZstd] at h ⊢
    split_ifs at h with hshort hblock hall
    push Not at hshort
    obtain ⟨hstart, hsize, hraw⟩ := ZstdFrame.header_append hshort.1 hshort.2 rest
    rw [hstart, hsize, if_neg (by rw [List.length_append]; omega),
      if_neg (not_not.mpr (hraw.mpr hblock)),
      if_neg (by rw [List.length_append]; omega)]
    exact h
  · intro bs rest h
    simp only [rawZstd] at h ⊢
    split_ifs at h with hshort hblock hall
    push Not at hshort
    obtain ⟨hstart, -, hraw⟩ := ZstdFrame.header_append hshort.1 hshort.2 rest
    rw [hstart, if_neg (by rw [List.length_append]; omega),
      if_pos fun hraw' ↦ hblock (hraw.mp hraw')]
  · intro bs n rest h
    simp only [rawZstd] at h ⊢
    split_ifs at h with hshort hblock hall
    push Not at hshort
    rw [(ZstdFrame.header_append hshort.1 hshort.2 rest).2.1]

theorem parseNextFrame_localHeader {h : LocalFileHeader} (hw : h.WellFormed) (zstd : ZstdLib)
    (rest : List UInt8) :
    parseNextFrame zstd (h.bytes ++ rest) = .success ⟨.zipLocalHeader, h.len, 0, 0⟩ := by
  obtain ⟨hsig, -, -⟩ := hw.reads rest
  have hlen : (h.bytes ++ rest).length = h.len + rest.length := by
    rw [List.length_append, LocalFileHeader.bytes_length]
  have hmin : 30 ≤ h.len := by
    rw [LocalFileHeader.len]
    omega
  rw [parseNextFrame, if_neg (by omega), if_pos hsig, parseLocalHeaderFrame, if_neg (by omega),
    hw.localHeaderSize rest]

theorem parseNextFrame_frame {env : WriterEnv} {level : ℤ} {zstd : ZstdLib}
    (hz : FramesDecode env level zstd) {chunk frame : List UInt8}
    (h : env.compressChunk level chunk = some frame) (hle : chunk.length ≤ zstdChunkSize)
    (rest : List UInt8) : parseNextFrame zstd (frame ++ rest) =
      .success ⟨.zstdCompressed, frame.length, chunk.length, 0⟩ := by
  have hmagic := hz.read_magic h rest
  have hlen := hz.length_ge h
  rw [parseNextFrame, if_neg (by rw [List.length_append]; omega), hmagic, if_neg (by decide),
    if_neg (by decide), if_neg (by decide), if_pos rfl, parseZstdFrame, hz.frameSize rest h hle]
  simp only [hz.contentSize rest h hle]

theorem parseNextFrame_descriptor (zstd : ZstdLib) (crc32 compressedSize uncompressedSize : ℕ)
    (useZip64 : Bool) (rest : List UInt8) :
    parseNextFrame zstd (dataDescriptorBytes crc32 compressedSize uncompressedSize useZip64 ++ rest) =
      .success ⟨.zipDataDescriptor, 16, 0, 0⟩ := by
  have hlen := dataDescriptorBytes_length crc32 compressedSize uncompressedSize useZip64
  have hsig : read (dataDescriptorBytes crc32 compressedSize uncompressedSize useZip64 ++ rest) 0 4 =
      zipDataDescriptorSig := by
    cases useZip64 <;> simp only [dataDescriptorBytes, Bool.false_eq_true, if_false, if_true,
      List.append_assoc] <;> rw [read_zero_append] <;> rfl
  rw [parseNextFrame, if_neg (by rw [List.length_append, hlen]; split <;> omega), hsig,
    if_neg (by decide), if_pos rfl]

theorem parseNextFrame_skippable {zstd : ZstdLib} {bs : List UInt8} (hlen : 8 ≤ bs.length)
    (hmagic : read bs 0 4 = burstSkippableMagic) :
    parseNextFrame zstd bs = parseSkippableFrame bs := by
  rw [parseNextFrame, if_neg (by omega), hmagic, if_neg (by decide), if_neg (by decide),
    if_neg (by decide), if_neg (by decide), if_pos rfl]

theorem parseNextFrame_padding (zstd : ZstdLib) {n : ℕ} (hn : 8 + n < 2 ^ 32) (rest : List UInt8) :
    parseNextFrame zstd (paddingFrameBytes n ++ rest) = .success ⟨.burstPadding, 8 + n, 0, 0⟩ := by
  have hlen : (paddingFrameBytes n ++ rest).length = 8 + n + rest.length := by
    rw [List.length_append, paddingFrameBytes_length]
  have hmagic : read (paddingFrameBytes n ++ rest) 0 4 = burstSkippableMagic := by
    rw [paddingFrameBytes, List.append_assoc, List.append_assoc, read_zero_append]
    rfl
  have hpayload : read (paddingFrameBytes n ++ rest) 4 4 = n := by
    simp (disch := norm_num) only [paddingFrameBytes, List.append_assoc, read_encode_append,
      Nat.reduceSub, read_zero_append]
    omega
  have htype : 0 < n → read (paddingFrameBytes n ++ rest) 8 1 = 0 := by
    intro hpos
    obtain ⟨n, rfl⟩ : ∃ k, n = k + 1 := ⟨n - 1, by omega⟩
    simp (disch := norm_num) only [paddingFrameBytes, List.append_assoc, read_encode_append,
      Nat.reduceSub, List.replicate_succ]
    rfl
  rw [parseNextFrame_skippable (by omega) hmagic, parseSkippableFrame, if_neg (by omega),
    skippableFrameSize, hpayload, Nat.mod_eq_of_lt hn, if_neg (by omega), if_neg]
  rintro ⟨hpos, hone, -⟩
  rw [htype hpos] at hone
  cases hone

theorem startOfPart_reads (offset : ℕ) (rest : List UInt8) :
    read (startOfPartBytes offset ++ rest) 0 4 = burstSkippableMagic ∧
      read (startOfPartBytes offset ++ rest) 4 4 = 16 ∧
      read (startOfPartBytes offset ++ rest) 8 1 = burstTypeStartOfPart ∧
      read (startOfPartBytes offset ++ rest) 9 8 = offset % 2 ^ 64 := by
  have hone : [(0x01 : UInt8)] = encode 1 1 := rfl
  simp (disch := norm_num) only [startOfPartBytes, hone, List.append_assoc, read_encode_append,
    Nat.reduceSub, read_zero_append]
  exact ⟨rfl, rfl, rfl, rfl⟩

theorem parseNextFrame_startOfPart (zstd : ZstdLib) (offset : ℕ) (rest : List UInt8) :
    parseNextFrame zstd (startOfPartBytes offset ++ rest) =
      .success ⟨.burstStartOfPart, 24, 0, offset % 2 ^ 64⟩ := by
  obtain ⟨hmagic, hpayload, htype, hoffset⟩ := startOfPart_reads offset rest
  have hlen : (startOfPartBytes offset ++ rest).length = 24 + rest.length := by
    rw [List.length_append, startOfPartBytes_length]
  rw [parseNextFrame_skippable (by omega) hmagic, parseSkippableFrame, if_neg (by omega),
    skippableFrameSize, hpayload, if_neg (by omega), if_pos ⟨by norm_num, htype, rfl⟩, hoffset]
  rfl

end Burst
