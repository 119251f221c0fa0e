import Burst.ItemFrames

namespace Burst

open LittleEndian

/-- What libzstd promises about the length of a frame: a size that it reports is that of a whole frame
at the front, and it asks for more only while more could make a difference. -/
structure ZstdLib.FindsFrames (zstd : ZstdLib) (IsFrame : List UInt8 → Prop) : Prop where
  frame : ∀ {bs n}, read bs 0 4 = zstdMagicNumber → zstd.findFrameCompressedSize bs = .size n →
    n ≤ bs.length ∧ IsFrame (bs.take n)
  nonempty : ∀ {frame}, IsFrame frame → frame ≠ []
  incomplete : ∀ {bs}, read bs 0 4 = zstdMagicNumber →
    zstd.findFrameCompressedSize bs = .srcSizeWrong →
    ∃ rest, zstd.findFrameCompressedSize (bs ++ rest) ≠ .srcSizeWrong

/-- What the stream processor relies on when it parses a buffer again with more data in it. -/
structure ParsesReliably (zstd : ZstdLib) (IsFrame : List UInt8 → Prop) (bs : List UInt8) :
    Prop where
  stable : parseNextFrame zstd bs ≠ .needMoreData →
    ∀ rest, parseNextFrame zstd (bs ++ rest) = parseNextFrame zstd bs
  waits : parseNextFrame zstd bs = .needMoreData →
    ∃ rest, parseNextFrame zstd (bs ++ rest) ≠ .needMoreData
  zstdFrame : ∀ info, parseNextFrame zstd bs = .success info → info.type = .zstdCompressed →
    0 < info.frameSize ∧ info.frameSize ≤ bs.length ∧ IsFrame (bs.take info.frameSize)
  skippableFrame : ∀ info, parseNextFrame zstd bs = .success info →
    info.type = .burstPadding ∨ info.type = .burstStartOfPart →
    0 < info.frameSize ∧ info.frameSize ≤ bs.length ∧ info.frameSize = 8 + read bs 4 4

/-- A skippable frame with a payload for which the 32-bit sum of the sizes wraps. -/
def WrapsSize (bs : List UInt8) : Prop :=
  read bs 0 4 = burstSkippableMagic ∧ 8 ≤ bs.length ∧ 2 ^ 32 - 8 ≤ read bs 4 4

/-- No frame type has a signature with a zero in its highest byte. -/
theorem parseNextFrame_short (zstd : ZstdLib) {bs : List UInt8} (hlt : bs.length < 4) :
    parseNextFrame zstd (bs ++ List.replicate 4 0) = .invalidFrame := by
  have hsmall : read (bs ++ List.replicate 4 0) 0 4 < 2 ^ 24 := by
    rw [LittleEndian.read, List.drop_zero, List.take_append, List.take_of_length_le (by omega),
      List.take_replicate, decode_append_zeros]
    exact (decode_lt bs).trans_le (Nat.pow_le_pow_right (by norm_num) (show bs.length ≤ 3 by omega))
  rw [parseNextFrame, if_neg (by simp), if_neg, if_neg, if_neg, if_neg, if_neg]
  all_goals
    intro h
    rw [h] at hsmall
    revert hsmall
    decide

theorem parseLocalHeaderFrame_waits (bs : List UInt8) :
    parseLocalHeaderFrame (bs ++ List.replicate 30 0) ≠ .needMoreData := by
  rw [parseLocalHeaderFrame, if_neg (by simp)]
  exact FrameResult.noConfusion

theorem parseSkippableFrame_waits (bs : List UInt8) :
    parseSkippableFrame (bs ++ List.replicate (2 ^ 32) 0) ≠ .needMoreData := by
  have hlen : (bs ++ List.replicate (2 ^ 32) 0).length = bs.length + 2 ^ 32 := by
    rw [List.length_append, List.length_replicate]
  have hsize : skippableFrameSize (bs ++ List.replicate (2 ^ 32) 0) < 2 ^ 32 :=
    Nat.mod_lt _ (by norm_num)
  rw [parseSkippableFrame, if_neg (by omega), if_neg (by omega)]
  split_ifs
  · exact FrameResult.noConfusion
  · exact FrameResult.noConfusion

theorem parseZstdFrame_needMoreData {zstd : ZstdLib} {bs : List UInt8} :
    parseZstdFrame zstd bs = .needMoreData ↔
      zstd.findFrameCompressedSize bs = .srcSizeWrong := by
  rw [parseZstdFrame]
  cases zstd.findFrameCompressedSize bs with
  | srcSizeWrong => simp
  | error => simp
  | size n => cases zstd.getFrameContentSize bs <;> simp

section

variable {zstd : ZstdLib} {IsFrame : List UInt8 → Prop} {bs : List UInt8}

/-- The parser asks for more only where more can change the answer. -/
theorem parseNextFrame_waits (hfinds : zstd.FindsFrames IsFrame)
    (h : parseNextFrame zstd bs = .needMoreData) :
    ∃ rest, parseNextFrame zstd (bs ++ rest) ≠ .needMoreData := by
  by_cases hlt : bs.length < 4
  · exact ⟨_, by rw [parseNextFrame_short zstd hlt]; exact FrameResult.noConfusion⟩
  have hmagic : ∀ rest, read (bs ++ rest) 0 4 = read bs 0 4 :=
    fun rest ↦ read_append_left (by omega) rest
  have hlong : ∀ rest : List UInt8, ¬ (bs ++ rest).length < 4 := by
    intro rest
    rw [List.length_append]
    omega
  rw [parseNextFrame, if_neg hlt] at h
  simp only [parseNextFrame, if_neg (hlong _), hmagic]
  split_ifs at h with hlocal hdesc hcd hzstd hskip
  · refine ⟨List.replicate 30 0, ?_⟩
    rw [if_pos hlocal]
    exact parseLocalHeaderFrame_waits bs
  · obtain ⟨rest, hrest⟩ := hfinds.incomplete hzstd (parseZstdFrame_needMoreData.mp h)
    refine ⟨rest, ?_⟩
    rw [if_neg hlocal, if_neg hdesc, if_neg hcd, if_pos hzstd]
    exact fun hmore ↦ hrest (parseZstdFrame_needMoreData.mp hmore)
  · refine ⟨List.replicate (2 ^ 32) 0, ?_⟩
    rw [if_neg hlocal, if_neg hdesc, if_neg hcd, if_neg hzstd, if_pos hskip]
    exact parseSkippableFrame_waits bs

theorem parseZstdFrame_type {info : FrameInfo} (h : parseZstdFrame zstd bs = .success info) :
    info.type = .zstdCompressed ∧ zstd.findFrameCompressedSize bs = .size info.frameSize := by
  rw [parseZstdFrame] at h
  cases hsize : zstd.findFrameCompressedSize bs with
  | srcSizeWrong => simp [hsize] at h
  | error => simp [hsize] at h
  | size n =>
    rw [hsize] at h
    cases hcontent : zstd.getFrameContentSize bs with
    | unknown => simp [hcontent] at h
    | error => simp [hcontent] at h
    | size m =>
      rw [hcontent] at h
      obtain rfl := FrameResult.success.inj h
      exact ⟨rfl, rfl⟩

theorem parseSkippableFrame_type {info : FrameInfo} (h : parseSkippableFrame bs = .success info) :
    (info.type = .burstPadding ∨ info.type = .burstStartOfPart) ∧ 8 ≤ bs.length ∧
      info.frameSize = skippableFrameSize bs ∧ skippableFrameSize bs ≤ bs.length := by
  rw [parseSkippableFrame] at h
  split_ifs at h with hlen hframe hstart
  · obtain rfl := FrameResult.success.inj h
    exact ⟨.inr rfl, by omega, rfl, by omega⟩
  · obtain rfl := FrameResult.success.inj h
    exact ⟨.inl rfl, by omega, rfl, by omega⟩

/-- The two kinds of frames with a length: which branch has reported them. -/
theorem parseNextFrame_zstdSize {info : FrameInfo} (h : parseNextFrame zstd bs = .success info)
    (htype : info.type = .zstdCompressed) :
    read bs 0 4 = zstdMagicNumber ∧ zstd.findFrameCompressedSize bs = .size info.frameSize := by
  rw [parseNextFrame] at h
  split_ifs at h with hlen hlocal hdesc hcd hzstd hskip
  · rw [parseLocalHeaderFrame] at h
    split_ifs at h
    obtain rfl := FrameResult.success.inj h
    cases htype
  · obtain rfl := FrameResult.success.inj h
    cases htype
  · obtain rfl := FrameResult.success.inj h
    cases htype
  · exact ⟨hzstd, (parseZstdFrame_type h).2⟩
  · obtain ⟨hpadding | hstart, -⟩ := parseSkippableFrame_type h
    · cases htype.symm.trans hpadding
    · cases htype.symm.trans hstart

theorem parseNextFrame_skippableSize {info : FrameInfo} (h : parseNextFrame zstd bs = .success info)
    (htype : info.type = .burstPadding ∨ info.type = .burstStartOfPart) :
    read bs 0 4 = burstSkippableMagic ∧ 8 ≤ bs.length ∧
      info.frameSize = skippableFrameSize bs ∧ skippableFrameSize bs ≤ bs.length := by
  rw [parseNextFrame] at h
  split_ifs at h with hlen hlocal hdesc hcd hzstd hskip
  · rw [parseLocalHeaderFrame] at h
    split_ifs at h
    obtain rfl := FrameResult.success.inj h
    cases htype with
    | inl htype => cases htype
    | inr htype => cases htype
  · obtain rfl := FrameResult.success.inj h
    cases htype with
    | inl htype => cases htype
    | inr htype => cases htype
  · obtain rfl := FrameResult.success.inj h
    cases htype with
    | inl htype => cases htype
    | inr htype => cases htype
  · have hzstdType := (parseZstdFrame_type h).1
    cases htype with
    | inl htype => cases htype.symm.trans hzstdType
    | inr htype => cases htype.symm.trans hzstdType
  · exact ⟨hskip, (parseSkippableFrame_type h).2⟩

theorem skippableFrameSize_exact (h : read bs 4 4 < 2 ^ 32 - 8) :
    skippableFrameSize bs = 8 + read bs 4 4 := by
  rw [skippableFrameSize]
  exact Nat.mod_eq_of_lt (by omega)

/-- A size that wraps is below 8: the frame counts as complete with its header alone. -/
theorem parseNextFrame_wraps (zstd : ZstdLib) (h : WrapsSize bs) :
    ∃ info, parseNextFrame zstd bs = .success info ∧ info.type = .burstPadding ∧
      info.frameSize = read bs 4 4 - (2 ^ 32 - 8) := by
  obtain ⟨hmagic, hlen, hpayload⟩ := h
  have hlt : read bs 4 4 < 2 ^ 32 := read_lt bs 4 4
  have hsize : skippableFrameSize bs = read bs 4 4 - (2 ^ 32 - 8) := by
    rw [skippableFrameSize]
    omega
  refine ⟨⟨.burstPadding, skippableFrameSize bs, 0, 0⟩, ?_, rfl, hsize⟩
  rw [parseNextFrame, if_neg (by omega), hmagic, if_neg (by decide), if_neg (by decide),
    if_neg (by decide), if_neg (by decide), if_pos rfl, parseSkippableFrame, if_neg (by omega),
    if_neg (by omega), if_neg (by omega)]

/-- The parser can be relied on exactly where the size of a skippable frame does not wrap. -/
theorem parseNextFrame_reliable_iff (hstable : zstd.Stable) (hfinds : zstd.FindsFrames IsFrame) :
    ParsesReliably zstd IsFrame bs ↔ ¬ WrapsSize bs := by
  constructor
  · intro hreliable hwraps
    obtain ⟨info, hparse, htype, hsize⟩ := parseNextFrame_wraps zstd hwraps
    have hexact := (hreliable.skippableFrame info hparse (.inl htype)).2.2
    have hlt : read bs 4 4 < 2 ^ 32 := read_lt bs 4 4
    omega
  · intro hwraps
    refine ⟨fun h rest ↦ parseNextFrame_append hstable rest h, parseNextFrame_waits hfinds, ?_, ?_⟩
    · intro info hparse htype
      obtain ⟨hmagic, hsize⟩ := parseNextFrame_zstdSize hparse htype
      obtain ⟨hle, hframe⟩ := hfinds.frame hmagic hsize
      refine ⟨?_, hle, hframe⟩
      apply Nat.pos_of_ne_zero
      intro hzero
      rw [hzero, List.take_zero] at hframe
      exact hfinds.nonempty hframe rfl
    · intro info hparse htype
      obtain ⟨hmagic, hlen, hsize, hle⟩ := parseNextFrame_skippableSize hparse htype
      have hsmall : read bs 4 4 < 2 ^ 32 - 8 := by
        by_contra hge
        exact hwraps ⟨hmagic, hlen, by omega⟩
      rw [skippableFrameSize_exact hsmall] at hsize hle
      omega

end

/-- A whole frame with one raw block. -/
def IsRawFrame (frame : List UInt8) : Prop :=
  ZstdFrame.contentStart frame + ZstdFrame.contentSize frame = frame.length ∧
    ZstdFrame.HasRawBlock frame

theorem contentSize_lt (bs : List UInt8) : ZstdFrame.contentSize bs < 2 ^ 32 + 256 := by
  have hone : read bs 5 1 < 256 ^ 1 := read_lt bs 5 1
  have htwo : read bs 5 2 < 256 ^ 2 := read_lt bs 5 2
  have hfour : read bs 5 4 < 256 ^ 4 := read_lt bs 5 4
  rw [ZstdFrame.contentSize]
  split_ifs <;> omega

theorem rawZstd_findsFrames : rawZstd.FindsFrames IsRawFrame := by
  constructor
  · intro bs n _ hsize
    simp only [rawZstd] at hsize
    split_ifs at hsize with hshort hblock hall
    push Not at hshort hall
    obtain rfl := FrameCompressedSize.size.inj hsize
    obtain ⟨frame, rest, rfl, hlen⟩ : ∃ frame rest, bs = frame ++ rest ∧
        frame.length = ZstdFrame.contentStart bs + ZstdFrame.contentSize bs :=
      ⟨_, _, (List.take_append_drop _ bs).symm, List.length_take_of_le hall⟩
    have hstart : ZstdFrame.contentStart (frame ++ rest) = ZstdFrame.contentStart frame := by
      have hmin : 8 ≤ ZstdFrame.contentStart (frame ++ rest) := Nat.le_add_right _ _
      rw [ZstdFrame.contentStart, ZstdFrame.contentStart, read_append_left (by omega)]
    have hframe : 5 ≤ frame.length ∧ ZstdFrame.contentStart frame ≤ frame.length := by
      have hmin : 8 ≤ ZstdFrame.contentStart (frame ++ rest) := Nat.le_add_right _ _
      omega
    obtain ⟨-, hcontent, hraw⟩ := ZstdFrame.header_append hframe.1 hframe.2 rest
    refine ⟨hall, ?_⟩
    rw [← hlen, List.take_left]
    exact ⟨by omega, hraw.mp hblock⟩
  · rintro frame ⟨hlen, -⟩ rfl
    have hmin : 8 ≤ ZstdFrame.contentStart [] := Nat.le_add_right _ _
    rw [List.length_nil] at hlen
    omega
  · intro bs _ _
    refine ⟨List.replicate (2 ^ 33) 0, ?_⟩
    generalize hall : bs ++ List.replicate (2 ^ 33) 0 = all
    have hlen : 2 ^ 33 ≤ all.length := by
      rw [← hall, List.length_append, List.length_replicate]
      exact Nat.le_add_left _ _
    have hstart := ZstdFrame.contentStart_le all
    have hcontent := contentSize_lt all
    simp only [rawZstd]
    rw [if_neg (by omega)]
    split_ifs with hblock hlong
    · omega
    · exact FrameCompressedSize.noConfusion
    · exact FrameCompressedSize.noConfusion

theorem parseNextFrame_reliable_sample :
    ParsesReliably rawZstd IsRawFrame (paddingFrameBytes 3) ∧
      ParsesReliably rawZstd IsRawFrame (ZstdFrame.rawFrame [98, 99, 100]) := by
  constructor
  · refine (parseNextFrame_reliable_iff rawZstd_stable rawZstd_findsFrames).mpr ?_
    rintro ⟨-, -, hpayload⟩
    revert hpayload
    decide +kernel
  · refine (parseNextFrame_reliable_iff rawZstd_stable rawZstd_findsFrames).mpr ?_
    rintro ⟨hmagic, -, -⟩
    revert hmagic
    decide +kernel

/-- A skippable frame of 2³² bytes, of which the header has arrived: it is taken for one of none. -/
theorem longestFrame_unreliable :
    parseNextFrame rawZstd [0x5B, 0x2A, 0x4D, 0x18, 0xF8, 0xFF, 0xFF, 0xFF] =
        .success ⟨.burstPadding, 0, 0, 0⟩ ∧
      ¬ ParsesReliably rawZstd IsRawFrame [0x5B, 0x2A, 0x4D, 0x18, 0xF8, 0xFF, 0xFF, 0xFF] := by
  have hparse : parseNextFrame rawZstd [0x5B, 0x2A, 0x4D, 0x18, 0xF8, 0xFF, 0xFF, 0xFF] =
      .success ⟨.burstPadding, 0, 0, 0⟩ := by decide +kernel
  refine ⟨hparse, fun hreliable ↦ ?_⟩
  exact (hreliable.skippableFrame _ hparse (.inl rfl)).1.ne rfl

end Burst
