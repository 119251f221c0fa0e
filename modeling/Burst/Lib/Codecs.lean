import Burst.Lib.LittleEndian

open LittleEndian

namespace Crc32

def byteStep : ℕ → ℕ → ℕ
  | 0, c => c
  | n + 1, c => byteStep n (if c % 2 = 1 then (c / 2) ^^^ 0xEDB88320 else c / 2)

/-- The CRC-32 of zlib, continued from the checksum of what came before. -/
def crc32 (crc : ℕ) (data : List UInt8) : ℕ :=
  data.foldl (fun c b ↦ byteStep 8 (c ^^^ b.toNat)) (crc ^^^ 0xFFFFFFFF) ^^^ 0xFFFFFFFF

theorem byteStep_lt {n c : ℕ} (h : c < 2 ^ 32) : byteStep n c < 2 ^ 32 := by
  induction n generalizing c with
  | zero => exact h
  | succ n ih =>
    refine ih ?_
    split
    · exact Nat.xor_lt_two_pow (by omega) (by norm_num)
    · omega

theorem foldl_byteStep_lt {c : ℕ} (h : c < 2 ^ 32) (data : List UInt8) :
    data.foldl (fun c b ↦ byteStep 8 (c ^^^ b.toNat)) c < 2 ^ 32 := by
  induction data generalizing c with
  | nil => exact h
  | cons b data ih =>
    have hb : b.toNat < 2 ^ 32 := b.toNat_lt.trans (by norm_num)
    exact ih (byteStep_lt (Nat.xor_lt_two_pow h hb))

theorem crc32_lt {crc : ℕ} (h : crc < 2 ^ 32) (data : List UInt8) : crc32 crc data < 2 ^ 32 :=
  Nat.xor_lt_two_pow (foldl_byteStep_lt (Nat.xor_lt_two_pow h (by norm_num)) data) (by norm_num)

theorem foldl_crc32_lt {crc : ℕ} (h : crc < 2 ^ 32) (chunks : List (List UInt8)) :
    chunks.foldl crc32 crc < 2 ^ 32 := by
  induction chunks generalizing crc with
  | nil => exact h
  | cons chunk chunks ih => exact ih (crc32_lt h chunk)

end Crc32

namespace ZstdFrame

def magicNumber : ℕ := 0xFD2FB528

/-- The frame content size field and its two-bit code in a single-segment frame. -/
def contentSizeCode (n : ℕ) : ℕ := if n < 256 then 0 else if n < 65792 then 1 else 2

def contentSizeField (n : ℕ) : List UInt8 :=
  if n < 256 then encode 1 n else if n < 65792 then encode 2 (n - 256) else encode 4 n

def header (n : ℕ) : List UInt8 :=
  encode 4 magicNumber ++ encode 1 (contentSizeCode n * 64 + 32) ++ contentSizeField n

/-- The frame of a chunk of at most 128 KiB that does not compress: one last raw block. -/
def rawFrame (chunk : List UInt8) : List UInt8 :=
  header chunk.length ++ encode 3 (chunk.length * 8 + 1) ++ chunk

theorem contentSizeField_length (n : ℕ) :
    (contentSizeField n).length = if n < 256 then 1 else if n < 65792 then 2 else 4 := by
  unfold contentSizeField
  split_ifs <;> exact encode_length _ _

theorem rawFrame_length (chunk : List UInt8) :
    (rawFrame chunk).length =
      8 + (if chunk.length < 256 then 1 else if chunk.length < 65792 then 2 else 4) +
        chunk.length := by
  simp only [rawFrame, header, List.length_append, encode_length, contentSizeField_length]
  ring

def fieldLength (code : ℕ) : ℕ := if code = 0 then 1 else if code = 1 then 2 else 4

/-- The content size in the header of a single-segment frame. -/
def contentSize (bs : List UInt8) : ℕ :=
  if read bs 4 1 / 64 = 0 then read bs 5 1
  else if read bs 4 1 / 64 = 1 then read bs 5 2 + 256
  else read bs 5 4

def contentStart (bs : List UInt8) : ℕ := 8 + fieldLength (read bs 4 1 / 64)

/-- The block header of a last raw block that holds all of the content. -/
def HasRawBlock (bs : List UInt8) : Prop :=
  read bs 4 1 % 64 = 32 ∧ read bs (contentStart bs - 3) 3 = contentSize bs * 8 + 1

instance (bs : List UInt8) : Decidable (HasRawBlock bs) := by
  unfold HasRawBlock
  infer_instance

theorem contentStart_le (bs : List UInt8) : contentStart bs ≤ 12 := by
  unfold contentStart fieldLength
  split_ifs <;> omega

theorem fieldLength_contentSizeCode (n : ℕ) :
    fieldLength (contentSizeCode n) = (contentSizeField n).length := by
  rw [contentSizeField_length, fieldLength, contentSizeCode]
  by_cases hone : n < 256
  · simp only [if_pos hone, if_true]
  · by_cases htwo : n < 65792
    · simp only [if_neg hone, if_pos htwo, one_ne_zero, if_false, if_true]
    · simp only [if_neg hone, if_neg htwo, OfNat.ofNat_ne_zero, OfNat.ofNat_ne_one, if_false]

theorem rawFrame_reads {chunk : List UInt8} (h : chunk.length < 2 ^ 21) (rest : List UInt8) :
    contentStart (rawFrame chunk ++ rest) + chunk.length = (rawFrame chunk).length ∧
      contentSize (rawFrame chunk ++ rest) = chunk.length ∧
      HasRawBlock (rawFrame chunk ++ rest) := by
  have hbyte : read (rawFrame chunk ++ rest) 4 1 = contentSizeCode chunk.length * 64 + 32 := by
    simp (disch := norm_num) only [rawFrame, header, List.append_assoc, read_append_right,
      encode_length, Nat.reduceSub, read_zero_append]
    unfold contentSizeCode
    split_ifs <;> rfl
  have hfield (w : ℕ) : read (rawFrame chunk ++ rest) 5 w =
      read (contentSizeField chunk.length ++ (encode 3 (chunk.length * 8 + 1) ++ (chunk ++ rest))) 0 w := by
    simp (disch := norm_num) only [rawFrame, header, List.append_assoc, read_append_right,
      encode_length, Nat.reduceSub]
  have hcode : read (rawFrame chunk ++ rest) 4 1 / 64 = contentSizeCode chunk.length := by
    rw [hbyte]
    omega
  have hstart : contentStart (rawFrame chunk ++ rest) = 8 + (contentSizeField chunk.length).length := by
    rw [contentStart, hcode, fieldLength_contentSizeCode]
  have hsize : contentSize (rawFrame chunk ++ rest) = chunk.length := by
    rw [contentSize, hcode, hfield, hfield, hfield, contentSizeCode, contentSizeField]
    by_cases hone : chunk.length < 256
    · simp only [if_pos hone, if_true, read_zero_append]
      omega
    · by_cases htwo : chunk.length < 65792
      · simp only [if_neg hone, if_pos htwo, one_ne_zero, if_false, if_true, read_zero_append]
        omega
      · simp only [if_neg hone, if_neg htwo, OfNat.ofNat_ne_zero, OfNat.ofNat_ne_one, if_false,
          read_zero_append]
        omega
  refine ⟨?_, hsize, ?_, ?_⟩
  · rw [hstart, contentSizeField_length, rawFrame_length]
  · rw [hbyte]
    omega
  · have hheader : (header chunk.length).length = 5 + (contentSizeField chunk.length).length := by
      simp only [header, List.length_append, encode_length]
    have hblock : read (rawFrame chunk ++ rest) (5 + (contentSizeField chunk.length).length) 3 =
        (chunk.length * 8 + 1) % 256 ^ 3 := by
      rw [rawFrame, List.append_assoc, List.append_assoc, ← hheader,
        read_append_right le_rfl, Nat.sub_self, read_zero_append]
    rw [hstart, hsize, show 8 + (contentSizeField chunk.length).length - 3 =
      5 + (contentSizeField chunk.length).length by omega, hblock]
    omega

/-- The header is read from its own bytes. -/
theorem header_append {bs : List UInt8} (hlen : 5 ≤ bs.length) (hstart : contentStart bs ≤ bs.length)
    (rest : List UInt8) : contentStart (bs ++ rest) = contentStart bs ∧
      contentSize (bs ++ rest) = contentSize bs ∧ (HasRawBlock (bs ++ rest) ↔ HasRawBlock bs) := by
  have hbyte : read (bs ++ rest) 4 1 = read bs 4 1 := read_append_left hlen rest
  have hsame : contentStart (bs ++ rest) = contentStart bs := by
    rw [contentStart, hbyte, contentStart]
  have hfield {w : ℕ} (hw : w ≤ fieldLength (read bs 4 1 / 64)) :
      read (bs ++ rest) 5 w = read bs 5 w := by
    refine read_append_left ?_ rest
    rw [contentStart] at hstart
    omega
  have hsize : contentSize (bs ++ rest) = contentSize bs := by
    rw [contentSize, contentSize, hbyte]
    by_cases hzero : read bs 4 1 / 64 = 0
    · rw [if_pos hzero, if_pos hzero, hfield (by rw [hzero]; decide)]
    · by_cases hone : read bs 4 1 / 64 = 1
      · rw [if_neg hzero, if_neg hzero, if_pos hone, if_pos hone, hfield (by rw [hone]; decide)]
      · rw [if_neg hzero, if_neg hzero, if_neg hone, if_neg hone]
        exact hfield (by rw [fieldLength, if_neg hzero, if_neg hone])
  have hblock : read (bs ++ rest) (contentStart bs - 3) 3 = read bs (contentStart bs - 3) 3 := by
    refine read_append_left ?_ rest
    rw [contentStart] at hstart ⊢
    omega
  exact ⟨hsame, hsize, by rw [HasRawBlock, HasRawBlock, hbyte, hsame, hblock, hsize]⟩

end ZstdFrame
