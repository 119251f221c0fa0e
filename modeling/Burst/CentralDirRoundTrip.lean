import Burst.CentralDirParser
import Burst.Finalize
import Mathlib.Data.List.TakeWhile
import Mathlib.Data.List.Forall2

namespace Burst

open LittleEndian

theorem read_encode_append {w n off : ℕ} (h : w ≤ off) (rest : List UInt8) (w' : ℕ) :
    read (encode w n ++ rest) off w' = read rest (off - w) w' := by
  rw [read_append_right (by simpa using h), encode_length]

/-- The values of an entry are those its fields hold in the code. -/
structure FileEntry.InRange (e : FileEntry) : Prop where
  localHeaderOffset : e.localHeaderOffset < 2 ^ 64
  compressedSize : e.compressedSize < 2 ^ 64
  uncompressedSize : e.uncompressedSize < 2 ^ 64
  crc32 : e.crc32 < 2 ^ 32
  compressionMethod : e.compressionMethod < 2 ^ 16
  uid : e.uid < 2 ^ 32
  gid : e.gid < 2 ^ 32

/-- A name the central directory can hold. -/
structure FileEntry.NameFits (e : FileEntry) : Prop where
  pos : 0 < e.filename.length
  lt : e.filename.length < 2 ^ 16
  noNul : ∀ b ∈ e.filename, b ≠ 0

/-- A name that comes back when its length is cut to 16 bits and it is read up to a NUL. -/
structure FileEntry.NameDecodes (e : FileEntry) : Prop where
  lt : e.filename.length < 2 ^ 16
  noNul : ∀ b ∈ e.filename, b ≠ 0

theorem FileEntry.NameFits.decodes {e : FileEntry} (h : e.NameFits) : e.NameDecodes :=
  ⟨h.lt, h.noNul⟩

theorem zip32Value_le (v : ℕ) : zip32Value v ≤ 0xFFFFFFFF := by
  unfold zip32Value
  split <;> omega

theorem zip32Value_eq_marker {v : ℕ} : zip32Value v = 0xFFFFFFFF ↔ 0xFFFFFFFF ≤ v := by
  unfold zip32Value
  split <;> omega

theorem zip32Value_of_le {v : ℕ} (h : v ≤ 0xFFFFFFFF) : zip32Value v = v := by
  rw [zip32Value, if_neg (by omega)]

theorem buildZip64ExtraField_of_need {e : FileEntry} (h : needZip64 e = true) :
    buildZip64ExtraField 49 e.compressedSize e.uncompressedSize e.localHeaderOffset =
      encode 2 zipExtraZip64Id ++ (encode 2 (zip64Value e.uncompressedSize ++
          zip64Value e.compressedSize ++ zip64Value e.localHeaderOffset).length ++
        (zip64Value e.uncompressedSize ++ zip64Value e.compressedSize ++
          zip64Value e.localHeaderOffset)) := by
  simp only [needZip64, Bool.or_eq_true, decide_eq_true_eq] at h
  rw [buildZip64ExtraField, if_neg (by omega)]
  simp only [if_neg (buildZip64ExtraField_fits _ _ _)]
  simp only [List.append_assoc]

theorem zip64Values_length_le (a b c : ℕ) :
    (zip64Value a ++ zip64Value b ++ zip64Value c).length ≤ 24 := by
  have ha := zip64Value_length_le a
  have hb := zip64Value_length_le b
  have hc := zip64Value_length_le c
  simp only [List.length_append]
  omega

theorem centralExtraField_eq (e : FileEntry) :
    centralExtraField e = buildUnixExtraField 64 e.uid e.gid ++
      if needZip64 e then
        buildZip64ExtraField 49 e.compressedSize e.uncompressedSize e.localHeaderOffset
      else [] := by
  simp only [centralExtraField, buildUnixExtraField_length]

theorem centralExtraField_length_lt (e : FileEntry) : (centralExtraField e).length < 2 ^ 16 := by
  rw [centralExtraField_eq, List.length_append, buildUnixExtraField_length]
  split
  · next h =>
    have := zip64Values_length_le e.uncompressedSize e.compressedSize e.localHeaderOffset
    rw [buildZip64ExtraField_of_need h]
    simp only [List.length_append, encode_length] at this ⊢
    omega
  · simp

theorem centralHeaderBytes_length_lt (e : FileEntry) :
    (centralHeaderBytes e).length < 46 + 2 ^ 16 + 2 ^ 16 := by
  have hextra := centralExtraField_length_lt e
  have hname : e.filename.length % 2 ^ 16 < 2 ^ 16 := Nat.mod_lt _ (by norm_num)
  simp only [centralHeaderBytes, List.length_append, ZipCentralHeader.fixedBytes_length,
    List.length_take]
  omega

theorem centralDirectoryBytes_length_le (files : List FileEntry) :
    (centralDirectoryBytes files).length ≤ files.length * (46 + 2 ^ 16 + 2 ^ 16) := by
  induction files with
  | nil => exact Nat.zero_le _
  | cons e files ih =>
    have hlt := centralHeaderBytes_length_lt e
    rw [centralDirectoryBytes] at ih ⊢
    rw [List.flatMap_cons, List.length_append, List.length_cons, Nat.add_one_mul]
    omega

theorem parseUnixExtraField_build (uid gid fuel : ℕ) (rest : List UInt8) (hfuel : 0 < fuel) :
    parseUnixExtraField fuel (buildUnixExtraField 64 uid gid ++ rest) =
      ⟨true, uid % 2 ^ 32, gid % 2 ^ 32⟩ := by
  obtain ⟨fuel, rfl⟩ : ∃ n, fuel = n + 1 := ⟨fuel - 1, by omega⟩
  have hbuild : buildUnixExtraField 64 uid gid ++ rest =
      encode 2 zipExtraUnix7875Id ++ (encode 2 11 ++ (encode 1 1 ++ (encode 1 4 ++
        (encode 4 uid ++ (encode 1 4 ++ (encode 4 gid ++ rest)))))) := by
    simp [buildUnixExtraField]
  have hid : read (buildUnixExtraField 64 uid gid ++ rest) 0 2 = zipExtraUnix7875Id := by
    rw [hbuild, read_zero_append]
    rfl
  have hsize : read (buildUnixExtraField 64 uid gid ++ rest) 2 2 = 11 := by
    rw [hbuild, read_encode_append (by norm_num), read_zero_append]
    rfl
  have hdata : (buildUnixExtraField 64 uid gid ++ rest).drop 4 = encode 1 1 ++ (encode 1 4 ++
        (encode 4 uid ++ (encode 1 4 ++ (encode 4 gid ++ rest)))) := by
    rw [hbuild, ← List.append_assoc, List.drop_left' (by simp)]
  have hlen : (buildUnixExtraField 64 uid gid ++ rest).length = 15 + rest.length := by
    rw [List.length_append, buildUnixExtraField_length]
  rw [parseUnixExtraField, if_neg (by omega), if_pos hid, hsize, if_neg (by omega), hdata,
    parseUnixExtraData]
  set data := encode 1 1 ++ (encode 1 4 ++ (encode 4 uid ++ (encode 1 4 ++
    (encode 4 gid ++ rest)))) with hd
  have hversion : read data 0 1 = 1 := by
    rw [hd, read_zero_append]
    rfl
  have huidSize : read data 1 1 = 4 := by
    rw [hd, read_encode_append (by norm_num), read_zero_append]
    rfl
  have huid : read data 2 4 = uid % 2 ^ 32 := by
    rw [hd, read_encode_append (by norm_num), read_encode_append (by norm_num), read_zero_append]
    norm_num
  have hgidSize : read data 6 1 = 4 := by
    rw [hd, read_encode_append (by norm_num), read_encode_append (by norm_num),
      read_encode_append (by norm_num), read_zero_append]
    rfl
  have hgid : read data 7 4 = gid % 2 ^ 32 := by
    rw [hd, read_encode_append (by norm_num), read_encode_append (by norm_num),
      read_encode_append (by norm_num), read_encode_append (by norm_num), read_zero_append]
    norm_num
  have hdlen : data.length = 11 + rest.length := by
    rw [hd]
    simp only [List.length_append, encode_length]
    omega
  simp only [hversion, huidSize, hgidSize, huid, hgid, hdlen, ne_eq, not_true_eq_false, if_false,
    Nat.min_self]
  rw [if_neg (by omega), if_neg (by omega)]

/-- The Unix record is skipped on the way to the ZIP64 record. -/
theorem parseZip64ExtraField_skip (header : ZipCentralHeader) (uid gid fuel : ℕ)
    (rest : List UInt8) (v : Zip64Values) :
    parseZip64ExtraField header (fuel + 1) (buildUnixExtraField 64 uid gid ++ rest) v =
      parseZip64ExtraField header fuel rest v := by
  have hbuild : buildUnixExtraField 64 uid gid ++ rest =
      encode 2 zipExtraUnix7875Id ++ (encode 2 11 ++ (encode 1 1 ++ (encode 1 4 ++
        (encode 4 uid ++ (encode 1 4 ++ (encode 4 gid ++ rest)))))) := by
    simp [buildUnixExtraField]
  have hid : read (buildUnixExtraField 64 uid gid ++ rest) 0 2 ≠ zipExtraZip64Id := by
    rw [hbuild, read_zero_append]
    decide
  have hsize : read (buildUnixExtraField 64 uid gid ++ rest) 2 2 = 11 := by
    rw [hbuild, read_encode_append (by norm_num), read_zero_append]
    rfl
  have hlen : (buildUnixExtraField 64 uid gid ++ rest).length = 15 + rest.length := by
    rw [List.length_append, buildUnixExtraField_length]
  rw [parseZip64ExtraField, if_neg (by omega), if_neg hid, hsize, if_neg (by omega),
    List.drop_left' (buildUnixExtraField_length uid gid)]

/-- What the decoder makes of the sizes and the offset of an entry. -/
def decodedValues (e : FileEntry) : Zip64Values :=
  let v : Zip64Values := ⟨zip32Value e.compressedSize, zip32Value e.uncompressedSize,
    zip32Value e.localHeaderOffset⟩
  if needZip64 e then
    parseZip64Data (centralHeader e) (zip64Value e.uncompressedSize ++ zip64Value e.compressedSize ++
      zip64Value e.localHeaderOffset) v
  else v

/-- The decoder looks at three fields of the header only. -/
theorem parseZip64ExtraField_build (e : FileEntry) (header : ZipCentralHeader) (fuel : ℕ)
    (hu : header.uncompressedSize = zip32Value e.uncompressedSize)
    (hc : header.compressedSize = zip32Value e.compressedSize)
    (ho : header.localHeaderOffset = zip32Value e.localHeaderOffset) (hfuel : 2 ≤ fuel) :
    parseZip64ExtraField header fuel (centralExtraField e)
      ⟨zip32Value e.compressedSize, zip32Value e.uncompressedSize,
        zip32Value e.localHeaderOffset⟩ = decodedValues e := by
  obtain ⟨fuel, rfl⟩ : ∃ n, fuel = n + 1 + 1 := ⟨fuel - 2, by omega⟩
  rw [centralExtraField_eq, parseZip64ExtraField_skip, decodedValues]
  cases hneed : needZip64 e with
  | false => simp [parseZip64ExtraField]
  | true =>
    simp only [if_true]
    rw [buildZip64ExtraField_of_need hneed]
    have hlen := zip64Values_length_le e.uncompressedSize e.compressedSize e.localHeaderOffset
    set data := zip64Value e.uncompressedSize ++ zip64Value e.compressedSize ++
      zip64Value e.localHeaderOffset
    have hid : read (encode 2 zipExtraZip64Id ++ (encode 2 data.length ++ data)) 0 2 =
        zipExtraZip64Id := by
      rw [read_zero_append]
      rfl
    have hsize : read (encode 2 zipExtraZip64Id ++ (encode 2 data.length ++ data)) 2 2 =
        data.length := by
      rw [read_encode_append (by norm_num), read_zero_append, Nat.mod_eq_of_lt (by omega)]
    have htotal : (encode 2 zipExtraZip64Id ++ (encode 2 data.length ++ data)).length =
        4 + data.length := by
      simp only [List.length_append, encode_length]
      omega
    have hdrop : (encode 2 zipExtraZip64Id ++ (encode 2 data.length ++ data)).drop 4 = data := by
      rw [← List.append_assoc, List.drop_left' (by simp)]
    rw [parseZip64ExtraField, if_neg (by omega), if_pos hid, hsize, if_neg (by omega), hdrop,
      List.take_length]
    simp only [parseZip64Data, hu, hc, ho, centralHeader]

theorem zip64Value_of_le {v : ℕ} (h : v ≤ 0xFFFFFFFF) : zip64Value v = [] := by
  rw [zip64Value, if_neg (by omega)]

theorem zip64Value_of_lt {v : ℕ} (h : 0xFFFFFFFF < v) : zip64Value v = encode 8 v := by
  rw [zip64Value, if_pos h]

theorem read_zip64Value {v : ℕ} (h : 0xFFFFFFFF < v) (hv : v < 2 ^ 64) (rest : List UInt8) :
    read (zip64Value v ++ rest) 0 8 = v := by
  rw [zip64Value_of_lt h, read_zero_append, Nat.mod_eq_of_lt (by norm_num; omega)]

/-- A value other than the marker itself is decoded from what was written for it. -/
theorem takeZip64Value_self {v : ℕ} (h : v ≠ 0xFFFFFFFF) (hv : v < 2 ^ 64) (rest : List UInt8) :
    takeZip64Value (zip32Value v) (zip32Value v) (zip64Value v ++ rest) = some (v, rest) := by
  rcases lt_or_gt_of_ne h with hlt | hgt
  · rw [takeZip64Value, if_neg (by rw [zip32Value_eq_marker]; omega), zip64Value_of_le hlt.le,
      zip32Value_of_le hlt.le, List.nil_append]
  · rw [takeZip64Value, if_pos (zip32Value_eq_marker.mpr hgt.le), read_zip64Value hgt hv,
      zip64Value_of_lt hgt, if_neg (by simp), List.drop_left' (encode_length 8 v)]

/-- For the marker itself the decoder takes what was written for a later field. -/
theorem takeZip64Value_marker (old : ℕ) (rest : List UInt8) :
    takeZip64Value (zip32Value 0xFFFFFFFF) old (zip64Value 0xFFFFFFFF ++ rest) =
      if rest.length < 8 then none else some (read rest 0 8, rest.drop 8) := by
  rw [takeZip64Value, if_pos (zip32Value_eq_marker.mpr le_rfl), zip64Value_of_le le_rfl,
    List.nil_append]

theorem takeZip64Value_marker_lt {v : ℕ} (h : 0xFFFFFFFF < v) (hv : v < 2 ^ 64) (old : ℕ)
    (rest : List UInt8) :
    ∃ data, takeZip64Value (zip32Value 0xFFFFFFFF) old
      (zip64Value 0xFFFFFFFF ++ (zip64Value v ++ rest)) = some (v, data) := by
  rw [takeZip64Value_marker, read_zip64Value h hv, zip64Value_of_lt h, if_neg (by simp)]
  exact ⟨_, rfl⟩

theorem parseZip64Data_uncompressedSize (header : ZipCentralHeader) (v : Zip64Values)
    {data rest : List UInt8} {x : ℕ}
    (h : takeZip64Value header.uncompressedSize v.uncompressedSize data = some (x, rest)) :
    (parseZip64Data header data v).uncompressedSize = x := by
  rw [parseZip64Data, h]
  dsimp only
  split
  · rfl
  · split <;> rfl

theorem parseZip64Data_compressedSize (header : ZipCentralHeader) (v : Zip64Values)
    {data rest rest' : List UInt8} {x y : ℕ}
    (h : takeZip64Value header.uncompressedSize v.uncompressedSize data = some (x, rest))
    (h' : takeZip64Value header.compressedSize v.compressedSize rest = some (y, rest')) :
    (parseZip64Data header data v).compressedSize = y := by
  rw [parseZip64Data, h]
  dsimp only
  rw [h']
  dsimp only
  split <;> rfl

/-- The sizes and the offset come back exactly when none of them, being the marker, takes a value
written for a later field. -/
theorem decodedValues_eq_iff {e : FileEntry} (he : e.InRange) :
    decodedValues e = ⟨e.compressedSize, e.uncompressedSize, e.localHeaderOffset⟩ ↔
      ¬ (e.uncompressedSize = 0xFFFFFFFF ∧
        (0xFFFFFFFF < e.compressedSize ∨ 0xFFFFFFFF < e.localHeaderOffset)) ∧
      ¬ (e.compressedSize = 0xFFFFFFFF ∧ 0xFFFFFFFF < e.localHeaderOffset) := by
  obtain ⟨ho, hc, hu, -⟩ := he
  rw [decodedValues]
  cases hneed : needZip64 e with
  | false =>
    simp only [needZip64, Bool.or_eq_false_iff, decide_eq_false_iff_not, not_lt] at hneed
    obtain ⟨⟨hc', hu'⟩, ho'⟩ := hneed
    simp only [Bool.false_eq_true, if_false, zip32Value_of_le hc', zip32Value_of_le hu',
      zip32Value_of_le ho', true_iff]
    omega
  | true =>
    simp only [needZip64, Bool.or_eq_true, decide_eq_true_eq] at hneed
    simp only [if_true, List.append_assoc]
    by_cases hu' : e.uncompressedSize = 0xFFFFFFFF
    · have hother : ∃ x data, 0xFFFFFFFF < x ∧
          takeZip64Value (zip32Value e.uncompressedSize) (zip32Value e.uncompressedSize)
            (zip64Value e.uncompressedSize ++ (zip64Value e.compressedSize ++
              zip64Value e.localHeaderOffset)) = some (x, data) := by
        rw [hu']
        by_cases hc' : 0xFFFFFFFF < e.compressedSize
        · obtain ⟨data, hdata⟩ := takeZip64Value_marker_lt hc' hc (zip32Value 0xFFFFFFFF)
            (zip64Value e.localHeaderOffset)
          exact ⟨_, data, hc', hdata⟩
        · have ho' : 0xFFFFFFFF < e.localHeaderOffset := by omega
          obtain ⟨data, hdata⟩ := takeZip64Value_marker_lt ho' ho (zip32Value 0xFFFFFFFF) []
          rw [List.append_nil] at hdata
          rw [zip64Value_of_le (show e.compressedSize ≤ 0xFFFFFFFF by omega), List.nil_append]
          exact ⟨_, data, ho', hdata⟩
      obtain ⟨x, data, hx, htake⟩ := hother
      constructor
      · intro heq
        have := parseZip64Data_uncompressedSize (centralHeader e) ⟨zip32Value e.compressedSize,
          zip32Value e.uncompressedSize, zip32Value e.localHeaderOffset⟩ htake
        rw [heq] at this
        simp only at this
        omega
      · omega
    · have htake := takeZip64Value_self hu' hu (zip64Value e.compressedSize ++
        zip64Value e.localHeaderOffset)
      by_cases hc' : e.compressedSize = 0xFFFFFFFF
      · by_cases ho' : 0xFFFFFFFF < e.localHeaderOffset
        · obtain ⟨data, hdata⟩ := takeZip64Value_marker_lt ho' ho (zip32Value 0xFFFFFFFF) []
          rw [List.append_nil, ← hc'] at hdata
          constructor
          · intro heq
            have := parseZip64Data_compressedSize (centralHeader e) ⟨zip32Value e.compressedSize,
              zip32Value e.uncompressedSize, zip32Value e.localHeaderOffset⟩ htake hdata
            rw [heq] at this
            simp only at this
            omega
          · omega
        · have ho' : e.localHeaderOffset ≤ 0xFFFFFFFF := by omega
          have hnone : takeZip64Value (zip32Value e.compressedSize) (zip32Value e.compressedSize)
              (zip64Value e.compressedSize ++ zip64Value e.localHeaderOffset) = none := by
            rw [hc', takeZip64Value_marker, zip64Value_of_le ho', if_pos (by simp)]
          rw [parseZip64Data]
          simp only [centralHeader, htake, hnone]
          simp only [zip32Value_of_le ho', zip32Value_of_le hc'.le, true_iff]
          omega
      · have htake' := takeZip64Value_self hc' hc (zip64Value e.localHeaderOffset)
        rw [parseZip64Data]
        simp only [centralHeader, htake, htake']
        by_cases ho' : e.localHeaderOffset = 0xFFFFFFFF
        · have hnone : takeZip64Value (zip32Value e.localHeaderOffset)
              (zip32Value e.localHeaderOffset) (zip64Value e.localHeaderOffset) = none := by
            have := takeZip64Value_marker (zip32Value 0xFFFFFFFF) []
            rw [List.append_nil] at this
            rw [ho', this, if_pos (by simp)]
          simp only [hnone]
          simp only [zip32Value_of_le ho'.le, true_iff]
          omega
        · have htake'' := takeZip64Value_self ho' ho []
          rw [List.append_nil] at htake''
          simp only [htake'', true_iff]
          omega

/-- The offset of an entry is read back as it is. -/
def FileEntry.OffsetDecodes (e : FileEntry) : Prop :=
  0xFFFFFFFF < e.localHeaderOffset →
    e.uncompressedSize ≠ 0xFFFFFFFF ∧ e.compressedSize ≠ 0xFFFFFFFF

theorem takeZip64Value_nil (old : ℕ) : takeZip64Value 0xFFFFFFFF old [] = none := by
  rw [takeZip64Value, if_pos rfl, if_pos (by simp)]

theorem takeZip64Value_lt {v : ℕ} (h : v < 0xFFFFFFFF) (old : ℕ) (data : List UInt8) :
    takeZip64Value (zip32Value v) old data = some (old, data) := by
  rw [takeZip64Value, if_neg (by rw [zip32Value_eq_marker]; omega)]

theorem takeZip64Value_gt {field v : ℕ} (hfield : 0xFFFFFFFF ≤ field) (h : 0xFFFFFFFF < v)
    (hv : v < 2 ^ 64) (old : ℕ) (rest : List UInt8) :
    takeZip64Value (zip32Value field) old (zip64Value v ++ rest) = some (v, rest) := by
  rw [takeZip64Value, if_pos (zip32Value_eq_marker.mpr hfield), read_zip64Value h hv,
    zip64Value_of_lt h, if_neg (by simp), List.drop_left' (encode_length 8 v)]

/-- Behind 4 GiB a size that is the marker takes the value written for the offset, and the offset
stays at the marker. -/
theorem decodedValues_of_marker {e : FileEntry} (he : e.InRange)
    (ho : 0xFFFFFFFF < e.localHeaderOffset)
    (hm : e.uncompressedSize = 0xFFFFFFFF ∨ e.compressedSize = 0xFFFFFFFF) :
    (decodedValues e).localHeaderOffset = 0xFFFFFFFF := by
  have hneed : needZip64 e = true := by
    simp only [needZip64, Bool.or_eq_true, decide_eq_true_eq]
    omega
  have hmarker : zip32Value e.localHeaderOffset = 0xFFFFFFFF := zip32Value_eq_marker.mpr ho.le
  have htake {v : ℕ} (hv : 0xFFFFFFFF ≤ v) (old : ℕ) :=
    takeZip64Value_gt hv ho he.localHeaderOffset old []
  rw [decodedValues, if_pos hneed, parseZip64Data]
  simp only [centralHeader, List.append_assoc, List.append_nil] at htake ⊢
  by_cases hu : e.uncompressedSize = 0xFFFFFFFF
  · rw [hu, zip64Value_of_le le_rfl, List.nil_append]
    by_cases hc : 0xFFFFFFFF < e.compressedSize
    · rw [takeZip64Value_gt le_rfl hc he.compressedSize]
      simp only [htake hc.le, hmarker, takeZip64Value_nil]
    · rw [zip64Value_of_le (by omega), List.nil_append, htake le_rfl]
      rcases (not_lt.mp hc).lt_or_eq with hlt | heq
      · simp only [takeZip64Value_lt hlt, hmarker, takeZip64Value_nil]
      · simp only [zip32Value_eq_marker.mpr heq.ge, takeZip64Value_nil, hmarker]
  · have hc : e.compressedSize = 0xFFFFFFFF := by omega
    rw [takeZip64Value_self hu he.uncompressedSize]
    simp only [hc, zip64Value_of_le le_rfl, List.nil_append, htake le_rfl, hmarker,
      takeZip64Value_nil]

/-- Before 4 GiB the marker as the size of a file that grows takes the compressed size. -/
theorem decodedValues_of_marker_before {e : FileEntry} (he : e.InRange)
    (ho : e.localHeaderOffset ≤ 0xFFFFFFFF) (hu : e.uncompressedSize = 0xFFFFFFFF)
    (hc : 0xFFFFFFFF < e.compressedSize) :
    decodedValues e = ⟨0xFFFFFFFF, e.compressedSize, e.localHeaderOffset⟩ := by
  have hneed : needZip64 e = true := by
    simp only [needZip64, Bool.or_eq_true, decide_eq_true_eq]
    omega
  rw [decodedValues, if_pos hneed, parseZip64Data]
  simp only [centralHeader, List.append_assoc]
  rw [hu, zip64Value_of_le le_rfl, List.nil_append, zip64Value_of_le ho,
    takeZip64Value_gt le_rfl hc he.compressedSize]
  simp only [zip32Value_eq_marker.mpr hc.le, takeZip64Value_nil, zip32Value_of_le ho]

theorem decodedValues_offset_iff {e : FileEntry} (he : e.InRange) :
    (decodedValues e).localHeaderOffset = e.localHeaderOffset ↔ e.OffsetDecodes := by
  have hvalues := decodedValues_eq_iff he
  constructor
  · intro heq ho
    by_contra hm
    rw [decodedValues_of_marker he ho (by omega)] at heq
    omega
  · intro h
    by_cases hm : e.uncompressedSize = 0xFFFFFFFF ∧ 0xFFFFFFFF < e.compressedSize
    · by_cases ho : 0xFFFFFFFF < e.localHeaderOffset
      · exact ((h ho).1 hm.1).elim
      · rw [decodedValues_of_marker_before he (by omega) hm.1 hm.2]
    · rw [hvalues.mpr (by have := h; rw [FileEntry.OffsetDecodes] at this; omega)]

theorem decodedValues_compressedSize_le {e : FileEntry} (he : e.InRange) (h : e.OffsetDecodes) :
    (decodedValues e).compressedSize ≤ e.compressedSize := by
  by_cases hm : e.uncompressedSize = 0xFFFFFFFF ∧ 0xFFFFFFFF < e.compressedSize
  · by_cases ho : 0xFFFFFFFF < e.localHeaderOffset
    · exact ((h ho).1 hm.1).elim
    · rw [decodedValues_of_marker_before he (by omega) hm.1 hm.2]
      exact hm.2.le
  · rw [(decodedValues_eq_iff he).mpr (by rw [FileEntry.OffsetDecodes] at h; omega)]

theorem read_fixedBytes_append (h : ZipCentralHeader) (rest : List UInt8) :
    parseCentralHeader (h.fixedBytes ++ rest) = {
      signature := h.signature % 2 ^ 32
      versionMadeBy := h.versionMadeBy % 2 ^ 16
      versionNeeded := h.versionNeeded % 2 ^ 16
      flags := h.flags % 2 ^ 16
      compressionMethod := h.compressionMethod % 2 ^ 16
      lastModTime := h.lastModTime % 2 ^ 16
      lastModDate := h.lastModDate % 2 ^ 16
      crc32 := h.crc32 % 2 ^ 32
      compressedSize := h.compressedSize % 2 ^ 32
      uncompressedSize := h.uncompressedSize % 2 ^ 32
      filenameLength := h.filenameLength % 2 ^ 16
      extraFieldLength := h.extraFieldLength % 2 ^ 16
      fileCommentLength := h.fileCommentLength % 2 ^ 16
      diskNumberStart := h.diskNumberStart % 2 ^ 16
      internalFileAttributes := h.internalFileAttributes % 2 ^ 16
      externalFileAttributes := h.externalFileAttributes % 2 ^ 32
      localHeaderOffset := h.localHeaderOffset % 2 ^ 32 } := by
  simp (disch := norm_num) only [parseCentralHeader, ZipCentralHeader.fixedBytes,
    List.append_assoc, read_encode_append, Nat.reduceSub, read_zero_append]
  norm_num

/-- The metadata a well-formed entry is read back as, given the decoded sizes and offset. -/
def readBack (partSize : ℕ) (e : FileEntry) (v : Zip64Values) : FileMetadata where
  filename := e.filename
  localHeaderOffset := v.localHeaderOffset
  compressedSize := v.compressedSize
  uncompressedSize := v.uncompressedSize
  crc32 := e.crc32
  compressionMethod := e.compressionMethod
  partIndex := v.localHeaderOffset / partSize % 2 ^ 32
  unixMode := e.unixMode % 2 ^ 16
  uid := e.uid
  gid := e.gid
  hasUnixMode := true
  hasUnixExtra := true
  isSymlink := isLnk (e.unixMode % 2 ^ 16)
  usesZip64Descriptor := decide (0xFFFFFFFF ≤ e.compressedSize) ||
    decide (0xFFFFFFFF ≤ e.uncompressedSize)

/-- The header of a well-formed entry, as it is read back. -/
structure ReadHeader (e : FileEntry) (h : ZipCentralHeader) : Prop where
  signature : h.signature = zipCentralDirHeaderSig
  versionMadeBy : h.versionMadeBy / 2 ^ 8 = 3
  compressionMethod : h.compressionMethod = e.compressionMethod
  crc32 : h.crc32 = e.crc32
  compressedSize : h.compressedSize = zip32Value e.compressedSize
  uncompressedSize : h.uncompressedSize = zip32Value e.uncompressedSize
  localHeaderOffset : h.localHeaderOffset = zip32Value e.localHeaderOffset
  filenameLength : h.filenameLength = e.filename.length
  extraFieldLength : h.extraFieldLength = (centralExtraField e).length
  fileCommentLength : h.fileCommentLength = 0
  unixMode : h.externalFileAttributes / 2 ^ 16 = e.unixMode % 2 ^ 16

theorem parseCentralHeader_centralHeader {e : FileEntry} (he : e.InRange) (hn : e.NameDecodes)
    (rest : List UInt8) :
    ReadHeader e (parseCentralHeader ((centralHeader e).fixedBytes ++ rest)) := by
  have hextra := centralExtraField_length_lt e
  have hc := zip32Value_le e.compressedSize
  have hu := zip32Value_le e.uncompressedSize
  have ho := zip32Value_le e.localHeaderOffset
  rw [read_fixedBytes_append]
  constructor <;> simp only [centralHeader]
  · rfl
  · rfl
  · exact Nat.mod_eq_of_lt he.compressionMethod
  · exact Nat.mod_eq_of_lt he.crc32
  · exact Nat.mod_eq_of_lt (by omega)
  · exact Nat.mod_eq_of_lt (by omega)
  · exact Nat.mod_eq_of_lt (by omega)
  · exact Nat.mod_eq_of_lt hn.lt
  · exact Nat.mod_eq_of_lt hextra
  · rfl
  · rw [show (2 : ℕ) ^ 32 = 2 ^ 16 * 2 ^ 16 by norm_num, Nat.mul_mod_mul_right,
      Nat.mul_div_cancel _ (by norm_num)]

theorem takeWhile_ne_zero {bs : List UInt8} (h : ∀ b ∈ bs, b ≠ 0) :
    bs.takeWhile (· ≠ 0) = bs :=
  List.takeWhile_eq_self_iff.mpr fun b hb ↦ by simpa using h b hb

theorem parseFileMetadata_readBack {e : FileEntry} (he : e.InRange) (hn : e.NameDecodes)
    (partSize : ℕ) {header : ZipCentralHeader} (hh : ReadHeader e header) (rest : List UInt8) :
    parseFileMetadata partSize header (e.filename ++ (centralExtraField e ++ rest)) =
      readBack partSize e (decodedValues e) := by
  have hlen : 15 ≤ (centralExtraField e).length := by
    rw [centralExtraField_eq, List.length_append, buildUnixExtraField_length]
    omega
  have hextra : ((e.filename ++ (centralExtraField e ++ rest)).drop header.filenameLength).take
      header.extraFieldLength = centralExtraField e := by
    rw [hh.filenameLength, List.drop_left' rfl, hh.extraFieldLength, List.take_left' rfl]
  have hunix : parseUnixExtraField (centralExtraField e).length (centralExtraField e) =
      ⟨true, e.uid, e.gid⟩ := by
    have := parseUnixExtraField_build e.uid e.gid (centralExtraField e).length
      (if needZip64 e then buildZip64ExtraField 49 e.compressedSize e.uncompressedSize
        e.localHeaderOffset else []) (by omega)
    rw [← centralExtraField_eq, Nat.mod_eq_of_lt he.uid, Nat.mod_eq_of_lt he.gid] at this
    exact this
  have hzip64 := parseZip64ExtraField_build e header (centralExtraField e).length
    hh.uncompressedSize hh.compressedSize hh.localHeaderOffset (by omega)
  simp only [parseFileMetadata, hextra, hunix, hh.compressedSize, hh.uncompressedSize,
    hh.localHeaderOffset, hzip64]
  simp only [readBack, hh.versionMadeBy, if_true, hh.unixMode, hh.crc32, hh.compressionMethod,
    hh.filenameLength, List.take_left' rfl, takeWhile_ne_zero hn.noNul, hh.extraFieldLength,
    zip32Value_eq_marker, decide_true, Bool.true_and]
  simp [show 0 < (centralExtraField e).length by omega]

/-- One round of the entry loop reads back one entry. -/
theorem parseEntries_cons {e : FileEntry} (he : e.InRange) (hn : e.NameDecodes) (partSize n : ℕ)
    (first : Bool) (rest : List UInt8) :
    parseEntries partSize (n + 1) first (centralHeaderBytes e ++ rest) =
      match parseEntries partSize n false rest with
      | .error err => .error err
      | .ok files => .ok (readBack partSize e (decodedValues e) :: files) := by
  have hbytes : centralHeaderBytes e ++ rest =
      (centralHeader e).fixedBytes ++ (e.filename ++ (centralExtraField e ++ rest)) := by
    rw [centralHeaderBytes, Nat.mod_eq_of_lt hn.lt, List.take_length]
    simp only [List.append_assoc]
  have hh := parseCentralHeader_centralHeader he hn (e.filename ++ (centralExtraField e ++ rest))
  have hvar : variableLen (parseCentralHeader (centralHeaderBytes e ++ rest)) =
      e.filename.length + (centralExtraField e).length := by
    rw [hbytes, variableLen, hh.filenameLength, hh.extraFieldLength, hh.fileCommentLength,
      Nat.add_zero]
  have hlen : (centralHeaderBytes e ++ rest).length =
      46 + (e.filename.length + ((centralExtraField e).length + rest.length)) := by
    rw [hbytes, List.length_append, ZipCentralHeader.fixedBytes_length, List.length_append,
      List.length_append]
  have hdrop : (centralHeaderBytes e ++ rest).drop 46 =
      e.filename ++ (centralExtraField e ++ rest) := by
    rw [hbytes, List.drop_left' (ZipCentralHeader.fixedBytes_length _)]
  have hdrop' : (centralHeaderBytes e ++ rest).drop
      (46 + (e.filename.length + (centralExtraField e).length)) = rest := by
    rw [← List.drop_drop, hdrop, ← List.append_assoc, List.drop_left' (by rw [List.length_append])]
  rw [parseEntries, if_neg (by omega), if_neg (by omega)]
  simp only [hvar, hdrop', hdrop]
  rw [hbytes] at hlen ⊢
  have hentry := parseFileMetadata_readBack he hn partSize hh rest
  rw [if_neg (by rw [hh.signature]; simp), if_neg (by omega)]
  cases parseEntries partSize n false rest with
  | error err => rfl
  | ok files => exact congrArg (fun m ↦ Except.ok (m :: files)) hentry

theorem parseEntries_nil (partSize n : ℕ) (first : Bool) : parseEntries partSize n first [] = .ok [] := by
  cases n with
  | zero => rfl
  | succ n => simp [parseEntries]

/-- The whole loop, when it is allowed at least as many rounds as there are entries: it reads the
entries and stops where something else begins. -/
theorem parseEntries_append {es : List FileEntry} (he : ∀ e ∈ es, e.InRange)
    (hn : ∀ e ∈ es, e.NameDecodes) {partSize : ℕ} {rest : List UInt8}
    (hrest : ∀ n, parseEntries partSize n false rest = .ok []) {n : ℕ} (hcount : es.length ≤ n)
    {first : Bool} (hfirst : first = true → rest = [] ∨ es ≠ []) :
    parseEntries partSize n first (es.flatMap centralHeaderBytes ++ rest) =
      .ok (es.map fun e ↦ readBack partSize e (decodedValues e)) := by
  induction es generalizing n first with
  | nil =>
    rw [List.flatMap_nil, List.nil_append, List.map_nil]
    cases first with
    | false => exact hrest n
    | true =>
      obtain rfl | hne := hfirst rfl
      · exact parseEntries_nil partSize n true
      · exact (hne rfl).elim
  | cons e es ih =>
    obtain ⟨n, rfl⟩ : ∃ m, n = m + 1 := ⟨n - 1, by simp at hcount; omega⟩
    rw [List.flatMap_cons, List.append_assoc,
      parseEntries_cons (he e List.mem_cons_self) (hn e List.mem_cons_self),
      ih (fun x hx ↦ he x (List.mem_cons_of_mem _ hx)) (fun x hx ↦ hn x (List.mem_cons_of_mem _ hx))
        (by simpa using hcount) (by simp)]
    rfl

theorem parseEntries_centralDirectory {es : List FileEntry} (he : ∀ e ∈ es, e.InRange)
    (hn : ∀ e ∈ es, e.NameDecodes) (partSize n : ℕ) (hcount : es.length ≤ n) (first : Bool) :
    parseEntries partSize n first (es.flatMap centralHeaderBytes) =
      .ok (es.map fun e ↦ readBack partSize e (decodedValues e)) := by
  simpa using parseEntries_append he hn (fun n ↦ parseEntries_nil partSize n false) hcount
    (fun (_ : first = true) ↦ .inl rfl)

/-- The metadata gives back the entry it was written for. -/
structure FileMetadata.Restores (m : FileMetadata) (e : FileEntry) : Prop where
  filename : m.filename = e.filename
  compressedSize : m.compressedSize = e.compressedSize
  uncompressedSize : m.uncompressedSize = e.uncompressedSize
  localHeaderOffset : m.localHeaderOffset = e.localHeaderOffset
  crc32 : m.crc32 = e.crc32
  compressionMethod : m.compressionMethod = e.compressionMethod
  unixMode : m.unixMode = e.unixMode % 2 ^ 16
  uid : m.uid = e.uid
  gid : m.gid = e.gid
  usesZip64Descriptor : m.usesZip64Descriptor = e.usedZip64Descriptor

/-- No size is the ZIP64 marker itself, unless the other one overflows and the offset does not. -/
def FileEntry.AvoidsMarker (e : FileEntry) : Prop :=
  e.uncompressedSize ≠ 0xFFFFFFFF ∧
    (e.compressedSize = 0xFFFFFFFF → 0xFFFFFFFF < e.uncompressedSize ∧
      e.localHeaderOffset ≤ 0xFFFFFFFF)

theorem readBack_restores_iff {e : FileEntry} (he : e.InRange)
    (hused : e.usedZip64Descriptor = usesZip64Descriptor e.compressedSize e.uncompressedSize)
    (partSize : ℕ) :
    (readBack partSize e (decodedValues e)).Restores e ↔ e.AvoidsMarker := by
  have hvalues := decodedValues_eq_iff he
  have hdescriptor : (decide (0xFFFFFFFF ≤ e.compressedSize) ||
        decide (0xFFFFFFFF ≤ e.uncompressedSize)) = e.usedZip64Descriptor ↔
      ¬ ((e.compressedSize = 0xFFFFFFFF ∨ e.uncompressedSize = 0xFFFFFFFF) ∧
        e.compressedSize ≤ 0xFFFFFFFF ∧ e.uncompressedSize ≤ 0xFFFFFFFF) := by
    rw [hused, usesZip64Descriptor, Bool.eq_iff_iff]
    simp only [Bool.or_eq_true, decide_eq_true_eq]
    omega
  constructor
  · intro h
    have hv : decodedValues e = ⟨e.compressedSize, e.uncompressedSize, e.localHeaderOffset⟩ := by
      rw [← h.compressedSize, ← h.uncompressedSize, ← h.localHeaderOffset, readBack]
    have hd := hdescriptor.mp h.usesZip64Descriptor
    have hv := hvalues.mp hv
    rw [FileEntry.AvoidsMarker]
    omega
  · rintro ⟨hu, hc⟩
    have hv := hvalues.mpr (by omega)
    have hd := hdescriptor.mpr (by omega)
    constructor <;> simp only [readBack, hv]
    exact hd

/-- What `parse_central_directory` makes of the bytes of a central directory. -/
theorem parseCentralDirectory_bytes {es : List FileEntry} (he : ∀ e ∈ es, e.InRange)
    (hn : ∀ e ∈ es, e.NameDecodes) {numEntries : ℕ} (hcount : es.length ≤ numEntries)
    (hmemory : numEntries * sizeofFileMetadata < 2 ^ 63) (cdOffset partSize : ℕ) :
    parseCentralDirectory (centralDirectoryBytes es) cdOffset cdOffset numEntries
        (centralDirectoryBytes es).length partSize =
      .ok (es.map fun e ↦ readBack partSize e (decodedValues e)) := by
  have hfit : ¬ (cdOffset - cdOffset + (centralDirectoryBytes es).length) % 2 ^ 64 >
      (centralDirectoryBytes es).length := by
    rw [Nat.sub_self, Nat.zero_add, not_lt]
    exact Nat.mod_le _ _
  rw [parseCentralDirectory, if_neg (lt_irrefl _), if_neg hfit, if_neg (by omega), Nat.sub_self,
    List.drop_zero, List.take_length]
  exact parseEntries_centralDirectory he hn partSize numEntries hcount true

/-- The metadata that `parse_central_directory` reads from what `write_central_directory` wrote. -/
theorem parseCentralDirectory_written {w w' : BurstWriter} (he : ∀ e ∈ w.files, e.InRange)
    (hn : ∀ e ∈ w.files, e.NameFits) (hwrite : writeCentralDirectory w = (some (), w'))
    {numEntries : ℕ} (hcount : w.files.length ≤ numEntries)
    (hmemory : numEntries * sizeofFileMetadata < 2 ^ 63) (cdOffset partSize : ℕ) :
    ∃ cd, w'.archive = w.archive ++ cd ∧
      parseCentralDirectory cd cdOffset cdOffset numEntries cd.length partSize =
        .ok (w.files.map fun e ↦ readBack partSize e (decodedValues e)) :=
  ⟨centralDirectoryBytes w.files, (writeCentralDirectory_ok hwrite).archive,
    parseCentralDirectory_bytes he (fun e h ↦ (hn e h).decodes) hcount hmemory cdOffset partSize⟩

/-- Encoding and decoding the central directory gives every entry back exactly when no entry has
the ZIP64 marker as a size. -/
theorem centralDirectory_roundTrip {w w' : BurstWriter} (he : ∀ e ∈ w.files, e.InRange)
    (hn : ∀ e ∈ w.files, e.NameFits)
    (hused : ∀ e ∈ w.files,
      e.usedZip64Descriptor = usesZip64Descriptor e.compressedSize e.uncompressedSize)
    (hwrite : writeCentralDirectory w = (some (), w')) {numEntries : ℕ}
    (hcount : w.files.length ≤ numEntries) (hmemory : numEntries * sizeofFileMetadata < 2 ^ 63)
    (cdOffset partSize : ℕ) :
    ∃ cd files, w'.archive = w.archive ++ cd ∧
      parseCentralDirectory cd cdOffset cdOffset numEntries cd.length partSize = .ok files ∧
      files.length = w.files.length ∧
      (List.Forall₂ FileMetadata.Restores files w.files ↔ ∀ e ∈ w.files, e.AvoidsMarker) := by
  obtain ⟨cd, harchive, hparse⟩ :=
    parseCentralDirectory_written he hn hwrite hcount hmemory cdOffset partSize
  refine ⟨cd, _, harchive, hparse, List.length_map _, ?_⟩
  rw [List.forall₂_map_left_iff, List.forall₂_same]
  exact forall₂_congr fun e h ↦ readBack_restores_iff (he e h) (hused e h) partSize

/-- The record of a file `a` at the start of an archive. -/
def sampleEntry (compressedSize uncompressedSize : ℕ) : FileEntry where
  filename := [97]
  localHeaderOffset := 0
  compressedStartOffset := 46
  compressedSize := compressedSize
  uncompressedSize := uncompressedSize
  crc32 := 0
  compressionMethod := zipMethodZstd
  versionNeeded := zipVersionZstd
  generalPurposeFlags := zipFlagDataDescriptor
  lastModTime := 0
  lastModDate := 33
  unixMode := 33188
  uid := 0
  gid := 0
  usedZip64Descriptor := usesZip64Descriptor compressedSize uncompressedSize

def writerOf (files : List FileEntry) : BurstWriter :=
  { burstWriterCreate ⟨[], []⟩ 3 with files := files }

/-- The records of a small file, of one with 64-bit sizes, and of one with a 64-bit offset. -/
def spreadEntries : List FileEntry :=
  [sampleEntry 12 3,
    { sampleEntry 5000000000 6000000000 with filename := [98], localHeaderOffset := 74 },
    { sampleEntry 15 7 with filename := [99, 100], localHeaderOffset := 5000000152 }]

theorem spreadEntries_inRange : (∀ e ∈ spreadEntries, e.InRange) ∧ ∀ e ∈ spreadEntries, e.NameFits := by
  simp only [spreadEntries, List.forall_mem_cons, List.not_mem_nil, false_implies, implies_true, and_true]
  refine ⟨⟨?_, ?_, ?_⟩, ?_, ?_, ?_⟩
  · constructor <;> decide
  · constructor <;> decide
  · constructor <;> decide
  · constructor <;> simp [sampleEntry]
  · constructor <;> simp
  · constructor <;> simp

theorem centralDirectory_roundTrip_sample :
    ∃ cd files, (writeCentralDirectory (writerOf spreadEntries)).2.archive = [] ++ cd ∧
      parseCentralDirectory cd 0 0 3 cd.length burstPartSize = .ok files ∧ files.length = 3 ∧
      List.Forall₂ FileMetadata.Restores files spreadEntries := by
  obtain ⟨hin, hname⟩ := spreadEntries_inRange
  have hused : ∀ e ∈ spreadEntries,
      e.usedZip64Descriptor = usesZip64Descriptor e.compressedSize e.uncompressedSize := by
    simp [spreadEntries, sampleEntry]
  have hmarker : ∀ e ∈ spreadEntries, e.AvoidsMarker := by
    simp [spreadEntries, sampleEntry, FileEntry.AvoidsMarker]
  obtain ⟨cd, files, harchive, hparse, hlength, hrestores⟩ :=
    centralDirectory_roundTrip (w := writerOf spreadEntries) hin hname hused
      (WriterM.ok_of_fst (by decide +kernel)) (show _ ≤ 3 by simp [writerOf, spreadEntries]) (by decide) 0
      burstPartSize
  exact ⟨cd, files, harchive, hparse, hlength, hrestores.mpr hmarker⟩

/-- A file of 4294967295 bytes that compresses: its data descriptor has 32-bit sizes and is read
back as one with 64-bit sizes. -/
theorem centralDirectory_roundTrip_fails :
    ∃ files, parseCentralDirectory
        (writeCentralDirectory (writerOf [sampleEntry 131072 0xFFFFFFFF])).2.archive 0 0 1
        (writeCentralDirectory (writerOf [sampleEntry 131072 0xFFFFFFFF])).2.archive.length
        burstPartSize = .ok files ∧
      ¬ List.Forall₂ FileMetadata.Restores files [sampleEntry 131072 0xFFFFFFFF] := by
  have hin : (sampleEntry 131072 0xFFFFFFFF).InRange := by constructor <;> decide
  have hname : (sampleEntry 131072 0xFFFFFFFF).NameFits := by constructor <;> simp [sampleEntry]
  obtain ⟨cd, harchive, hparse⟩ := parseCentralDirectory_written
    (w := writerOf [sampleEntry 131072 0xFFFFFFFF]) (by simpa [writerOf] using hin)
    (by simpa [writerOf] using hname) (WriterM.ok_of_fst (by decide +kernel))
    (show _ ≤ 1 by simp [writerOf]) (by decide) 0 burstPartSize
  obtain rfl : _ = cd := harchive
  refine ⟨_, hparse, ?_⟩
  rw [List.forall₂_map_left_iff]
  intro h
  have hmark := (readBack_restores_iff hin rfl burstPartSize).mp (List.forall₂_cons.mp h).1
  exact hmark.1 rfl

end Burst
