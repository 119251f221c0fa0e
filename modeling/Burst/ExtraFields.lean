import Burst.CentralDirParser
import Burst.Lib.TaggedFields

namespace Burst

open LittleEndian TaggedFields

/-- `parse_unix_extra_field` from the version byte on, with what its out-parameters hold. -/
def parseUnixRecord (uid gid : ℕ) (data : List UInt8) : UnixExtra :=
  if read data 0 1 ≠ 1 then ⟨false, uid, gid⟩
  else if data.length < 3 + read data 1 1 then ⟨false, uid, gid⟩
  else if data.length < 3 + read data 1 1 + read data (2 + read data 1 1) 1 then
    ⟨false, read data 2 (min (read data 1 1) 4), gid⟩
  else ⟨true, read data 2 (min (read data 1 1) 4),
    read data (3 + read data 1 1) (min (read data (2 + read data 1 1) 1) 4)⟩

def unixFieldFound (uid gid dataSize : ℕ) (data : List UInt8) : UnixExtra :=
  if data.length < dataSize ∨ dataSize < 3 then ⟨false, uid, gid⟩ else parseUnixRecord uid gid data

/-- `parse_unix_extra_field`; `uid` and `gid` are what the out-parameters hold before. -/
def parseUnixExtraFieldInto (uid gid : ℕ) (extra : List UInt8) : UnixExtra :=
  scan zipExtraUnix7875Id (unixFieldFound uid gid) ⟨false, uid, gid⟩ extra.length extra

/-- Results of `parse_zip64_extra_field`. -/
structure Zip64Extra where
  found : Bool
  values : Zip64Values
  deriving DecidableEq, Repr

/-- The values in their order; a missing one ends the assignments. -/
def parseZip64Record (header : ZipCentralHeader) (data : List UInt8) (v : Zip64Values) : Zip64Extra :=
  (takeZip64Value header.uncompressedSize v.uncompressedSize data).elim ⟨false, v⟩ fun u ↦
    (takeZip64Value header.compressedSize v.compressedSize u.2).elim
      ⟨false, { v with uncompressedSize := u.1 }⟩ fun c ↦
      (takeZip64Value header.localHeaderOffset v.localHeaderOffset c.2).elim
        ⟨false, { v with uncompressedSize := u.1, compressedSize := c.1 }⟩ fun o ↦
        ⟨true, ⟨c.1, u.1, o.1⟩⟩

def zip64FieldFound (header : ZipCentralHeader) (v : Zip64Values) (dataSize : ℕ)
    (data : List UInt8) : Zip64Extra :=
  if data.length < dataSize then ⟨false, v⟩ else parseZip64Record header (data.take dataSize) v

/-- `parse_zip64_extra_field`; `v` is what the out-parameters hold before. -/
def parseZip64ExtraFieldInto (header : ZipCentralHeader) (v : Zip64Values) (extra : List UInt8) :
    Zip64Extra :=
  scan zipExtraZip64Id (zip64FieldFound header v) ⟨false, v⟩ extra.length extra

/-- The parser calls it with ids that are zero. -/
theorem parseUnixExtraField_eq (extra : List UInt8) :
    parseUnixExtraField extra.length extra = parseUnixExtraFieldInto 0 0 extra := by
  rw [parseUnixExtraFieldInto]
  generalize extra.length = fuel
  induction fuel generalizing extra with
  | zero => rfl
  | succ fuel ih =>
    rw [parseUnixExtraField, scan]
    simp only [unixFieldFound, parseUnixRecord, parseUnixExtraData, List.length_drop, ih]

theorem parseZip64Record_values (header : ZipCentralHeader) (data : List UInt8) (v : Zip64Values) :
    (parseZip64Record header data v).values = parseZip64Data header data v := by
  rw [parseZip64Record, parseZip64Data]
  cases takeZip64Value header.uncompressedSize v.uncompressedSize data with
  | none => rfl
  | some u =>
    simp only [Option.elim_some]
    cases takeZip64Value header.compressedSize v.compressedSize u.2 with
    | none => rfl
    | some c =>
      simp only [Option.elim_some]
      cases takeZip64Value header.localHeaderOffset v.localHeaderOffset c.2 with
      | none => rfl
      | some o => rfl

/-- The parser ignores whether values were found. -/
theorem parseZip64ExtraField_eq (header : ZipCentralHeader) (extra : List UInt8) (v : Zip64Values) :
    parseZip64ExtraField header extra.length extra v =
      (parseZip64ExtraFieldInto header v extra).values := by
  rw [parseZip64ExtraFieldInto]
  generalize extra.length = fuel
  induction fuel generalizing extra with
  | zero => rfl
  | succ fuel ih =>
    rw [parseZip64ExtraField, scan, zip64FieldFound, List.length_drop]
    split
    · rfl
    split
    · split
      · rfl
      · exact (parseZip64Record_values _ _ _).symm
    split
    · rfl
    · exact ih _

/-- A record of version 1 that lies inside its field. -/
def ValidUnixRecord (data : List UInt8) : Prop :=
  3 ≤ data.length ∧ read data 0 1 = 1 ∧ 3 + read data 1 1 ≤ data.length ∧
    3 + read data 1 1 + read data (2 + read data 1 1) 1 ≤ data.length

instance (data : List UInt8) : Decidable (ValidUnixRecord data) :=
  inferInstanceAs (Decidable (_ ∧ _))

/-- What a Unix field says: the low 32 bits of its ids, or nothing. -/
def unixFieldMeaning (uid gid : ℕ) (data : List UInt8) : UnixExtra :=
  if ValidUnixRecord data then
    ⟨true, read data 2 (min (read data 1 1) 4),
      read data (3 + read data 1 1) (min (read data (2 + read data 1 1) 1) 4)⟩
  else ⟨false, uid, gid⟩

/-- One if a header field holds the marker, and so has a 64-bit value. -/
def zip64Marker (field : ℕ) : ℕ := if field = 0xFFFFFFFF then 1 else 0

def zip64Needed (header : ZipCentralHeader) : ℕ :=
  zip64Marker header.uncompressedSize + zip64Marker header.compressedSize +
    zip64Marker header.localHeaderOffset

/-- The value at a place of a field for a header field with the marker. -/
def zip64FieldValue (field old index : ℕ) (data : List UInt8) : ℕ :=
  if field = 0xFFFFFFFF then read data (8 * index) 8 else old

/-- What a ZIP64 field says: all the values that the header asks for, or nothing. -/
def zip64FieldMeaning (header : ZipCentralHeader) (v : Zip64Values) (data : List UInt8) : Zip64Extra :=
  if 8 * zip64Needed header ≤ data.length then
    { found := true
      values :=
        { uncompressedSize := zip64FieldValue header.uncompressedSize v.uncompressedSize 0 data
          compressedSize := zip64FieldValue header.compressedSize v.compressedSize
            (zip64Marker header.uncompressedSize) data
          localHeaderOffset := zip64FieldValue header.localHeaderOffset v.localHeaderOffset
            (zip64Marker header.uncompressedSize + zip64Marker header.compressedSize) data } }
  else ⟨false, v⟩

/-- When the scan gets a Unix field right that has `n` bytes after it: if its record is as bad as it
looks from outside the field, and the ids have not been touched before that is noticed. -/
def UnixFieldKept (uid : ℕ) (data : List UInt8) (n : ℕ) : Prop :=
  data.length < 3 ∨ read data 0 1 ≠ 1 ∨ ValidUnixRecord data ∨
    data.length + n < 3 + read data 1 1 ∨
    (3 + read data 1 1 ≤ data.length ∧
      data.length + n < 3 + read data 1 1 + read data (2 + read data 1 1) 1 ∧
      read data 2 (min (read data 1 1) 4) = uid)

/-- A valid record is read from its own bytes. -/
theorem parseUnixRecord_valid {data : List UInt8} (h : ValidUnixRecord data) (uid gid : ℕ)
    (tail : List UInt8) :
    parseUnixRecord uid gid (data ++ tail) = unixFieldMeaning uid gid data := by
  obtain ⟨hmin, hversion, huid, hgid⟩ := h
  have hlen : (data ++ tail).length = data.length + tail.length := List.length_append
  rw [unixFieldMeaning, if_pos ⟨hmin, hversion, huid, hgid⟩, parseUnixRecord,
    read_append_left (show 0 + 1 ≤ data.length by omega),
    read_append_left (show 1 + 1 ≤ data.length by omega),
    read_append_left (show 2 + read data 1 1 + 1 ≤ data.length by omega),
    read_append_left (show 2 + min (read data 1 1) 4 ≤ data.length by omega),
    read_append_left (show 3 + read data 1 1 + min (read data (2 + read data 1 1) 1) 4 ≤
      data.length by omega), if_neg (not_not.mpr hversion), if_neg (by omega), if_neg (by omega)]

theorem unixFieldFound_kept {uid : ℕ} {data tail : List UInt8}
    (h : UnixFieldKept uid data tail.length) (gid : ℕ) :
    unixFieldFound uid gid data.length (data ++ tail) = unixFieldMeaning uid gid data := by
  have hlen : (data ++ tail).length = data.length + tail.length := List.length_append
  rw [unixFieldFound]
  by_cases hmin : data.length < 3
  · rw [if_pos (.inr hmin), unixFieldMeaning, if_neg (fun hvalid ↦ by have := hvalid.1; omega)]
  rw [if_neg (by omega)]
  by_cases hvalid : ValidUnixRecord data
  · exact parseUnixRecord_valid hvalid uid gid tail
  have hversion : read (data ++ tail) 0 1 = read data 0 1 := read_append_left (by omega) tail
  have huid : read (data ++ tail) 1 1 = read data 1 1 := read_append_left (by omega) tail
  rw [unixFieldMeaning, if_neg hvalid, parseUnixRecord, hversion, huid, hlen]
  obtain h | h | h | h | ⟨hown, hshort, hold⟩ := h
  · exact (hmin h).elim
  · rw [if_pos h]
  · exact (hvalid h).elim
  · rw [if_pos h]
    split <;> rfl
  · rw [read_append_left (show 2 + read data 1 1 + 1 ≤ data.length by omega),
      read_append_left (show 2 + min (read data 1 1) 4 ≤ data.length by omega), hold,
      if_neg (show ¬ data.length + tail.length < 3 + read data 1 1 by omega), if_pos hshort]
    split <;> rfl

/-- The bytes after a field are read when the record says so: a zero there would make it a valid one. -/
theorem unixFieldFound_iff {uid gid : ℕ} {data : List UInt8} {n : ℕ} :
    (∀ tail, tail.length = n →
      unixFieldFound uid gid data.length (data ++ tail) = unixFieldMeaning uid gid data) ↔
      UnixFieldKept uid data n := by
  constructor
  · intro hall
    by_contra hkept
    simp only [UnixFieldKept, not_or, not_lt, not_not] at hkept
    obtain ⟨hmin, hversion, hinvalid, huid, hlast⟩ := hkept
    have hzeros := hall (List.replicate n 0) List.length_replicate
    have hlen : (data ++ List.replicate n 0).length = data.length + n := by
      rw [List.length_append, List.length_replicate]
    rw [unixFieldMeaning, if_neg hinvalid, unixFieldFound, if_neg (by omega), parseUnixRecord,
      read_append_left (show 0 + 1 ≤ data.length by omega),
      read_append_left (show 1 + 1 ≤ data.length by omega), hlen, if_neg (not_not.mpr hversion),
      if_neg (by omega)] at hzeros
    by_cases hown : 3 + read data 1 1 ≤ data.length
    · rw [read_append_left (show 2 + read data 1 1 + 1 ≤ data.length by omega),
        read_append_left (show 2 + min (read data 1 1) 4 ≤ data.length by omega)] at hzeros
      split at hzeros
      · next hshort => exact hlast ⟨hown, hshort, congrArg UnixExtra.uid hzeros⟩
      · cases congrArg UnixExtra.found hzeros
    · have hgid : read (data ++ List.replicate n 0) (2 + read data 1 1) 1 = 0 := by
        rw [read_append_right (by omega), LittleEndian.read, List.drop_replicate,
          List.take_replicate]
        exact decode_append_zeros [] _
      rw [hgid, if_neg (by omega)] at hzeros
      cases congrArg UnixExtra.found hzeros
  · intro hkept tail htail
    subst htail
    exact unixFieldFound_kept hkept gid

/-- When the scan gets a ZIP64 field right: if all values are there, or those that are there are what
the out-parameters hold already. -/
def Zip64FieldKept (header : ZipCentralHeader) (v : Zip64Values) (data : List UInt8) : Prop :=
  8 * zip64Needed header ≤ data.length ∨
    (zip64Marker header.uncompressedSize = 1 → 8 ≤ data.length →
      read data 0 8 = v.uncompressedSize) ∧
    (zip64Marker header.compressedSize = 1 →
      8 * (zip64Marker header.uncompressedSize + 1) ≤ data.length →
      read data (8 * zip64Marker header.uncompressedSize) 8 = v.compressedSize)

/-- Taking the next value from a field of which the values before `index` are taken. -/
theorem takeZip64Value_drop {field index : ℕ} {data : List UInt8} (old : ℕ)
    (h : 8 * index ≤ data.length) :
    takeZip64Value field old (data.drop (8 * index)) =
      if 8 * (index + zip64Marker field) ≤ data.length then
        some (zip64FieldValue field old index data, data.drop (8 * (index + zip64Marker field)))
      else none := by
  rw [takeZip64Value, zip64FieldValue, zip64Marker]
  by_cases hmarker : field = 0xFFFFFFFF
  · simp only [if_pos hmarker, List.length_drop, List.drop_drop, read_drop]
    by_cases hshort : data.length - 8 * index < 8
    · rw [if_pos hshort, if_neg (by omega)]
    · rw [if_neg hshort, if_pos (by omega), Nat.add_zero, Nat.mul_add]
  · simp only [if_neg hmarker, Nat.add_zero, if_pos h]

/-- Which values are assigned before one is missing. -/
theorem parseZip64Record_eq (header : ZipCentralHeader) (data : List UInt8) (v : Zip64Values) :
    let numU := zip64Marker header.uncompressedSize
    let numC := numU + zip64Marker header.compressedSize
    let u := zip64FieldValue header.uncompressedSize v.uncompressedSize 0 data
    let c := zip64FieldValue header.compressedSize v.compressedSize numU data
    let o := zip64FieldValue header.localHeaderOffset v.localHeaderOffset numC data
    parseZip64Record header data v =
      if 8 * zip64Needed header ≤ data.length then ⟨true, ⟨c, u, o⟩⟩
      else if 8 * numC ≤ data.length then
        ⟨false, { v with uncompressedSize := u, compressedSize := c }⟩
      else if 8 * numU ≤ data.length then ⟨false, { v with uncompressedSize := u }⟩
      else ⟨false, v⟩ := by
  intro numU numC u c o
  have hneeded : zip64Needed header = numC + zip64Marker header.localHeaderOffset := rfl
  have hC : numC = numU + zip64Marker header.compressedSize := rfl
  have htakeU := @takeZip64Value_drop header.uncompressedSize 0 data v.uncompressedSize
    (Nat.zero_le data.length)
  rw [Nat.mul_zero, List.drop_zero, Nat.zero_add] at htakeU
  rw [parseZip64Record, htakeU]
  by_cases hU : 8 * numU ≤ data.length
  · rw [if_pos hU, Option.elim_some, takeZip64Value_drop _ hU]
    by_cases hU' : 8 * numC ≤ data.length
    · rw [if_pos hU', Option.elim_some, takeZip64Value_drop _ hU']
      by_cases hall : 8 * zip64Needed header ≤ data.length
      · rw [if_pos hall, if_pos (hneeded ▸ hall), Option.elim_some]
      · rw [if_neg hall, if_neg (hneeded ▸ hall), Option.elim_none, if_pos hU']
    · rw [if_neg hU', Option.elim_none, if_neg (by omega), if_neg hU', if_pos hU]
  · rw [if_neg hU, Option.elim_none, if_neg (by omega), if_neg (by omega), if_neg hU]

theorem zip64FieldValue_eq_old {field old index : ℕ} {data : List UInt8} :
    zip64FieldValue field old index data = old ↔
      (zip64Marker field = 1 → read data (8 * index) 8 = old) := by
  rw [zip64FieldValue, zip64Marker]
  by_cases hmarker : field = 0xFFFFFFFF
  · simp only [if_pos hmarker, forall_const]
  · simp only [if_neg hmarker, zero_ne_one, false_imp_iff]

/-- The out-parameters are as before when the value of each is what it holds already. -/
theorem zip64Values_eq_old {v : Zip64Values} {u c : ℕ} :
    (⟨false, ⟨c, u, v.localHeaderOffset⟩⟩ : Zip64Extra) = ⟨false, v⟩ ↔
      u = v.uncompressedSize ∧ c = v.compressedSize := by
  constructor
  · intro h
    have hvalues := congrArg Zip64Extra.values h
    exact ⟨congrArg Zip64Values.uncompressedSize hvalues,
      congrArg Zip64Values.compressedSize hvalues⟩
  · rintro ⟨rfl, rfl⟩
    rfl

theorem parseZip64Record_iff {header : ZipCentralHeader} {data : List UInt8} {v : Zip64Values} :
    parseZip64Record header data v = zip64FieldMeaning header v data ↔
      Zip64FieldKept header v data := by
  have hC : zip64Marker header.uncompressedSize + zip64Marker header.compressedSize ≤
    zip64Needed header := Nat.le_add_right _ _
  rw [parseZip64Record_eq, zip64FieldMeaning, Zip64FieldKept]
  by_cases hall : 8 * zip64Needed header ≤ data.length
  · rw [if_pos hall, if_pos hall]
    exact iff_of_true rfl (.inl hall)
  rw [if_neg hall, if_neg hall, or_iff_right hall]
  by_cases htwo : 8 * (zip64Marker header.uncompressedSize + zip64Marker header.compressedSize) ≤
      data.length
  · rw [if_pos htwo, zip64Values_eq_old, zip64FieldValue_eq_old, zip64FieldValue_eq_old]
    refine and_congr (imp_congr_right fun hmarker ↦ ?_) (imp_congr_right fun hmarker ↦ ?_)
    · refine ⟨fun h _ ↦ h, fun h ↦ h ?_⟩
      omega
    · refine ⟨fun h _ ↦ h, fun h ↦ h ?_⟩
      omega
  rw [if_neg htwo]
  by_cases hone : 8 * zip64Marker header.uncompressedSize ≤ data.length
  · rw [if_pos hone, zip64Values_eq_old, zip64FieldValue_eq_old]
    refine and_congr (imp_congr_right fun hmarker ↦ ?_) ?_
    · refine ⟨fun h _ ↦ h, fun h ↦ h ?_⟩
      omega
    · refine iff_of_true rfl fun hmarker hlong ↦ ?_
      omega
  · rw [if_neg hone]
    refine iff_of_true rfl ⟨fun hmarker hlong ↦ ?_, fun hmarker hlong ↦ ?_⟩
    · omega
    · omega

theorem zip64FieldFound_eq (header : ZipCentralHeader) (v : Zip64Values) (data tail : List UInt8) :
    zip64FieldFound header v data.length (data ++ tail) = parseZip64Record header data v := by
  rw [zip64FieldFound, if_neg (by rw [List.length_append]; omega), List.take_left]

/-- Both scans respect the structure of the fields exactly when the first field of each kind is a whole
record, or one that is rejected before anything outside it is read and anything is assigned. -/
theorem extraFields_respected_iff {fields : List Field} {header : ZipCentralHeader} {uid gid : ℕ}
    {v : Zip64Values} :
    (RespectsFields zipExtraUnix7875Id (parseUnixExtraFieldInto uid gid) (unixFieldMeaning uid gid)
        ⟨false, uid, gid⟩ fields ∧
      RespectsFields zipExtraZip64Id (parseZip64ExtraFieldInto header v) (zip64FieldMeaning header v)
        ⟨false, v⟩ fields) ↔
    ∀ before f after, fields = before ++ f :: after →
      ((∀ g ∈ before, g.id ≠ zipExtraUnix7875Id) → f.id = zipExtraUnix7875Id →
        UnixFieldKept uid f.data (fieldBytes after).length) ∧
      ((∀ g ∈ before, g.id ≠ zipExtraZip64Id) → f.id = zipExtraZip64Id →
        Zip64FieldKept header v f.data) := by
  have hunix := @scan_respectsFields_iff _ zipExtraUnix7875Id (unixFieldFound uid gid)
    ⟨false, uid, gid⟩ (unixFieldMeaning uid gid) fields
  have hzip64 := @scan_respectsFields_iff _ zipExtraZip64Id (zip64FieldFound header v)
    ⟨false, v⟩ (zip64FieldMeaning header v) fields
  constructor
  · rintro ⟨hu, hz⟩ before f after hfields
    constructor
    · intro hbefore hf
      exact unixFieldFound_iff.mp (hunix.mp hu before f after hfields hbefore hf)
    · intro hbefore hf
      have hfound := hzip64.mp hz before f after hfields hbefore hf (fieldBytes after) rfl
      rw [zip64FieldFound_eq] at hfound
      exact parseZip64Record_iff.mp hfound
  · intro hall
    constructor
    · refine hunix.mpr fun before f after hfields hbefore hf ↦ ?_
      exact unixFieldFound_iff.mpr ((hall before f after hfields).1 hbefore hf)
    · refine hzip64.mpr fun before f after hfields hbefore hf tail _ ↦ ?_
      rw [zip64FieldFound_eq]
      exact parseZip64Record_iff.mpr ((hall before f after hfields).2 hbefore hf)

/-- A central header with markers for both sizes. -/
def bothSizesMarked : ZipCentralHeader :=
  { parseCentralHeader [] with compressedSize := 0xFFFFFFFF, uncompressedSize := 0xFFFFFFFF }

/-- A Unix field whose group id would lie in the field after it, and a ZIP64 field with one of two
values. -/
theorem extraFields_notRespected :
    (¬ RespectsFields zipExtraUnix7875Id (parseUnixExtraFieldInto 0 0) (unixFieldMeaning 0 0)
      ⟨false, 0, 0⟩ [⟨zipExtraUnix7875Id, [1, 0, 1], by decide, by decide⟩,
        ⟨0x5455, [7], by decide, by decide⟩]) ∧
    ¬ RespectsFields zipExtraZip64Id
      (parseZip64ExtraFieldInto bothSizesMarked ⟨0xFFFFFFFF, 0xFFFFFFFF, 0⟩)
      (zip64FieldMeaning bothSizesMarked ⟨0xFFFFFFFF, 0xFFFFFFFF, 0⟩)
      ⟨false, ⟨0xFFFFFFFF, 0xFFFFFFFF, 0⟩⟩
      [⟨zipExtraZip64Id, [5, 0, 0, 0, 1, 0, 0, 0], by decide, by decide⟩] := by
  constructor
  · rintro ⟨-, hfirst⟩
    have hfield := hfirst [] _ _ rfl (by simp) rfl _ rfl
    revert hfield
    decide +kernel
  · rintro ⟨-, hfirst⟩
    have hfield := hfirst [] _ _ rfl (by simp) rfl _ rfl
    revert hfield
    decide +kernel

end Burst
