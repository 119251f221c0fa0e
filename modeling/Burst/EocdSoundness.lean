import Burst.CentralDirParse
import Burst.CentralDirRoundTrip
import Burst.Lib.CheckedRead

namespace Burst

open LittleEndian

theorem findEocdFrom_le {buffer : List UInt8} {n e : ℕ} (h : findEocdFrom buffer n = some e) :
    e ≤ n := by
  induction n with
  | zero =>
    rw [findEocdFrom] at h
    split_ifs at h
    exact (Option.some.inj h).ge
  | succ n ih =>
    rw [findEocdFrom] at h
    split_ifs at h
    · exact (Option.some.inj h).ge
    · exact (ih h).trans (Nat.le_succ n)

theorem findEocdFrom_signature {buffer : List UInt8} {n e : ℕ}
    (h : findEocdFrom buffer n = some e) : read buffer e 4 = zipEndCentralDirSig := by
  induction n with
  | zero =>
    rw [findEocdFrom] at h
    split_ifs at h with hsig
    exact Option.some.inj h ▸ hsig
  | succ n ih =>
    rw [findEocdFrom] at h
    split_ifs at h with hsig
    · exact Option.some.inj h ▸ hsig
    · exact ih h

/-- A position found: the record lies in the buffer under its signature, the locator right before
it. -/
structure EocdPosition.Found (p : EocdPosition) (buffer : List UInt8) : Prop where
  inside : p.eocdOffset + 22 ≤ buffer.length
  signature : read buffer p.eocdOffset 4 = zipEndCentralDirSig
  locator : p.isZip64 = true → p.locatorOffset + 20 = p.eocdOffset

theorem findEocd_found {buffer : List UInt8} {p : EocdPosition} (h : findEocd buffer = .ok p) :
    p.Found buffer := by
  rw [findEocd] at h
  split_ifs at h with hshort
  split at h
  · cases h
  · next e hfind =>
    have hle := findEocdFrom_le hfind
    have hinside : e + 22 ≤ buffer.length := by omega
    split_ifs at h with hlocator
    · obtain rfl := Except.ok.inj h
      exact ⟨hinside, findEocdFrom_signature hfind, fun _ ↦ Nat.sub_add_cancel hlocator.1⟩
    · obtain rfl := Except.ok.inj h
      exact ⟨hinside, findEocdFrom_signature hfind, fun hzip64 ↦ by cases hzip64⟩

/-! The search for the end records again, with every read checked: `none` when one leaves the
buffer. -/

namespace Checked

def findEocdFrom (buffer : List UInt8) : ℕ → Option (Option ℕ)
  | 0 => do
    let sig ← readChecked buffer 0 4
    if sig = zipEndCentralDirSig then return some 0 else return none
  | n + 1 => do
    let sig ← readChecked buffer (n + 1) 4
    if sig = zipEndCentralDirSig then return some (n + 1) else findEocdFrom buffer n

def findEocd (buffer : List UInt8) : Option (Except CentralDirParseError EocdPosition) :=
  if buffer.length < 22 then return .error .noEocd
  else do
    match ← findEocdFrom buffer (buffer.length - 22) with
    | none => return .error .noEocd
    | some eocdOffset =>
      if eocdOffset ≥ 20 then
        let locSig ← readChecked buffer (eocdOffset - 20) 4
        if locSig = zipZip64EndCentralDirLocatorSig then
          return .ok ⟨eocdOffset, true, eocdOffset - 20⟩
        else return .ok ⟨eocdOffset, false, 0⟩
      else return .ok ⟨eocdOffset, false, 0⟩

def parseZip64Eocd (buffer : List UInt8) (eocd64Offset : ℕ) :
    Option (Except CentralDirParseError (ℕ × ℕ × Option ℕ)) :=
  if (eocd64Offset + 56) % 2 ^ 64 > buffer.length then return .error .truncated
  else do
    let signature ← readChecked buffer eocd64Offset 4
    if signature ≠ zipZip64EndCentralDirSig then return .error .invalidSignature
    else
      let cdOffset ← readChecked buffer (eocd64Offset + 48) 8
      let numEntries ← readChecked buffer (eocd64Offset + 32) 8
      let cdSize ← readChecked buffer (eocd64Offset + 40) 8
      return .ok (cdOffset, cdSize, some numEntries)

def parseEocd (buffer : List UInt8) (eocdOffset : ℕ) :
    Option (Except CentralDirParseError (ℕ × ℕ × Option ℕ)) :=
  if eocdOffset + 22 > buffer.length then return .error .truncated
  else do
    let signature ← readChecked buffer eocdOffset 4
    if signature ≠ zipEndCentralDirSig then return .error .invalidSignature
    else
      let cdOffset ← readChecked buffer (eocdOffset + 16) 4
      let _ ← readChecked buffer (eocdOffset + 10) 2
      let cdSize ← readChecked buffer (eocdOffset + 12) 4
      return .ok (cdOffset, cdSize, none)

def centralDirExtent (buffer : List UInt8) (archiveSize : ℕ) (p : EocdPosition) :
    Option (Except CentralDirParseError (ℕ × ℕ × Option ℕ)) :=
  if p.isZip64 then
    if p.locatorOffset + 20 > buffer.length then return .error .truncated
    else do
      let eocd64ArchiveOffset ← readChecked buffer (p.locatorOffset + 8) 8
      if eocd64ArchiveOffset < sub64 archiveSize buffer.length then return .error .truncated
      else parseZip64Eocd buffer (eocd64ArchiveOffset - sub64 archiveSize buffer.length)
  else parseEocd buffer p.eocdOffset

def parseBurstEocdComment (buffer : List UInt8) (eocdOffset : ℕ) : Option ℕ := do
  let commentLength ← readChecked buffer (eocdOffset + 20) 2
  if commentLength ≥ burstEocdCommentSize ∧
      eocdOffset + 22 + burstEocdCommentSize ≤ buffer.length then
    let magic ← readChecked buffer (eocdOffset + 22) 4
    if magic = burstEocdCommentMagic then
      let version ← readChecked buffer (eocdOffset + 26) 1
      if version = burstEocdCommentVersion then readChecked buffer (eocdOffset + 27) 3
      else return 0
    else return 0
  else return 0

def centralDirParseEocdOnly (buffer : List UInt8) (archiveSize : ℕ) :
    Option (Except CentralDirParseError CentralDirLocation) :=
  if buffer.length = 0 then return .error .invalidBuffer
  else do
    match ← findEocd buffer with
    | .error e => return .error e
    | .ok p =>
      match ← centralDirExtent buffer archiveSize p with
      | .error e => return .error e
      | .ok (cdOffset, cdSize, numEntries) =>
        if cdOffset ≥ archiveSize then return .error .truncated
        else if (cdOffset + cdSize) % 2 ^ 64 > archiveSize then return .error .truncated
        else
          let firstCdfhOffsetInTail ← parseBurstEocdComment buffer p.eocdOffset
          return .ok ⟨cdOffset, cdSize, numEntries, p.isZip64, firstCdfhOffsetInTail⟩

theorem findEocdFrom_eq {buffer : List UInt8} {n : ℕ} (h : n + 4 ≤ buffer.length) :
    findEocdFrom buffer n = some (Burst.findEocdFrom buffer n) := by
  induction n with
  | zero =>
    rw [findEocdFrom, Burst.findEocdFrom, readChecked_inside h]
    simp only [Option.bind_eq_bind, Option.bind_some]
    split <;> rfl
  | succ n ih =>
    rw [findEocdFrom, Burst.findEocdFrom, readChecked_inside h, ih (by omega)]
    simp only [Option.bind_eq_bind, Option.bind_some]
    split <;> rfl

/-- The search never leaves the buffer. -/
theorem findEocd_eq (buffer : List UInt8) : findEocd buffer = some (Burst.findEocd buffer) := by
  rw [findEocd, Burst.findEocd]
  by_cases hshort : buffer.length < 22
  · rw [if_pos hshort, if_pos hshort]
    rfl
  · rw [if_neg hshort, if_neg hshort, findEocdFrom_eq (by omega)]
    simp only [Option.bind_eq_bind, Option.bind_some]
    cases hfind : Burst.findEocdFrom buffer (buffer.length - 22) with
    | none => rfl
    | some eocdOffset =>
      have hle : eocdOffset ≤ buffer.length - 22 := findEocdFrom_le hfind
      by_cases hroom : eocdOffset ≥ 20
      · have hlocator : eocdOffset - 20 + 4 ≤ buffer.length := by omega
        simp only [hroom, if_true, true_and, readChecked_inside hlocator, Option.bind_some]
        split <;> rfl
      · simp only [hroom, if_false, false_and]
        rfl

theorem parseEocd_eq (buffer : List UInt8) (eocdOffset : ℕ) :
    parseEocd buffer eocdOffset = some (Burst.parseEocd buffer eocdOffset) := by
  rw [parseEocd, Burst.parseEocd]
  by_cases hshort : eocdOffset + 22 > buffer.length
  · rw [if_pos hshort, if_pos hshort]
    rfl
  · rw [if_neg hshort, if_neg hshort, readChecked_inside (by omega), readChecked_inside (by omega),
      readChecked_inside (by omega), readChecked_inside (by omega)]
    simp only [Option.bind_eq_bind, Option.bind_some]
    split <;> rfl

theorem parseBurstEocdComment_eq {buffer : List UInt8} {eocdOffset : ℕ}
    (h : eocdOffset + 22 ≤ buffer.length) :
    parseBurstEocdComment buffer eocdOffset =
      some (Burst.parseBurstEocdComment buffer eocdOffset) := by
  have hsize : burstEocdCommentSize = 8 := rfl
  rw [parseBurstEocdComment, Burst.parseBurstEocdComment, readChecked_inside (by omega)]
  simp only [Option.bind_eq_bind, Option.bind_some]
  by_cases hroom : read buffer (eocdOffset + 20) 2 ≥ burstEocdCommentSize ∧
      eocdOffset + 22 + burstEocdCommentSize ≤ buffer.length
  · rw [if_pos hroom, readChecked_inside (by omega)]
    simp only [Option.bind_some]
    by_cases hmagic : read buffer (eocdOffset + 22) 4 = burstEocdCommentMagic
    · rw [if_pos hmagic, readChecked_inside (by omega)]
      simp only [Option.bind_some]
      by_cases hversion : read buffer (eocdOffset + 26) 1 = burstEocdCommentVersion
      · rw [if_pos hversion, if_pos ⟨hroom.1, hroom.2, hmagic, hversion⟩]
        exact readChecked_inside (by omega)
      · rw [if_neg hversion, if_neg fun h ↦ hversion h.2.2.2]
        rfl
    · rw [if_neg hmagic, if_neg fun h ↦ hmagic h.2.2.1]
      rfl
  · rw [if_neg hroom, if_neg fun h ↦ hroom ⟨h.1, h.2.1⟩]
    rfl

end Checked

/-- The end of a ZIP64 record at an offset wraps around to one that looks as if it lay in the
buffer. -/
def RecordWraps (buffer : List UInt8) (eocd64Offset : ℕ) : Prop :=
  2 ^ 64 ≤ eocd64Offset + 56 ∧ eocd64Offset + 56 - 2 ^ 64 ≤ buffer.length

/-- The fields of an end record that the search returns. -/
structure EndRecord where
  cdOffset : ℕ
  cdSize : ℕ
  numEntries : ℕ
  deriving DecidableEq, Repr

def eocdRecord (buffer : List UInt8) (eocdOffset : ℕ) : EndRecord :=
  ⟨read buffer (eocdOffset + 16) 4, read buffer (eocdOffset + 12) 4, read buffer (eocdOffset + 10) 2⟩

def zip64EocdRecord (buffer : List UInt8) (eocd64Offset : ℕ) : EndRecord :=
  ⟨read buffer (eocd64Offset + 48) 8, read buffer (eocd64Offset + 40) 8,
    read buffer (eocd64Offset + 32) 8⟩

/-- Where the ZIP64 record begins, in the archive. -/
def eocd64ArchiveOffset (buffer : List UInt8) (p : EocdPosition) : ℕ :=
  read buffer (p.locatorOffset + 8) 8

/-- Where the ZIP64 record begins, in a buffer that holds the end of the archive. -/
def eocd64BufferOffset (buffer : List UInt8) (archiveSize : ℕ) (p : EocdPosition) : ℕ :=
  eocd64ArchiveOffset buffer p - (archiveSize - buffer.length)

/-- The ZIP64 record when there is a locator, the standard record otherwise. -/
def locatedRecord (buffer : List UInt8) (archiveSize : ℕ) (p : EocdPosition) : EndRecord :=
  if p.isZip64 then zip64EocdRecord buffer (eocd64BufferOffset buffer archiveSize p)
  else eocdRecord buffer p.eocdOffset

/-- What a location says is what the record says, and the directory lies in the archive. -/
def CentralDirLocation.Tells (loc : CentralDirLocation) (record : EndRecord) (archiveSize : ℕ) :
    Prop :=
  loc.centralDirOffset = record.cdOffset ∧ loc.centralDirSize = record.cdSize ∧
    loc.numEntries = some record.numEntries ∧
    loc.centralDirOffset + loc.centralDirSize ≤ archiveSize

/-- No read leaves the buffer, and a location found tells what the located record says. -/
def EocdOnlySound (buffer : List UInt8) (archiveSize : ℕ) : Prop :=
  Checked.centralDirParseEocdOnly buffer archiveSize =
    some (centralDirParseEocdOnly buffer archiveSize) ∧
  ∀ loc, centralDirParseEocdOnly buffer archiveSize = .ok loc →
    ∃ p, findEocd buffer = .ok p ∧ loc.Tells (locatedRecord buffer archiveSize p) archiveSize

/-- The checks on the extent of the directory, as the code computes them. -/
def EndRecord.PassesChecks (record : EndRecord) (archiveSize : ℕ) : Prop :=
  record.cdOffset < archiveSize ∧ (record.cdOffset + record.cdSize) % 2 ^ 64 ≤ archiveSize

/-- The locator points into the buffer, at a record whose end wraps around. -/
def Zip64RecordWraps (buffer : List UInt8) (archiveSize : ℕ) (p : EocdPosition) : Prop :=
  archiveSize - buffer.length ≤ eocd64ArchiveOffset buffer p ∧
    RecordWraps buffer (eocd64BufferOffset buffer archiveSize p)

/-- The locator points at a ZIP64 record in the buffer. -/
def Zip64RecordRead (buffer : List UInt8) (archiveSize : ℕ) (p : EocdPosition) : Prop :=
  archiveSize - buffer.length ≤ eocd64ArchiveOffset buffer p ∧
    eocd64BufferOffset buffer archiveSize p + 56 ≤ buffer.length ∧
    read buffer (eocd64BufferOffset buffer archiveSize p) 4 = zipZip64EndCentralDirSig

/-- A ZIP64 record does not wrap around, nor does the directory it gives; a standard record does
not pass the checks. -/
def ReliableRecord (buffer : List UInt8) (archiveSize : ℕ) (p : EocdPosition) : Prop :=
  let record := locatedRecord buffer archiveSize p
  if p.isZip64 then
    ¬ Zip64RecordWraps buffer archiveSize p ∧
      (Zip64RecordRead buffer archiveSize p → record.PassesChecks archiveSize →
        record.cdOffset + record.cdSize < 2 ^ 64)
  else ¬ record.PassesChecks archiveSize

instance (buffer : List UInt8) (z : ℕ) : Decidable (RecordWraps buffer z) := by
  unfold RecordWraps
  infer_instance

instance (record : EndRecord) (archiveSize : ℕ) : Decidable (record.PassesChecks archiveSize) := by
  unfold EndRecord.PassesChecks
  infer_instance

instance (buffer : List UInt8) (archiveSize : ℕ) (p : EocdPosition) :
    Decidable (Zip64RecordWraps buffer archiveSize p) := by
  unfold Zip64RecordWraps
  infer_instance

instance (buffer : List UInt8) (archiveSize : ℕ) (p : EocdPosition) :
    Decidable (Zip64RecordRead buffer archiveSize p) := by
  unfold Zip64RecordRead
  infer_instance

instance (buffer : List UInt8) (archiveSize : ℕ) (p : EocdPosition) :
    Decidable (ReliableRecord buffer archiveSize p) := by
  unfold ReliableRecord
  infer_instance

/-- The ZIP64 record is read inside the buffer unless its end wraps around. -/
theorem Checked.parseZip64Eocd_eq {buffer : List UInt8} {z : ℕ}
    (hbuffer : buffer.length < 2 ^ 63) (hz : z < 2 ^ 64) :
    Checked.parseZip64Eocd buffer z =
      if RecordWraps buffer z then none else some (Burst.parseZip64Eocd buffer z) := by
  rw [Checked.parseZip64Eocd, Burst.parseZip64Eocd]
  by_cases htruncated : (z + 56) % 2 ^ 64 > buffer.length
  · have hwraps : ¬ RecordWraps buffer z := by
      rw [RecordWraps]
      omega
    rw [if_pos htruncated, if_pos htruncated, if_neg hwraps]
    rfl
  · rw [if_neg htruncated, if_neg htruncated]
    by_cases hwraps : RecordWraps buffer z
    · have hfar : buffer.length < z + 4 := by
        rw [RecordWraps] at hwraps
        omega
      rw [if_pos hwraps, readChecked_outside hfar]
      rfl
    · have hnear : z + 56 ≤ buffer.length := by
        rw [RecordWraps] at hwraps
        omega
      rw [if_neg hwraps, readChecked_inside (by omega), readChecked_inside (by omega),
        readChecked_inside (by omega), readChecked_inside (by omega)]
      simp only [Option.bind_eq_bind, Option.bind_some]
      split <;> rfl

section Located

variable {buffer : List UInt8} {archiveSize : ℕ} {p : EocdPosition}

theorem sub64_length (hsize : buffer.length ≤ archiveSize) (harchive : archiveSize < 2 ^ 64) :
    sub64 archiveSize buffer.length = archiveSize - buffer.length :=
  sub64_of_le hsize harchive

theorem Checked.centralDirExtent_eq (hbuffer : buffer.length < 2 ^ 63)
    (hsize : buffer.length ≤ archiveSize) (harchive : archiveSize < 2 ^ 64)
    (hp : p.Found buffer) :
    Checked.centralDirExtent buffer archiveSize p =
      if p.isZip64 = true ∧ Zip64RecordWraps buffer archiveSize p then none
      else some (Burst.centralDirExtent buffer archiveSize p) := by
  rw [Checked.centralDirExtent, Burst.centralDirExtent]
  cases hzip64 : p.isZip64 with
  | false => simp [Checked.parseEocd_eq]
  | true =>
    have hinside := hp.inside
    have hlocator := hp.locator hzip64
    have hz : eocd64BufferOffset buffer archiveSize p < 2 ^ 64 := by
      have hread := read_lt buffer (p.locatorOffset + 8) 8
      rw [eocd64BufferOffset, eocd64ArchiveOffset]
      omega
    have hroom : ¬ p.locatorOffset + 20 > buffer.length := by omega
    have hfield : p.locatorOffset + 8 + 8 ≤ buffer.length := by omega
    simp only [if_true, true_and, if_neg hroom, readChecked_inside hfield,
      sub64_length hsize harchive, Option.bind_eq_bind, Option.bind_some]
    by_cases hbefore : read buffer (p.locatorOffset + 8) 8 < archiveSize - buffer.length
    · have hwraps : ¬ Zip64RecordWraps buffer archiveSize p :=
        fun h ↦ Nat.not_le.mpr hbefore h.1
      rw [if_pos hbefore, if_pos hbefore, if_neg hwraps]
      rfl
    · have hwraps : Zip64RecordWraps buffer archiveSize p ↔
          RecordWraps buffer (eocd64BufferOffset buffer archiveSize p) :=
        ⟨fun h ↦ h.2, fun h ↦ ⟨Nat.not_lt.mp hbefore, h⟩⟩
      rw [if_neg hbefore, if_neg hbefore]
      simp only [hwraps]
      exact Checked.parseZip64Eocd_eq hbuffer hz

/-- What is found in a standard record. -/
theorem centralDirExtent_standard (hzip64 : p.isZip64 = false) (hp : p.Found buffer) :
    centralDirExtent buffer archiveSize p =
      .ok ((locatedRecord buffer archiveSize p).cdOffset,
        (locatedRecord buffer archiveSize p).cdSize, none) := by
  have hinside := hp.inside
  rw [centralDirExtent, hzip64, if_neg (by simp), parseEocd, if_neg (by omega),
    if_neg (not_not.mpr hp.signature), locatedRecord, hzip64, if_neg (by simp)]
  rfl

/-- What is found in a ZIP64 record; no signature is read outside the buffer. -/
theorem centralDirExtent_zip64 (hbuffer : buffer.length < 2 ^ 63)
    (hsize : buffer.length ≤ archiveSize) (harchive : archiveSize < 2 ^ 64)
    (hzip64 : p.isZip64 = true) (hp : p.Found buffer) :
    if Zip64RecordRead buffer archiveSize p then
      centralDirExtent buffer archiveSize p =
        .ok ((locatedRecord buffer archiveSize p).cdOffset,
          (locatedRecord buffer archiveSize p).cdSize,
          some (locatedRecord buffer archiveSize p).numEntries)
    else ∃ e, centralDirExtent buffer archiveSize p = .error e := by
  have hinside := hp.inside
  have hlocator := hp.locator hzip64
  have hread := read_lt buffer (p.locatorOffset + 8) 8
  have hroom : ¬ p.locatorOffset + 20 > buffer.length := by omega
  simp only [centralDirExtent, locatedRecord, hzip64, if_true, if_neg hroom,
    sub64_length hsize harchive]
  by_cases hbefore : read buffer (p.locatorOffset + 8) 8 < archiveSize - buffer.length
  · have hnot : ¬ Zip64RecordRead buffer archiveSize p := fun h ↦ Nat.not_le.mpr hbefore h.1
    rw [if_neg hnot, if_pos hbefore]
    exact ⟨_, rfl⟩
  · have hafter : archiveSize - buffer.length ≤ eocd64ArchiveOffset buffer p := Nat.not_lt.mp hbefore
    rw [if_neg hbefore]
    change if _ then parseZip64Eocd buffer (eocd64BufferOffset buffer archiveSize p) = _ else
      ∃ e, parseZip64Eocd buffer (eocd64BufferOffset buffer archiveSize p) = _
    have hz : eocd64BufferOffset buffer archiveSize p < 2 ^ 64 := by
      rw [eocd64BufferOffset, eocd64ArchiveOffset]
      omega
    rw [parseZip64Eocd]
    by_cases htruncated : (eocd64BufferOffset buffer archiveSize p + 56) % 2 ^ 64 > buffer.length
    · have hnot : ¬ Zip64RecordRead buffer archiveSize p := by
        rintro ⟨-, hin, -⟩
        omega
      rw [if_neg hnot, if_pos htruncated]
      exact ⟨_, rfl⟩
    · rw [if_neg htruncated]
      by_cases hsig : read buffer (eocd64BufferOffset buffer archiveSize p) 4 =
          zipZip64EndCentralDirSig
      · have hfit : eocd64BufferOffset buffer archiveSize p + 56 ≤ buffer.length := by
          by_contra hlong
          rw [read_outside (by omega)] at hsig
          exact absurd hsig (by decide)
        rw [if_pos ⟨hafter, hfit, hsig⟩, if_neg (not_not.mpr hsig)]
        rfl
      · rw [if_neg fun h ↦ hsig h.2.2, if_pos hsig]
        exact ⟨_, rfl⟩

/-- The search fails when no extent is found. -/
theorem centralDirParseEocdOnly_error (hfind : findEocd buffer = .ok p) {e : CentralDirParseError}
    (h : centralDirExtent buffer archiveSize p = .error e) :
    ∃ e, centralDirParseEocdOnly buffer archiveSize = .error e := by
  rw [centralDirParseEocdOnly]
  split
  · exact ⟨_, rfl⟩
  · rw [hfind]
    simp only [h]
    exact ⟨_, rfl⟩

/-- The location the search returns when it finds an extent: the extent itself, when it passes the
checks. -/
theorem centralDirParseEocdOnly_ok_iff (hfind : findEocd buffer = .ok p) {record : EndRecord}
    {numEntries : Option ℕ} (h : centralDirExtent buffer archiveSize p =
      .ok (record.cdOffset, record.cdSize, numEntries)) (loc : CentralDirLocation) :
    centralDirParseEocdOnly buffer archiveSize = .ok loc ↔
      record.PassesChecks archiveSize ∧ loc = ⟨record.cdOffset, record.cdSize, numEntries, p.isZip64,
        parseBurstEocdComment buffer p.eocdOffset⟩ := by
  have hnonempty : buffer.length ≠ 0 := by
    have hinside := (findEocd_found hfind).inside
    omega
  rw [centralDirParseEocdOnly, if_neg hnonempty, hfind]
  simp only [h, EndRecord.PassesChecks]
  split_ifs with hoffset hsize
  · refine ⟨nofun, fun h ↦ ?_⟩
    omega
  · refine ⟨nofun, fun h ↦ ?_⟩
    omega
  · constructor
    · intro hloc
      exact ⟨⟨by omega, by omega⟩, (Except.ok.inj hloc).symm⟩
    · rintro ⟨-, rfl⟩
      rfl

/-- All reads are inside the buffer unless a ZIP64 record wraps around. -/
theorem Checked.centralDirParseEocdOnly_eq (hbuffer : buffer.length < 2 ^ 63)
    (hsize : buffer.length ≤ archiveSize) (harchive : archiveSize < 2 ^ 64)
    (hfind : Burst.findEocd buffer = .ok p) :
    Checked.centralDirParseEocdOnly buffer archiveSize =
      if p.isZip64 = true ∧ Zip64RecordWraps buffer archiveSize p then none
      else some (Burst.centralDirParseEocdOnly buffer archiveSize) := by
  have hp := findEocd_found hfind
  have hnonempty : buffer.length ≠ 0 := by
    have hinside := hp.inside
    omega
  have hcomment := Checked.parseBurstEocdComment_eq hp.inside
  have hextent := Checked.centralDirExtent_eq hbuffer hsize harchive hp
  rw [Checked.centralDirParseEocdOnly, Burst.centralDirParseEocdOnly, if_neg hnonempty,
    if_neg hnonempty, Checked.findEocd_eq, hfind]
  simp only [Option.bind_eq_bind, Option.bind_some, hextent]
  by_cases hwraps : p.isZip64 = true ∧ Zip64RecordWraps buffer archiveSize p
  · rw [if_pos hwraps, if_pos hwraps]
    rfl
  · rw [if_neg hwraps, if_neg hwraps]
    simp only [Option.bind_some]
    cases Burst.centralDirExtent buffer archiveSize p with
    | error e => rfl
    | ok extent =>
      obtain ⟨cdOffset, cdSize, numEntries⟩ := extent
      simp only [hcomment, Option.bind_some]
      split_ifs <;> rfl

/-- A standard record that passes is never told in full: its number of entries is not set. -/
theorem standard_sound_iff (hbuffer : buffer.length < 2 ^ 63) (hsize : buffer.length ≤ archiveSize)
    (harchive : archiveSize < 2 ^ 64) (hfind : findEocd buffer = .ok p) (hzip64 : p.isZip64 = false) :
    EocdOnlySound buffer archiveSize ↔ ¬ (locatedRecord buffer archiveSize p).PassesChecks archiveSize := by
  have hreads := Checked.centralDirParseEocdOnly_eq hbuffer hsize harchive hfind
  rw [if_neg (by simp [hzip64])] at hreads
  have hloc := @centralDirParseEocdOnly_ok_iff buffer archiveSize p hfind
    (locatedRecord buffer archiveSize p) none
    (centralDirExtent_standard hzip64 (findEocd_found hfind))
  constructor
  · rintro ⟨-, htells⟩ hpasses
    obtain ⟨p', -, -, -, hentries, -⟩ := htells _ ((hloc _).mpr ⟨hpasses, rfl⟩)
    cases hentries
  · intro hfails
    exact ⟨hreads, fun loc h ↦ (hfails ((hloc loc).mp h).1).elim⟩

theorem zip64_sound_iff (hbuffer : buffer.length < 2 ^ 63) (hsize : buffer.length ≤ archiveSize)
    (harchive : archiveSize < 2 ^ 64) (hfind : findEocd buffer = .ok p) (hzip64 : p.isZip64 = true) :
    EocdOnlySound buffer archiveSize ↔
      ¬ Zip64RecordWraps buffer archiveSize p ∧
        (Zip64RecordRead buffer archiveSize p →
          (locatedRecord buffer archiveSize p).PassesChecks archiveSize →
            (locatedRecord buffer archiveSize p).cdOffset +
              (locatedRecord buffer archiveSize p).cdSize < 2 ^ 64) := by
  have hreads := Checked.centralDirParseEocdOnly_eq hbuffer hsize harchive hfind
  simp only [hzip64, true_and] at hreads
  by_cases hwraps : Zip64RecordWraps buffer archiveSize p
  · rw [if_pos hwraps] at hreads
    refine ⟨fun hsound ↦ ?_, fun h ↦ (h.1 hwraps).elim⟩
    have htrap := hreads.symm.trans hsound.1
    cases htrap
  · rw [if_neg hwraps] at hreads
    have hextent := centralDirExtent_zip64 hbuffer hsize harchive hzip64 (findEocd_found hfind)
    by_cases hread : Zip64RecordRead buffer archiveSize p
    · rw [if_pos hread] at hextent
      have hloc := centralDirParseEocdOnly_ok_iff hfind hextent
      constructor
      · rintro ⟨-, htells⟩
        refine ⟨hwraps, fun _ hpasses ↦ ?_⟩
        obtain ⟨p', -, -, -, -, hfits⟩ := htells _ ((hloc _).mpr ⟨hpasses, rfl⟩)
        exact hfits.trans_lt harchive
      · rintro ⟨-, hfits⟩
        refine ⟨hreads, fun loc hok ↦ ?_⟩
        obtain ⟨hpasses, rfl⟩ := (hloc loc).mp hok
        refine ⟨p, hfind, rfl, rfl, rfl, ?_⟩
        have hsum := hpasses.2
        rwa [Nat.mod_eq_of_lt (hfits hread hpasses)] at hsum
    · rw [if_neg hread] at hextent
      obtain ⟨e, he⟩ := hextent
      obtain ⟨e', hfails⟩ := centralDirParseEocdOnly_error hfind he
      refine ⟨fun _ ↦ ⟨hwraps, fun h ↦ (hread h).elim⟩, fun _ ↦ ⟨hreads, fun loc hok ↦ ?_⟩⟩
      rw [hfails] at hok
      cases hok

end Located

/-- The search for the central directory is sound exactly when the record it locates is a ZIP64
record that does not wrap around and whose directory does not, or does not pass the checks. -/
theorem centralDirParseEocdOnly_sound_iff (buffer : List UInt8) (archiveSize : ℕ)
    (hbuffer : buffer.length < 2 ^ 63) (hsize : buffer.length ≤ archiveSize)
    (harchive : archiveSize < 2 ^ 64) :
    EocdOnlySound buffer archiveSize ↔
      ∀ p, findEocd buffer = .ok p → ReliableRecord buffer archiveSize p := by
  cases hfind : findEocd buffer with
  | error e =>
    have hfails : centralDirParseEocdOnly buffer archiveSize =
        .error (if buffer.length = 0 then .invalidBuffer else e) := by
      rw [centralDirParseEocdOnly, hfind]
      split <;> rfl
    have hreads : Checked.centralDirParseEocdOnly buffer archiveSize =
        some (.error (if buffer.length = 0 then .invalidBuffer else e)) := by
      rw [Checked.centralDirParseEocdOnly, Checked.findEocd_eq, hfind]
      split <;> rfl
    refine ⟨fun _ ↦ nofun, fun _ ↦ ⟨hreads.trans (congrArg some hfails.symm), ?_⟩⟩
    intro loc hok
    rw [hfails] at hok
    cases hok
  | ok p =>
    have hreliable : (∀ q, Except.ok p = (Except.ok q : Except CentralDirParseError EocdPosition) →
        ReliableRecord buffer archiveSize q) ↔ ReliableRecord buffer archiveSize p := by
      constructor
      · intro h
        exact h p rfl
      · rintro h q hq
        obtain rfl := Except.ok.inj hq
        exact h
    rw [hreliable, ReliableRecord]
    cases hzip64 : p.isZip64 with
    | false => simpa [hzip64] using standard_sound_iff hbuffer hsize harchive hfind hzip64
    | true => simpa [hzip64] using zip64_sound_iff hbuffer hsize harchive hfind hzip64

/-- The 22 bytes of an archive without entries. -/
def emptyZip : List UInt8 :=
  ZipEndCentralDir.bytes {
    signature := zipEndCentralDirSig
    diskNumber := 0
    diskWithCd := 0
    numEntriesThisDisk := 0
    numEntriesTotal := 0
    centralDirSize := 0
    centralDirOffset := 0
    commentLength := 0 }

/-- A ZIP64 record, a locator that points to an offset of its own choice, and an end record. -/
def zip64End (eocd64Offset centralDirOffset centralDirSize : ℕ) : List UInt8 :=
  Zip64EndCentralDir.bytes {
    signature := zipZip64EndCentralDirSig
    eocd64Size := 44
    versionMadeBy := zipVersionZstd
    versionNeeded := zipVersionZstd
    diskNumber := 0
    diskWithCd := 0
    numEntriesThisDisk := 0
    numEntriesTotal := 0
    centralDirSize := centralDirSize
    centralDirOffset := centralDirOffset } ++
  Zip64EndCentralDirLocator.bytes {
    signature := zipZip64EndCentralDirLocatorSig
    diskWithEocd64 := 0
    eocd64Offset := eocd64Offset
    totalDisks := 1 } ++ emptyZip

/-- The last bytes of an archive of more than 4 GiB with three entries. -/
def largeTail : List UInt8 := List.replicate 40 7 ++ endRecords spreadEntries 5000000300 200

theorem largeTail_sound :
    EocdOnlySound largeTail 5000000606 ∧
      centralDirParseEocdOnly largeTail 5000000606 = .ok ⟨5000000300, 200, some 3, true, 0⟩ := by
  have hfind : findEocd largeTail = .ok ⟨116, true, 96⟩ := by decide +kernel
  refine ⟨?_, by decide +kernel⟩
  have hlength : largeTail.length = 146 := by decide +kernel
  apply (centralDirParseEocdOnly_sound_iff _ _ (by rw [hlength]; norm_num) (by rw [hlength]; norm_num)
    (by norm_num)).mpr
  intro p hp
  obtain rfl := Except.ok.inj (hfind.symm.trans hp)
  decide +kernel

/-- The number of entries of a standard record is lost; a directory whose end wraps around passes;
a locator that points to the end of the address space takes a read out of the buffer. -/
theorem eocdOnly_unsound :
    ¬ EocdOnlySound emptyZip 22 ∧ ¬ EocdOnlySound (zip64End 0 1 (2 ^ 64 - 1)) 98 ∧
      ¬ EocdOnlySound (zip64End (2 ^ 64 - 8) 0 0) 98 := by
  refine ⟨?_, ?_, ?_⟩
  · rintro ⟨-, htells⟩
    have hok : centralDirParseEocdOnly emptyZip 22 = .ok ⟨0, 0, none, false, 0⟩ := by
      decide +kernel
    obtain ⟨p, -, -, -, hentries, -⟩ := htells _ hok
    cases hentries
  · rintro ⟨-, htells⟩
    have hok : centralDirParseEocdOnly (zip64End 0 1 (2 ^ 64 - 1)) 98 =
        .ok ⟨1, 2 ^ 64 - 1, some 0, true, 0⟩ := by
      decide +kernel
    obtain ⟨p, -, -, -, -, hfits⟩ := htells _ hok
    exact absurd hfits (by decide)
  · rintro ⟨hreads, -⟩
    have htrap : Checked.centralDirParseEocdOnly (zip64End (2 ^ 64 - 8) 0 0) 98 = none := by
      decide +kernel
    have hsome := hreads.symm.trans htrap
    cases hsome

end Burst
