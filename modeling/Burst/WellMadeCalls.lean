import Burst.RoundTrip

namespace Burst

open Tiling LittleEndian

def AddCall.owner : AddCall → ℕ × ℕ
  | .file _ _ _ uid gid => (uid, gid)
  | .symlink _ _ _ uid gid => (uid, gid)
  | .directory _ _ uid gid => (uid, gid)

/-- A call as `process_entry` makes them, with values that the fields of the records hold. -/
structure AddCall.WellMade (call : AddCall) : Prop where
  wellFormed : call.lfh.WellFormed
  headerFits : call.HeaderFits
  consistent : call.Consistent
  compressionMethod : call.lfh.fields.compressionMethod < 2 ^ 16
  checksum : call.isSymlink = true → call.lfh.fields.crc32 < 2 ^ 32
  owner : call.owner.1 < 2 ^ 32 ∧ call.owner.2 < 2 ^ 32
  content : call.content.length < 2 ^ 64

/-- Every entry is recorded for a call, and its data lies in the body. -/
theorem recordedAll_of_call {env : WriterEnv} {level : ℤ} {pos : ℕ} {calls : List AddCall} {e : FileEntry}
    (he : e ∈ recordedAll env level pos calls) :
    ∃ call ∈ calls, ∃ pos', e = recordedEntry env level pos' call ∧
      e.compressedSize ≤ total Item.len (bodyItems (layoutAll env level pos calls)) := by
  induction calls generalizing pos with
  | nil => cases he
  | cons call calls ih =>
    simp only [layoutAll, bodyItems, List.flatMap_cons, total_append]
    rcases List.mem_cons.mp he with rfl | hlater
    · refine ⟨call, List.mem_cons_self, pos, rfl, ?_⟩
      rw [recordedEntry_compressedSize, EntryLayout.items, EntryLayout.body, total_append, total_cons,
        total_append, total_append]
      omega
    · obtain ⟨later, hcall, pos', heq, hle⟩ := ih hlater
      simp only [bodyItems] at hle
      exact ⟨later, List.mem_cons_of_mem _ hcall, pos', heq, by omega⟩

theorem fileCrc_lt {env : WriterEnv} (hcrc : ∀ crc data, crc < 2 ^ 32 → env.crc32 crc data < 2 ^ 32)
    (input : InputFile) :
    fileCrc env input < 2 ^ 32 := by
  refine List.foldlRecOn input.chunks env.crc32 (motive := fun crc ↦ crc < 2 ^ 32) (by norm_num) ?_
  exact fun crc hlt chunk _ ↦ hcrc crc chunk hlt

/-- What is recorded of a call, apart from its place and its sizes. -/
theorem AddCall.WellMade.recorded {env : WriterEnv} {call : AddCall} (h : call.WellMade)
    (hcrc : ∀ crc data, crc < 2 ^ 32 → env.crc32 crc data < 2 ^ 32) (level : ℤ) (pos : ℕ) :
    (recordedEntry env level pos call).crc32 < 2 ^ 32 ∧
      (recordedEntry env level pos call).compressionMethod < 2 ^ 16 ∧
      (recordedEntry env level pos call).uid < 2 ^ 32 ∧ (recordedEntry env level pos call).gid < 2 ^ 32 := by
  have hmethod := h.compressionMethod
  obtain ⟨huid, hgid⟩ := h.owner
  cases call with
  | directory => exact ⟨by simp [recordedEntry], hmethod, huid, hgid⟩
  | symlink => exact ⟨h.checksum rfl, hmethod, huid, hgid⟩
  | file input =>
    rw [recordedEntry]
    dsimp only
    split
    · exact ⟨by simp [populateEntryMetadata, allocateFileEntry], hmethod, huid, hgid⟩
    · exact ⟨fileCrc_lt hcrc input, hmethod, huid, hgid⟩

theorem LocalFileHeader.WellFormed.nameDecodes {h : LocalFileHeader} (hw : h.WellFormed) :
    h.filename.length < 2 ^ 16 ∧ ∀ b ∈ h.filename, b ≠ 0 := by
  constructor
  · apply (List.takeWhile_sublist _).length_le.trans_lt
    rw [List.length_take]
    exact (Nat.min_le_left _ _).trans_lt hw.filenameLength_lt
  · intro b hb
    simpa using List.mem_takeWhile_imp hb

/-- What is recorded of the calls fits the central directory. -/
theorem recordedAll_inRange {env : WriterEnv} {level : ℤ} {calls : List AddCall}
    (hcrc : ∀ crc data, crc < 2 ^ 32 → env.crc32 crc data < 2 ^ 32) (hmade : ∀ call ∈ calls, call.WellMade)
    (hsize : total Item.len (bodyItems (layoutAll env level 0 calls)) < 2 ^ 64) :
    ∀ e ∈ recordedAll env level 0 calls, e.InRange ∧ e.NameDecodes := by
  intro e he
  obtain ⟨call, hcall, pos, rfl, hcompressed⟩ := recordedAll_of_call he
  have hoffset := (recordedAll_offset he).2
  have h := hmade call hcall
  have hrecords := recordedEntry_records env level pos h.headerFits
  have hlength := h.content
  rw [← hrecords.uncompressedSize] at hlength
  obtain ⟨hchecksum, hmethod, huid, hgid⟩ := h.recorded hcrc level pos
  obtain ⟨hshort, hnul⟩ := h.wellFormed.nameDecodes
  rw [← hrecords.filename] at hshort hnul
  exact ⟨⟨by omega, by omega, hlength, hchecksum, hmethod, huid, hgid⟩, hshort, hnul⟩

/-- The archive as the downloader has it: the sizes and the offsets of the entries come back from its central
directory, and where an entry goes on into another part the part map has it go on. -/
structure Extraction.Opens (x : Extraction) (env : WriterEnv) (level : ℤ) (calls : List AddCall)
    (archive : List UInt8) : Prop where
  frames : FramesDecode env level x.zstd
  markers : ∀ e ∈ recordedAll env level 0 calls, e.AvoidsMarker
  partSize : burstPartSize ∣ x.partSize
  partSize_pos : 0 < x.partSize
  size : archive.length + x.partSize < 2 ^ 64
  fewParts : archive.length ≤ 2 ^ 32 * x.partSize
  parsed : ∃ start ≤ total Item.len (bodyItems (layoutAll env level 0 calls)),
    centralDirParse (archive.drop start) archive.length x.partSize = .ok x.cdResult
  continues : ∀ s ∈ entrySpans 0 (layoutAll env level 0 calls), ∀ p,
    s.Crosses (p * x.partSize) → p * x.partSize + s.lfhLen < s.dataEnd + 46

/-- Whoever opens the archive knows it. -/
theorem knows_of_opens {env : WriterEnv} {level : ℤ} {calls : List AddCall} (hbound : FramesBounded env level)
    (hcrc : ∀ crc data, crc < 2 ^ 32 → env.crc32 crc data < 2 ^ 32)
    (hmade : ∀ call ∈ calls, call.WellMade ∧ call.lfh.rawName ≠ paddingLfhFilename)
    (hnames : PlainNames (calls.map fun call ↦ call.lfh.filename)) {limits : List ℕ} {w w' : BurstWriter}
    (hadd : addAll env calls (burstWriterCreate ⟨[], limits⟩ level) = (some (), w))
    (hfin : burstWriterFinalize w = (some (), w')) {x : Extraction}
    (hopens : x.Opens env level calls w'.output.bytes) : x.Knows env level calls w'.output.bytes where
  written := ⟨limits, w, w', hadd, hfin, rfl⟩
  bound := hbound
  frames := hopens.frames
  headers call hcall := ⟨(hmade call hcall).1.wellFormed, (hmade call hcall).2, (hmade call hcall).1.headerFits⟩
  kinds call hcall := (hmade call hcall).1.consistent
  names := hnames
  entries := by
    intro e he
    obtain ⟨-, hbytes⟩ := finalized_bytes hadd hfin
    have hbody := congrArg List.length hbytes
    rw [List.length_append, List.length_append, itemBytes_length] at hbody
    have hsize := hopens.size
    obtain ⟨hrange, hname⟩ := recordedAll_inRange hcrc (fun call hcall ↦ (hmade call hcall).1) (by omega) e he
    exact ⟨hrange, hname, hopens.markers e he⟩
  partSize := hopens.partSize
  partSize_pos := hopens.partSize_pos
  size := hopens.size
  fewParts := hopens.fewParts
  parsed := hopens.parsed
  continues := hopens.continues

end Burst
