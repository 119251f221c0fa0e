import Burst.PartExtraction
import Burst.FaultyOutput
import Burst.PlainNames
import Burst.WholeExtraction

namespace Burst

open Tiling LittleEndian Incremental

/-- How many headers have been met. -/
def ReadPos.met : ReadPos → ℕ
  | header i => i
  | data i _ => i + 1
  | target i => i + 1

section

variable {env : WriterEnv} {level : ℤ} {path : ℕ → Path} {entries : List (AddCall × FileEntry)}

theorem AddCall.opened_met (call : AddCall) (path : Path) (i : ℕ) : (call.opened path i).2.met = i + 1 := by
  cases call with
  | file input lfh unixMode uid gid =>
    rw [opened]
    split <;> rfl
  | symlink => rfl
  | directory => rfl

/-- The headers met in a stretch lie in the stretch. -/
theorem Reads.headers {pos : ℕ} {s s' : ReadPos} {is : List Item} {out : List FileOp}
    (h : Reads env level path entries pos s is out s') :
    s.met ≤ s'.met ∧ ∀ {j call e}, s.met ≤ j → j < s'.met → entries[j]? = some (call, e) →
      pos ≤ e.localHeaderOffset ∧ e.localHeaderOffset < pos + total Item.len is := by
  induction h with
  | nil => exact ⟨le_rfl, fun hlo hhi ↦ absurd hhi (Nat.not_lt.mpr hlo)⟩
  | @cons pos s t u item is out outs hstep htail ih =>
    obtain ⟨hmet, hheaders⟩ := ih
    have hlater {j : ℕ} {call : AddCall} {e : FileEntry} (hlo : t.met ≤ j) (hhi : j < u.met)
        (hentry : entries[j]? = some (call, e)) : pos ≤ e.localHeaderOffset ∧
          e.localHeaderOffset < pos + total Item.len (item :: is) := by
      obtain ⟨hge, hlt⟩ := hheaders hlo hhi hentry
      rw [total_cons]
      omega
    cases hstep with
    | padding => exact ⟨hmet, hlater⟩
    | @header i call e hentry hpos =>
      rw [AddCall.opened_met] at hmet hlater
      refine ⟨(Nat.le_succ i).trans hmet, fun hlo hhi hget ↦ ?_⟩
      rcases Nat.lt_or_ge i _ with hlt | hge
      · exact hlater hlt hhi hget
      · obtain rfl := Nat.le_antisymm hlo hge
        obtain ⟨-, rfl⟩ := Prod.mk.inj (Option.some.inj (hentry.symm.trans hget))
        have hlen : 0 < (Item.localHeader call.lfh).len := by
          rw [Item.len_localHeader, LocalFileHeader.len]
          omega
        rw [hpos, total_cons]
        omega
    | data => exact ⟨hmet, hlater⟩
    | descriptor => exact ⟨hmet, hlater⟩
    | target => exact ⟨hmet, hlater⟩

end

def AddCall.unixMode : AddCall → ℕ
  | .file _ _ unixMode _ _ => unixMode
  | .symlink _ _ unixMode _ _ => unixMode
  | .directory _ unixMode _ _ => unixMode

/-- A call whose name and permissions are those of an entry of its kind. -/
structure AddCall.Consistent (call : AddCall) : Prop where
  isSymlink : isLnk (call.unixMode % 2 ^ 16) = call.isSymlink
  isDirectory : decide (call.lfh.filename.getLast? = some slash) = call.isDirectory

/-- What the writer records of a call. -/
structure FileEntry.Records (e : FileEntry) (call : AddCall) : Prop where
  filename : e.filename = call.lfh.filename
  unixMode : e.unixMode = call.unixMode
  uncompressedSize : e.uncompressedSize = call.content.length
  usedZip64Descriptor : e.usedZip64Descriptor = usesZip64Descriptor e.compressedSize e.uncompressedSize

theorem recordedEntry_records (env : WriterEnv) (level : ℤ) (pos : ℕ) {call : AddCall}
    (hfit : call.HeaderFits) : (recordedEntry env level pos call).Records call := by
  have hname := (recordedEntry_header env level pos call).1
  cases call with
  | file input lfh unixMode uid gid =>
    cases hho : isHeaderOnly lfh with
    | true =>
      refine ⟨hname, ?_, ?_, ?_⟩
      · simp only [recordedEntry, hho, if_true, populateEntryMetadata, AddCall.unixMode]
      · simp only [recordedEntry, hho, if_true, populateEntryMetadata, allocateFileEntry, AddCall.content]
        rfl
      · simp only [recordedEntry, hho, if_true, populateEntryMetadata, allocateFileEntry]
        rfl
    | false =>
      refine ⟨hname, ?_, ?_, ?_⟩
      · simp only [recordedEntry, hho, Bool.false_eq_true, if_false, completedEntry, populateEntryMetadata,
          AddCall.unixMode]
      · simp only [recordedEntry, hho, Bool.false_eq_true, if_false, completedEntry, AddCall.content]
        exact fileSize_eq_length input
      · simp only [recordedEntry, hho, Bool.false_eq_true, if_false, completedEntry]
  | symlink lfh target unixMode uid gid =>
    have hsmall : usesZip64Descriptor target.length target.length = false := by
      have hlen : lfh.len + target.length + 68 ≤ 65579 := hfit
      simp only [usesZip64Descriptor, Bool.or_self, decide_eq_false_iff_not]
      omega
    exact ⟨hname, rfl, rfl, hsmall.symm⟩
  | directory lfh unixMode uid gid => exact ⟨hname, rfl, rfl, rfl⟩

theorem recordedAll_getElem? {env : WriterEnv} {level : ℤ} {pos i : ℕ} {calls : List AddCall}
    (hfit : ∀ call ∈ calls, call.HeaderFits) {call : AddCall} {e : FileEntry}
    (h : (calls.zip (recordedAll env level pos calls))[i]? = some (call, e)) : e.Records call := by
  induction calls generalizing pos i with
  | nil => simp at h
  | cons c calls ih =>
    rw [recordedAll, List.zip_cons_cons] at h
    cases i with
    | zero =>
      obtain ⟨rfl, rfl⟩ := Prod.mk.inj (Option.some.inj h)
      exact recordedEntry_records env level pos (hfit c List.mem_cons_self)
    | succ i => exact ih (fun d hd ↦ hfit d (List.mem_cons_of_mem c hd)) h

/-- What a list element is mapped to stands behind what those before it are mapped to. -/
theorem filterMap_getElem? {α β : Type*} {f : α → Option β} {l : List α} {i : ℕ} {a : α} {b : β}
    (ha : l[i]? = some a) (hb : f a = some b) :
    (l.filterMap f)[(l.take i).countP fun c ↦ (f c).isSome]? = some b := by
  obtain ⟨hlt, hget⟩ := List.getElem?_eq_some_iff.mp ha
  have hsplit : l = l.take i ++ a :: l.drop (i + 1) := by
    rw [← hget, List.getElem_cons_drop, List.take_append_drop]
  have hmap : l.filterMap f = (l.take i).filterMap f ++ b :: (l.drop (i + 1)).filterMap f := by
    conv_lhs => rw [hsplit]
    rw [List.filterMap_append, List.filterMap_cons, hb]
  rw [hmap, ← List.length_filterMap_eq_countP, List.getElem?_append_right le_rfl, Nat.sub_self,
    List.getElem?_cons_zero]

theorem forall₂_getElem? {α β : Type*} {R : α → β → Prop} {xs : List α} {ys : List β}
    (h : List.Forall₂ R xs ys) {i : ℕ} {a : α} (ha : xs[i]? = some a) : ∃ b, ys[i]? = some b ∧ R a b := by
  induction h generalizing i with
  | nil => simp at ha
  | @cons c d xs ys hcd _ ih =>
    cases i with
    | zero =>
      obtain rfl := Option.some.inj ha
      exact ⟨d, rfl, hcd⟩
    | succ i => exact ih ha

/-- The entries of a part are listed in order in the part map. -/
theorem partFilesAt_rank {calls : List AddCall} {files : List FileEntry}
    (hlen : files.length = calls.length) {partSize p i : ℕ} {m : FileEntry → FileMetadata}
    (hasc : files.Pairwise fun e f ↦ e.localHeaderOffset < f.localHeaderOffset)
    (hm : ∀ e ∈ files, (m e).localHeaderOffset = e.localHeaderOffset ∧
      (m e).partIndex = e.localHeaderOffset / partSize) {call : AddCall} {e : FileEntry}
    (hentry : (calls.zip files)[i]? = some (call, e)) (hpart : e.localHeaderOffset / partSize = p) :
    ∃ entry, (partFilesAt (files.map m) partSize p).entries[partRank (calls.zip files) partSize p i]? =
      some entry ∧ entry.fileIndex = i := by
  have hheader : (userHeaders partSize p calls files)[partRank (calls.zip files) partSize p i]? =
      some (e.localHeaderOffset, call.lfh) := by
    have hget := @filterMap_getElem? _ (ℕ × LocalFileHeader) (fun x : AddCall × FileEntry ↦
      if x.2.localHeaderOffset / partSize = p then some (x.2.localHeaderOffset, x.1.lfh) else none)
      _ _ _ _ hentry (if_pos hpart)
    have hcount : ((calls.zip files).take i).countP (fun x : AddCall × FileEntry ↦
        (if x.2.localHeaderOffset / partSize = p then some (x.2.localHeaderOffset, x.1.lfh)
          else none).isSome) = partRank (calls.zip files) partSize p i := by
      apply List.countP_congr
      intro x _
      split <;> simp_all
    rwa [hcount] at hget
  obtain ⟨entry, hget, hbelongs⟩ := forall₂_getElem? (partFilesAt_entries hlen hasc hm) hheader
  refine ⟨entry, hget, ?_⟩
  -- no two entries lie at one place
  obtain ⟨f, hf, hoffset⟩ := Option.map_eq_some_iff.mp hbelongs.position
  obtain ⟨-, he⟩ := List.getElem?_zip_eq_some.mp hentry
  have hnodup : (files.map FileEntry.localHeaderOffset).Nodup :=
    List.pairwise_map.mpr (hasc.imp fun hlt ↦ hlt.ne)
  obtain ⟨hlt, -⟩ := List.getElem?_eq_some_iff.mp hf
  apply (List.getElem?_inj (by rwa [List.length_map]) hnodup).mp
  rw [List.getElem?_map, List.getElem?_map, hf, he, Option.map_some, Option.map_some, hoffset]

/-- No symlink without a target is added. -/
theorem AllAccepted.target_pos {env : WriterEnv} {level : ℤ} {pos : ℕ} {calls : List AddCall}
    (h : AllAccepted env level pos calls) {call : AddCall} (hcall : call ∈ calls)
    (hlink : call.isSymlink = true) : 0 < call.content.length := by
  induction calls generalizing pos with
  | nil => cases hcall
  | cons c calls ih =>
    obtain ⟨hfirst, hrest⟩ := h
    rcases List.mem_cons.mp hcall with rfl | hlater
    · cases call with
      | file => cases hlink
      | symlink lfh target unixMode uid gid => exact hfirst.1
      | directory => cases hlink
    · exact ih hrest hlater

/-- Where an entry is extracted to. -/
def Extraction.entryPath (x : Extraction) (calls : List AddCall) (i : ℕ) : Path :=
  x.outputDir ++ [slash] ++ ((calls[i]?).map fun call ↦ call.lfh.filename).getD []

/-- An archive that the writer has made of calls, and processors for its parts that know it from its
central directory. The sizes and the offsets of the entries come back from there, and where an entry goes
on into another part the part map has it go on. -/
structure Extraction.Knows (x : Extraction) (env : WriterEnv) (level : ℤ) (calls : List AddCall)
    (archive : List UInt8) : Prop where
  written : ∃ limits w w', addAll env calls (burstWriterCreate ⟨[], limits⟩ level) = (some (), w) ∧
    burstWriterFinalize w = (some (), w') ∧ w'.output.bytes = archive
  bound : FramesBounded env level
  frames : FramesDecode env level x.zstd
  headers : ∀ call ∈ calls, call.lfh.WellFormed ∧ call.lfh.rawName ≠ paddingLfhFilename ∧ call.HeaderFits
  kinds : ∀ call ∈ calls, call.Consistent
  names : PlainNames (calls.map fun call ↦ call.lfh.filename)
  entries : ∀ e ∈ recordedAll env level 0 calls, e.InRange ∧ e.NameDecodes ∧ e.AvoidsMarker
  partSize : burstPartSize ∣ x.partSize
  partSize_pos : 0 < x.partSize
  size : archive.length + x.partSize < 2 ^ 64
  fewParts : archive.length ≤ 2 ^ 32 * x.partSize
  parsed : ∃ start ≤ total Item.len (bodyItems (layoutAll env level 0 calls)),
    centralDirParse (archive.drop start) archive.length x.partSize = .ok x.cdResult
  continues : ∀ s ∈ entrySpans 0 (layoutAll env level 0 calls), ∀ p,
    s.Crosses (p * x.partSize) → p * x.partSize + s.lfhLen < s.dataEnd + 46

namespace Extraction.Knows

variable {x : Extraction} {env : WriterEnv} {level : ℤ} {calls : List AddCall} {archive : List UInt8}

/-- An archive is known whatever the system answers. -/
theorem withOs (h : x.Knows env level calls archive) (os : ℕ → Os) :
    Extraction.Knows { x with os := os } env level calls archive :=
  ⟨h.written, h.bound, h.frames, h.headers, h.kinds, h.names, h.entries, h.partSize, h.partSize_pos, h.size,
    h.fewParts, h.parsed, h.continues⟩

/-- What the central directory lists. -/
theorem files (h : x.Knows env level calls archive) : x.cdResult.files =
    (recordedAll env level 0 calls).map fun e ↦ readBack x.partSize e (decodedValues e) := by
  obtain ⟨limits, w, w', hadd, hfin, rfl⟩ := h.written
  obtain ⟨start, hstart, hparse⟩ := h.parsed
  have hfiles : w.files = recordedAll env level 0 calls := (finalized_bytes hadd hfin).1
  rw [← hfiles]
  refine finalized_centralDirParse_files (addAll_tracks hadd) hfin ?_ ?_ ?_ (addAll_position hadd ▸ hstart)
    hparse
  · have := h.size
    omega
  · exact fun e he ↦ (h.entries e (hfiles ▸ he)).1
  · exact fun e he ↦ (h.entries e (hfiles ▸ he)).2.1

theorem buildPartMap (h : x.Knows env level calls archive) :
    Burst.buildPartMap x.cdResult.files archive.length x.partSize = .ok x.cdResult.parts := by
  obtain ⟨start, -, hparse⟩ := h.parsed
  exact (centralDirParse_parsed hparse).parts

theorem bytes (h : x.Knows env level calls archive) :
    archive = itemBytes (bodyItems (layoutAll env level 0 calls)) ++
      (centralDirectoryBytes (recordedAll env level 0 calls) ++
        endRecords (recordedAll env level 0 calls)
          (total Item.len (bodyItems (layoutAll env level 0 calls)))
          (centralDirectoryBytes (recordedAll env level 0 calls)).length) := by
  obtain ⟨limits, w, w', hadd, hfin, rfl⟩ := h.written
  obtain ⟨hfiles, hbytes⟩ := finalized_bytes hadd hfin
  rw [hbytes, hfiles, itemBytes_length, List.append_assoc]

theorem accepted (h : x.Knows env level calls archive) : AllAccepted env level 0 calls := by
  obtain ⟨limits, w, w', hadd, hfin, rfl⟩ := h.written
  obtain ⟨hacc, -⟩ := addAll_ok hadd
  exact hacc

theorem signature (h : x.Knows env level calls archive) :
    ∀ call ∈ calls, call.lfh.fields.signature = zipLocalFileHeaderSig :=
  fun call hcall ↦ (h.headers call hcall).1.signature

theorem fits (h : x.Knows env level calls archive) : ∀ call ∈ calls, call.HeaderFits :=
  fun call hcall ↦ (h.headers call hcall).2.2

/-- The part map has every entry where it is. -/
theorem restores (h : x.Knows env level calls archive) {e : FileEntry}
    (he : e ∈ recordedAll env level 0 calls) :
    (readBack x.partSize e (decodedValues e)).Restores e ∧
      (readBack x.partSize e (decodedValues e)).partIndex = e.localHeaderOffset / x.partSize := by
  obtain ⟨hrange, -, hmarker⟩ := h.entries e he
  have hused : e.usedZip64Descriptor = usesZip64Descriptor e.compressedSize e.uncompressedSize := by
    obtain ⟨i, hi⟩ := List.mem_iff_getElem?.mp he
    obtain ⟨hlt, -⟩ := List.getElem?_eq_some_iff.mp hi
    rw [recordedAll_length] at hlt
    exact (recordedAll_getElem? h.fits
      (List.getElem?_zip_eq_some.mpr ⟨List.getElem?_eq_getElem hlt, hi⟩)).usedZip64Descriptor
  have hrestores := (readBack_restores_iff hrange hused x.partSize).mpr hmarker
  refine ⟨hrestores, ?_⟩
  have hoffset := hrestores.localHeaderOffset
  have hlt := (recordedAll_offset he).2
  have hlength := congrArg List.length h.bytes
  rw [List.length_append, itemBytes_length] at hlength
  have hnum := h.fewParts
  have hdiv : e.localHeaderOffset / x.partSize < 2 ^ 32 := by
    rw [Nat.div_lt_iff_lt_mul h.partSize_pos]
    omega
  change (decodedValues e).localHeaderOffset / x.partSize % 2 ^ 32 = _
  change (decodedValues e).localHeaderOffset = _ at hoffset
  rw [hoffset, Nat.mod_eq_of_lt hdiv]

/-- What is known of an entry when the central directory has been read. -/
theorem readBack_getElem? (h : x.Knows env level calls archive) {i : ℕ} {call : AddCall} {e : FileEntry}
    (hentry : (calls.zip (recordedAll env level 0 calls))[i]? = some (call, e)) :
    x.cdResult.files[i]? = some (readBack x.partSize e (decodedValues e)) ∧
      (readBack x.partSize e (decodedValues e)).filename = call.lfh.filename := by
  obtain ⟨-, he⟩ := List.getElem?_zip_eq_some.mp hentry
  constructor
  · rw [h.files, List.getElem?_map, he, Option.map_some]
  · rw [(h.restores (List.mem_of_getElem? he)).1.filename, (recordedAll_getElem? h.fits hentry).filename]

theorem filenames (h : x.Knows env level calls archive) :
    x.cdResult.files.map (·.filename) = calls.map fun call ↦ call.lfh.filename := by
  have hlength : x.cdResult.files.length = calls.length := by
    rw [h.files, List.length_map, recordedAll_length]
  apply List.ext_getElem?
  intro i
  rw [List.getElem?_map, List.getElem?_map]
  cases hcall : calls[i]? with
  | none =>
    have hlast : x.cdResult.files[i]? = none := by
      rwa [List.getElem?_eq_none_iff, hlength, ← List.getElem?_eq_none_iff]
    rw [hlast]
    rfl
  | some call =>
    obtain ⟨hlt, -⟩ := List.getElem?_eq_some_iff.mp hcall
    have hfile : i < (recordedAll env level 0 calls).length := by rwa [recordedAll_length]
    obtain ⟨hget, hname⟩ := h.readBack_getElem?
      (List.getElem?_zip_eq_some.mpr ⟨hcall, List.getElem?_eq_getElem hfile⟩)
    rw [hget, Option.map_some, Option.map_some, hname]

theorem numParts_eq (h : x.Knows env level calls archive) :
    x.numParts = numPartsFor archive.length x.partSize := by
  obtain ⟨start, -, hparse⟩ := h.parsed
  exact (centralDirParse_parsed hparse).numParts

theorem part_eq (h : x.Knows env level calls archive) {p : ℕ} (hp : p < x.numParts) :
    (x.env p).part = partFilesAt x.cdResult.files x.partSize p := by
  have hget := buildPartMap_getElem h.buildPartMap (h.numParts_eq ▸ hp)
  rw [ProcessorEnv.part]
  simp only [Extraction.env]
  rw [hget]
  rfl

theorem knowsEntries (h : x.Knows env level calls archive) {p : ℕ} (hp : p < x.numParts) :
    KnowsEntries (x.env p) (x.entryPath calls) (calls.zip (recordedAll env level 0 calls)) := by
  have hrecorded {i : ℕ} {call : AddCall} {e : FileEntry}
      (hentry : (calls.zip (recordedAll env level 0 calls))[i]? = some (call, e)) :
      calls[i]? = some call ∧ (recordedAll env level 0 calls)[i]? = some e :=
    List.getElem?_zip_eq_some.mp hentry
  constructor
  · intro i call e hentry
    obtain ⟨hcall, he⟩ := hrecorded hentry
    obtain ⟨hrestores, -⟩ := h.restores (List.mem_of_getElem? he)
    have hrecords := recordedAll_getElem? h.fits hentry
    have hkind := h.kinds call (List.mem_of_getElem? hcall)
    refine ⟨readBack x.partSize e (decodedValues e), ?_, ?_, ?_⟩
    · change x.cdResult.files[i]? = _
      rw [h.files, List.getElem?_map, he, Option.map_some]
    · constructor
      · exact hrestores.uncompressedSize.trans hrecords.uncompressedSize
      · change isLnk (e.unixMode % 2 ^ 16) = _
        rw [hrecords.unixMode]
        exact hkind.isSymlink
      · rw [FileMetadata.isDirectory, hrestores.filename, hrecords.filename]
        exact hkind.isDirectory
      · exact hrestores.usesZip64Descriptor
    · rw [ProcessorEnv.filePath, hrestores.filename, hrecords.filename, Extraction.entryPath, hcall]
      rfl
  · intro i call e hentry hpart
    obtain ⟨entry, hget, hindex⟩ := partFilesAt_rank (recordedAll_length env level 0 calls)
      (recordedAll_ascending env level 0 calls)
      (fun e he ↦ ⟨(h.restores he).1.localHeaderOffset, (h.restores he).2⟩) hentry hpart
    rw [← h.files] at hget
    have hentries : (x.env p).part.entries[partRank (calls.zip (recordedAll env level 0 calls))
        (x.env p).partSize (x.env p).partIndex i]? = some entry := by
      rw [h.part_eq hp]
      exact hget
    obtain ⟨hlt, -⟩ := List.getElem?_eq_some_iff.mp hentries
    refine ⟨hlt, ?_⟩
    rw [ProcessorEnv.nextFile, hentries, Option.bind_some, hindex]
  · rintro ⟨call, e⟩ hmem
    obtain ⟨hw, hname, -⟩ := h.headers call (List.of_mem_zip hmem).1
    exact ⟨hw, hname⟩
  · rintro ⟨call, e⟩ hmem
    obtain ⟨i, hi⟩ := List.mem_iff_getElem?.mp hmem
    obtain ⟨hcall, he⟩ := hrecorded hi
    have hsize := (h.entries e (List.mem_of_getElem? he)).1.uncompressedSize
    rw [(recordedAll_getElem? h.fits hi).uncompressedSize] at hsize
    refine ⟨hsize, fun hlink ↦ ?_⟩
    cases call with
    | file => cases hlink
    | symlink lfh target unixMode uid gid =>
      have hfit : lfh.len + target.length + 68 ≤ 65579 := h.fits _ (List.mem_of_getElem? hcall)
      have hpos : 0 < target.length := h.accepted.target_pos (List.mem_of_getElem? hcall) rfl
      change 0 < target.length ∧ target.length + 1 < 2 ^ 63
      omega
    | directory => cases hlink

end Extraction.Knows

end Burst
