import Burst.CentralDirRoundTrip
import Burst.ContinuingFile
import Burst.SizeLaw

namespace Burst

open Tiling LittleEndian

/-- The sizes and the offset of an entry are read back as they are. -/
def FileEntry.Decodes (e : FileEntry) : Prop :=
  ¬ (e.uncompressedSize = 0xFFFFFFFF ∧
      (0xFFFFFFFF < e.compressedSize ∨ 0xFFFFFFFF < e.localHeaderOffset)) ∧
    ¬ (e.compressedSize = 0xFFFFFFFF ∧ 0xFFFFFFFF < e.localHeaderOffset)

theorem readBack_locates {env : WriterEnv} {level : ℤ} {pos : ℕ} {call : AddCall} (partSize : ℕ)
    (he : (recordedEntry env level pos call).InRange)
    (hdec : (recordedEntry env level pos call).Decodes) :
    (readBack partSize (recordedEntry env level pos call)
      (decodedValues (recordedEntry env level pos call))).Locates
        (entrySpan pos (layoutCall env level pos call)) := by
  have hv := (decodedValues_eq_iff he).mpr hdec
  refine ⟨?_, ?_⟩
  · simp only [readBack, hv]
    exact recordedEntry_localHeaderOffset env level pos call
  · simp only [readBack, hv, recordedEntry_compressedSize]
    rfl

theorem recordedAll_locates {env : WriterEnv} {level : ℤ} {pos : ℕ} {calls : List AddCall}
    (partSize : ℕ) (he : ∀ e ∈ recordedAll env level pos calls, e.InRange)
    (hdec : ∀ e ∈ recordedAll env level pos calls, e.Decodes) :
    List.Forall₂ FileMetadata.Locates
      ((recordedAll env level pos calls).map fun e ↦ readBack partSize e (decodedValues e))
      (entrySpans pos (layoutAll env level pos calls)) := by
  induction calls generalizing pos with
  | nil => exact .nil
  | cons call calls ih =>
    simp only [recordedAll, layoutAll, entrySpans, List.map_cons]
    exact .cons (readBack_locates partSize (he _ List.mem_cons_self) (hdec _ List.mem_cons_self))
      (ih (fun e h ↦ he e (List.mem_cons_of_mem _ h)) fun e h ↦ hdec e (List.mem_cons_of_mem _ h))

theorem HeaderAt.bytes {p : ℕ} {is : List Item} (h : HeaderAt 0 is p) (rest : List UInt8) :
    encode 4 zipLocalFileHeaderSig <+: (itemBytes is ++ rest).drop p := by
  obtain ⟨before, header, after, rfl, hsig, hpos⟩ := h
  rw [← hpos, Nat.zero_add, drop_itemBytes, ← hsig]
  simp only [Item.bytes, LocalFileHeader.bytes, ZipLocalHeader.fixedBytes, List.append_assoc]
  exact List.prefix_append _ _

theorem StartOfPartAt.bytes {p : ℕ} {is : List Item} (h : StartOfPartAt 0 is p)
    (rest : List UInt8) : ∃ offset, startOfPartBytes offset <+: (itemBytes is ++ rest).drop p := by
  obtain ⟨before, offset, after, rfl, hpos⟩ := h
  rw [← hpos, Nat.zero_add, drop_itemBytes]
  exact ⟨offset, List.prefix_append _ _⟩

/-- A Start-of-Part frame does not begin with the signature of a local file header. -/
theorem startOfPart_not_header {offset : ℕ} {bs : List UInt8} (h : startOfPartBytes offset <+: bs) :
    ¬ encode 4 zipLocalFileHeaderSig <+: bs := by
  intro hsig
  obtain ⟨rest, rfl⟩ := h
  obtain ⟨rest', heq⟩ := hsig
  have hread := congrArg (fun bs ↦ read bs 0 4) heq
  simp only [startOfPartBytes, List.append_assoc, read_zero_append] at hread
  revert hread
  decide

/-- Part `p` begins with a Start-of-Part frame inside entry `i` exactly when the part map names
`i`, and with a local file header exactly when it names no file. -/
def DetectsContinuing (parts : List PartFiles) (archive : List UInt8) (spans : List EntrySpan)
    (p boundary : ℕ) : Prop :=
  ∃ part, parts[p]? = some part ∧
    (∀ i, part.continuingFile = some i ↔
      (∃ offset, startOfPartBytes offset <+: archive.drop boundary) ∧
        ∃ s, spans[i]? = some s ∧ s.Crosses boundary) ∧
    (part.continuingFile = none ↔ encode 4 zipLocalFileHeaderSig <+: archive.drop boundary)

theorem BoundaryOutcome.detects_iff {is : List Item} {spans : List EntrySpan}
    {ms : List FileMetadata} {boundary p : ℕ} (h : BoundaryOutcome 0 is spans ms boundary)
    {parts : List PartFiles} {part : PartFiles} (hpart : parts[p]? = some part)
    (hcont : part.continuingFile = ms.findIdx? (continuesInto boundary)) (rest : List UInt8) :
    DetectsContinuing parts (itemBytes is ++ rest) spans p boundary ↔
      ∀ s ∈ spans, s.Crosses boundary → boundary + s.lfhLen < s.dataEnd + 46 := by
  obtain ⟨hat, hnone, hno⟩ | ⟨i, s, hi, hc, hat, huniq, hfind⟩ := h
  · -- a header lies on the boundary, and no entry crosses it
    have hsig := hat.bytes rest
    refine iff_of_true ⟨part, hpart, fun i ↦ ?_, by simp [hcont, hnone, hsig]⟩
      fun s hs hc ↦ (hno s hs hc).elim
    rw [hcont, hnone]
    refine iff_of_false (by simp) ?_
    rintro ⟨⟨offset, hsop⟩, -⟩
    exact startOfPart_not_header hsop hsig
  · obtain ⟨offset, hsop⟩ := hat.bytes rest
    have hnosig := startOfPart_not_header hsop
    constructor
    · rintro ⟨part', hpart', -, hnone⟩ t ht htc
      obtain ⟨j, hj⟩ := List.mem_iff_getElem?.mp ht
      obtain rfl := huniq j t hj htc
      obtain rfl : s = t := Option.some.inj (hi.symm.trans hj)
      obtain rfl := Option.some.inj (hpart.symm.trans hpart')
      by_contra hcov
      rw [hcont, hfind, if_neg hcov] at hnone
      exact hnosig (hnone.mp rfl)
    · intro hcov
      rw [if_pos (hcov s (List.mem_of_getElem? hi) hc)] at hfind
      refine ⟨part, hpart, fun j ↦ ?_, by simp [hcont, hfind, hnosig]⟩
      rw [hcont, hfind, Option.some.injEq]
      constructor
      · rintro rfl
        exact ⟨⟨offset, hsop⟩, s, hi, hc⟩
      · rintro ⟨-, t, hj, htc⟩
        exact (huniq j t hj htc).symm

theorem partFilesAt_continuingFile (files : List FileMetadata) {partSize p : ℕ} (hp : 0 < p)
    (hrange : p * partSize < 2 ^ 64) :
    (partFilesAt files partSize p).continuingFile = files.findIdx? (continuesInto (p * partSize)) := by
  rw [partFilesAt, continuingFile, if_neg (by omega), Nat.mod_eq_of_lt hrange]

/-- Detection on a part boundary of a finalized archive whose entries decode. -/
theorem finalized_detects_iff {env : WriterEnv} {level : ℤ} {limits : List ℕ}
    {calls : List AddCall} {w w' : BurstWriter} (hbound : FramesBounded env level)
    (hsig : ∀ call ∈ calls, call.lfh.fields.signature = zipLocalFileHeaderSig)
    (hfit : ∀ call ∈ calls, call.HeaderFits)
    (hadd : addAll env calls (burstWriterCreate ⟨[], limits⟩ level) = (some (), w))
    (hfin : burstWriterFinalize w = (some (), w'))
    (hrange : ∀ e ∈ w.files, e.InRange) (hdec : ∀ e ∈ w.files, e.Decodes) {partSize p : ℕ}
    {parts : List PartFiles} (hpart : burstPartSize ∣ partSize) (hp : 0 < p) (hpos : 0 < partSize)
    (hlt : p * partSize < (itemBytes (bodyItems (layoutAll env level 0 calls))).length)
    (hsize : w'.output.bytes.length + partSize < 2 ^ 64)
    (hmap : buildPartMap (w.files.map fun e ↦ readBack partSize e (decodedValues e))
      w'.output.bytes.length partSize = .ok parts) :
    DetectsContinuing parts w'.output.bytes (entrySpans 0 (layoutAll env level 0 calls)) p
        (p * partSize) ↔
      ∀ s ∈ entrySpans 0 (layoutAll env level 0 calls), s.Crosses (p * partSize) →
        p * partSize + s.lfhLen < s.dataEnd + 46 := by
  obtain ⟨hfiles, hbytes⟩ := finalized_bytes hadd hfin
  set items := bodyItems (layoutAll env level 0 calls) with hitems
  have hlength : (itemBytes items).length + 22 ≤ w'.output.bytes.length := by
    rw [hbytes]
    simp only [List.length_append, endRecords, ZipEndCentralDir.bytes_length]
    omega
  have hbefore : p < numPartsFor w'.output.bytes.length partSize :=
    lt_numPartsFor hpos hsize.le (by omega)
  obtain ⟨unit, rfl⟩ := hpart
  have hboundary : p * (burstPartSize * unit) = p * unit * burstPartSize := by ring
  have hlocates := recordedAll_locates (burstPartSize * unit)
    (fun e he ↦ hrange e (hfiles ▸ he)) (fun e he ↦ hdec e (hfiles ▸ he))
  rw [← hfiles] at hlocates
  have hends : (itemBytes items).length = 0 + total Item.len items := by
    rw [itemBytes_length, Nat.zero_add]
  have houtcome := layoutAll_boundaryOutcome hbound hsig hfit (k := p * unit)
    (show 44 ≤ spaceUntilBoundary 0 by norm_num [spaceUntilBoundary, burstPartSize])
    (by rw [← hboundary]; exact Nat.mul_pos hp hpos) (by rw [← hboundary, ← hends]; exact hlt)
    hlocates (by rw [← hends]; omega)
  rw [← hboundary] at houtcome
  rw [hbytes, List.append_assoc]
  exact houtcome.detects_iff (buildPartMap_getElem hmap hbefore)
    (partFilesAt_continuingFile _ hp (by omega)) _

/-- The part map built from a finalized archive's central directory agrees with what lies on a part
boundary exactly when the estimate reaches over it from the entry that crosses it. -/
theorem buildPartMap_detectsContinuing {env : WriterEnv} {level : ℤ} {limits : List ℕ}
    {calls : List AddCall} {w w' : BurstWriter} (hbound : FramesBounded env level)
    (hsig : ∀ call ∈ calls, call.lfh.fields.signature = zipLocalFileHeaderSig)
    (hfit : ∀ call ∈ calls, call.HeaderFits)
    (hadd : addAll env calls (burstWriterCreate ⟨[], limits⟩ level) = (some (), w))
    (hfin : burstWriterFinalize w = (some (), w')) (hrange : ∀ e ∈ w.files, e.InRange)
    (hnames : ∀ e ∈ w.files, e.NameFits) (hdec : ∀ e ∈ w.files, e.Decodes)
    {partSize p numEntries : ℕ} (hpart : burstPartSize ∣ partSize) (hp : 0 < p)
    (hlt : p * partSize < (itemBytes (bodyItems (layoutAll env level 0 calls))).length)
    (hpos : 0 < partSize) (hsize : w'.output.bytes.length + partSize < 2 ^ 64)
    (hcount : w.files.length ≤ numEntries) (hmemory : numEntries * sizeofFileMetadata < 2 ^ 63) :
    let cdOffset := (itemBytes (bodyItems (layoutAll env level 0 calls))).length
    let spans := entrySpans 0 (layoutAll env level 0 calls)
    ∃ files parts, parseCentralDirectory (centralDirectoryBytes w.files) cdOffset cdOffset
        numEntries (centralDirectoryBytes w.files).length partSize = .ok files ∧
      buildPartMap files w'.output.bytes.length partSize = .ok parts ∧
      (DetectsContinuing parts w'.output.bytes spans p (p * partSize) ↔
        ∀ s ∈ spans, s.Crosses (p * partSize) → p * partSize + s.lfhLen < s.dataEnd + 46) := by
  intro cdOffset spans
  have hparse := parseCentralDirectory_bytes hrange (fun e he ↦ (hnames e he).decodes)
    hcount hmemory cdOffset partSize
  obtain ⟨parts, hmap⟩ := buildPartMap_total
    (w.files.map fun e ↦ readBack partSize e (decodedValues e)) w'.output.bytes.length
    (Nat.le_of_dvd hpos hpart)
  exact ⟨_, parts, hparse, hmap, finalized_detects_iff hbound hsig hfit hadd hfin hrange hdec hpart
    hp hpos hlt hsize hmap⟩

/-- An archive with nothing in it but one file named `a`. -/
def oneFile (input : InputFile) : List AddCall :=
  [.file input (sampleHeader zipFlagDataDescriptor zipMethodZstd) 33188 0 0]

theorem oneFile_run (content : List UInt8) : ∃ w w',
    addAll rawEnv (oneFile ⟨content, none, true⟩) (burstWriterCreate ⟨[], []⟩ 3) = (some (), w) ∧
      burstWriterFinalize w = (some (), w') := by
  have hacc : AllAccepted rawEnv 3 0 (oneFile ⟨content, none, true⟩) :=
    ⟨accepted_file (rawEnv_framesBounded 3) (fun _ ↦ rfl) 33188 0 0 rfl (by decide) (by decide),
      trivial⟩
  have hready : Ready (burstWriterCreate ⟨[], []⟩ 3) := ⟨rfl, by decide⟩
  obtain ⟨w, hadd, hw⟩ := addAll_completes hready hacc
  obtain ⟨w', hfin, -⟩ := burstWriterFinalize_completes hw
  exact ⟨w, w', hadd, hfin⟩

theorem layoutCall_sample (input : InputFile) :
    layoutCall rawEnv 3 0 (.file input (sampleHeader zipFlagDataDescriptor zipMethodZstd) 33188 0 0) =
      ⟨[], sampleHeader zipFlagDataDescriptor zipMethodZstd, chunkItems rawEnv 3 46 0 input.chunks,
        fileEnding rawEnv 3 46 input, [fileDescriptor rawEnv 3 46 input]⟩ := by
  have hlen : (sampleHeader zipFlagDataDescriptor zipMethodZstd).len = 46 := by decide
  have hgap : gapItems rawEnv 0 46 0 true = [] := by decide +kernel
  have hho : isHeaderOnly (sampleHeader zipFlagDataDescriptor zipMethodZstd) = false := by decide
  simp only [layoutCall, hlen, hgap, hho, total_nil, Bool.false_eq_true, if_false, Nat.zero_add]

theorem oneFile_spans {input : InputFile} {d e : ℕ}
    (hdata : total Item.len (chunkItems rawEnv 3 46 0 input.chunks) = d)
    (hending : total Item.len (fileEnding rawEnv 3 46 input) = e)
    (hdesc : (fileDescriptor rawEnv 3 46 input).len = 16) :
    entrySpans 0 (layoutAll rawEnv 3 0 (oneFile input)) = [⟨0, 46, 46 + d, 46 + (d + e + 16)⟩] := by
  have hlen : (sampleHeader zipFlagDataDescriptor zipMethodZstd).len = 46 := by decide
  simp only [oneFile, layoutAll, entrySpans, entrySpan, layoutCall_sample, EntryLayout.headerPos,
    EntryLayout.dataPos, EntryLayout.items, EntryLayout.body, total_append, total_cons, total_nil,
    Item.len_localHeader, hlen, hdata, hending, hdesc, Nat.zero_add, Nat.add_zero]

theorem oneFile_length {input : InputFile} {d e : ℕ}
    (hdata : total Item.len (chunkItems rawEnv 3 46 0 input.chunks) = d)
    (hending : total Item.len (fileEnding rawEnv 3 46 input) = e)
    (hdesc : (fileDescriptor rawEnv 3 46 input).len = 16) :
    (itemBytes (bodyItems (layoutAll rawEnv 3 0 (oneFile input)))).length = 46 + (d + e + 16) := by
  have hlen : (sampleHeader zipFlagDataDescriptor zipMethodZstd).len = 46 := by decide
  simp only [itemBytes_length, oneFile, layoutAll, bodyItems, List.flatMap_cons, List.flatMap_nil,
    List.append_nil, layoutCall_sample, EntryLayout.items, EntryLayout.body, total_append,
    total_cons, total_nil, Item.len_localHeader, hlen, hdata, hending, hdesc, Nat.zero_add,
    Nat.add_zero]

theorem oneFile_recorded {input : InputFile} {d u : ℕ}
    (hdata : total Item.len (chunkItems rawEnv 3 46 0 input.chunks) = d) (hd : d < 2 ^ 32 - 1)
    (hsize : fileSize input = u) (hu : u < 2 ^ 32 - 1) :
    ∃ e, recordedAll rawEnv 3 0 (oneFile input) = [e] ∧ e.InRange ∧ e.NameFits ∧ e.Decodes ∧
      e.AvoidsMarker := by
  have hho : isHeaderOnly (sampleHeader zipFlagDataDescriptor zipMethodZstd) = false := by decide
  have hlen : (sampleHeader zipFlagDataDescriptor zipMethodZstd).len = 46 := by decide
  have hcrc : fileCrc rawEnv input < 2 ^ 32 := Crc32.foldl_crc32_lt (by norm_num) _
  have hname : (sampleHeader zipFlagDataDescriptor zipMethodZstd).filename = [97] := by decide
  refine ⟨recordedEntry rawEnv 3 0 (.file input (sampleHeader zipFlagDataDescriptor zipMethodZstd)
    33188 0 0), by simp only [oneFile, recordedAll], ?_⟩
  simp only [recordedEntry, layoutCall_sample, hho, Bool.false_eq_true, if_false,
    EntryLayout.headerPos, EntryLayout.dataPos, total_nil, hlen, completedEntry, Nat.zero_add,
    hdata, hsize, populateEntryMetadata, allocateFileEntry, AddCall.lfh, hname]
  refine ⟨⟨by norm_num, ?_, ?_, hcrc, ?_, by norm_num, by norm_num⟩,
    ⟨by simp, by simp, by simp⟩, ?_, ?_⟩
  · change d < 2 ^ 64
    omega
  · change u < 2 ^ 64
    omega
  · norm_num [sampleHeader, zipMethodZstd]
  · simp only [FileEntry.Decodes]
    omega
  · simp only [FileEntry.AvoidsMarker]
    omega

theorem paddedFile_size : fileSize paddedFile = 8387734 :=
  (fileSize_eq _ _).trans (noise_length _)

theorem paddedFile_data :
    total Item.len (chunkItems rawEnv 3 46 0 paddedFile.chunks) = 8388502 := by
  have htotal := chunkItems_total rawEnv 3 46 0 paddedFile.chunks
  have hend := paddedFile_framesEnd
  rw [frameSizes] at hend
  omega

theorem paddedFile_ending : total Item.len (fileEnding rawEnv 3 46 paddedFile) = 84 := by
  rw [fileEnding, paddedFile_data, paddedFile_size]
  rfl

theorem paddedFile_descriptor : (fileDescriptor rawEnv 3 46 paddedFile).len = 16 := by
  rw [fileDescriptor, Item.len_descriptor, paddedFile_data, paddedFile_size]
  rfl

/-- The archive of the padded file: its only entry ends 40 bytes after the first boundary, which
the estimate of its end does not reach. -/
theorem paddedFile_archive : ∃ w w', addAll rawEnv (oneFile paddedFile)
    (burstWriterCreate ⟨[], []⟩ 3) = (some (), w) ∧ burstWriterFinalize w = (some (), w') ∧
    w.files.length = 1 ∧ (∀ e ∈ w.files, e.InRange) ∧ (∀ e ∈ w.files, e.NameFits) ∧
    (∀ e ∈ w.files, e.Decodes) ∧ w'.output.bytes.length + burstPartSize < 2 ^ 64 := by
  obtain ⟨w, w', hadd, hfin⟩ := oneFile_run (noise 8387734)
  obtain ⟨e, hrec, hrange, hname, hdec, -⟩ := oneFile_recorded paddedFile_data (by norm_num)
    paddedFile_size (by norm_num)
  obtain ⟨hfiles, hbytes⟩ := finalized_bytes hadd hfin
  have hfiles : w.files = [e] := hfiles.trans hrec
  have hlength := oneFile_length paddedFile_data paddedFile_ending paddedFile_descriptor
  have hcd := centralHeaderBytes_length_lt e
  refine ⟨w, w', hadd, hfin, by rw [hfiles]; rfl, by simpa [hfiles] using hrange,
    by simpa [hfiles] using hname, by simpa [hfiles] using hdec, ?_⟩
  change (itemBytes (bodyItems (layoutAll rawEnv 3 0
    (oneFile ⟨noise 8387734, none, true⟩)))).length = _ at hlength
  rw [hbytes]
  simp only [List.length_append, endRecords_length, hlength, hfiles, centralDirectoryBytes,
    List.flatMap_cons, List.flatMap_nil, List.append_nil, burstPartSize]
  omega

theorem oneFile_headers (input : InputFile) : (∀ call ∈ oneFile input,
    call.lfh.fields.signature = zipLocalFileHeaderSig) ∧ ∀ call ∈ oneFile input, call.HeaderFits := by
  simp only [oneFile, List.mem_singleton, forall_eq]
  exact ⟨rfl, show 46 + 0 + 68 ≤ 65579 by norm_num⟩

/-- The archive of the padded file has a part boundary before its central directory, inside the file. -/
theorem paddedFile_part_aligned : ∃ w w',
    addAll rawEnv (oneFile paddedFile) (burstWriterCreate ⟨[], []⟩ 3) = (some (), w) ∧
    burstWriterFinalize w = (some (), w') ∧
    let items := bodyItems (layoutAll rawEnv 3 0 (oneFile paddedFile))
    1 * burstPartSize < (itemBytes items).length ∧
      (encode 4 zipLocalFileHeaderSig <+: w'.output.bytes.drop (1 * burstPartSize) ∨
        ∃ offset, startOfPartBytes offset <+: w'.output.bytes.drop (1 * burstPartSize)) ∧
      ∀ before i after, items = before ++ i :: after →
        ¬ Straddles burstPartSize (itemBytes before).length i.bytes.length := by
  obtain ⟨w, w', hadd, hfin⟩ := oneFile_run (noise 8387734)
  have hlength := oneFile_length paddedFile_data paddedFile_ending paddedFile_descriptor
  have hbelow : 1 * burstPartSize <
      (itemBytes (bodyItems (layoutAll rawEnv 3 0 (oneFile paddedFile)))).length := by
    rw [hlength]
    norm_num [burstPartSize]
  obtain ⟨hsig, hfit⟩ := oneFile_headers paddedFile
  obtain ⟨-, hstart, hstraddles⟩ := finalized_part_aligned (rawEnv_framesBounded 3) hsig hfit hadd hfin
  exact ⟨w, w', hadd, hfin, hbelow, hstart 1 one_pos hbelow, hstraddles⟩

theorem buildPartMap_detectsContinuing_sample : ∃ w w',
    addAll rawEnv (oneFile paddedFile) (burstWriterCreate ⟨[], []⟩ 3) = (some (), w) ∧
    burstWriterFinalize w = (some (), w') ∧
    let cdOffset := (itemBytes (bodyItems (layoutAll rawEnv 3 0 (oneFile paddedFile)))).length
    let spans := entrySpans 0 (layoutAll rawEnv 3 0 (oneFile paddedFile))
    ∃ files parts, parseCentralDirectory (centralDirectoryBytes w.files) cdOffset cdOffset 1
        (centralDirectoryBytes w.files).length burstPartSize = .ok files ∧
      buildPartMap files w'.output.bytes.length burstPartSize = .ok parts ∧
      (DetectsContinuing parts w'.output.bytes spans 1 (1 * burstPartSize) ↔ ∀ s ∈ spans,
        s.Crosses (1 * burstPartSize) → 1 * burstPartSize + s.lfhLen < s.dataEnd + 46) := by
  obtain ⟨w, w', hadd, hfin, hcount, hrange, hnames, hdec, hsize⟩ := paddedFile_archive
  have hlength := oneFile_length paddedFile_data paddedFile_ending paddedFile_descriptor
  obtain ⟨hsig, hfit⟩ := oneFile_headers paddedFile
  exact ⟨w, w', hadd, hfin, buildPartMap_detectsContinuing (rawEnv_framesBounded 3) hsig hfit hadd
    hfin hrange hnames hdec dvd_rfl one_pos (by rw [hlength]; norm_num [burstPartSize])
    (by norm_num [burstPartSize]) hsize hcount.le (by norm_num [sizeofFileMetadata])⟩

/-- The part map of an archive of the padded file names no file for part 1, although that part
begins with a Start-of-Part frame inside it. -/
theorem paddedFile_not_detected : ∃ w w' files parts,
    addAll rawEnv (oneFile paddedFile) (burstWriterCreate ⟨[], []⟩ 3) = (some (), w) ∧
    burstWriterFinalize w = (some (), w') ∧
    (itemBytes (bodyItems (layoutAll rawEnv 3 0 (oneFile paddedFile)))).length = 8388648 ∧
    parseCentralDirectory (centralDirectoryBytes w.files) 8388648 8388648 1
      (centralDirectoryBytes w.files).length burstPartSize = .ok files ∧
    buildPartMap files w'.output.bytes.length burstPartSize = .ok parts ∧
    ¬ DetectsContinuing parts w'.output.bytes
      (entrySpans 0 (layoutAll rawEnv 3 0 (oneFile paddedFile))) 1 (1 * burstPartSize) := by
  obtain ⟨w, w', hadd, hfin, hcount, hrange, hnames, hdec, hsize⟩ := paddedFile_archive
  have hlength := oneFile_length paddedFile_data paddedFile_ending paddedFile_descriptor
  obtain ⟨hsig, hfit⟩ := oneFile_headers paddedFile
  obtain ⟨parts, hmap⟩ := buildPartMap_total
    (w.files.map fun e ↦ readBack burstPartSize e (decodedValues e)) w'.output.bytes.length le_rfl
  refine ⟨w, w', _, parts, hadd, hfin, hlength, parseCentralDirectory_bytes hrange
    (fun e he ↦ (hnames e he).decodes) hcount.le (by norm_num [sizeofFileMetadata]) 8388648
      burstPartSize, hmap, fun hdetects ↦ ?_⟩
  have hreach := (finalized_detects_iff (rawEnv_framesBounded 3) hsig hfit hadd hfin hrange hdec
    dvd_rfl one_pos (by norm_num [burstPartSize]) (by rw [hlength]; norm_num [burstPartSize]) hsize
    hmap).mp hdetects
  rw [oneFile_spans paddedFile_data paddedFile_ending paddedFile_descriptor] at hreach
  have hcross := hreach _ List.mem_cons_self (by norm_num [EntrySpan.Crosses, burstPartSize])
  norm_num [burstPartSize] at hcross

end Burst
