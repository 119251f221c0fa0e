import Burst.ArchivedTree
import Burst.WriteRanges

namespace Burst

open Tiling LittleEndian Incremental PathResolution

section

variable {penv : ProcessorEnv} {path : ℕ → Path} {entries entries' : List (AddCall × FileEntry)}

/-- Two entries of which the metadata tells the same. -/
structure LooksLike (x y : AddCall × FileEntry) : Prop where
  entry : x.2 = y.2
  length : x.1.content.length = y.1.content.length
  isSymlink : x.1.isSymlink = y.1.isSymlink
  isDirectory : x.1.isDirectory = y.1.isDirectory

theorem looksLike_data {content content' : List UInt8} {lfh lfh' : LocalFileHeader} {mode mode' : ℕ}
    {e : FileEntry} (hdata : isHeaderOnly lfh = false) (hdata' : isHeaderOnly lfh' = false)
    (hlength : content.length = content'.length) :
    LooksLike (.file ⟨content, none, true⟩ lfh mode 0 0, e)
      (.file ⟨content', none, true⟩ lfh' mode' 0 0, e) := by
  refine ⟨rfl, ?_, rfl, rfl⟩
  rw [AddCall.content_of_data hdata, AddCall.content_of_data hdata', hlength]

theorem partRank_congr (h : entries.map Prod.snd = entries'.map Prod.snd) (partSize p i : ℕ) :
    partRank entries partSize p i = partRank entries' partSize p i := by
  have hcount (xs : List (AddCall × FileEntry)) : partRank xs partSize p i =
      ((xs.map Prod.snd).take i).countP fun e ↦ e.localHeaderOffset / partSize = p := by
    rw [partRank, ← List.map_take, List.countP_map]
    rfl
  rw [hcount, hcount, h]

/-- A processor cannot tell entries apart that look alike. -/
theorem KnowsEntries.lookalike (hk : KnowsEntries penv path entries)
    (hlike : List.Forall₂ LooksLike entries' entries)
    (hheaders : ∀ x ∈ entries', x.1.lfh.WellFormed ∧ x.1.lfh.rawName ≠ paddingLfhFilename) :
    KnowsEntries penv path entries' := by
  have hsame : entries'.map Prod.snd = entries.map Prod.snd := by
    clear hk hheaders
    induction hlike with
    | nil => rfl
    | cons hfirst _ ih => rw [List.map_cons, List.map_cons, hfirst.entry, ih]
  constructor
  · intro i call e hentry
    obtain ⟨⟨call', e'⟩, hentry', hentries, hlength, hlink, hdirectory⟩ := forall₂_getElem? hlike hentry
    obtain ⟨fileMeta, hfile, hdescribes, hpath⟩ := hk.described hentry'
    refine ⟨fileMeta, hfile, ?_, hpath⟩
    obtain rfl : e = e' := hentries
    exact ⟨hdescribes.uncompressedSize.trans hlength.symm, hdescribes.isSymlink.trans hlink.symm,
      hdescribes.isDirectory.trans hdirectory.symm, hdescribes.usesZip64Descriptor⟩
  · intro i call e hentry hpart
    obtain ⟨⟨call', e'⟩, hentry', hentries, -⟩ := forall₂_getElem? hlike hentry
    obtain rfl : e = e' := hentries
    rw [partRank_congr hsame]
    exact hk.listed hentry' hpart
  · exact hheaders
  · intro x hx
    obtain ⟨i, hi⟩ := List.mem_iff_getElem?.mp hx
    obtain ⟨y, hy, hlike⟩ := forall₂_getElem? hlike hi
    rw [hlike.length, hlike.isSymlink]
    exact hk.sizes y (List.mem_of_getElem? hy)

/-- A file that is open when the next header comes is closed. -/
theorem ReadPos.Holds.leave (hos : penv.os.Obliges) {i offset : ℕ} {call : AddCall} {e : FileEntry}
    (hentry : entries[i]? = some (call, e)) {p : PartProcessor}
    (hp : (ReadPos.data i offset).Holds penv path entries p) :
    (ReadPos.header (i + 1)).Holds penv path entries p ∧ (ReadPos.header (i + 1)).done penv p =
      (ReadPos.data i offset).done penv p ++ [.ftruncate (path i) call.content.length] := by
  cases hp with
  | @data _ _ _ _ _ fileMeta hentry' describes isFile atPath inside state opened next =>
    obtain ⟨rfl, rfl⟩ := Prod.mk.inj (Option.some.inj (hentry.symm.trans hentry'))
    refine ⟨.left i.succ_pos state opened next, ?_⟩
    have hclose := hos.closeRegular (describes.isSymlink.trans isFile) p.ops offset
    rw [atPath, describes.uncompressedSize] at hclose
    rw [ReadPos.done, ReadPos.done, ← hclose.deeds_eq, closeOutputFile, opened]

/-- A part whose first header is called like the padding, but that of a symlink: what that points to is read as the
header of the symlink, what follows as its target, and the headers in there as those of the entries behind it. -/
theorem misread_extracts {env : WriterEnv} {level : ℤ} (hz : FramesDecode env level penv.zstd)
    (hk : KnowsEntries penv path entries) (hos : penv.os.Obliges) {linkHeader lfh lfh' : LocalFileHeader}
    {target : List UInt8} {input input' : InputFile} {mode mode' mode'' : ℕ} {e e' e'' : FileEntry}
    (hentries : entries = [(.symlink linkHeader target mode 0 0, e), (.file input lfh mode' 0 0, e'),
      (.file input' lfh' mode'' 0 0, e'')])
    (hcontinuing : penv.part.continuingFile = none)
    (hparts : ∀ x ∈ entries, x.2.localHeaderOffset / penv.partSize = penv.partIndex)
    (hlisted : penv.part.entries.length ≤ 3) (hdata : isHeaderOnly lfh = false)
    (hdata' : isHeaderOnly lfh' = false) {padding last : LocalFileHeader} (hpadding : padding.WellFormed)
    (hname : padding.rawName = paddingLfhFilename) (hlast : last.WellFormed) {chunk frame : List UInt8}
    (hframe : env.compressChunk level chunk = some frame) (hlen : chunk.length ≤ zstdChunkSize)
    (hchunk : chunk <+: (AddCall.file input' lfh' mode'' 0 0).content) (rest : List UInt8) : ∃ deeds,
      Extracts penv (partProcessorCreate []).toPartProcessor (padding.bytes ++ (linkHeader.bytes ++
        (target ++ (lfh.bytes ++ (lfh'.bytes ++ (frame ++ (last.bytes ++ rest))))))) deeds ∧
      .pwrite (path 2) chunk 0 ∈ deeds := by
  have hlink : entries[0]? = some (.symlink linkHeader target mode 0 0, e) := by rw [hentries]; rfl
  have hfirst : entries[1]? = some (.file input lfh mode' 0 0, e') := by rw [hentries]; rfl
  have hsecond : entries[2]? = some (.file input' lfh' mode'' 0 0, e'') := by rw [hentries]; rfl
  have hrank : partRank entries penv.partSize penv.partIndex 3 = 3 := by
    have hall : entries.countP (fun x ↦ x.2.localHeaderOffset / penv.partSize = penv.partIndex) =
        entries.length := List.countP_eq_length.mpr fun x hx ↦ decide_eq_true (hparts x hx)
    rw [partRank, List.take_of_length_le (by rw [hentries]; rfl), hall, hentries]
    rfl
  have hat {i : ℕ} {x : AddCall × FileEntry} (hx : entries[i]? = some x) :
      x.2.localHeaderOffset / penv.partSize = penv.partIndex := hparts x (List.mem_of_getElem? hx)
  -- the part begins, and the header is skipped
  have hinit : Visits (step penv) (partProcessorCreate []).toPartProcessor
      (padding.bytes ++ (linkHeader.bytes ++ (target ++ (lfh.bytes ++ (lfh'.bytes ++ (frame ++
        (last.bytes ++ rest)))))))
      ((partProcessorCreate []).toPartProcessor.enter .expectLocalHeader)
      (padding.bytes ++ (linkHeader.bytes ++ (target ++ (lfh.bytes ++ (lfh'.bytes ++ (frame ++
        (last.bytes ++ rest))))))) := by
    refine .later ?_ ?_ .here
    · apply List.ne_nil_of_length_pos
      rw [List.length_append, LocalFileHeader.bytes_length, LocalFileHeader.len]
      omega
    · change stepInit penv _ _ = _
      rw [stepInit, hcontinuing]
      rfl
  have hp : (ReadPos.header 0).Holds penv path entries
      ((partProcessorCreate []).toPartProcessor.enter .expectLocalHeader) := .header rfl rfl rfl
  obtain ⟨p₀, hskip, hp₀, -⟩ := hp.paddingHeader_step (hk.listed hlink (hat hlink)).1 hpadding hname
    (linkHeader.bytes ++ (target ++ (lfh.bytes ++ (lfh'.bytes ++ (frame ++ (last.bytes ++ rest))))))
  -- the headers that are none of the archive
  obtain ⟨p₁, hopenLink, hp₁, -⟩ := hp₀.header_step hk hos hlink (hat hlink)
    (target ++ (lfh.bytes ++ (lfh'.bytes ++ (frame ++ (last.bytes ++ rest)))))
  obtain ⟨p₂, htarget, hp₂, -⟩ := ReadPos.Holds.target_step hos hk hlink hp₁
    (lfh.bytes ++ (lfh'.bytes ++ (frame ++ (last.bytes ++ rest))))
  obtain ⟨p₃, hopen, hp₃, -⟩ := hp₂.header_step hk hos hfirst (hat hfirst)
    (lfh'.bytes ++ (frame ++ (last.bytes ++ rest)))
  rw [AddCall.opened, hdata, if_neg Bool.false_ne_true] at hp₃
  obtain ⟨hp₃, -⟩ := hp₃.leave hos hfirst
  obtain ⟨p₄, hopen', hp₄, -⟩ := hp₃.header_step hk hos hsecond (hat hsecond)
    (frame ++ (last.bytes ++ rest))
  rw [AddCall.opened, hdata', if_neg Bool.false_ne_true] at hp₄
  -- the frame is written to the second file, which the last header closes
  have hstep : DataStep env level (p₄.position penv) 0 (.frame 0 chunk frame) (0 + chunk.length) :=
    .frame hframe hlen
  obtain ⟨p₅, hwrite, hp₅, hdone, -⟩ := hp₄.data_step hz hk hos hsecond hstep (by
    intro o _ _ hitem
    obtain ⟨rfl, rfl, -⟩ := Item.frame.inj hitem
    exact hchunk) rfl (last.bytes ++ rest)
  obtain ⟨hp₅, hclosed⟩ := hp₅.leave hos hsecond
  obtain ⟨p₆, hclose, hstate, hnone, hnext, -, hops⟩ := hp₅.closes hlast rest
  have hend := extracts_exhausted hstate (by rwa [hnext, hrank]) (last.bytes ++ rest)
  refine ⟨_, hend.of_visits ((((((((hinit.trans hskip).trans hopenLink).trans htarget).trans hopen).trans
    hopen').trans hwrite).trans hclose)), ?_⟩
  rw [closeOutputFile_of_closed hnone, hops]
  change _ ∈ (ReadPos.header 3).done penv p₅
  rw [hclosed, hdone]
  exact List.mem_append_left _ (List.mem_append_right _ List.mem_cons_self)

end

/-- A local file header without a zero byte. -/
def targetHeader : LocalFileHeader where
  fields := {
    signature := zipLocalFileHeaderSig
    versionNeeded := 257
    flags := 257
    compressionMethod := 257
    lastModTime := 257
    lastModDate := 257
    crc32 := 16843009
    compressedSize := 16843009
    uncompressedSize := 16843009
    filenameLength := 257
    extraFieldLength := 257 }
  tail := List.replicate 514 97

theorem targetHeader_len : targetHeader.len = 544 := by decide +kernel

theorem targetHeader_wellFormed : targetHeader.WellFormed ∧ targetHeader.rawName ≠ paddingLfhFilename :=
  ⟨⟨rfl, List.length_replicate, by decide, by decide⟩, by decide +kernel⟩

/-- The symlink that is called like the padding, with such a header for a target. -/
def paddingLink (lfh : LocalFileHeader) : AddCall := .symlink lfh targetHeader.bytes 0o120777 0 0

def paddingLinkHeader : LocalFileHeader :=
  buildSymlinkLocalFileHeader rawEnv 0 paddingLfhFilename targetHeader.bytes 0 0

/-- The same header with a name that ends in a zero byte, which is no part of the file name. -/
def disguisedHeader : LocalFileHeader where
  fields := { paddingLinkHeader.fields with filenameLength := 15, extraFieldLength := 14 }
  tail := paddingLfhFilename ++ List.replicate 15 0

/-- The first chunk of the first file: in its frame, where 544 bytes have been read as the target of the symlink,
the headers of both files follow, a frame, and one more header. -/
def craftedChunk : List UInt8 :=
  List.replicate 486 97 ++ ((fileHeader 97).bytes ++ ((fileHeader 98).bytes ++
    (ZstdFrame.rawFrame [122] ++ ((fileHeader 99).bytes ++ noise 130438))))

/-- The local header of a file with a name of one byte, as it is built for an entry. -/
def craftedHeader (name : UInt8) : LocalFileHeader := buildLocalFileHeader rawEnv 0 [name] false 0 0

theorem craftedHeader_len (name : UInt8) : (craftedHeader name).len = 46 := headerFor_len

theorem craftedHeader_holdsData (name : UInt8) : isHeaderOnly (craftedHeader name) = false := by
  simp [isHeaderOnly, craftedHeader, buildLocalFileHeader, headerFor, zipFlagDataDescriptor]

def craftedFile : AddCall :=
  .file ⟨craftedChunk ++ noise 8168928, none, true⟩ (craftedHeader 97) 0o100644 0 0

def movedFile : AddCall :=
  .file ⟨noise 131072, none, true⟩ (craftedHeader 98) 0o100644 0 0

def craftedCalls (lfh : LocalFileHeader) : List AddCall := [paddingLink lfh, craftedFile, movedFile]

theorem craftedChunk_length : craftedChunk.length = 131072 := by
  have hframe : (ZstdFrame.rawFrame [122]).length = 10 := by decide
  simp only [craftedChunk, List.length_append, List.length_replicate, LocalFileHeader.bytes_length,
    fileHeader_len, hframe, noise_length]

theorem craftedContent_length : (craftedChunk ++ noise 8168928).length = 8300000 := by
  rw [List.length_append, craftedChunk_length, noise_length]

theorem craftedFile_span :
    entrySpan 603 (layoutCall rawEnv 3 603 craftedFile) = ⟨603, 46, 8301415, 8301431⟩ := by
  have hspan := @layoutFile_span (craftedChunk ++ noise 8168928) (craftedHeader 97) 603 8300766
    0o100644 0 0 (craftedHeader_holdsData 97) (by decide +kernel) (by decide) (by
      rw [craftedHeader_len, rawEnv_frameSizes, craftedContent_length]
      decide +kernel) (by norm_num) (by
      rw [craftedContent_length]
      norm_num)
  rwa [craftedHeader_len] at hspan

theorem movedFile_span :
    entrySpan 8301431 (layoutCall rawEnv 3 8301431 movedFile) = ⟨8301431, 46, 8519716, 8519732⟩ := by
  have hspan := @layoutFile_span (noise 131072) (craftedHeader 98) 8301431 218239
    0o100644 0 0 (craftedHeader_holdsData 98) (by decide +kernel) (by decide) (by
      rw [craftedHeader_len, rawEnv_frameSizes, noise_length]
      decide +kernel) (by norm_num) (by
      rw [noise_length]
      norm_num)
  rwa [craftedHeader_len] at hspan

theorem paddingLink_span {lfh : LocalFileHeader} (hlen : lfh.len = 59) :
    entrySpan 0 (layoutCall rawEnv 3 0 (paddingLink lfh)) = ⟨0, 59, 603, 603⟩ := by
  have htarget := targetHeader.bytes_length.trans targetHeader_len
  have hgap : gapItems rawEnv 0 59 544 false = [] := by decide +kernel
  simp only [paddingLink, layoutCall, hlen, htarget, hgap, entrySpan, EntryLayout.headerPos, EntryLayout.dataPos,
    EntryLayout.items, EntryLayout.body, total_append, total_cons, total_nil, Item.len_localHeader,
    Item.len_target]

theorem endPos_of_span {pos : ℕ} {l : EntryLayout} {s : EntrySpan} (h : entrySpan pos l = s) :
    pos + total Item.len l.items = s.endPos := congrArg EntrySpan.endPos h

theorem paddingLink_end {lfh : LocalFileHeader} (hlen : lfh.len = 59) :
    0 + total Item.len (layoutCall rawEnv 3 0 (paddingLink lfh)).items = 603 :=
  endPos_of_span (paddingLink_span hlen)

theorem craftedFile_end : 603 + total Item.len (layoutCall rawEnv 3 603 craftedFile).items = 8301431 :=
  endPos_of_span craftedFile_span

theorem craftedCalls_layout {lfh : LocalFileHeader} (hlen : lfh.len = 59) :
    layoutAll rawEnv 3 0 (craftedCalls lfh) = [layoutCall rawEnv 3 0 (paddingLink lfh),
      layoutCall rawEnv 3 603 craftedFile, layoutCall rawEnv 3 8301431 movedFile] := by
  rw [craftedCalls, layoutAll, paddingLink_end hlen, layoutAll, craftedFile_end, layoutAll, layoutAll]

theorem craftedCalls_spans {lfh : LocalFileHeader} (hlen : lfh.len = 59) :
    entrySpans 0 (layoutAll rawEnv 3 0 (craftedCalls lfh)) =
      [⟨0, 59, 603, 603⟩, ⟨603, 46, 8301415, 8301431⟩, ⟨8301431, 46, 8519716, 8519732⟩] := by
  rw [craftedCalls_layout hlen, entrySpans, paddingLink_end hlen, entrySpans, craftedFile_end, entrySpans,
    entrySpans, paddingLink_span hlen, craftedFile_span, movedFile_span]

theorem craftedCalls_total {lfh : LocalFileHeader} (hlen : lfh.len = 59) :
    total Item.len (bodyItems (layoutAll rawEnv 3 0 (craftedCalls lfh))) = 8519732 := by
  have hend := @entrySpans_getLast 0 (layoutAll rawEnv 3 0 (craftedCalls lfh))
    ⟨8301431, 46, 8519716, 8519732⟩ (by
      rw [craftedCalls_spans hlen]
      rfl)
  rw [Nat.zero_add] at hend
  exact hend.symm

theorem paddingLinkHeader_len : paddingLinkHeader.len = 59 := by decide

theorem disguisedHeader_len : disguisedHeader.len = 59 := by decide

/-- The bytes of the archive behind the header of the symlink. -/
def craftedRest : List UInt8 :=
  targetHeader.bytes ++ (itemBytes (layoutCall rawEnv 3 603 craftedFile).items ++
    itemBytes (layoutCall rawEnv 3 8301431 movedFile).items)

theorem craftedCalls_bytes {lfh : LocalFileHeader} (hlen : lfh.len = 59) :
    itemBytes (bodyItems (layoutAll rawEnv 3 0 (craftedCalls lfh))) = lfh.bytes ++ craftedRest := by
  have htarget := targetHeader.bytes_length.trans targetHeader_len
  have hgap : gapItems rawEnv 0 59 544 false = [] := by decide +kernel
  have hlink : (layoutCall rawEnv 3 0 (paddingLink lfh)).items =
      [.localHeader lfh, .target targetHeader.bytes] := by
    simp only [paddingLink, layoutCall, hlen, htarget, hgap, EntryLayout.items, EntryLayout.body, List.nil_append,
      List.append_nil]
  rw [craftedCalls_layout hlen]
  simp only [bodyItems, List.flatMap_cons, List.flatMap_nil, List.append_nil, itemBytes_append, hlink,
    itemBytes_cons, itemBytes_nil, Item.bytes, craftedRest, List.append_assoc]

theorem craftedCalls_entries {lfh : LocalFileHeader} (hlen : lfh.len = 59) :
    recordedAll rawEnv 3 0 (craftedCalls lfh) = [recordedEntry rawEnv 3 0 (paddingLink lfh),
      recordedEntry rawEnv 3 603 craftedFile, recordedEntry rawEnv 3 8301431 movedFile] := by
  rw [craftedCalls, recordedAll, paddingLink_end hlen, recordedAll, craftedFile_end, recordedAll, recordedAll]

theorem craftedCalls_zip {lfh : LocalFileHeader} (hlen : lfh.len = 59) :
    (craftedCalls lfh).zip (recordedAll rawEnv 3 0 (craftedCalls lfh)) =
      [(paddingLink lfh, recordedEntry rawEnv 3 0 (paddingLink lfh)),
        (craftedFile, recordedEntry rawEnv 3 603 craftedFile),
        (movedFile, recordedEntry rawEnv 3 8301431 movedFile)] := by
  rw [craftedCalls_entries hlen]
  rfl

theorem craftedCalls_moved {lfh : LocalFileHeader} (hlen : lfh.len = 59) :
    ((craftedCalls lfh).zip (recordedAll rawEnv 3 0 (craftedCalls lfh)))[2]? =
      some (movedFile, recordedEntry rawEnv 3 8301431 movedFile) := by
  rw [craftedCalls_zip hlen]
  rfl

/-- The disguise is not recorded. -/
theorem craftedCalls_recorded : recordedAll rawEnv 3 0 (craftedCalls disguisedHeader) =
    recordedAll rawEnv 3 0 (craftedCalls paddingLinkHeader) := by
  have hname : disguisedHeader.filename = paddingLinkHeader.filename := by decide
  have hfirst : recordedEntry rawEnv 3 0 (paddingLink disguisedHeader) =
      recordedEntry rawEnv 3 0 (paddingLink paddingLinkHeader) := by
    simp only [recordedEntry, paddingLink, layoutCall, EntryLayout.headerPos, populateEntryMetadata,
      allocateFileEntry, AddCall.lfh, disguisedHeader_len, paddingLinkHeader_len, hname]
    rfl
  rw [craftedCalls_entries disguisedHeader_len, craftedCalls_entries paddingLinkHeader_len, hfirst]

theorem wellMade_file {name : UInt8} (hname : name ≠ 0 ∧ name ≠ slash) {content : List UInt8}
    (hsize : content.length < 2 ^ 64) :
    (AddCall.file ⟨content, none, true⟩ (craftedHeader name) 0o100644 0 0).WellMade := by
  have hfilename : (craftedHeader name).filename = [name] :=
    headerFor_filename (show 1 < 2 ^ 16 by norm_num) (by simpa using hname.1)
  constructor
  case wellFormed => exact headerFor_wellFormed (show 1 < 2 ^ 16 by norm_num)
  case headerFits =>
    have hlen : (craftedHeader name).len = 46 := headerFor_len
    change (craftedHeader name).len + 0 + 68 ≤ 65579
    omega
  case consistent =>
    refine ⟨show isLnk (0o100644 % 2 ^ 16) = false by decide, ?_⟩
    change decide ((craftedHeader name).filename.getLast? = some slash) = false
    rw [hfilename]
    simpa using hname.2
  case compressionMethod => exact show 93 < 2 ^ 16 by norm_num
  case checksum => exact fun hlink ↦ by cases hlink
  case owner => exact ⟨by norm_num [AddCall.owner], by norm_num [AddCall.owner]⟩
  case content =>
    rwa [AddCall.content_of_data (craftedHeader_holdsData name)]

theorem craftedCalls_wellMade {lfh : LocalFileHeader} (hlink : (paddingLink lfh).WellMade) :
    ∀ call ∈ craftedCalls lfh, call.WellMade := by
  simp only [craftedCalls, List.forall_mem_cons, List.not_mem_nil, false_imp_iff, implies_true, and_true]
  refine ⟨hlink, wellMade_file (by decide) ?_, wellMade_file (by decide) ?_⟩
  · rw [craftedContent_length]
    norm_num
  · rw [noise_length]
    norm_num

theorem paddingLink_wellMade {lfh : LocalFileHeader} (hw : lfh.WellFormed) (hlen : lfh.len = 59)
    (hname : lfh.filename = paddingLfhFilename) (hmethod : lfh.fields.compressionMethod = zipMethodStore)
    (hcrc : lfh.fields.crc32 < 2 ^ 32) : (paddingLink lfh).WellMade := by
  have htarget := targetHeader.bytes_length.trans targetHeader_len
  constructor
  case wellFormed => exact hw
  case headerFits =>
    change lfh.len + targetHeader.bytes.length + 68 ≤ 65579
    omega
  case consistent =>
    refine ⟨show isLnk (0o120777 % 2 ^ 16) = true by decide, ?_⟩
    change decide (lfh.filename.getLast? = some slash) = false
    rw [hname]
    decide
  case compressionMethod =>
    change lfh.fields.compressionMethod < 2 ^ 16
    rw [hmethod]
    norm_num [zipMethodStore]
  case checksum => exact fun _ ↦ hcrc
  case owner => exact ⟨by norm_num [paddingLink, AddCall.owner], by norm_num [paddingLink, AddCall.owner]⟩
  case content =>
    change targetHeader.bytes.length < 2 ^ 64
    omega

theorem paddingLinkHeader_crc : paddingLinkHeader.fields.crc32 < 2 ^ 32 :=
  Crc32.crc32_lt (by norm_num) targetHeader.bytes

theorem paddingLinkHeader_wellMade : (paddingLink paddingLinkHeader).WellMade :=
  paddingLink_wellMade (headerFor_wellFormed (by decide)) paddingLinkHeader_len
    (headerFor_filename (by decide) (by simp [paddingLfhFilename])) rfl paddingLinkHeader_crc

theorem disguisedHeader_wellFormed : disguisedHeader.WellFormed where
  signature := rfl
  tail_length := by simp [disguisedHeader, paddingLfhFilename_length, paddingLfhFilenameLen]
  filenameLength_lt := by norm_num [disguisedHeader]
  extraFieldLength_lt := by norm_num [disguisedHeader]

theorem disguisedHeader_wellMade : (paddingLink disguisedHeader).WellMade :=
  paddingLink_wellMade disguisedHeader_wellFormed disguisedHeader_len (by decide) rfl paddingLinkHeader_crc

theorem craftedCalls_names {lfh : LocalFileHeader} (hname : lfh.filename = paddingLfhFilename) :
    (craftedCalls lfh).map (fun call ↦ call.lfh.filename) = [paddingLfhFilename, [97], [98]] := by
  have ha : (craftedHeader 97).filename = [97] := by decide
  have hb : (craftedHeader 98).filename = [98] := by decide
  simp only [craftedCalls, paddingLink, craftedFile, movedFile, List.map_cons, List.map_nil, AddCall.lfh, hname,
    ha, hb]

theorem craftedNames_plain : PlainNames [paddingLfhFilename, [97], [98]] :=
  ⟨by decide +kernel, by decide +kernel, by decide +kernel⟩

theorem craftedCalls_continues {lfh : LocalFileHeader} (hlen : lfh.len = 59) :
    ∀ s ∈ entrySpans 0 (layoutAll rawEnv 3 0 (craftedCalls lfh)), ∀ p,
      s.Crosses (p * burstPartSize) → p * burstPartSize + s.lfhLen < s.dataEnd + 46 := by
  rw [craftedCalls_spans hlen, burstPartSize]
  simp only [List.forall_mem_cons, List.not_mem_nil, false_imp_iff, implies_true, and_true, EntrySpan.Crosses]
  refine ⟨?_, ?_, ?_⟩ <;> omega

theorem craftedCalls_avoidsMarker {lfh : LocalFileHeader} (hlen : lfh.len = 59)
    (hlink : (paddingLink lfh).WellMade) :
    ∀ e ∈ recordedAll rawEnv 3 0 (craftedCalls lfh), e.AvoidsMarker := by
  intro e he
  obtain ⟨call, hcall, pos, rfl, hcompressed⟩ := recordedAll_of_call he
  have hmade := craftedCalls_wellMade hlink call hcall
  have hsize : call.content.length ≤ 8300000 := by
    simp only [craftedCalls, List.mem_cons, List.not_mem_nil, or_false] at hcall
    rcases hcall with rfl | rfl | rfl
    · have htarget := targetHeader.bytes_length.trans targetHeader_len
      change targetHeader.bytes.length ≤ 8300000
      omega
    · rw [craftedFile, AddCall.content_of_data (craftedHeader_holdsData 97), craftedContent_length]
    · rw [movedFile, AddCall.content_of_data (craftedHeader_holdsData 98), noise_length]
      norm_num
  rw [craftedCalls_total hlen] at hcompressed
  rw [← (recordedEntry_records rawEnv 3 pos hmade.headerFits).uncompressedSize] at hsize
  rw [FileEntry.AvoidsMarker]
  omega

/-- The archive that the disguised calls make differs from the one of the crafted calls in the header of the
symlink alone. -/
theorem crafted_archives {w w' v v' : BurstWriter}
    (hadd : addAll rawEnv (craftedCalls paddingLinkHeader) (burstWriterCreate ⟨[], []⟩ 3) = (some (), w))
    (hfin : burstWriterFinalize w = (some (), w'))
    (hadd' : addAll rawEnv (craftedCalls disguisedHeader) (burstWriterCreate ⟨[], []⟩ 3) = (some (), v))
    (hfin' : burstWriterFinalize v = (some (), v')) : w.files = v.files ∧ w.position = v.position ∧ ∃ rest,
      w'.output.bytes = paddingLinkHeader.bytes ++ (craftedRest ++ rest) ∧
        v'.output.bytes = disguisedHeader.bytes ++ (craftedRest ++ rest) := by
  obtain ⟨hfiles, hbytes⟩ := finalized_bytes hadd hfin
  obtain ⟨hfiles', hbytes'⟩ := finalized_bytes hadd' hfin'
  have hsame : w.files = v.files := by rw [hfiles, hfiles', craftedCalls_recorded]
  rw [itemBytes_length, craftedCalls_total paddingLinkHeader_len, craftedCalls_bytes paddingLinkHeader_len]
    at hbytes
  rw [itemBytes_length, craftedCalls_total disguisedHeader_len, craftedCalls_bytes disguisedHeader_len, ← hsame]
    at hbytes'
  refine ⟨hsame, ?_, centralDirectoryBytes w.files ++
    endRecords w.files 8519732 (centralDirectoryBytes w.files).length, ?_, ?_⟩
  · rw [addAll_position hadd, addAll_position hadd', craftedCalls_total paddingLinkHeader_len,
      craftedCalls_total disguisedHeader_len]
  · simpa only [List.append_assoc] using hbytes
  · simpa only [List.append_assoc] using hbytes'

/-- How the layout of a file begins whose first chunk is a whole one. -/
theorem layoutFile_begins {chunk rest : List UInt8} {lfh : LocalFileHeader} {pos : ℕ} (mode : ℕ)
    (hdata : isHeaderOnly lfh = false) (hgap : gapItems rawEnv pos lfh.len 0 true = [])
    (hchunk : chunk.length = zstdChunkSize) : ∃ later,
      (layoutCall rawEnv 3 pos (.file ⟨chunk ++ rest, none, true⟩ lfh mode 0 0)).items =
        .localHeader lfh :: (frameItems (pos + lfh.len) 0 chunk (ZstdFrame.rawFrame chunk) ++ later) := by
  obtain ⟨chunks, hcut⟩ : ∃ chunks, InputFile.chunks ⟨chunk ++ rest, none, true⟩ = chunk :: chunks := by
    obtain ⟨fuel, hfuel⟩ : ∃ fuel, (chunk ++ rest).length = fuel + 1 := by
      refine ⟨(chunk ++ rest).length - 1, ?_⟩
      rw [List.length_append, hchunk, zstdChunkSize]
      omega
    have hfull : ¬ (chunk ++ rest).isEmpty = true := by
      rw [List.isEmpty_iff_length_eq_zero, hfuel]
      exact Nat.succ_ne_zero fuel
    exact ⟨_, by rw [InputFile.chunks, Pieces.cut, hfuel, Pieces.cutAux, if_neg hfull, List.take_left' hchunk]⟩
  simp only [layoutCall, hgap, hdata, Bool.false_eq_true, if_false, EntryLayout.items, EntryLayout.body,
    List.nil_append, total_nil, Nat.add_zero, hcut, chunkItems, List.append_assoc]
  exact ⟨_, rfl⟩

/-- How the bytes of the archive go on behind the header of the symlink. -/
theorem craftedRest_bytes : ∃ frameHeader more, frameHeader.length = 12 ∧ craftedRest = targetHeader.bytes ++
    ((craftedHeader 97).bytes ++ (frameHeader ++ (craftedChunk ++ more))) := by
  obtain ⟨later, hitems⟩ := @layoutFile_begins craftedChunk (noise 8168928)
    (craftedHeader 97) 603 0o100644 (craftedHeader_holdsData 97) (by decide +kernel) craftedChunk_length
  have hframe : (ZstdFrame.rawFrame craftedChunk).length = 131084 := by
    rw [ZstdFrame.rawFrame_length, craftedChunk_length]
    rfl
  have hfirst : frameItems (603 + 46) 0 craftedChunk (ZstdFrame.rawFrame craftedChunk) =
      [.frame 0 craftedChunk (ZstdFrame.rawFrame craftedChunk)] := by
    have haction : alignmentDecide (603 + 46) 131084 (decide (131072 < zstdChunkSize)) =
        ⟨.writeFrame, 0, 8388608, false⟩ := by decide
    simp only [frameItems, hframe, craftedChunk_length, haction]
    rfl
  rw [craftedHeader_len, hfirst] at hitems
  refine ⟨ZstdFrame.header craftedChunk.length ++ encode 3 (craftedChunk.length * 8 + 1), ?_, ?_, ?_⟩
  · exact itemBytes later ++ itemBytes (layoutCall rawEnv 3 8301431 movedFile).items
  · rw [craftedChunk_length]
    rfl
  · rw [craftedRest, craftedFile, hitems]
    simp only [List.singleton_append, itemBytes_cons, Item.bytes, ZstdFrame.rawFrame, List.append_assoc]

/-- The second file goes on in the second part, before its first frame. -/
theorem craftedCalls_boundary {lfh : LocalFileHeader} (hlen : lfh.len = 59) : ∃ before after,
    bodyItems (layoutAll rawEnv 3 0 (craftedCalls lfh)) = before ++ .startOfPart 0 :: after ∧
      total Item.len before = 8388608 := by
  obtain ⟨later, hitems⟩ := @layoutFile_begins (noise 131072) [] (craftedHeader 98) 8301431
    0o100644 (craftedHeader_holdsData 98) (by decide +kernel) (noise_length 131072)
  have hframe : (ZstdFrame.rawFrame (noise 131072)).length = 131084 := by
    rw [ZstdFrame.rawFrame_length, noise_length]
    rfl
  have hfirst : frameItems (8301431 + 46) 0 (noise 131072) (ZstdFrame.rawFrame (noise 131072)) =
      [.padding 87123, .startOfPart 0, .frame 0 (noise 131072) (ZstdFrame.rawFrame (noise 131072))] := by
    have haction : alignmentDecide (8301431 + 46) 131084 (decide (131072 < zstdChunkSize)) =
        ⟨.padThenMetadata, 87123, 8388608, false⟩ := by decide +kernel
    simp only [frameItems, hframe, noise_length, haction]
    rfl
  rw [craftedHeader_len, hfirst, List.append_nil] at hitems
  have hsum (m n : ℕ) (hm : 0 + m = 603) (hn : 603 + n = 8301431) :
      m + (n + (46 + (8 + 87123 + 0))) = 8388608 := by omega
  refine ⟨(layoutCall rawEnv 3 0 (paddingLink lfh)).items ++ ((layoutCall rawEnv 3 603 craftedFile).items ++
    [.localHeader (craftedHeader 98), .padding 87123]),
    .frame 0 (noise 131072) (ZstdFrame.rawFrame (noise 131072)) :: later, ?_, ?_⟩
  · rw [craftedCalls_layout hlen]
    simp only [bodyItems, List.flatMap_cons, List.flatMap_nil, List.append_nil, movedFile, hitems,
      List.append_assoc, List.cons_append, List.nil_append]
  · rw [total_append, total_append, total_cons, total_cons, total_nil, Item.len_localHeader,
      craftedHeader_len, Item.len_padding]
    exact hsum _ _ (paddingLink_end hlen) craftedFile_end

theorem craftedCalls_added {lfh : LocalFileHeader} (hlink : (paddingLink lfh).WellMade) : ∃ w w',
    addAll rawEnv (craftedCalls lfh) (burstWriterCreate ⟨[], []⟩ 3) = (some (), w) ∧
      burstWriterFinalize w = (some (), w') := by
  have hmade := craftedCalls_wellMade hlink
  apply addAll_finalizes (rawEnv_framesBounded 3)
  · simp only [craftedCalls, List.forall_mem_cons, List.not_mem_nil, false_imp_iff, implies_true, and_true]
    refine ⟨⟨?_, trivial⟩, AddCall.admissible_file (fun _ ↦ rfl) _ _ _ _ _,
      AddCall.admissible_file (fun _ ↦ rfl) _ _ _ _ _⟩
    change targetHeader.bytes.length ≠ 0
    decide +kernel
  · exact fun call hcall ↦ (hmade call hcall).wellFormed.signature
  · exact fun call hcall ↦ (hmade call hcall).headerFits

theorem craftedCalls_readable {lfh : LocalFileHeader} (hlen : lfh.len = 59) (hlink : (paddingLink lfh).WellMade)
    {w w' : BurstWriter}
    (hadd : addAll rawEnv (craftedCalls lfh) (burstWriterCreate ⟨[], []⟩ 3) = (some (), w))
    (hfin : burstWriterFinalize w = (some (), w')) : w'.output.bytes.length < 16777216 ∧
      8388608 < w'.output.bytes.length ∧
      ReadableArchive rawEnv 3 (craftedCalls lfh) w w'.output.bytes rawZstd burstPartSize := by
  have hposition := (addAll_position hadd).trans (craftedCalls_total hlen)
  have hlength := finalized_length (addAll_tracks hadd) hfin
  obtain ⟨hfiles, -⟩ := finalized_bytes hadd hfin
  have hdirectory : (centralDirectoryBytes w.files).length < 400000 := by
    have hle := centralDirectoryBytes_length_le w.files
    have hcount : w.files.length = 3 := by rw [hfiles, recordedAll_length]; rfl
    omega
  rw [hposition, burstEocdCommentSize] at hlength
  refine ⟨by omega, by omega, ?_⟩
  constructor
  case frames => exact rawZstd_framesDecode 3
  case boundaries => exact dvd_rfl
  case positive => decide
  case size =>
    rw [burstPartSize]
    omega
  case fewParts =>
    rw [burstPartSize]
    omega
  case memory => omega
  case markers => exact hfiles ▸ craftedCalls_avoidsMarker hlen hlink
  case continues => exact craftedCalls_continues hlen

/-- The extraction to `out` of an archive that has been parsed. -/
def extractionToOut (cdResult : CentralDirParseResult) : Extraction :=
  ⟨fun _ ↦ obligingOs, rawZstd, cdResult, [111, 117, 116], burstPartSize⟩

end Burst
