import Burst.PartCompleteness

namespace Burst

open LittleEndian Incremental

namespace Extraction

def numParts (x : Extraction) : ℕ := x.cdResult.parts.length

/-- The processor of a part before it is finalized. -/
def fed (x : Extraction) (chunks : ℕ → List (List UInt8)) (p : ℕ) : Option PartProcessorState :=
  feedAll (x.env p) (partProcessorCreate []) (chunks p)

def extracted (x : Extraction) (chunks : ℕ → List (List UInt8)) (p : ℕ) : Option PartProcessorState :=
  extractPart (x.env p) (chunks p)

end Extraction

/-- Where a part leaves off the file that is open; beyond every file when that is complete. -/
def resumeOffset (p : PartProcessor) : ℕ :=
  match p.currentFile with
  | none => 2 ^ 64
  | some f => if f.Complete then 2 ^ 64 else f.uncompressedOffset

namespace Extraction

/-- Where the part before has left off its file. -/
def resume (x : Extraction) (chunks : ℕ → List (List UInt8)) : ℕ → ℕ
  | 0 => 2 ^ 64
  | p + 1 => (x.fed chunks p).elim (2 ^ 64) fun s ↦ resumeOffset s.toPartProcessor

/-- No round of the part leaves out data, and it ends where it may. -/
def LosesNothing (x : Extraction) (chunks : ℕ → List (List UInt8)) (p : ℕ) : Prop :=
  KeepsAllData (x.env p) (x.resume chunks p) (partProcessorCreate []) (chunks p)

/-- A byte of a file has been written while some part was extracted. -/
def WrittenBy (x : Extraction) (chunks : ℕ → List (List UInt8)) (path : Path) (i : ℕ) : Prop :=
  ∃ p < x.numParts, ∃ t, x.extracted chunks p = some t ∧ Written (x.os p) t.ops path i

end Extraction

/-- What a successful parse returns: 64-bit sizes and the map of the files that it lists. -/
structure CentralDirParseResult.Parsed (cdResult : CentralDirParseResult) (archiveSize partSize : ℕ) :
    Prop where
  sizes : ∀ fileMeta ∈ cdResult.files, fileMeta.uncompressedSize < 2 ^ 64
  parts : buildPartMap cdResult.files archiveSize partSize = .ok cdResult.parts

theorem takeZip64Value_lt_of_lt {field old value : ℕ} {data rest : List UInt8} (hold : old < 2 ^ 64)
    (h : takeZip64Value field old data = some (value, rest)) : value < 2 ^ 64 := by
  rw [takeZip64Value] at h
  split at h
  · split at h
    · cases h
    · cases h
      exact read_lt data 0 8
  · cases h
    exact hold

theorem parseZip64ExtraField_uncompressedSize (header : ZipCentralHeader) (fuel : ℕ)
    (extra : List UInt8) {v : Zip64Values} (hv : v.uncompressedSize < 2 ^ 64) :
    (parseZip64ExtraField header fuel extra v).uncompressedSize < 2 ^ 64 := by
  induction fuel generalizing extra with
  | zero => exact hv
  | succ fuel ih =>
    rw [parseZip64ExtraField]
    split
    · exact hv
    · split
      · split
        · exact hv
        · rw [parseZip64Data]
          split
          · exact hv
          · next uncompressedSize data huncompressed =>
            have hlt := takeZip64Value_lt_of_lt hv huncompressed
            split
            · exact hlt
            · split
              · exact hlt
              · exact hlt
      · split
        · exact hv
        · exact ih _

theorem parseEntries_sizes (partSize : ℕ) {numEntries : ℕ} {first : Bool} {cd : List UInt8}
    {files : List FileMetadata} (h : parseEntries partSize numEntries first cd = .ok files) :
    ∀ fileMeta ∈ files, fileMeta.uncompressedSize < 2 ^ 64 := by
  induction numEntries generalizing first cd files with
  | zero =>
    cases h
    simp
  | succ n ih =>
    rw [parseEntries] at h
    split at h
    · cases h
      simp
    · split at h
      · split at h
        · cases h
        · cases h
          simp
      · dsimp only at h
        split at h
        · split at h
          · cases h
          · cases h
            simp
        · split at h
          · cases h
          · split at h
            · cases h
            · next rest hrest =>
              cases h
              intro fileMeta hmem
              rcases List.mem_cons.mp hmem with rfl | hlater
              · apply parseZip64ExtraField_uncompressedSize
                exact (read_lt cd 24 4).trans (by norm_num)
              · exact ih hrest fileMeta hlater

theorem centralDirParseFromCdBuffer_parsed {cdBuffer : List UInt8}
    {cdOffset cdSize archiveSize partSize : ℕ} {isZip64 : Bool} {cdResult : CentralDirParseResult}
    (h : centralDirParseFromCdBuffer cdBuffer cdOffset cdSize archiveSize partSize isZip64 =
      .ok cdResult) : cdResult.Parsed archiveSize partSize := by
  rw [centralDirParseFromCdBuffer] at h
  split at h
  · cases h
  · split at h
    · cases h
    · split at h
      · cases h
      · next files hfiles =>
        split at h
        · cases h
        · next parts hparts =>
          cases h
          refine ⟨?_, hparts⟩
          rw [parseCentralDirectory] at hfiles
          split_ifs at hfiles
          exact parseEntries_sizes partSize hfiles

theorem CentralDirParseResult.Parsed.numParts {cdResult : CentralDirParseResult} {archiveSize partSize : ℕ}
    (h : cdResult.Parsed archiveSize partSize) : cdResult.parts.length = numPartsFor archiveSize partSize := by
  have hmap := h.parts
  rw [buildPartMap] at hmap
  split at hmap
  · cases hmap
  · rw [← Except.ok.inj hmap, List.length_map, List.length_range]

/-- Every way to read a central directory returns such results. -/
theorem centralDirParse_parsed {buffer : List UInt8} {archiveSize partSize : ℕ}
    {cdResult : CentralDirParseResult} (h : centralDirParse buffer archiveSize partSize = .ok cdResult) :
    cdResult.Parsed archiveSize partSize := by
  rw [centralDirParse] at h
  split at h
  · cases h
  · split at h
    · cases h
    · exact centralDirParseFromCdBuffer_parsed h

theorem centralDirParsePartial_parsed {buffer : List UInt8}
    {bufferStartOffset centralDirOffset firstCdfhOffset archiveSize partSize : ℕ} {isZip64 : Bool}
    {cdResult : CentralDirParseResult}
    (h : centralDirParsePartial buffer bufferStartOffset centralDirOffset firstCdfhOffset archiveSize
      partSize isZip64 = .ok cdResult) : cdResult.Parsed archiveSize partSize := by
  rw [centralDirParsePartial] at h
  split_ifs at h
  split at h
  · cases h
  · next result hresult =>
    cases h
    obtain ⟨hsizes, hparts⟩ := centralDirParseFromCdBuffer_parsed hresult
    exact ⟨hsizes, hparts⟩

namespace Extraction

theorem sizes64 {x : Extraction} {archiveSize : ℕ}
    (hcd : x.cdResult.Parsed archiveSize x.partSize) (p : ℕ) : (x.env p).Sizes64 :=
  hcd.sizes

theorem extracted_fed {x : Extraction} {chunks : ℕ → List (List UInt8)} {p : ℕ} {t : PartProcessorState}
    (h : x.extracted chunks p = some t) :
    ∃ s, x.fed chunks p = some s ∧ finalizeAll (x.env p) s = some t :=
  Option.bind_eq_some_iff.mp h

theorem LosesNothing.progress {x : Extraction} {chunks : ℕ → List (List UInt8)} {archiveSize : ℕ}
    (hcd : x.cdResult.Parsed archiveSize x.partSize) (hzstd : x.zstd.SizesAgree) {p : ℕ}
    (h : x.LosesNothing chunks p) {s : PartProcessorState} (hs : x.fed chunks p = some s) :
    ∃ bytes, bytes <+: (chunks p).flatten ∧
      Progress (x.env p) (x.resume chunks p) bytes s.toPartProcessor ∧
        MayEnd (x.env p) s.toPartProcessor := by
  have hcreate : FedProgress (x.env p) (x.resume chunks p) [] (partProcessorCreate []).toPartProcessor
      (partProcessorCreate []).frameBuffer :=
    ⟨[], partProcessorCreate_progress (x.env p) (x.resume chunks p), rfl⟩
  exact feedAll_progress (x.sizes64 hcd p) hzstd (by simp [partProcessorCreate]) hcreate h hs

/-- The part in which the file goes on that is open when a part ends. -/
theorem goesOn_next {x : Extraction} {p : ℕ} {f : FileContext} (h : f.GoesOn (x.env p)) :
    p + 1 < x.numParts ∧ ∃ fileMeta, (x.env (p + 1)).continuingFile = some fileMeta ∧
      x.path fileMeta = f.filename ∧ fileMeta.uncompressedSize = f.expectedTotalSize ∧
      fileMeta.isSymlink = false ∧ fileMeta.isDirectory = false := by
  obtain ⟨-, fileMeta, hfollowing, hpath, hsize, hlink, hdirectory⟩ := h
  have hcontinuing : (x.env (p + 1)).continuingFile = some fileMeta := hfollowing
  refine ⟨?_, fileMeta, hcontinuing, hpath, hsize, hlink, hdirectory⟩
  by_contra hlast
  have hnone : x.cdResult.parts[p + 1]? = none :=
    List.getElem?_eq_none (by rw [numParts] at hlast; omega)
  rw [ProcessorEnv.continuingFile, ProcessorEnv.part] at hcontinuing
  simp [env, hnone] at hcontinuing

/-- A byte of a regular file from where a part begins to write it on is written in that part or in one
after it. -/
theorem writtenBy_of_opened {x : Extraction} {chunks : ℕ → List (List UInt8)} {archiveSize : ℕ}
    (hcd : x.cdResult.Parsed archiveSize x.partSize) (hzstd : x.zstd.SizesAgree)
    (hparts : ∀ p < x.numParts, (∃ t, x.extracted chunks p = some t) ∧ x.LosesNothing chunks p) {p : ℕ}
    (hp : p < x.numParts) {s : PartProcessorState} (hs : x.fed chunks p = some s) {fileMeta : FileMetadata}
    {start : ℕ} (hopened : (fileMeta, start) ∈ openedEntries (x.env p) (x.resume chunks p) s.toPartProcessor)
    (hdirectory : fileMeta.isDirectory = false) (hlink : fileMeta.isSymlink = false) {i : ℕ}
    (hlo : start ≤ i) (hhi : i < fileMeta.uncompressedSize) : x.WrittenBy chunks (x.path fileMeta) i := by
  -- from the last part backwards
  induction hleft : x.numParts - p generalizing p s fileMeta start with
  | zero => omega
  | succ left ih =>
    obtain ⟨⟨t, ht⟩, hloses⟩ := hparts p hp
    obtain ⟨_, -, hprogress, hend⟩ := hloses.progress hcd hzstd hs
    obtain ⟨s', hs', hfinal⟩ := extracted_fed ht
    obtain rfl := Option.some.inj (hs'.symm.trans hs)
    have hops : t.ops = (closeOutputFile (x.os p) s'.toPartProcessor).ops := by
      rw [finalizeAll_eq hfinal]
      rfl
    rcases (hprogress.ends hend hopened).2 with hwhole | ⟨f, hf, hgoes, hopens⟩
    · refine ⟨p, hp, t, ht, ?_⟩
      rw [hops]
      exact hwhole.regular hdirectory hlink i hlo hhi
    · by_cases hwritten : i < f.uncompressedOffset
      · -- the part itself has got beyond the byte
        refine ⟨p, hp, t, ht, ?_⟩
        rw [hops]
        have hpath : f.filename = x.path fileMeta := hopens.filename
        rw [← hpath]
        exact (hopens.written i hlo hwritten).mono (closeOutputFile_ops_le (x.os p) _)
      · -- the next part goes on at most where this one has left off
        obtain ⟨hnext, following, hfollowing, hpath, hsize, hregular, hfile⟩ := goesOn_next hgoes
        obtain ⟨⟨t', ht'⟩, hloses'⟩ := hparts (p + 1) hnext
        obtain ⟨u, hu, -⟩ := extracted_fed ht'
        obtain ⟨_, -, hprogress', hend'⟩ := hloses'.progress hcd hzstd hu
        have hstate := hend'.2.1 (by rw [hfollowing]; rfl)
        have hmem : (following, x.resume chunks (p + 1)) ∈
            openedEntries (x.env (p + 1)) (x.resume chunks (p + 1)) u.toPartProcessor := by
          refine List.mem_append_left _ ?_
          rw [if_neg (by tauto), hfollowing]
          exact List.mem_singleton.mpr rfl
        have hincomplete : ¬ f.Complete := fun hcomplete ↦ by
          have hall := hcomplete.2 hgoes.1 (hopens.isDirectory.trans hdirectory)
          rw [hopens.size] at hall
          exact hwritten (hhi.trans_le hall)
        have hresume : x.resume chunks (p + 1) = f.uncompressedOffset := by
          rw [resume, hs]
          simp only [Option.elim_some, resumeOffset, hf]
          exact if_neg hincomplete
        have hsame : x.path following = x.path fileMeta := hpath.trans hopens.filename
        rw [← hsame]
        refine ih hnext hu hmem hfile hregular ?_ ?_ (by omega)
        · rw [hresume]
          omega
        · rw [hsize, hopens.size]
          exact hhi

/-- The part in which a file of a parsed archive starts lists it. -/
theorem entry_listed {x : Extraction} {archiveSize : ℕ}
    (hcd : x.cdResult.Parsed archiveSize x.partSize) {fileMeta : FileMetadata}
    (hfile : fileMeta ∈ x.cdResult.files) (hpart : fileMeta.partIndex < x.numParts) :
    ∃ i < (x.env fileMeta.partIndex).part.entries.length,
      (x.env fileMeta.partIndex).nextFile i = some fileMeta := by
  obtain ⟨k, hk, hget⟩ := List.getElem_of_mem hfile
  have hmap := List.getElem?_eq_getElem hpart
  obtain ⟨-, hfiles⟩ := buildPartMap_some hcd.parts hmap
  have hpartEq : (x.env fileMeta.partIndex).part =
      partFilesAt x.cdResult.files x.partSize fileMeta.partIndex := by
    rw [← hfiles, ProcessorEnv.part]
    simp only [env]
    rw [hmap]
    rfl
  have hmem : (⟨k, fileMeta.localHeaderOffset % x.partSize⟩ : PartFileEntry) ∈
      (partFilesAt x.cdResult.files x.partSize fileMeta.partIndex).entries := by
    refine (List.mem_insertionSort _).mpr (List.mem_filterMap.mpr ⟨(fileMeta, k), ?_, ?_⟩)
    · rw [← hget]
      exact List.mem_zipIdx_iff_getElem?.mpr (List.getElem?_eq_getElem hk)
    · exact if_pos rfl
  obtain ⟨i, hi, hentry⟩ := List.getElem_of_mem hmem
  refine ⟨i, by rw [hpartEq]; exact hi, ?_⟩
  rw [ProcessorEnv.nextFile, hpartEq, List.getElem?_eq_getElem hi, hentry]
  exact (List.getElem?_eq_getElem hk).trans (congrArg some hget)

end Extraction

/-- Where every part is fed and finalized without an error, where no round leaves out data (a file is
closed when it is complete, the central directory comes after the last entry, a Start-of-Part frame does
not go on behind where the file has been written to) and every part ends where it may (all its entries
have been met, and a file that is open is complete or goes on in the next part), every part has opened
what it lists and made its symlinks of targets of full length, and every byte of every regular file that
starts in a part has been written. -/
theorem extraction_complete {x : Extraction} (chunks : ℕ → List (List UInt8)) {archiveSize : ℕ}
    (hcd : x.cdResult.Parsed archiveSize x.partSize) (hzstd : x.zstd.SizesAgree) :
    (∀ p t, x.extracted chunks p = some t → x.LosesNothing chunks p → SymlinksSucceed (x.os p) t.ops →
      PartComplete (x.env p) (chunks p).flatten t) ∧
    ((∀ p < x.numParts, (∃ t, x.extracted chunks p = some t) ∧ x.LosesNothing chunks p) →
      ∀ fileMeta ∈ x.cdResult.files, fileMeta.partIndex < x.numParts →
        fileMeta.isDirectory = false → fileMeta.isSymlink = false →
        ∀ i < fileMeta.uncompressedSize, x.WrittenBy chunks (x.path fileMeta) i) := by
  constructor
  · intro p t ht hloses hlinks
    obtain ⟨s, hs, hfinal⟩ := Extraction.extracted_fed ht
    obtain ⟨bytes, hbytes, hprogress, hend⟩ := hloses.progress hcd hzstd hs
    exact hprogress.partComplete hbytes hend hfinal hlinks
  · intro hparts fileMeta hfile hpart hdirectory hlink i hi
    obtain ⟨⟨t, ht⟩, hloses⟩ := hparts fileMeta.partIndex hpart
    obtain ⟨s, hs, -⟩ := Extraction.extracted_fed ht
    obtain ⟨_, -, hprogress, hend⟩ := hloses.progress hcd hzstd hs
    obtain ⟨j, hj, hnext⟩ := Extraction.entry_listed hcd hfile hpart
    have hopened : (fileMeta, 0) ∈ openedEntries (x.env fileMeta.partIndex)
        (x.resume chunks fileMeta.partIndex) s.toPartProcessor := by
      refine List.mem_append_right _ (List.mem_map.mpr ⟨fileMeta, ?_, rfl⟩)
      rw [hprogress.allOpened hend]
      exact List.mem_filterMap.mpr ⟨j, List.mem_range.mpr hj, hnext⟩
    exact Extraction.writtenBy_of_opened hcd hzstd hparts hpart hs hopened hdirectory hlink
      (Nat.zero_le i) hi

theorem rawZstd_sizesAgree : rawZstd.SizesAgree := by
  intro bs data compressedSize contentSize capacity hsize hcontent hdata
  simp only [rawZstd] at hsize hcontent hdata
  split_ifs at hsize with hshort hblock hlen
  obtain rfl := FrameCompressedSize.size.inj hsize
  obtain rfl := FrameContentSize.size.inj hcontent
  have hstart : 8 ≤ ZstdFrame.contentStart bs := by
    rw [ZstdFrame.contentStart]
    omega
  generalize hn : ZstdFrame.contentStart bs + ZstdFrame.contentSize bs = n at hdata hlen
  have hlength : (bs.take n).length = n := List.length_take_of_le (Nat.not_lt.mp hlen)
  have hsame : ZstdFrame.contentStart (bs.take n) = ZstdFrame.contentStart bs := by
    have hread : read (bs.take n ++ bs.drop n) 4 1 = read (bs.take n) 4 1 :=
      read_append_left (by omega) _
    rw [List.take_append_drop] at hread
    rw [ZstdFrame.contentStart, ZstdFrame.contentStart, hread]
  split at hdata
  · obtain rfl := Option.some.inj hdata
    rw [List.length_drop, hlength, hsame]
    omega
  · cases hdata

def keepsDataTest (env : ProcessorEnv) (resume : ℕ) (p : PartProcessor) (rest : List UInt8) : Bool :=
  rest = [] ∨ KeepsData env resume p rest

/-- Whether no round of a part leaves out data and it ends where it may. -/
def keepsAllDataTest (env : ProcessorEnv) (resume : ℕ) : PartProcessorState → List (List UInt8) → Bool
  | s, [] => MayEnd env s.toPartProcessor
  | s, data :: chunks =>
    visitsAll (step env) (keepsDataTest env resume) (loopRounds (s.frameBuffer ++ data))
        s.toPartProcessor (s.frameBuffer ++ data) &&
      match partProcessorProcessData env s data with
      | none => true
      | some (_, t) => keepsAllDataTest env resume t chunks

theorem keepsAllDataTest_sound {env : ProcessorEnv} {resume : ℕ} {s : PartProcessorState}
    {chunks : List (List UInt8)} (h : keepsAllDataTest env resume s chunks = true) :
    KeepsAllData env resume s chunks := by
  induction chunks generalizing s with
  | nil =>
    rw [keepsAllDataTest] at h
    exact of_decide_eq_true (p := MayEnd env s.toPartProcessor) h
  | cons data chunks ih =>
    rw [keepsAllDataTest, Bool.and_eq_true] at h
    refine ⟨fun p rest hvisit hrest ↦ ?_, fun e t hcall ↦ ih ?_⟩
    · have htest := of_decide_eq_true (visitsAll_sound h.1 hvisit)
      exact htest.resolve_left hrest
    · have hlater := h.2
      rw [hcall] at hlater
      exact hlater

/-- A file `a` of two bytes that goes on in the second part, and a symlink `b` to `a`. -/
def spannedExtraction : Extraction where
  os _ := obligingOs
  zstd := rawZstd
  cdResult := {
    files := [{ plainFile 97 0 with compressedSize := burstPartSize, uncompressedSize := 2 },
      { plainFile 98 (burstPartSize + 50) with
          uncompressedSize := 1, isSymlink := true, partIndex := 1 }]
    parts := [⟨[⟨0, 0⟩], none⟩, ⟨[⟨1, 50⟩], some 0⟩]
    centralDirOffset := burstPartSize + 100
    centralDirSize := 94
    isZip64 := false }
  outputDir := [46]
  partSize := burstPartSize

def spannedChunks (p : ℕ) : List (List UInt8) :=
  if p = 0 then [plainLocalHeader 97, ZstdFrame.rawFrame [1]]
  else [startOfPartBytes 1 ++ ZstdFrame.rawFrame [2] ++ plainDescriptor, plainLocalHeader 98 ++ [97]]

theorem spannedExtraction_complete :
    (∃ t, spannedExtraction.extracted spannedChunks 1 = some t ∧
      PartComplete (spannedExtraction.env 1) (spannedChunks 1).flatten t) ∧
    ∀ i < 2, spannedExtraction.WrittenBy spannedChunks [46, 47, 97] i := by
  have hcd : spannedExtraction.cdResult.Parsed (burstPartSize + 200) spannedExtraction.partSize :=
    ⟨by decide +kernel, by decide +kernel⟩
  have hcomplete := extraction_complete spannedChunks hcd rawZstd_sizesAgree
  have hfirst : (spannedExtraction.extracted spannedChunks 0).isSome = true ∧
      spannedExtraction.LosesNothing spannedChunks 0 :=
    ⟨by decide +kernel, keepsAllDataTest_sound (by decide +kernel)⟩
  have hsecond : (spannedExtraction.extracted spannedChunks 1).isSome = true ∧
      spannedExtraction.LosesNothing spannedChunks 1 :=
    ⟨by decide +kernel, keepsAllDataTest_sound (by decide +kernel)⟩
  constructor
  · obtain ⟨t, ht⟩ := Option.isSome_iff_exists.mp hsecond.1
    exact ⟨t, ht, hcomplete.1 1 t ht hsecond.2 fun _ _ _ _ _ ↦ ⟨0, rfl⟩⟩
  · refine hcomplete.2 (fun p hp ↦ ?_) _ List.mem_cons_self (by decide) (by decide) (by decide)
    rcases p with _ | _ | p
    · exact ⟨Option.isSome_iff_exists.mp hfirst.1, hfirst.2⟩
    · exact ⟨Option.isSome_iff_exists.mp hsecond.1, hsecond.2⟩
    · exact absurd hp (by simp [Extraction.numParts, spannedExtraction])

def FileOp.isData : FileOp → Bool
  | .encodedWrite .. => true
  | .pwrite .. => true
  | _ => false

theorem Written.any_isData {os : Os} {ops : List FileOp} {path : Path} {i : ℕ}
    (h : Written os ops path i) : ops.any FileOp.isData = true := by
  obtain ⟨done, op, n, rest, rfl, -, hwrites⟩ := h
  refine List.any_eq_true.mpr ⟨op, by simp, ?_⟩
  cases op <;> first | rfl | exact hwrites.elim

def FileOp.linksOnly (target : Path) : FileOp → Bool
  | .symlink linked _ => linked = target
  | _ => true

def cutLink : FileMetadata :=
  { plainFile 98 47 with uncompressedSize := 3, isSymlink := true }

/-- A file `a` of five bytes and a symlink `b` with a target of three. -/
def cutExtraction : Extraction where
  os _ := obligingOs
  zstd := hungryZstd
  cdResult := {
    files := [{ plainFile 97 0 with uncompressedSize := 5 }, cutLink]
    parts := [⟨[⟨0, 0⟩, ⟨1, 47⟩], none⟩]
    centralDirOffset := 94
    centralDirSize := 94
    isZip64 := false }
  outputDir := [46]
  partSize := burstPartSize

/-- Headers and nothing of the data, up to the first byte of the target. -/
def cutBytes : List UInt8 := plainLocalHeader 97 ++ plainDescriptor ++ plainLocalHeader 98 ++ [120]

/-- A stream that ends before it begins is extracted without an error although no entry has been met;
and so is one with no byte of the file and one byte of the target. -/
theorem cutStream_succeeds :
    (∃ t, cutExtraction.extracted (fun _ ↦ []) 0 = some t ∧
      t.nextEntryIdx ≠ (cutExtraction.env 0).part.entries.length) ∧
    (∃ t, cutExtraction.extracted (fun _ ↦ [cutBytes]) 0 = some t ∧
      ¬ SymlinkMade (cutExtraction.env 0) cutBytes t.ops cutLink) ∧
    ¬ cutExtraction.WrittenBy (fun _ ↦ [cutBytes]) [46, 47, 97] 0 := by
  have hcut : ∃ t, cutExtraction.extracted (fun _ ↦ [cutBytes]) 0 = some t ∧ t.ops.any FileOp.isData = false ∧
      t.ops.all (FileOp.linksOnly [120]) = true :=
    ⟨_, rfl, by decide +kernel, by decide +kernel⟩
  refine ⟨⟨_, rfl, by decide +kernel⟩, ?_, ?_⟩
  · obtain ⟨t, ht, -, hlinks⟩ := hcut
    refine ⟨t, ht, ?_⟩
    rintro ⟨target, done, rest, n, hlen, hfollows, hops, -⟩
    have hmem : .symlink (target.takeWhile (· ≠ 0))
        ((cutExtraction.env 0).filePath cutLink) ∈ t.ops := by
      rw [hops]
      exact List.mem_append_right _ List.mem_cons_self
    have htarget := of_decide_eq_true (List.all_eq_true.mp hlinks _ hmem)
    rcases hfollows with hempty | ⟨upto, ⟨after, hafter⟩, before, header, hupto, -⟩
    · rw [hempty] at hlen
      cases hlen
    · have hnone : ∀ k ≤ 76, ((cutBytes.drop k).take 3).takeWhile (· ≠ 0) ≠ [120] := by decide +kernel
      have hslice : (cutBytes.drop (before ++ header).length).take 3 = target := by
        rw [← hafter, hupto, List.append_assoc, List.drop_left, ← show target.length = 3 from hlen,
          List.take_left]
      have hroom : (before ++ header).length + target.length ≤ cutBytes.length := by
        rw [← hafter, hupto]
        simp only [List.length_append]
        omega
      refine hnone (before ++ header).length ?_ (by rw [hslice]; exact htarget)
      have hall : cutBytes.length = 79 := by decide +kernel
      rw [show target.length = 3 from hlen] at hroom
      omega
  · rintro ⟨p, hp, t, ht, hwritten⟩
    obtain ⟨u, hu, hnone, -⟩ := hcut
    obtain rfl : p = 0 := Nat.lt_one_iff.mp hp
    obtain rfl := Option.some.inj (ht.symm.trans hu)
    rw [hwritten.any_isData] at hnone
    cases hnone

end Burst
