import Burst.Misreading

namespace Burst

open Tiling LittleEndian Incremental Interleaving PathResolution Slices

/-- Two parts do not write the same bytes of a file. -/
def WritesApart (history : List (ℕ × FileOp)) : Prop :=
  ∀ p q written data data' offset offset', p < q → (p, .pwrite written data offset) ∈ history →
    (q, .pwrite written data' offset') ∈ history →
      offset + data.length ≤ offset' ∨ offset' + data'.length ≤ offset

/-- The files of an archive in a tree: what has been written of them is there, and they have the sizes that have
been archived. -/
structure Extraction.FilesKept (x : Extraction) (entries : List (AddCall × FileEntry))
    (ops : List FileOp) (base : List Path) (t : FileTree) : Prop where
  written : ∀ path data offset, .pwrite path data offset ∈ ops → ∃ fileMeta ∈ x.cdResult.files,
    path = x.path fileMeta ∧ ∃ content, (t (placeOf base fileMeta.filename)).map Inode.node =
      some (.file content) ∧ data <+: content.drop offset
  sizes : ∀ call e, (call, e) ∈ entries → call.isSymlink = false → call.isDirectory = false →
    ∃ content, (t (placeOf base e.filename)).map Inode.node = some (.file content) ∧
      content.length = e.uncompressedSize

/-- However the system calls of the parts are interleaved that have been processed without an error, and whatever
files and directories there are before: no part writes what another writes, all that has been written is there in
the end, and the files and symlinks are those that are there when the parts are processed one after another. -/
def Extraction.OrderIndependent (x : Extraction) (entries : List (AddCall × FileEntry))
    (archive : List UInt8) : Prop :=
  ∀ history, x.Completes (x.bodies archive) history → WritesApart history ∧
    ∀ base fresh before, before.NoLinkBelow base →
      (∃ t, TreeAfter x.outputDir base fresh before (history.map Prod.snd) t) ∧
      ∀ t, TreeAfter x.outputDir base fresh before (history.map Prod.snd) t →
        x.FilesKept entries (history.map Prod.snd) base t ∧
        ∀ t', TreeAfter x.outputDir base fresh before ((serial x.numParts history).map Prod.snd) t' →
          ∀ fileMeta ∈ x.cdResult.files, fileMeta.isDirectory = false →
            (t (placeOf base fileMeta.filename)).map Inode.node =
              (t' (placeOf base fileMeta.filename)).map Inode.node

/-- So it is from wherever the central directory of the archive has been parsed. -/
def OrderIndependent (zstd : ZstdLib) (entries : List (AddCall × FileEntry)) (archive : List UInt8)
    (cdOffset partSize : ℕ) : Prop :=
  ∀ start ≤ cdOffset, ∀ cdResult,
    centralDirParse (archive.drop start) archive.length partSize = .ok cdResult →
      ∀ (os : ℕ → Os) (outputDir : Path), (∀ p, (os p).Obliges) →
        Extraction.OrderIndependent ⟨os, zstd, cdResult, outputDir, partSize⟩ entries archive

theorem AddCall.node?_of_kind {call : AddCall} (hlink : call.isSymlink = false)
    (hdirectory : call.isDirectory = false) : call.node? = some (.file call.content) := by
  cases call with
  | file => rfl
  | symlink => cases hlink
  | directory => cases hdirectory

section

variable {x : Extraction} {env : WriterEnv} {level : ℤ} {calls : List AddCall} {archive : List UInt8}
  {history : List (ℕ × FileOp)}

/-- A part writes what the reader gets past there. -/
theorem ReadsByParts.writesWithin {segs : ℕ → List Item} {states : ℕ → ReadPos} {outs : ℕ → List FileOp}
    (h : ReadsByParts x env level calls segs states outs) (hk : x.Knows env level calls archive)
    (hos : ∀ p, (x.os p).Obliges) (hdone : x.Completes (x.bodies archive) history) {p : ℕ}
    (hp : p < x.numParts) : WritesWithin (x.entryPath calls) (calls.zip (recordedAll env level 0 calls))
      (states p).reached (states (p + 1)).reached (own p history) := by
  obtain ⟨t, ht, hdeeds⟩ := h.bodies_extracted hk hos hp
  obtain ⟨t', ht', hown⟩ := hdone.parts p hp
  obtain rfl := Option.some.inj (ht.symm.trans ht')
  have hwrites := (h.reads p hp).part_advances
  rw [← hdeeds] at hwrites
  intro path data offset hmem
  rw [hown] at hmem
  exact hwrites path data offset (List.mem_filter.mpr ⟨hmem, rfl⟩)

/-- No part writes what another writes. -/
theorem Extraction.Knows.writesApart (hk : x.Knows env level calls archive) (hos : ∀ p, (x.os p).Obliges)
    (hdone : x.Completes (x.bodies archive) history) : WritesApart history := by
  intro p q written data data' offset offset' hpq hmem hmem'
  obtain ⟨segs, states, outs, hreads⟩ := hk.readsByParts
  have hq : q < x.numParts := hdone.issued _ hmem'
  have hwrites := hreads.writesWithin hk hos hdone (hpq.trans hq)
  have hwrites' := hreads.writesWithin hk hos hdone hq
  obtain ⟨i, _, _, hentry, hpath, -, -, -, hto⟩ := hwrites _ _ _ (mem_own.mpr hmem)
  obtain ⟨j, _, _, hentry', hpath', -, -, hfrom, -⟩ := hwrites' _ _ _ (mem_own.mpr hmem')
  obtain rfl := hk.pathsDiffer hentry hentry' (hpath.symm.trans hpath')
  obtain ⟨hbetween, -⟩ := Reads.advances (Run.compose hreads.reads (Nat.succ_le_of_lt hpq) hq.le)
  rcases Prod.Lex.toLex_le_toLex.mp (hto.trans (hbetween.trans hfrom)) with hlt | ⟨-, hle⟩
  · exact absurd hlt (Nat.lt_irrefl i)
  · exact .inl hle

theorem Extraction.Knows.filesKept (hk : x.Knows env level calls archive) (hos : ∀ p, (x.os p).Obliges)
    (hdone : x.Completes (x.bodies archive) history) {base : List Path} {t : FileTree}
    (hnodes : ∀ call ∈ calls, ∀ node, AddCall.node? call = some node →
      (t (placeOf base call.lfh.filename)).map Inode.node = some node) :
    x.FilesKept (calls.zip (recordedAll env level 0 calls)) (history.map Prod.snd) base t := by
  obtain ⟨segs, states, outs, hreads⟩ := hk.readsByParts
  constructor
  · intro path data offset hop
    obtain ⟨⟨p, op⟩, hmem, rfl⟩ := List.mem_map.mp hop
    have hwrites := hreads.writesWithin hk hos hdone (hdone.issued _ hmem)
    obtain ⟨i, call, e, hentry, rfl, hnode, hdata, -⟩ := hwrites _ _ _ (mem_own.mpr hmem)
    obtain ⟨hcall, -⟩ := List.getElem?_zip_eq_some.mp hentry
    obtain ⟨fileMeta, hlisted, hname, -, hpath⟩ := hk.listed_call hcall
    refine ⟨fileMeta, hlisted, hpath.symm, call.content, ?_, hdata⟩
    rw [hname]
    exact hnodes call (List.mem_of_getElem? hcall) _ hnode
  · intro call e hmem hlink hdirectory
    obtain ⟨i, hentry⟩ := List.mem_iff_getElem?.mp hmem
    have hrecords := recordedAll_getElem? hk.fits hentry
    rw [hrecords.filename, hrecords.uncompressedSize]
    exact ⟨call.content, hnodes call (List.of_mem_zip hmem).1 _ (AddCall.node?_of_kind hlink hdirectory), rfl⟩

end

/-- The parts processed one after another are processed as well. -/
theorem Extraction.Completes.serial {x : Extraction} {chunks : ℕ → List (List UInt8)}
    {history : List (ℕ × FileOp)} (h : x.Completes chunks history) :
    x.Completes chunks (Interleaving.serial x.numParts history) := by
  constructor
  · intro p hp
    obtain ⟨t, ht, hown⟩ := h.parts p hp
    exact ⟨t, ht, (own_serial hp history).trans hown⟩
  · intro q hq
    exact (mem_serial.mp hq).1

/-- Whoever knows the archive can process its parts in any order. -/
theorem Extraction.Knows.orderIndependent {x : Extraction} {env : WriterEnv} {level : ℤ} {calls : List AddCall}
    {archive : List UInt8} (hk : x.Knows env level calls archive) (hos : ∀ p, (x.os p).Obliges) :
    x.OrderIndependent (calls.zip (recordedAll env level 0 calls)) archive := by
  intro history hdone
  refine ⟨hk.writesApart hos hdone, fun base fresh before hbefore ↦ ?_⟩
  obtain ⟨hexists, hnodes⟩ := hk.bodies_restore hos hdone base fresh before hbefore
  refine ⟨hexists, fun t ht ↦ ⟨hk.filesKept hos hdone (hnodes t ht), ?_⟩⟩
  intro t' ht' fileMeta hlisted hdirectory
  obtain ⟨-, hnodes'⟩ := hk.bodies_restore hos hdone.serial base fresh before hbefore
  have hname : fileMeta.filename ∈ calls.map fun call ↦ call.lfh.filename := by
    rw [← hk.filenames]
    exact List.mem_map_of_mem hlisted
  obtain ⟨call, hcall, hsame⟩ := List.mem_map.mp hname
  have hkind := (hk.kinds call hcall).isDirectory
  rw [FileMetadata.isDirectory, ← hsame] at hdirectory
  rw [hdirectory] at hkind
  have hnode : ∃ node, call.node? = some node := by
    cases call with
    | file => exact ⟨_, rfl⟩
    | symlink => exact ⟨_, rfl⟩
    | directory => cases hkind
  obtain ⟨node, hnode⟩ := hnode
  rw [← hsame, hnodes t ht call hcall node hnode, hnodes' t' ht' call hcall node hnode]

/-- The parts of the archive of a directory tree can be processed in any order, and their system calls interleaved,
as long as the archive can be read and none of its entries is called like the padding. -/
theorem archivedTree_orderIndependent {env : WriterEnv} {tree : InputTree} {level : ℤ}
    (hbound : FramesBounded env level) (hcrc : ∀ crc data, crc < 2 ^ 32 → env.crc32 crc data < 2 ^ 32)
    {root : List UInt8} {fuel : ℕ} (htree : ReadableTree tree.toFileSystem fuel root)
    {entries : List FileListEntry}
    (hscan : collectFilesRecursive tree.toFileSystem fuel [] root [] = some (0, entries))
    (hfits : ∀ entry ∈ entries, entry.Fits tree) {clock : ℕ → ℤ} {calls : List AddCall}
    (hcalls : AllCalls env tree clock 0 entries calls) {limits : List ℕ} {w w' : BurstWriter}
    (hadded : addEntries env tree clock 0 entries (burstWriterCreate ⟨[], limits⟩ level) = (entries.length, w))
    (hfin : burstWriterFinalize w = (some (), w')) {zstd : ZstdLib} {partSize : ℕ}
    (hreadable : ReadableArchive env level calls w w'.output.bytes zstd partSize) :
    OrderIndependent zstd (calls.zip w.files) w'.output.bytes w.position partSize := by
  obtain ⟨hlisted, hplain⟩ := htree.scan hscan
  obtain ⟨hadd, -⟩ := addAll_of_addEntries hcalls hadded
  obtain ⟨hfiles, -⟩ := finalized_bytes hadd hfin
  intro start hstart cdResult hparsed os outputDir hos
  rw [hfiles]
  have hopens : Extraction.Opens ⟨os, zstd, cdResult, outputDir, partSize⟩ env level calls w'.output.bytes :=
    ReadableArchive.opens hreadable hadd hfin hstart hparsed
  exact (knows_of_opens hbound hcrc (hcalls.wellMade hcrc hlisted hfits) (hplain.sublist (hcalls.names hfits)) hadd
    hfin hopens).orderIndependent hos

/-- The file of the large tree is written by two parts, in any order. -/
theorem largeTree_orderIndependent : ∃ w w' cdResult history,
    addEntries rawEnv largeTree (fun _ ↦ 0) 0 largeTreeEntries (burstWriterCreate ⟨[], []⟩ 3) = (3, w) ∧
    burstWriterFinalize w = (some (), w') ∧
    OrderIndependent rawZstd (largeTreeCalls.zip w.files) w'.output.bytes w.position burstPartSize ∧
    centralDirParse w'.output.bytes w'.output.bytes.length burstPartSize = .ok cdResult ∧
    (extractionToOut cdResult).numParts = 2 ∧
    (extractionToOut cdResult).Completes ((extractionToOut cdResult).bodies w'.output.bytes) history := by
  obtain ⟨w, w', hadd, hadded, hfin, -⟩ := largeTree_allCalls.createArchive
    ⟨rawEnv_framesBounded 3, fun _ ↦ rfl, fun _ data hlt ↦ Crc32.crc32_lt hlt data⟩ (by decide)
    largeTree_inputs largeTree_fits (List.cons_ne_nil _ _)
  obtain ⟨hlt, hgt, hreadable⟩ := largeTree_readableArchive hadd hfin
  have hindependent := archivedTree_orderIndependent (rawEnv_framesBounded 3)
    (fun _ data hlt ↦ Crc32.crc32_lt hlt data) largeTree_readable largeTree_scan largeTree_fits largeTree_allCalls
    hadded hfin hreadable
  obtain ⟨hlisted, hplain⟩ := largeTree_readable.scan largeTree_scan
  have hback := addAll_comeBack (rawEnv_framesBounded 3) (fun _ data hlt ↦ Crc32.crc32_lt hlt data) hadd hfin
    (largeTree_allCalls.wellMade (fun _ data hlt ↦ Crc32.crc32_lt hlt data) hlisted largeTree_fits)
    (hplain.sublist (largeTree_allCalls.names largeTree_fits)) hreadable
  obtain ⟨cdResult, hparse, hextracts⟩ := hback 0 (Nat.zero_le _)
  rw [List.drop_zero] at hparse
  obtain ⟨hall, -⟩ := hextracts (fun _ ↦ obligingOs) [111, 117, 116] fun _ ↦ obligingOs_obliges
  obtain ⟨history, hcompletes⟩ := Extraction.completes_exists hall
  refine ⟨w, w', cdResult, history, hadded, hfin, hindependent, hparse, ?_, hcompletes⟩
  exact parsed_twoParts hparse hgt hlt

section

variable {w w' v v' : BurstWriter} {cdResult : CentralDirParseResult}

/-- Whoever parses the archive knows the one that the disguised calls make. -/
theorem crafted_knows
    (hadd : addAll rawEnv (craftedCalls paddingLinkHeader) (burstWriterCreate ⟨[], []⟩ 3) = (some (), w))
    (hfin : burstWriterFinalize w = (some (), w'))
    (hadd' : addAll rawEnv (craftedCalls disguisedHeader) (burstWriterCreate ⟨[], []⟩ 3) = (some (), v))
    (hfin' : burstWriterFinalize v = (some (), v'))
    (hparse : centralDirParse w'.output.bytes w'.output.bytes.length burstPartSize = .ok cdResult) :
    (extractionToOut cdResult).Knows rawEnv 3 (craftedCalls disguisedHeader) v'.output.bytes := by
  obtain ⟨hfiles, hposition, rest, hbytes, hbytes'⟩ := crafted_archives hadd hfin hadd' hfin'
  have hlength : w'.output.bytes.length = v'.output.bytes.length := by
    simp only [hbytes, hbytes', List.length_append, LocalFileHeader.bytes_length, paddingLinkHeader_len,
      disguisedHeader_len]
  obtain ⟨hshort, -⟩ := craftedCalls_readable paddingLinkHeader_len paddingLinkHeader_wellMade hadd hfin
  obtain ⟨-, -, hreadable⟩ := craftedCalls_readable disguisedHeader_len disguisedHeader_wellMade hadd' hfin'
  have hsame : centralDirParse (v'.output.bytes.drop 0) v'.output.bytes.length burstPartSize = .ok cdResult := by
    have hreal := finalized_centralDirParse (addAll_tracks hadd) hfin (by omega) (Nat.zero_le _) burstPartSize
    have hdisguised := finalized_centralDirParse (addAll_tracks hadd') hfin' (by omega) (Nat.zero_le _)
      burstPartSize
    rw [List.drop_zero] at hreal
    rw [hdisguised, ← hfiles, ← hposition, ← hlength, ← hreal, hparse]
  have hopens : (extractionToOut cdResult).Opens rawEnv 3 (craftedCalls disguisedHeader) v'.output.bytes :=
    ReadableArchive.opens hreadable hadd' hfin' (Nat.zero_le _) hsame
  refine knows_of_opens (rawEnv_framesBounded 3) (fun _ data hlt ↦ Crc32.crc32_lt hlt data) ?_ ?_ hadd' hfin'
    hopens
  · intro call hcall
    refine ⟨craftedCalls_wellMade disguisedHeader_wellMade call hcall, ?_⟩
    simp only [craftedCalls, List.mem_cons, List.not_mem_nil, or_false] at hcall
    rcases hcall with rfl | rfl | rfl <;> decide
  · rw [craftedCalls_names (by decide)]
    exact craftedNames_plain

/-- In the archive that is known the first part ends before the first byte of the second file. -/
theorem crafted_reached (hk : (extractionToOut cdResult).Knows rawEnv 3 (craftedCalls disguisedHeader)
    v'.output.bytes) (hparts : (extractionToOut cdResult).numParts = 2) {segs : ℕ → List Item}
    {states : ℕ → ReadPos} {outs : ℕ → List FileOp}
    (hreads : ReadsByParts (extractionToOut cdResult) rawEnv 3 (craftedCalls disguisedHeader) segs states outs) :
    states 1 = .data 2 0 := by
  have hsecond : 1 < (extractionToOut cdResult).numParts := by rw [hparts]; exact Nat.one_lt_two
  have htotal := craftedCalls_total disguisedHeader_len
  have hsize : (extractionToOut cdResult).partSize = 8388608 := rfl
  obtain ⟨before, after, hbody, hbefore⟩ := craftedCalls_boundary disguisedHeader_len
  obtain ⟨later, hsegs⟩ := hreads.segs_cons hk hsecond (by rw [htotal, hsize]; norm_num) hbody
    (by rw [hbefore, hsize, Nat.one_mul])
  have hread := hreads.reads 1 hsecond
  rw [hsegs] at hread
  obtain ⟨i, call, e, hentry, -, -, hstate⟩ := hread.of_startOfPart
  -- the file that goes on is the last one, whose header has been met
  have hmoved := craftedCalls_moved disguisedHeader_len
  obtain ⟨hlt, -⟩ := List.getElem?_eq_some_iff.mp hentry
  obtain ⟨s, hs, hoffset⟩ := hk.span_of_entry hmoved
  rw [craftedCalls_spans disguisedHeader_len] at hs
  obtain rfl := Option.some.inj hs
  have hmet := (hreads.met_iff hsecond.le hmoved).mpr (by
    rw [hreads.starts 1 hsecond.le, htotal, hsize, hoffset]
    norm_num)
  rw [hstate] at hmet
  rw [craftedCalls_zip disguisedHeader_len] at hlt
  have hthree : i < 3 := hlt
  have hbehind : 2 < i + 1 := hmet
  obtain rfl : i = 2 := by omega
  exact hstate

/-- There the second part writes that byte. -/
theorem crafted_secondPart (hk : (extractionToOut cdResult).Knows rawEnv 3 (craftedCalls disguisedHeader)
    v'.output.bytes) (hparts : (extractionToOut cdResult).numParts = 2) : ∃ t,
      (extractionToOut cdResult).extracted ((extractionToOut cdResult).bodies v'.output.bytes) 1 = some t ∧
      ∃ data, 0 < data.length ∧
        .pwrite ((extractionToOut cdResult).entryPath (craftedCalls disguisedHeader) 2) data 0 ∈
          ((extractionToOut cdResult).env 1).deeds t.ops := by
  obtain ⟨segs, states, outs, hreads⟩ := hk.readsByParts
  have hstate := crafted_reached hk hparts hreads
  have hmoved := craftedCalls_moved disguisedHeader_len
  have hcall : (craftedCalls disguisedHeader)[2]? = some movedFile := rfl
  obtain ⟨pos, hacc, hmem⟩ := @allDeeds_mem rawEnv 3
    ((extractionToOut cdResult).entryPath (craftedCalls disguisedHeader)) _ 0 0 2 hk.accepted _ hcall
  obtain ⟨-, hcovered⟩ := deeds_covers hk.bound hacc (hk.fits _ (List.mem_of_getElem? hcall)) rfl rfl
    ((extractionToOut cdResult).entryPath (craftedCalls disguisedHeader) 2)
  obtain ⟨data, o, hwrite, hle, hlt⟩ := hcovered 0 (by
    rw [movedFile, AddCall.content_of_data (craftedHeader_holdsData 98), noise_length]
    norm_num)
  obtain rfl : o = 0 := by omega
  have hout := hmem _ hwrite
  rw [hreads.deeds, hparts] at hout
  obtain ⟨p, hp, hout⟩ := List.mem_flatMap.mp hout
  have hone : p = 1 := by
    by_contra hne
    obtain rfl : p = 0 := by
      have := List.mem_range.mp hp
      omega
    -- the first part ends before the byte
    obtain ⟨-, hwithin⟩ := (hreads.reads 0 (by omega)).advances
    obtain ⟨j, _, _, hentry, hpath, -, -, -, hto⟩ := hwithin _ _ _ hout
    obtain rfl := hk.pathsDiffer hentry hmoved hpath.symm
    rw [hstate] at hto
    rcases Prod.Lex.toLex_le_toLex.mp hto with hbefore | ⟨-, hbefore⟩
    · exact Nat.lt_irrefl _ hbefore
    · omega
  subst hone
  have hsecond : 1 < (extractionToOut cdResult).numParts := by
    rw [hparts]
    exact Nat.one_lt_two
  obtain ⟨t, ht, hdeeds⟩ := hreads.bodies_extracted hk (fun _ ↦ obligingOs_obliges) hsecond
  refine ⟨t, ht, data, by omega, ?_⟩
  rw [hdeeds]
  exact List.mem_append_right _ (List.mem_append_left _ hout)

/-- What the first part takes the entries for. -/
def mistakenEntries (target : List UInt8) : List (AddCall × FileEntry) :=
  [(.symlink targetHeader target 0 0 0, recordedEntry rawEnv 3 0 (paddingLink disguisedHeader)),
    (.file ⟨craftedChunk ++ noise 8168928, none, true⟩ (fileHeader 97) 0 0 0,
      recordedEntry rawEnv 3 603 craftedFile),
    (.file ⟨122 :: noise 131071, none, true⟩ (fileHeader 98) 0 0 0,
      recordedEntry rawEnv 3 8301431 movedFile)]

theorem mistakenEntries_known (hk : (extractionToOut cdResult).Knows rawEnv 3 (craftedCalls disguisedHeader)
    v'.output.bytes) {target : List UInt8} (htarget : target.length = 544) :
    KnowsEntries ((extractionToOut cdResult).env 0)
      ((extractionToOut cdResult).entryPath (craftedCalls disguisedHeader)) (mistakenEntries target) := by
  have hentries := hk.knowsEntries hk.numParts_pos
  rw [craftedCalls_zip disguisedHeader_len] at hentries
  apply hentries.lookalike
  · refine .cons ⟨rfl, ?_, rfl, rfl⟩ (.cons (looksLike_data (by decide) (by decide) rfl)
      (.cons (looksLike_data (by decide) (by decide) ?_) .nil))
    · exact htarget.trans (targetHeader.bytes_length.trans targetHeader_len).symm
    · rw [List.length_cons, noise_length, noise_length]
  · simp only [mistakenEntries, List.forall_mem_cons, List.not_mem_nil, false_imp_iff, implies_true, and_true]
    exact ⟨targetHeader_wellFormed, ⟨fileHeader_wellFormed 97, by decide⟩, fileHeader_wellFormed 98,
      by decide⟩

/-- What the first part is fed of the archive. -/
theorem crafted_firstBody (hk : (extractionToOut cdResult).Knows rawEnv 3 (craftedCalls disguisedHeader)
    v'.output.bytes) {archive rest : List UInt8}
    (harchive : archive = paddingLinkHeader.bytes ++ (craftedRest ++ rest)) : ∃ target more, target.length = 544 ∧
      (extractionToOut cdResult).bodies archive 0 = [paddingLinkHeader.bytes ++ (targetHeader.bytes ++
        (target ++ ((fileHeader 97).bytes ++ ((fileHeader 98).bytes ++ (ZstdFrame.rawFrame [122] ++
          ((fileHeader 99).bytes ++ more))))))] := by
  obtain ⟨frameHeader, more, hheader, hrest⟩ := craftedRest_bytes
  have hframe : (ZstdFrame.rawFrame [122]).length = 10 := by decide
  obtain ⟨target, htarget⟩ : ∃ target, (craftedHeader 97).bytes ++
      (frameHeader ++ List.replicate 486 97) = target := ⟨_, rfl⟩
  have htargetLen : target.length = 544 := by
    simp only [← htarget, List.length_append, LocalFileHeader.bytes_length, craftedHeader_len, hheader,
      List.length_replicate]
  obtain ⟨before, hbefore⟩ : ∃ before, paddingLinkHeader.bytes ++ (targetHeader.bytes ++ (target ++
      ((fileHeader 97).bytes ++ ((fileHeader 98).bytes ++ (ZstdFrame.rawFrame [122] ++
        (fileHeader 99).bytes))))) = before := ⟨_, rfl⟩
  have hbeforeLen : before.length = 1295 := by
    simp only [← hbefore, List.length_append, targetHeader_len, htargetLen, LocalFileHeader.bytes_length,
      paddingLinkHeader_len, fileHeader_len, hframe]
  have hsplit : archive = before ++ (noise 130438 ++ (more ++ rest)) := by
    rw [harchive, hrest, ← hbefore, ← htarget, craftedChunk]
    simp only [List.append_assoc]
  refine ⟨target, slice (noise 130438 ++ (more ++ rest)) 0 (8388608 - 1295), htargetLen, ?_⟩
  rw [Extraction.bodies, hk.centralDirOffset, craftedCalls_total disguisedHeader_len]
  change [slice archive (0 * burstPartSize) (min ((0 + 1) * burstPartSize) 8519732)] = _
  rw [burstPartSize, Nat.zero_mul, Nat.zero_add, Nat.one_mul, Nat.min_eq_left (by norm_num), hsplit,
    slice_zero_append _ (by rw [hbeforeLen]; norm_num), hbeforeLen, ← hbefore]
  simp only [List.append_assoc]

/-- Of the archive the first part writes the byte too. -/
theorem crafted_firstPart (hk : (extractionToOut cdResult).Knows rawEnv 3 (craftedCalls disguisedHeader)
    v'.output.bytes) {archive rest : List UInt8}
    (harchive : archive = paddingLinkHeader.bytes ++ (craftedRest ++ rest)) : ∃ t,
      (extractionToOut cdResult).extracted ((extractionToOut cdResult).bodies archive) 0 = some t ∧
      .pwrite ((extractionToOut cdResult).entryPath (craftedCalls disguisedHeader) 2) [122] 0 ∈
        ((extractionToOut cdResult).env 0).deeds t.ops := by
  obtain ⟨target, more, htarget, hbodies⟩ := crafted_firstBody hk harchive
  have hsecond : [122] <+: (AddCall.file ⟨122 :: noise 131071, none, true⟩ (fileHeader 98) 0 0 0).content := by
    rw [AddCall.content_of_data (by decide), List.cons_prefix_cons]
    exact ⟨rfl, List.nil_prefix⟩
  have hlisted : ((extractionToOut cdResult).env 0).part.entries.length ≤ 3 := by
    have hfiles := congrArg List.length hk.files
    rw [List.length_map, recordedAll_length] at hfiles
    rw [hk.part_eq hk.numParts_pos]
    change (List.insertionSort _ _).length ≤ 3
    rw [List.length_insertionSort, partEntries]
    refine (List.length_filterMap_le _ _).trans ?_
    rw [List.length_zipIdx, hfiles]
    exact le_rfl
  have hcontinuing : ((extractionToOut cdResult).env 0).part.continuingFile = none := by
    rw [hk.part_eq hk.numParts_pos]
    rfl
  have hoffsets : ∀ x ∈ mistakenEntries target, x.2.localHeaderOffset / burstPartSize = 0 := by
    simp only [mistakenEntries, List.forall_mem_cons, List.not_mem_nil, false_imp_iff, implies_true, and_true,
      recordedEntry_localHeaderOffset, paddingLink_span disguisedHeader_len, craftedFile_span, movedFile_span]
    decide
  have hpadding : paddingLinkHeader.WellFormed := headerFor_wellFormed (by decide)
  have hname : paddingLinkHeader.rawName = paddingLfhFilename := by decide
  have hcompress : rawEnv.compressChunk 3 [122] = some (ZstdFrame.rawFrame [122]) := rfl
  obtain ⟨deeds, hextracts, hwrite⟩ := misread_extracts (rawZstd_framesDecode 3)
    (mistakenEntries_known hk htarget) obligingOs_obliges rfl hcontinuing hoffsets hlisted (by decide) (by decide)
    hpadding hname (fileHeader_wellFormed 99) hcompress (by decide) hsecond more
  obtain ⟨t, ht, hdeeds⟩ := extractPart_singleton hextracts
  refine ⟨t, ?_, hdeeds ▸ hwrite⟩
  rw [Extraction.extracted, hbodies]
  exact ht

/-- What the second part is fed is the same in both. -/
theorem crafted_bodies {archive archive' rest : List UInt8}
    (harchive : archive = paddingLinkHeader.bytes ++ rest) (harchive' : archive' = disguisedHeader.bytes ++ rest) :
    (extractionToOut cdResult).extracted ((extractionToOut cdResult).bodies archive) 1 =
      (extractionToOut cdResult).extracted ((extractionToOut cdResult).bodies archive') 1 := by
  have hdrop : archive.drop 59 = archive'.drop 59 := by
    rw [harchive, harchive', List.drop_left' (paddingLinkHeader.bytes_length.trans paddingLinkHeader_len),
      List.drop_left' (disguisedHeader.bytes_length.trans disguisedHeader_len)]
  have hle : 59 ≤ 1 * (extractionToOut cdResult).partSize := by
    change 59 ≤ 1 * burstPartSize
    decide
  rw [Extraction.extracted, Extraction.extracted, Extraction.bodies, Extraction.bodies,
    ← slice_drop archive 59 hle, hdrop, slice_drop archive' 59 hle]

end

/-- A directory `r` with a symlink that is called like the padding, and two files. -/
def craftedTree : InputTree where
  opendir path := if path = [114] then some [[46], [46, 46], paddingLfhFilename, [97], [98]] else none
  lstat path :=
    if path = [114] ++ slash :: paddingLfhFilename then some ⟨0o120777, 0, 0, 544, 0⟩
    else if path = [114, 47, 97] then some ⟨0o100644, 0, 0, 8300000, 0⟩
    else if path = [114, 47, 98] then some ⟨0o100644, 0, 0, 131072, 0⟩
    else none
  readlink path := if path = [114] ++ slash :: paddingLfhFilename then some targetHeader.bytes else none
  stat path := if path = [114] then some ⟨0o40755, 0, 0, 0, 0⟩ else none
  fopen path :=
    if path = [114, 47, 97] then some ⟨craftedChunk ++ noise 8168928, none, true⟩
    else if path = [114, 47, 98] then some ⟨noise 131072, none, true⟩
    else none

def craftedTreeEntries : List FileListEntry :=
  [⟨[114] ++ slash :: paddingLfhFilename, paddingLfhFilename, ⟨0o120777, 0, 0, 544, 0⟩,
      some targetHeader.bytes, false⟩,
    ⟨[114, 47, 97], [97], ⟨0o100644, 0, 0, 8300000, 0⟩, none, false⟩,
    ⟨[114, 47, 98], [98], ⟨0o100644, 0, 0, 131072, 0⟩, none, false⟩]

theorem craftedTree_readable : ReadableTree craftedTree.toFileSystem 2 [114] := by
  refine ⟨[[46], [46, 46], paddingLfhFilename, [97], [98]], rfl, by decide, ?_⟩
  simp only [List.forall_mem_cons, List.not_mem_nil, false_imp_iff, implies_true, and_true]
  refine ⟨fun h ↦ (by cases h), fun h ↦ (by cases h), fun _ ↦ ?_, fun _ ↦ ?_, fun _ ↦ ?_⟩
  · exact ⟨by decide, by decide, ⟨0o120777, 0, 0, 544, 0⟩, rfl, fun _ ↦ rfl, fun h ↦ (by cases h)⟩
  · exact ⟨by decide, by decide, ⟨0o100644, 0, 0, 8300000, 0⟩, rfl, fun h ↦ (by cases h), fun h ↦ (by cases h)⟩
  · exact ⟨by decide, by decide, ⟨0o100644, 0, 0, 131072, 0⟩, rfl, fun h ↦ (by cases h), fun h ↦ (by cases h)⟩

theorem craftedTree_scan :
    collectFilesRecursive craftedTree.toFileSystem 2 [] [114] [] = some (0, craftedTreeEntries) := by
  decide +kernel

theorem craftedTree_allCalls :
    AllCalls rawEnv craftedTree (fun _ ↦ 0) 0 craftedTreeEntries (craftedCalls paddingLinkHeader) :=
  .add (.symlink rfl rfl) (.add (.file rfl rfl rfl) (.add (.file rfl rfl rfl) (.nil _)))

/-- The tree is archived and every part processed without an error, but the first byte of the file `b` is written
by both parts. -/
theorem craftedTree_overwritten :
    ReadableTree craftedTree.toFileSystem 2 [114] ∧
    collectFilesRecursive craftedTree.toFileSystem 2 [] [114] [] = some (0, craftedTreeEntries) ∧
    AllCalls rawEnv craftedTree (fun _ ↦ 0) 0 craftedTreeEntries (craftedCalls paddingLinkHeader) ∧ ∃ w w',
      addEntries rawEnv craftedTree (fun _ ↦ 0) 0 craftedTreeEntries (burstWriterCreate ⟨[], []⟩ 3) = (3, w) ∧
      burstWriterFinalize w = (some (), w') ∧
      ReadableArchive rawEnv 3 (craftedCalls paddingLinkHeader) w w'.output.bytes rawZstd burstPartSize ∧
      ¬ OrderIndependent rawZstd ((craftedCalls paddingLinkHeader).zip w.files) w'.output.bytes w.position
        burstPartSize := by
  refine ⟨craftedTree_readable, craftedTree_scan, craftedTree_allCalls, ?_⟩
  obtain ⟨w, w', hadd, hfin⟩ := craftedCalls_added paddingLinkHeader_wellMade
  obtain ⟨v, v', hadd', hfin'⟩ := craftedCalls_added disguisedHeader_wellMade
  obtain ⟨hlt, hgt, hreadable⟩ :=
    craftedCalls_readable paddingLinkHeader_len paddingLinkHeader_wellMade hadd hfin
  obtain ⟨cdResult, hparse⟩ := hreadable.parses (fun _ data hlt ↦ Crc32.crc32_lt hlt data)
    (craftedCalls_wellMade paddingLinkHeader_wellMade) hadd hfin (Nat.zero_le _)
  have hwhole := hparse
  rw [List.drop_zero] at hwhole
  refine ⟨w, w', craftedTree_allCalls.addEntries hadd, hfin, hreadable, fun hindependent ↦ ?_⟩
  have hk := crafted_knows hadd hfin hadd' hfin' hwhole
  obtain ⟨-, -, rest, hbytes, hbytes'⟩ := crafted_archives hadd hfin hadd' hfin'
  have hparts : (extractionToOut cdResult).numParts = 2 := parsed_twoParts hwhole hgt hlt
  obtain ⟨t, ht, hwrite⟩ := crafted_firstPart hk hbytes
  obtain ⟨u, hu, data, hdata, hwrite'⟩ := crafted_secondPart hk hparts
  rw [← crafted_bodies hbytes hbytes'] at hu
  have hall : ∀ p < (extractionToOut cdResult).numParts,
      ((extractionToOut cdResult).extracted ((extractionToOut cdResult).bodies w'.output.bytes) p).isSome := by
    intro p hp
    rw [hparts] at hp
    obtain rfl | rfl : p = 0 ∨ p = 1 := by omega
    · exact Option.isSome_iff_exists.mpr ⟨t, ht⟩
    · exact Option.isSome_iff_exists.mpr ⟨u, hu⟩
  obtain ⟨history, hdone⟩ := Extraction.completes_exists hall
  obtain ⟨hapart, -⟩ := hindependent 0 (Nat.zero_le _) cdResult hparse (fun _ ↦ obligingOs) [111, 117, 116]
    (fun _ ↦ obligingOs_obliges) history hdone
  -- both writes are in the history
  have hissued {p : ℕ} {t : PartProcessorState} (hp : p < 2)
      (ht : (extractionToOut cdResult).extracted ((extractionToOut cdResult).bodies w'.output.bytes) p = some t)
      {op : FileOp} (hop : op ∈ ((extractionToOut cdResult).env p).deeds t.ops) : (p, op) ∈ history := by
    obtain ⟨t', ht', hown⟩ := hdone.parts p (hparts ▸ hp)
    obtain rfl := Option.some.inj (ht.symm.trans ht')
    rw [← mem_own, hown]
    exact (List.mem_filter.mp hop).1
  rcases hapart 0 1 _ _ _ _ _ Nat.zero_lt_one (hissued (by omega) ht hwrite) (hissued (by omega) hu hwrite')
    with hle | hle
  · cases hle
  · omega

end Burst
