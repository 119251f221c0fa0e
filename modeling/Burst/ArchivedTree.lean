import Burst.ArchiveCreation
import Burst.MadeDirectories

namespace Burst

open Tiling LittleEndian Incremental Interleaving Preorder PathResolution Slices

/-- What the processor of a part is fed: the body of the archive that lies in the part, in one piece. -/
def Extraction.bodies (x : Extraction) (archive : List UInt8) (p : ℕ) : List (List UInt8) :=
  [slice archive (p * x.partSize) (min ((p + 1) * x.partSize) x.cdResult.centralDirOffset)]

/-- What should be there in the end under the name of an entry: a file or a symlink, or a directory. -/
structure ExpectedEntry where
  name : Path
  node? : Option Node
  isDirectory : Bool

def AddCall.expected (call : AddCall) : ExpectedEntry := ⟨call.lfh.filename, call.node?, call.isDirectory⟩

def FileListEntry.expected (tree : InputTree) (entry : FileListEntry) : ExpectedEntry :=
  ⟨entry.name, entry.node? tree, entry.isDirectory⟩

/-- What is expected is there: a file with its content, a symlink with its target, or a directory that has been
made. -/
structure ExpectedEntry.There (x : Extraction) (chunks : ℕ → List (List UInt8)) (base : List Path)
    (fresh : FileStatus) (before : FileTree) (ops : List FileOp) (t : FileTree) (entry : ExpectedEntry) :
    Prop where
  node : ∀ node, entry.node? = some node → (t (placeOf base entry.name)).map Inode.node = some node
  directory : entry.isDirectory = true → x.AnswersTruly chunks base fresh before ops →
    MadeDirectory x.outputDir base fresh before ops (placeOf base entry.name)

/-- The central directory of the archive is parsed from wherever the buffer begins, every part of the body is
processed without an error, and below an empty output directory the entries are all there in the end, in
whatever order the parts have been processed or their system calls interleaved. -/
def ComeBack (zstd : ZstdLib) (entries : List ExpectedEntry) (archive : List UInt8)
    (cdOffset partSize : ℕ) : Prop :=
  ∀ start ≤ cdOffset, ∃ cdResult,
    centralDirParse (archive.drop start) archive.length partSize = .ok cdResult ∧
    ∀ (os : ℕ → Os) (outputDir : Path), (∀ p, (os p).Obliges) →
      let x : Extraction := ⟨os, zstd, cdResult, outputDir, partSize⟩
      (∀ p < x.numParts, (x.extracted (x.bodies archive) p).isSome) ∧
      ∀ history, x.Completes (x.bodies archive) history →
        ∀ base fresh before, (∀ place, base <+: place → before place = none) →
          (∃ t, TreeAfter outputDir base fresh before (history.map Prod.snd) t) ∧
          ∀ t, TreeAfter outputDir base fresh before (history.map Prod.snd) t → ∀ entry ∈ entries,
            entry.There x (x.bodies archive) base fresh before (history.map Prod.snd) t

section

variable {x : Extraction} {env : WriterEnv} {level : ℤ} {calls : List AddCall} {archive : List UInt8}
  {segs : ℕ → List Item} {states : ℕ → ReadPos} {outs : ℕ → List FileOp}

/-- The body of a part is what the reader reads in the part. -/
theorem ReadsByParts.bodies_eq (h : ReadsByParts x env level calls segs states outs)
    (hk : x.Knows env level calls archive) {p : ℕ} (hp : p < x.numParts) :
    (p * x.partSize < total Item.len (bodyItems (layoutAll env level 0 calls)) →
      x.bodies archive p = [itemBytes (segs p)]) ∧
    (total Item.len (bodyItems (layoutAll env level 0 calls)) ≤ p * x.partSize → x.bodies archive p = [[]]) := by
  have hmul := Nat.add_one_mul p x.partSize
  rw [Extraction.bodies, hk.centralDirOffset]
  constructor
  · intro hstart
    rw [h.bodyBytes hk hp hstart.le]
  · intro hend
    rw [slice, Nat.sub_eq_zero_of_le (by omega), List.take_zero]

theorem ReadsByParts.bodies_extracted (h : ReadsByParts x env level calls segs states outs)
    (hk : x.Knows env level calls archive) (hos : ∀ p, (x.os p).Obliges) {p : ℕ} (hp : p < x.numParts) :
    ∃ t, x.extracted (x.bodies archive) p = some t ∧ (x.env p).deeds t.ops =
      (states p).opening (x.entryPath calls) ++ (outs p ++
        (states (p + 1)).closing (x.entryPath calls) (calls.zip (recordedAll env level 0 calls))) := by
  obtain ⟨hbody, hempty⟩ := h.bodies_eq hk hp
  rw [Extraction.extracted]
  rcases Nat.lt_or_ge (p * x.partSize) (total Item.len (bodyItems (layoutAll env level 0 calls)))
    with hstart | hend
  · rw [hbody hstart]
    exact extractPart_singleton (h.extracts_body hk hos hp hstart)
  · rw [hempty hend]
    exact extractPart_singleton (h.extracts_empty hk hp hend)

/-- The central directory lists what has been added. -/
theorem Extraction.Knows.listed_call (hk : x.Knows env level calls archive) {i : ℕ} {call : AddCall}
    (hcall : calls[i]? = some call) : ∃ fileMeta ∈ x.cdResult.files, fileMeta.filename = call.lfh.filename ∧
      fileMeta.isDirectory = call.isDirectory ∧ x.path fileMeta = x.entryPath calls i := by
  obtain ⟨hlt, -⟩ := List.getElem?_eq_some_iff.mp hcall
  have hfile : i < (recordedAll env level 0 calls).length := by rwa [recordedAll_length]
  have hentry : (calls.zip (recordedAll env level 0 calls))[i]? =
      some (call, (recordedAll env level 0 calls)[i]) :=
    List.getElem?_zip_eq_some.mpr ⟨hcall, List.getElem?_eq_getElem hfile⟩
  obtain ⟨hget, hname⟩ := hk.readBack_getElem? hentry
  obtain ⟨fileMeta, hlisted, hdescribes, hpath⟩ := (hk.knowsEntries hk.numParts_pos).described hentry
  obtain rfl := Option.some.inj (hget.symm.trans hlisted)
  exact ⟨_, List.mem_of_getElem? hget, hname, hdescribes.isDirectory, hpath⟩

/-- The directory of an entry is asked for while the part is processed in which its header lies. -/
theorem ReadsByParts.bodies_mkdir (h : ReadsByParts x env level calls segs states outs)
    (hk : x.Knows env level calls archive) (hos : ∀ p, (x.os p).Obliges) {i : ℕ} {call : AddCall}
    (hcall : calls[i]? = some call) (hdirectory : call.isDirectory = true) : ∃ p < x.numParts, ∃ t,
      x.extracted (x.bodies archive) p = some t ∧ .mkdir (x.entryPath calls i) 0o755 ∈ t.ops := by
  obtain ⟨hlt, -⟩ := List.getElem?_eq_some_iff.mp hcall
  have hfile : i < (recordedAll env level 0 calls).length := by rwa [recordedAll_length]
  have hentry : (calls.zip (recordedAll env level 0 calls))[i]? =
      some (call, (recordedAll env level 0 calls)[i]) :=
    List.getElem?_zip_eq_some.mpr ⟨hcall, List.getElem?_eq_getElem hfile⟩
  generalize (recordedAll env level 0 calls)[i] = e at hentry
  have hoffset : e.localHeaderOffset < total Item.len (bodyItems (layoutAll env level 0 calls)) := by
    have hlt := (recordedAll_offset (List.mem_of_getElem? (List.getElem?_zip_eq_some.mp hentry).2)).2
    rwa [Nat.zero_add] at hlt
  have hle := Nat.div_mul_le_self e.localHeaderOffset x.partSize
  have hbody := hk.body_lt
  have hp : e.localHeaderOffset / x.partSize < x.numParts := by
    rw [hk.numParts_eq]
    exact lt_numPartsFor hk.partSize_pos hk.size.le (by omega)
  have hstart := hle.trans_lt hoffset
  obtain ⟨ops, hconcludes, -⟩ := h.extracts_body hk hos hp hstart
  have hmkdir := h.makes_directory hk (hos _) hp hentry hdirectory rfl
    ((List.append_nil (itemBytes (segs _))).symm ▸ hconcludes)
  obtain ⟨t, ht, rfl⟩ := hconcludes.extractPart_singleton
  refine ⟨_, hp, t, ?_, hmkdir⟩
  rw [Extraction.extracted, (h.bodies_eq hk hp).1 hstart]
  exact ht

/-- The parts of the body, each processed once, come to the whole archive. -/
theorem Extraction.Knows.bodies_restore (hk : x.Knows env level calls archive) (hos : ∀ p, (x.os p).Obliges)
    {history : List (ℕ × FileOp)} (hdone : x.Completes (x.bodies archive) history) :
    x.RestoresTree calls (history.map Prod.snd) := by
  obtain ⟨segs, states, outs, hreads⟩ := hk.readsByParts
  have hworkers := hdone.workersComplete
  refine (hworkers.restores hreads ?_ ?_).tree hk hworkers.stems
  · intro worker hworker
    obtain ⟨p, hp, rfl⟩ := List.mem_map.mp hworker
    rw [List.mem_range] at hp
    exact ⟨hp, hos p, hreads.bodies_extracted hk hos hp⟩
  · intro p hp _
    exact ⟨_, List.mem_map_of_mem (List.mem_range.mpr hp), rfl⟩

end

/-- An archive that the downloader can read: no size is taken for the ZIP64 marker, and the part map has every
entry go on into the parts that it reaches. -/
structure ReadableArchive (env : WriterEnv) (level : ℤ) (calls : List AddCall) (w : BurstWriter)
    (archive : List UInt8) (zstd : ZstdLib) (partSize : ℕ) : Prop where
  frames : FramesDecode env level zstd
  boundaries : burstPartSize ∣ partSize
  positive : 0 < partSize
  size : archive.length + partSize < 2 ^ 64
  fewParts : archive.length ≤ 2 ^ 32 * partSize
  memory : (centralDirectoryBytes w.files).length < 2 ^ 62
  markers : ∀ e ∈ w.files, e.AvoidsMarker
  continues : ∀ s ∈ entrySpans 0 (layoutAll env level 0 calls), ∀ p, s.Crosses (p * partSize) →
    p * partSize + s.lfhLen < s.dataEnd + 46

theorem ReadableArchive.opens {x : Extraction} {env : WriterEnv} {level : ℤ} {calls : List AddCall}
    {limits : List ℕ} {w w' : BurstWriter}
    (h : ReadableArchive env level calls w w'.output.bytes x.zstd x.partSize)
    (hadd : addAll env calls (burstWriterCreate ⟨[], limits⟩ level) = (some (), w))
    (hfin : burstWriterFinalize w = (some (), w')) {start : ℕ} (hstart : start ≤ w.position)
    (hparsed : centralDirParse (w'.output.bytes.drop start) w'.output.bytes.length x.partSize = .ok x.cdResult) :
    x.Opens env level calls w'.output.bytes := by
  obtain ⟨hfiles, -⟩ := finalized_bytes hadd hfin
  exact ⟨h.frames, hfiles ▸ h.markers, h.boundaries, h.positive, h.size, h.fewParts,
    ⟨start, addAll_position hadd ▸ hstart, hparsed⟩, h.continues⟩

/-- Its central directory is parsed. -/
theorem ReadableArchive.parses {env : WriterEnv} {level : ℤ}
    (hcrc : ∀ crc data, crc < 2 ^ 32 → env.crc32 crc data < 2 ^ 32) {calls : List AddCall}
    (hmade : ∀ call ∈ calls, call.WellMade) {limits : List ℕ} {w w' : BurstWriter} {zstd : ZstdLib}
    {partSize : ℕ} (h : ReadableArchive env level calls w w'.output.bytes zstd partSize)
    (hadd : addAll env calls (burstWriterCreate ⟨[], limits⟩ level) = (some (), w))
    (hfin : burstWriterFinalize w = (some (), w')) {start : ℕ} (hstart : start ≤ w.position) : ∃ cdResult,
      centralDirParse (w'.output.bytes.drop start) w'.output.bytes.length partSize = .ok cdResult := by
  have hsize := h.size
  have hmemory := h.memory
  obtain ⟨hfiles, hbytes⟩ := finalized_bytes hadd hfin
  have hbody := congrArg List.length hbytes
  rw [List.length_append, List.length_append, itemBytes_length] at hbody
  have hrange : ∀ e ∈ recordedAll env level 0 calls, e.InRange ∧ e.NameDecodes :=
    recordedAll_inRange hcrc hmade (by omega)
  exact finalized_centralDirParse_ok (addAll_tracks hadd) hfin (by omega)
    (fun e he ↦ (hrange e (hfiles ▸ he)).1) (fun e he ↦ (hrange e (hfiles ▸ he)).2) hstart
    (Nat.le_of_dvd h.positive h.boundaries) (by
      rw [estimatedEntries, sizeofFileMetadata]
      split <;> omega)

/-- What has been added to an archive comes back from it, as long as none of it is called like the padding. -/
theorem addAll_comeBack {env : WriterEnv} {level : ℤ} (hbound : FramesBounded env level)
    (hcrc : ∀ crc data, crc < 2 ^ 32 → env.crc32 crc data < 2 ^ 32) {calls : List AddCall} {limits : List ℕ}
    {w w' : BurstWriter} (hadd : addAll env calls (burstWriterCreate ⟨[], limits⟩ level) = (some (), w))
    (hfin : burstWriterFinalize w = (some (), w'))
    (hmade : ∀ call ∈ calls, call.WellMade ∧ call.lfh.rawName ≠ paddingLfhFilename)
    (hnames : PlainNames (calls.map fun call ↦ call.lfh.filename)) {zstd : ZstdLib} {partSize : ℕ}
    (h : ReadableArchive env level calls w w'.output.bytes zstd partSize) :
    ComeBack zstd (calls.map AddCall.expected) w'.output.bytes w.position partSize := by
  intro start hstart
  obtain ⟨cdResult, hparsed⟩ := h.parses hcrc (fun call hcall ↦ (hmade call hcall).1) hadd hfin hstart
  refine ⟨cdResult, hparsed, fun os outputDir hos ↦ ?_⟩
  intro x
  have hopens : x.Opens env level calls w'.output.bytes := ReadableArchive.opens h hadd hfin hstart hparsed
  have hknows := knows_of_opens hbound hcrc hmade hnames hadd hfin hopens
  obtain ⟨segs, states, outs, hreads⟩ := hknows.readsByParts
  constructor
  · intro p hp
    obtain ⟨t, ht, -⟩ := hreads.bodies_extracted hknows hos hp
    exact Option.isSome_iff_exists.mpr ⟨t, ht⟩
  intro history hdone base fresh before hempty
  have hbefore : before.NoLinkBelow base := fun place hbelow ↦ FileTree.links_none (hempty place hbelow)
  obtain ⟨hexists, hnodes⟩ := hknows.bodies_restore hos hdone base fresh before hbefore
  refine ⟨hexists, fun t ht ↦ ?_⟩
  rw [List.forall_mem_map]
  intro call hcall
  refine ⟨fun node hnode ↦ hnodes t ht call hcall node hnode, fun hdirectory htruly ↦ ?_⟩
  obtain ⟨i, hi⟩ := List.mem_iff_getElem?.mp hcall
  obtain ⟨p, hp, u, hu, hmkdir⟩ := hreads.bodies_mkdir hknows hos hi hdirectory
  obtain ⟨fileMeta, hlists, hsame, hdir, hpath⟩ := hknows.listed_call hi
  rw [← hpath] at hmkdir
  change MadeDirectory _ _ _ _ _ (placeOf base call.lfh.filename)
  rw [← hsame]
  exact hdone.directory hknows.namesPlain hos hempty htruly hlists (hdir.trans hdirectory) hp hu hmkdir

section

variable {env : WriterEnv} {tree : InputTree} {clock : ℕ → ℤ} {level : ℤ} {i : ℕ}
  {entries : List FileListEntry} {calls : List AddCall}

theorem addEntries_le (env : WriterEnv) (tree : InputTree) (clock : ℕ → ℤ) (i : ℕ)
    (entries : List FileListEntry) (w : BurstWriter) :
    (addEntries env tree clock i entries w).1 ≤ entries.length := by
  induction entries generalizing i w with
  | nil => exact Nat.le_refl 0
  | cons entry entries ih =>
    have hle := ih (i + 1) (processEntry env tree (clock i) entry w).2
    rw [addEntries, List.length_cons]
    dsimp only
    split
    · omega
    · omega

/-- When every entry has been added, every call has succeeded. -/
theorem addAll_of_addEntries (h : AllCalls env tree clock i entries calls) {w w' : BurstWriter}
    (hadded : addEntries env tree clock i entries w = (entries.length, w')) :
    addAll env calls w = (some (), w') ∧
      List.Forall₂ (fun entry call ↦ ∃ j, FileListEntry.Calls env tree (clock j) entry call) entries calls := by
  induction h generalizing w with
  | nil =>
    cases hadded
    exact ⟨rfl, .nil⟩
  | @skip i entry entries calls hnone _ ih =>
    have hle := addEntries_le env tree clock (i + 1) entries w
    rw [addEntries, processEntry_eq_fail hnone, WriterM.fail] at hadded
    have hcount := congrArg Prod.fst hadded
    simp only [List.length_cons, Option.isSome_none, Bool.false_eq_true, if_false] at hcount
    omega
  | @add i entry entries call calls hfirst _ ih =>
    rw [addEntries, hfirst.processEntry_eq] at hadded
    cases hrun : call.run env w with
    | mk added w₁ =>
    have hle := addEntries_le env tree clock (i + 1) entries w₁
    rw [hrun] at hadded
    obtain ⟨hcount, hend⟩ := Prod.mk.inj hadded
    rw [List.length_cons] at hcount
    cases added with
    | none =>
      simp only [Option.isSome_none, Bool.false_eq_true, if_false] at hcount
      omega
    | some done =>
      simp only [Option.isSome_some, if_true, Nat.add_right_cancel_iff] at hcount
      obtain ⟨hadd, hof⟩ := ih (Prod.ext hcount hend)
      exact ⟨WriterM.bind_ok.mpr ⟨(), w₁, hrun, hadd⟩, .cons ⟨i, hfirst⟩ hof⟩

/-- What the scan of a tree lists has plain names. -/
theorem ReadableTree.scan {fuel : ℕ} {root : List UInt8} (h : ReadableTree tree.toFileSystem fuel root)
    (hscan : collectFilesRecursive tree.toFileSystem fuel [] root [] = some (0, entries)) :
    (∀ entry ∈ entries, entry.Listed) ∧ PlainNames (entries.map fun entry ↦ entry.name) := by
  obtain rfl : entries = (preorder (directories tree.toFileSystem) fuel root).map
      (archiveEntry tree.toFileSystem root) := by
    rw [collectFilesRecursive_eq h, List.nil_append, Option.some.injEq, Prod.mk.injEq] at hscan
    rw [← hscan.2]
    apply List.map_congr_left
    intro path hpath
    exact entryAt_root (h.proper hpath).1 (h.proper hpath).2 root
  refine ⟨?_, h.plainNames⟩
  rw [List.forall_mem_map]
  exact fun path hpath ↦ h.listed hpath

/-- What is expected of a call is what is expected of its entry. -/
theorem FileListEntry.Calls.expected {now : ℤ} {entry : FileListEntry} {call : AddCall}
    (h : entry.Calls env tree now call) (hfits : entry.Fits tree) : call.expected = entry.expected tree := by
  have hdirectory : call.isDirectory = entry.isDirectory := by
    cases h with
    | directory hdirectory => exact hdirectory.symm
    | symlink hother => exact hother.symm
    | file hother => exact hother.symm
  rw [AddCall.expected, FileListEntry.expected, h.filename hfits, (h.content hfits).1, hdirectory]

theorem forall₂_expected
    (h : List.Forall₂ (fun entry call ↦ ∃ j, FileListEntry.Calls env tree (clock j) entry call) entries calls)
    (hfits : ∀ entry ∈ entries, entry.Fits tree) :
    calls.map AddCall.expected = entries.map (FileListEntry.expected tree) := by
  induction h with
  | nil => rfl
  | cons hfirst _ ih =>
    obtain ⟨j, hof⟩ := hfirst
    obtain ⟨hfit, hrest⟩ := List.forall_mem_cons.mp hfits
    rw [List.map_cons, List.map_cons, hof.expected hfit, ih hrest]

end

/-- The entries of a directory tree that have all been added come back from the finalized archive, as long as it
can be read and none of them is called like the padding. -/
theorem archivedTree_comesBack {env : WriterEnv} {tree : InputTree} {level : ℤ}
    (hbound : FramesBounded env level) (hcrc : ∀ crc data, crc < 2 ^ 32 → env.crc32 crc data < 2 ^ 32)
    {root : List UInt8} {fuel : ℕ} (htree : ReadableTree tree.toFileSystem fuel root)
    {entries : List FileListEntry}
    (hscan : collectFilesRecursive tree.toFileSystem fuel [] root [] = some (0, entries))
    (hfits : ∀ entry ∈ entries, entry.Fits tree) {clock : ℕ → ℤ} {calls : List AddCall}
    (hcalls : AllCalls env tree clock 0 entries calls) {limits : List ℕ} {w w' : BurstWriter}
    (hadded : addEntries env tree clock 0 entries (burstWriterCreate ⟨[], limits⟩ level) = (entries.length, w))
    (hfin : burstWriterFinalize w = (some (), w')) {zstd : ZstdLib} {partSize : ℕ}
    (hreadable : ReadableArchive env level calls w w'.output.bytes zstd partSize) :
    ComeBack zstd (entries.map (FileListEntry.expected tree)) w'.output.bytes w.position partSize := by
  obtain ⟨hlisted, hplain⟩ := htree.scan hscan
  obtain ⟨hadd, hof⟩ := addAll_of_addEntries hcalls hadded
  rw [← forall₂_expected hof hfits]
  exact addAll_comeBack hbound hcrc hadd hfin (hcalls.wellMade hcrc hlisted hfits)
    (hplain.sublist (hcalls.names hfits)) hreadable

theorem AddCall.content_of_data {content : List UInt8} {lfh : LocalFileHeader} {unixMode uid gid : ℕ}
    (h : isHeaderOnly lfh = false) :
    (AddCall.file ⟨content, none, true⟩ lfh unixMode uid gid).content = content := by
  rw [AddCall.content, if_neg (by rw [h]; exact Bool.false_ne_true), InputFile.chunks,
    Pieces.cut_flatten (by norm_num [zstdChunkSize])]

/-- The sample tree with a larger file `a`, which goes on in the second part. -/
def largeTree : InputTree where
  toFileSystem := { sampleFileSystem with
    lstat := fun path ↦
      if path = [114, 47, 97] then some ⟨0o100644, 0, 0, 9000000, 0⟩ else sampleFileSystem.lstat path }
  stat := sampleTree.stat
  fopen path := if path = [114, 47, 97] then some ⟨noise 9000000, none, true⟩ else none

def largeTreeEntries : List FileListEntry :=
  [archiveEntry largeTree.toFileSystem [114] [[100]], archiveEntry largeTree.toFileSystem [114] [[100], [108]],
    archiveEntry largeTree.toFileSystem [114] [[97]]]

def largeTreeFile : AddCall :=
  .file ⟨noise 9000000, none, true⟩ (buildLocalFileHeader rawEnv 0 [97] false 0 0) 0o100644 0 0

def largeTreeCalls : List AddCall :=
  [.directory (headerFor (dosDatetimeFromTimeT rawEnv 0) zipVersionStore 0 zipMethodStore 0 0 [100, 47] 0 0)
      0o40755 0 0,
    .symlink (buildSymlinkLocalFileHeader rawEnv 0 [100, 47, 108] [46, 46, 47, 97] 0 0) [46, 46, 47, 97]
      0o120777 0 0,
    largeTreeFile]

theorem largeTree_allCalls : AllCalls rawEnv largeTree (fun _ ↦ 0) 0 largeTreeEntries largeTreeCalls :=
  .add (.directory rfl rfl) (.add (.symlink rfl rfl) (.add (.file rfl rfl rfl) (.nil _)))

theorem largeTree_readable : ReadableTree largeTree.toFileSystem 2 [114] := by
  refine ⟨[[46], [100], [46, 46], [97]], rfl, by decide, ?_⟩
  simp only [List.forall_mem_cons, List.not_mem_nil, false_imp_iff, implies_true, and_true]
  refine ⟨fun h ↦ (by cases h), fun _ ↦ ?_, fun h ↦ (by cases h), fun _ ↦ ?_⟩
  · refine ⟨by decide, by decide, ⟨0o40755, 0, 0, 0, 0⟩, rfl, fun h ↦ (by cases h), fun _ ↦ ?_⟩
    refine ⟨[[46, 46], [108], [46]], rfl, by decide, ?_⟩
    simp only [List.forall_mem_cons, List.not_mem_nil, false_imp_iff, implies_true, and_true]
    refine ⟨fun h ↦ (by cases h), fun _ ↦ ?_, fun h ↦ (by cases h)⟩
    exact ⟨by decide, by decide, ⟨0o120777, 0, 0, 4, 0⟩, rfl, fun _ ↦ rfl, fun h ↦ (by cases h)⟩
  · exact ⟨by decide, by decide, ⟨0o100644, 0, 0, 9000000, 0⟩, rfl, fun h ↦ (by cases h), fun h ↦ (by cases h)⟩

theorem largeTree_scan :
    collectFilesRecursive largeTree.toFileSystem 2 [] [114] [] = some (0, largeTreeEntries) := by
  decide +kernel

theorem largeTree_inputs : collectInputs largeTree 2 [[114]] = some (some largeTreeEntries) := by
  decide +kernel

theorem largeTree_fits : ∀ entry ∈ largeTreeEntries, entry.Fits largeTree := by
  have hvalues : ∀ entry ∈ largeTreeEntries, (∀ b ∈ entry.name, b ≠ 0) ∧ entry.name ≠ paddingLfhFilename ∧
      entry.name.length + (entry.target.getD []).length + 113 ≤ 65579 ∧ entry.stat.uid < 2 ^ 32 ∧
      entry.stat.gid < 2 ^ 32 ∧ (isLnk entry.stat.mode = true → entry.target.getD [] ≠ [] ∧
        ∀ b ∈ entry.target.getD [], b ≠ 0) ∧
        (entry.path = [114, 47, 97] → entry.stat.size ≠ 0) := by
    decide +kernel
  intro entry hentry
  obtain ⟨hnul, hpadding, hshort, huid, hgid, htarget, hsize⟩ := hvalues entry hentry
  refine ⟨hnul, hpadding, hshort, huid, hgid, htarget, ?_⟩
  intro input hinput
  simp only [largeTree] at hinput
  split at hinput
  · next hpath =>
    obtain rfl := Option.some.inj hinput
    refine ⟨rfl, rfl, ?_, fun hzero ↦ (hsize hpath hzero).elim⟩
    rw [noise_length]
    norm_num
  · cases hinput

/-- The file lies behind the directory and the symlink, and goes on behind the first part boundary. -/
theorem largeTreeFile_span :
    entrySpan 99 (layoutCall rawEnv 3 99 largeTreeFile) = ⟨99, 46, 9131168, 9131184⟩ := by
  have hlen : (buildLocalFileHeader rawEnv 0 [97] false 0 0).len = 46 := by decide
  have hspan := @layoutFile_span (noise 9000000) (buildLocalFileHeader rawEnv 0 [97] false 0 0) 99 9131023
    0o100644 0 0 (by decide) (by decide +kernel) (by decide) (by
      rw [hlen, rawEnv_frameSizes, noise_length]
      decide +kernel) (by norm_num) (by
      rw [noise_length]
      norm_num)
  rwa [hlen] at hspan

theorem largeTree_spans : entrySpans 0 (layoutAll rawEnv 3 0 largeTreeCalls) =
    [⟨0, 47, 47, 47⟩, ⟨47, 48, 99, 99⟩, ⟨99, 46, 9131168, 9131184⟩] := by
  rw [← largeTreeFile_span]
  rfl

theorem largeTree_total : total Item.len (bodyItems (layoutAll rawEnv 3 0 largeTreeCalls)) = 9131184 := by
  have hend := @entrySpans_getLast 0 (layoutAll rawEnv 3 0 largeTreeCalls) ⟨99, 46, 9131168, 9131184⟩ (by
    rw [largeTree_spans]
    rfl)
  rw [Nat.zero_add] at hend
  exact hend.symm

/-- Where the file goes on behind the boundary, the estimate of its end gets there. -/
theorem largeTree_continues : ∀ s ∈ entrySpans 0 (layoutAll rawEnv 3 0 largeTreeCalls), ∀ p,
    s.Crosses (p * burstPartSize) → p * burstPartSize + s.lfhLen < s.dataEnd + 46 := by
  rw [largeTree_spans, burstPartSize]
  simp only [List.forall_mem_cons, List.not_mem_nil, false_imp_iff, implies_true, and_true, EntrySpan.Crosses]
  refine ⟨?_, ?_, ?_⟩ <;> omega

theorem largeTree_avoidsMarker : ∀ e ∈ recordedAll rawEnv 3 0 largeTreeCalls, e.AvoidsMarker := by
  intro e he
  obtain ⟨call, hcall, pos, rfl, hcompressed⟩ := recordedAll_of_call he
  obtain ⟨entry, hentry, j, hof⟩ := largeTree_allCalls.mem hcall
  obtain ⟨-, -, hheader⟩ := hof.headers (largeTree_fits entry hentry)
  have hsize : call.content.length ≤ 9000000 := by
    simp only [largeTreeCalls, List.mem_cons, List.not_mem_nil, or_false] at hcall
    rcases hcall with rfl | rfl | rfl
    · exact Nat.zero_le _
    · exact show 4 ≤ 9000000 by norm_num
    · rw [largeTreeFile, AddCall.content_of_data (by decide), noise_length]
  rw [largeTree_total] at hcompressed
  rw [← (recordedEntry_records rawEnv 3 pos hheader).uncompressedSize] at hsize
  rw [FileEntry.AvoidsMarker]
  omega

theorem largeTreeFile_node :
    (archiveEntry largeTree.toFileSystem [114] [[97]]).node? largeTree = some (.file (noise 9000000)) := by
  have hdirectory : (archiveEntry largeTree.toFileSystem [114] [[97]]).isDirectory = false := rfl
  have hlink : isLnk (archiveEntry largeTree.toFileSystem [114] [[97]]).stat.mode = false := rfl
  have hopened : largeTree.fopen (archiveEntry largeTree.toFileSystem [114] [[97]]).path =
      some ⟨noise 9000000, none, true⟩ := rfl
  rw [FileListEntry.node?, hdirectory, if_neg Bool.false_ne_true, hlink, if_neg Bool.false_ne_true, hopened,
    Option.map_some]

theorem parsed_twoParts {archive : List UInt8} {cdResult : CentralDirParseResult}
    (h : centralDirParse archive archive.length burstPartSize = .ok cdResult) (hgt : 8388608 < archive.length)
    (hlt : archive.length < 16777216) : cdResult.parts.length = 2 := by
  have hparts := (centralDirParse_parsed h).numParts
  have hdiv : (archive.length + 8 * 1024 * 1024 - 1) / (8 * 1024 * 1024) = 2 := by omega
  rw [numPartsFor, burstPartSize, Nat.mod_eq_of_lt (by omega), hdiv] at hparts
  exact hparts

theorem largeTree_readableArchive {w w' : BurstWriter}
    (hadd : addAll rawEnv largeTreeCalls (burstWriterCreate ⟨[], []⟩ 3) = (some (), w))
    (hfin : burstWriterFinalize w = (some (), w')) : w'.output.bytes.length < 16777216 ∧
      8388608 < w'.output.bytes.length ∧
      ReadableArchive rawEnv 3 largeTreeCalls w w'.output.bytes rawZstd burstPartSize := by
  have hposition := (addAll_position hadd).trans largeTree_total
  have hlength := finalized_length (addAll_tracks hadd) hfin
  obtain ⟨hfiles, -⟩ := finalized_bytes hadd hfin
  have hdirectory : (centralDirectoryBytes w.files).length < 400000 := by
    have hle := centralDirectoryBytes_length_le w.files
    have hcount : w.files.length = 3 := by rw [hfiles, recordedAll_length]; rfl
    omega
  rw [hposition, burstEocdCommentSize] at hlength
  refine ⟨by omega, by omega, ?_⟩
  constructor
  case frames => exact rawZstd_framesDecode 3
  case boundaries => exact dvd_rfl
  case positive => decide
  case size =>
    rw [burstPartSize]
    omega
  case fewParts =>
    rw [burstPartSize]
    omega
  case memory => omega
  case markers => exact hfiles ▸ largeTree_avoidsMarker
  case continues => exact largeTree_continues

/-- The tree comes back: the file in two parts, the symlink, and the directory that holds it. -/
theorem largeTree_comesBack : ∃ w w' cdResult history t,
    addEntries rawEnv largeTree (fun _ ↦ 0) 0 largeTreeEntries (burstWriterCreate ⟨[], []⟩ 3) = (3, w) ∧
    burstWriterFinalize w = (some (), w') ∧
    ComeBack rawZstd (largeTreeEntries.map (FileListEntry.expected largeTree)) w'.output.bytes w.position
      burstPartSize ∧
    centralDirParse w'.output.bytes w'.output.bytes.length burstPartSize = .ok cdResult ∧
    let x : Extraction := ⟨fun _ ↦ obligingOs, rawZstd, cdResult, [111, 117, 116], burstPartSize⟩
    x.numParts = 2 ∧ x.Completes (x.bodies w'.output.bytes) history ∧
      TreeAfter [111, 117, 116] [[111, 117, 116]] ⟨0o644, 0, 0⟩ emptyTree (history.map Prod.snd) t ∧
      (t [[111, 117, 116], [97]]).map Inode.node = some (.file (noise 9000000)) ∧
      (t [[111, 117, 116], [100], [108]]).map Inode.node = some (.symlink [46, 46, 47, 97]) ∧
      MadeDirectory [111, 117, 116] [[111, 117, 116]] ⟨0o644, 0, 0⟩ emptyTree (history.map Prod.snd)
        [[111, 117, 116], [100]] := by
  obtain ⟨w, w', hadd, hadded, hfin, -⟩ := largeTree_allCalls.createArchive
    ⟨rawEnv_framesBounded 3, fun _ ↦ rfl, fun _ data hlt ↦ Crc32.crc32_lt hlt data⟩ (by decide)
    largeTree_inputs largeTree_fits (List.cons_ne_nil _ _)
  obtain ⟨hlt, hgt, hreadable⟩ := largeTree_readableArchive hadd hfin
  have hback := archivedTree_comesBack (rawEnv_framesBounded 3) (fun _ data hlt ↦ Crc32.crc32_lt hlt data)
    largeTree_readable largeTree_scan largeTree_fits largeTree_allCalls hadded hfin hreadable
  obtain ⟨cdResult, hparse, hextracts⟩ := hback 0 (Nat.zero_le _)
  rw [List.drop_zero] at hparse
  obtain ⟨hall, hdone⟩ := hextracts (fun _ ↦ obligingOs) [111, 117, 116] fun _ ↦ obligingOs_obliges
  obtain ⟨history, hcompletes⟩ := Extraction.completes_exists hall
  obtain ⟨⟨t, ht⟩, hentries⟩ := hdone history hcompletes [[111, 117, 116]] ⟨0o644, 0, 0⟩ emptyTree fun _ _ ↦ rfl
  have hthere := hentries t ht
  simp only [largeTreeEntries, List.map_cons, List.map_nil, List.forall_mem_cons, List.not_mem_nil,
    false_imp_iff, implies_true, and_true] at hthere
  obtain ⟨hdir, hlink, hfile⟩ := hthere
  refine ⟨w, w', cdResult, history, t, hadded, hfin, hback, hparse, parsed_twoParts hparse hgt hlt, hcompletes,
    ht, ?_, ?_, ?_⟩
  · exact hfile.node _ largeTreeFile_node
  · exact hlink.node _ rfl
  · apply hdir.directory rfl
    intro p hp u hu made later e he hops hexist
    cases hexist

/-- A directory `r` with one empty file, which is called like the padding. -/
def paddingNameTree : InputTree where
  opendir path := if path = [114] then some [[46], [46, 46], paddingLfhFilename] else none
  lstat path := if path = [114] ++ slash :: paddingLfhFilename then some ⟨0o100644, 0, 0, 0, 0⟩ else none
  readlink _ := none
  stat path := if path = [114] then some ⟨0o40755, 0, 0, 0, 0⟩ else none
  fopen path := if path = [114] ++ slash :: paddingLfhFilename then some ⟨[], none, true⟩ else none

def paddingNameEntries : List FileListEntry :=
  [archiveEntry paddingNameTree.toFileSystem [114] [paddingLfhFilename]]

def paddingNameArchive : List UInt8 :=
  ((createArchive rawEnv paddingNameTree (fun _ ↦ 0) 2 3 [] [[114]]).join).getD []

/-- Its extraction to `out`. -/
def paddingNameExtraction : Extraction where
  os _ := obligingOs
  zstd := rawZstd
  cdResult := (centralDirParse paddingNameArchive paddingNameArchive.length burstPartSize).toOption.getD
    ⟨[], [], 0, 0, false⟩
  outputDir := [111, 117, 116]
  partSize := burstPartSize

/-- The file is archived, but extracting the archive makes nothing of it. -/
theorem paddingNameTree_lost :
    collectFilesRecursive paddingNameTree.toFileSystem 2 [] [114] [] = some (0, paddingNameEntries) ∧
      let added := addEntries rawEnv paddingNameTree (fun _ ↦ 0) 0 paddingNameEntries
        (burstWriterCreate ⟨[], []⟩ 3)
      added.1 = paddingNameEntries.length ∧ (burstWriterFinalize added.2).1 = some () ∧
        (burstWriterFinalize added.2).2.output.bytes = paddingNameArchive ∧
        ¬ ComeBack rawZstd (paddingNameEntries.map (FileListEntry.expected paddingNameTree)) paddingNameArchive
          added.2.position burstPartSize := by
  refine ⟨by decide +kernel, by decide +kernel, by decide +kernel, by decide +kernel, ?_⟩
  intro hback
  obtain ⟨cdResult, hparse, hextracts⟩ := hback 0 (Nat.zero_le _)
  rw [List.drop_zero] at hparse
  have hx : (⟨fun _ ↦ obligingOs, rawZstd, cdResult, [111, 117, 116], burstPartSize⟩ : Extraction) =
      paddingNameExtraction := by
    rw [paddingNameExtraction, hparse]
    rfl
  obtain ⟨-, hdone⟩ := hextracts (fun _ ↦ obligingOs) [111, 117, 116] fun _ ↦ obligingOs_obliges
  rw [hx] at hdone
  -- the only part is processed without a system call
  have hparts : paddingNameExtraction.numParts = 1 := by decide +kernel
  have hnothing : (paddingNameExtraction.extracted (paddingNameExtraction.bodies paddingNameArchive) 0).map
      (·.ops) = some [] := by decide +kernel
  have hcompletes : paddingNameExtraction.Completes (paddingNameExtraction.bodies paddingNameArchive) [] := by
    refine ⟨?_, fun q hq ↦ (by cases hq)⟩
    intro p hp
    obtain rfl : p = 0 := by omega
    obtain ⟨t, ht, hops⟩ := Option.map_eq_some_iff.mp hnothing
    refine ⟨t, ht, ?_⟩
    rw [hops]
    rfl
  obtain ⟨-, hentries⟩ := hdone [] hcompletes [[111, 117, 116]] ⟨0o644, 0, 0⟩ emptyTree fun _ _ ↦ rfl
  have hnode := (hentries emptyTree .start _ List.mem_cons_self).node (.file []) (by decide +kernel)
  cases hnode

end Burst
