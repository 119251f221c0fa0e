import Burst.EntryProcessor
import Burst.WellMadeCalls

namespace Burst

open Tiling LittleEndian Interleaving Preorder PathResolution

/-- What the writer asks of its libraries. -/
structure WriterEnv.Works (env : WriterEnv) (level : ℤ) : Prop where
  bound : FramesBounded env level
  compresses : ∀ chunk, (env.compressChunk level chunk).isSome
  crc32 : ∀ crc data, crc < 2 ^ 32 → env.crc32 crc data < 2 ^ 32

/-- An entry that the scan has listed. -/
structure FileListEntry.Listed (entry : FileListEntry) : Prop where
  kind : entry.isDirectory = isDir entry.stat.mode
  name : entry.name.getLast? = some slash ↔ entry.isDirectory = true

/-- What an archive can hold of the file system, and does not take for something else. -/
structure FileListEntry.Fits (tree : InputTree) (entry : FileListEntry) : Prop where
  noNul : ∀ b ∈ entry.name, b ≠ 0
  notPadding : entry.name ≠ paddingLfhFilename
  short : entry.name.length + (entry.target.getD []).length + 113 ≤ 65579
  uid : entry.stat.uid < 2 ^ 32
  gid : entry.stat.gid < 2 ^ 32
  target : isLnk entry.stat.mode = true → entry.target.getD [] ≠ [] ∧ ∀ b ∈ entry.target.getD [], b ≠ 0
  readable : ∀ input, tree.fopen entry.path = some input → input.readError = none ∧
    input.seekable = true ∧ input.content.length < 2 ^ 64 ∧ (entry.stat.size = 0 → input.content = [])

/-- What an entry comes back as, unless it is a directory or cannot be opened. -/
def FileListEntry.node? (tree : InputTree) (entry : FileListEntry) : Option Node :=
  if entry.isDirectory then none
  else if isLnk entry.stat.mode then some (.symlink (entry.target.getD []))
  else (tree.fopen entry.path).map fun input ↦ .file input.content

namespace FileListEntry.Calls

variable {env : WriterEnv} {tree : InputTree} {now : ℤ} {entry : FileListEntry} {call : AddCall}

theorem lfh_eq (h : entry.Calls env tree now call) : ∃ modified versionNeeded flags compressionMethod
    crc32 size, call.lfh = headerFor modified versionNeeded flags compressionMethod crc32 size entry.name
      entry.stat.uid entry.stat.gid ∧ compressionMethod < 2 ^ 16 := by
  cases h with
  | directory _ hbuilt =>
    rw [buildDirectoryLocalFileHeader] at hbuilt
    split at hbuilt
    · cases hbuilt
    · exact ⟨_, _, _, _, _, _, (Option.some.inj hbuilt).symm, by decide⟩
  | symlink => exact ⟨_, _, _, _, _, _, rfl, by decide⟩
  | file =>
    rw [AddCall.lfh, buildLocalFileHeader]
    split
    · exact ⟨_, _, _, _, _, _, rfl, by decide⟩
    · exact ⟨_, _, _, _, _, _, rfl, by decide⟩

theorem target_le (h : entry.Calls env tree now call) : call.targetLen ≤ (entry.target.getD []).length := by
  cases h with
  | directory => exact Nat.zero_le _
  | symlink => exact le_rfl
  | file => exact Nat.zero_le _

theorem headers (h : entry.Calls env tree now call) (hfits : entry.Fits tree) :
    call.lfh.WellFormed ∧ call.lfh.rawName ≠ paddingLfhFilename ∧ call.HeaderFits := by
  obtain ⟨_, _, _, _, _, _, hlfh, -⟩ := h.lfh_eq
  have htarget := h.target_le
  have hshort := hfits.short
  have hname : entry.name.length < 2 ^ 16 := by omega
  refine ⟨hlfh ▸ headerFor_wellFormed hname, ?_, ?_⟩
  · rw [hlfh, headerFor_rawName hname]
    exact hfits.notPadding
  · rw [AddCall.HeaderFits, hlfh, headerFor_len]
    omega

theorem filename (h : entry.Calls env tree now call) (hfits : entry.Fits tree) :
    call.lfh.filename = entry.name := by
  obtain ⟨_, _, _, _, _, _, hlfh, -⟩ := h.lfh_eq
  have hshort := hfits.short
  rw [hlfh]
  exact headerFor_filename (by omega) hfits.noNul

theorem consistent (h : entry.Calls env tree now call) (hlisted : entry.Listed) (hfits : entry.Fits tree) :
    call.Consistent := by
  have hname := h.filename hfits
  have hmode : isLnk (entry.stat.mode % 2 ^ 16) = isLnk entry.stat.mode := by
    rw [isLnk, isLnk]
    congr 1
    rw [eq_iff_iff]
    omega
  constructor
  · cases h with
    | directory hdirectory =>
      rw [hlisted.kind, isDir] at hdirectory
      change isLnk (entry.stat.mode % 2 ^ 16) = false
      rw [hmode, isLnk]
      simp only [decide_eq_true_eq] at hdirectory
      simp [hdirectory]
    | symlink _ hlink => exact hmode.trans hlink
    | file _ hregular => exact hmode.trans hregular
  · rw [hname]
    have hslash := hlisted.name
    cases h with
    | directory hdirectory => simpa [AddCall.isDirectory] using hslash.mpr hdirectory
    | symlink hother =>
      rw [hother] at hslash
      simpa [AddCall.isDirectory] using hslash
    | file hother =>
      rw [hother] at hslash
      simpa [AddCall.isDirectory] using hslash

theorem admissible (h : entry.Calls env tree now call) (hfits : entry.Fits tree) {level : ℤ}
    (hcompress : ∀ chunk, (env.compressChunk level chunk).isSome) : call.Admissible env level := by
  cases h with
  | @directory lfh hdirectory hbuilt =>
    have hshort := hfits.short
    rw [buildDirectoryLocalFileHeader] at hbuilt
    split at hbuilt
    · cases hbuilt
    · next hname =>
      obtain rfl := Option.some.inj hbuilt
      push Not at hname
      obtain ⟨hne, hlast⟩ := hname
      have hlength : entry.name.length % 2 ^ 16 = entry.name.length := Nat.mod_eq_of_lt (by omega)
      refine ⟨?_, trivial⟩
      rintro (hzero | hother | hmethod | hsize | hsize)
      · change entry.name.length % 2 ^ 16 = 0 at hzero
        rw [hlength] at hzero
        exact hne hzero
      · change (entry.name ++ _)[entry.name.length % 2 ^ 16 - 1]? ≠ _ at hother
        rw [hlength, List.getElem?_append_left (by omega), ← List.getLast?_eq_getElem?] at hother
        exact hother hlast
      · exact hmethod rfl
      · exact hsize rfl
      · exact hsize rfl
  | symlink _ hlink =>
    refine ⟨?_, trivial⟩
    intro hempty
    exact (hfits.target hlink).1 (List.length_eq_zero_iff.mp hempty)
  | file _ _ hopened =>
    obtain ⟨hread, hseek, -⟩ := hfits.readable _ hopened
    refine ⟨?_, fun _ ↦ ⟨hread, fun chunk _ ↦ hcompress chunk⟩⟩
    rintro ⟨-, hother⟩
    rw [hseek] at hother
    cases hother

/-- The content that is stored of a file is what it holds. -/
theorem content (h : entry.Calls env tree now call) (hfits : entry.Fits tree) :
    call.node? = entry.node? tree ∧ call.content.length < 2 ^ 64 := by
  cases h with
  | directory hdirectory =>
    exact ⟨by rw [FileListEntry.node?, if_pos hdirectory]; rfl, by simp [AddCall.content]⟩
  | symlink hother hlink =>
    obtain ⟨-, hnul⟩ := hfits.target hlink
    have hshort := hfits.short
    have htarget : (entry.target.getD []).takeWhile (· ≠ 0) = entry.target.getD [] := by
      rw [List.takeWhile_eq_self_iff]
      intro b hb
      simpa using hnul b hb
    refine ⟨?_, ?_⟩
    · rw [FileListEntry.node?, hother, if_neg Bool.false_ne_true, if_pos hlink, AddCall.node?, htarget]
    · change (entry.target.getD []).length < _
      omega
  | @file input hother hregular hopened =>
    obtain ⟨hread, -, hlength, hempty⟩ := hfits.readable _ hopened
    have hchunks : input.chunks.flatten = input.content := by
      rw [InputFile.chunks, hread]
      exact Pieces.cut_flatten (by norm_num [zstdChunkSize]) input.content
    have hcontent : AddCall.content (.file input (buildLocalFileHeader env now entry.name
        (decide (entry.stat.size = 0)) entry.stat.uid entry.stat.gid) entry.stat.mode entry.stat.uid
        entry.stat.gid) = input.content := by
      rw [AddCall.content, hchunks]
      split
      · next hho =>
        by_cases hsize : entry.stat.size = 0
        · exact (hempty hsize).symm
        · -- the header of a file that is not empty has a data descriptor
          rw [buildLocalFileHeader, decide_eq_false hsize, if_neg Bool.false_ne_true] at hho
          simp [isHeaderOnly, headerFor, zipFlagDataDescriptor] at hho
      · rfl
    refine ⟨?_, hcontent ▸ hlength⟩
    rw [FileListEntry.node?, hother, if_neg Bool.false_ne_true, hregular, if_neg Bool.false_ne_true, hopened,
      AddCall.node?, hcontent, Option.map_some]

/-- What `process_entry` passes on is as the writer and the downloader take it. -/
theorem wellMade (h : entry.Calls env tree now call)
    (hcrc : ∀ crc data, crc < 2 ^ 32 → env.crc32 crc data < 2 ^ 32) (hlisted : entry.Listed)
    (hfits : entry.Fits tree) : call.WellMade := by
  obtain ⟨hw, -, hfit⟩ := h.headers hfits
  obtain ⟨_, _, _, _, _, _, hlfh, hmethod⟩ := h.lfh_eq
  constructor
  case wellFormed => exact hw
  case headerFits => exact hfit
  case consistent => exact h.consistent hlisted hfits
  case compressionMethod =>
    rw [hlfh]
    exact hmethod
  case checksum =>
    cases h with
    | directory => exact fun hlink ↦ (by cases hlink)
    | symlink => exact fun _ ↦ hcrc 0 _ (by norm_num)
    | file => exact fun hlink ↦ (by cases hlink)
  case owner =>
    cases h with
    | directory => exact ⟨hfits.uid, hfits.gid⟩
    | symlink => exact ⟨hfits.uid, hfits.gid⟩
    | file => exact ⟨hfits.uid, hfits.gid⟩
  case content => exact (h.content hfits).2

end FileListEntry.Calls

/-- An entry is archived when it is a directory, a symlink, or a file that can be opened. -/
def FileListEntry.Archivable (tree : InputTree) (entry : FileListEntry) : Prop :=
  entry.isDirectory = true ∨ (entry.node? tree).isSome

instance (tree : InputTree) (entry : FileListEntry) : Decidable (entry.Archivable tree) :=
  inferInstanceAs (Decidable (_ ∨ _))

theorem FileListEntry.Calls.archivable {env : WriterEnv} {tree : InputTree} {now : ℤ} {entry : FileListEntry}
    {call : AddCall} (h : entry.Calls env tree now call) : entry.Archivable tree := by
  cases h with
  | directory hdirectory => exact .inl hdirectory
  | symlink hother hlink =>
    refine .inr ?_
    rw [FileListEntry.node?, hother, if_neg Bool.false_ne_true, if_pos hlink]
    rfl
  | file hother hregular hopened =>
    refine .inr ?_
    rw [FileListEntry.node?, hother, if_neg Bool.false_ne_true, hregular, if_neg Bool.false_ne_true, hopened]
    rfl

theorem FileListEntry.Archivable.calls {tree : InputTree} {entry : FileListEntry}
    (h : entry.Archivable tree) (hlisted : entry.Listed) (env : WriterEnv) (now : ℤ) :
    ∃ call, entry.Calls env tree now call := by
  rcases processEntry_calls env tree now entry with ⟨-, hnone⟩ | ⟨call, hcall, -⟩
  · exfalso
    rcases h with hdirectory | hnode
    · have hlast := hlisted.name.mpr hdirectory
      refine hnone _ (.directory hdirectory (if_neg ?_))
      rintro (hempty | hother)
      · rw [List.length_eq_zero_iff.mp hempty] at hlast
        cases hlast
      · exact hother hlast
    · rw [FileListEntry.node?] at hnode
      split at hnode
      · cases hnode
      · next hdirectory =>
        have hother : entry.isDirectory = false := Bool.eq_false_iff.mpr hdirectory
        split at hnode
        · next hlink => exact hnone _ (.symlink hother hlink)
        · next hlink =>
          rw [Option.isSome_map] at hnode
          obtain ⟨input, hopened⟩ := Option.isSome_iff_exists.mp hnode
          exact hnone _ (.file hother (Bool.eq_false_iff.mpr hlink) hopened)
  · exact ⟨call, hcall⟩

section

variable {env : WriterEnv} {tree : InputTree} {clock : ℕ → ℤ} {level : ℤ} {entries : List FileListEntry}
  {calls : List AddCall}

theorem AllCalls.names {i : ℕ} (h : AllCalls env tree clock i entries calls)
    (hfits : ∀ entry ∈ entries, entry.Fits tree) :
    (calls.map fun call ↦ call.lfh.filename).Sublist (entries.map fun entry ↦ entry.name) := by
  induction h with
  | nil => exact .slnil
  | skip _ _ ih => exact (ih fun e he ↦ hfits e (List.mem_cons_of_mem _ he)).cons _
  | @add _ entry _ call _ hfirst _ ih =>
    have hname := hfirst.filename (hfits entry List.mem_cons_self)
    rw [List.map_cons, List.map_cons, hname]
    exact (ih fun e he ↦ hfits e (List.mem_cons_of_mem _ he)).cons_cons _

/-- An entry is refused only when it is a file that cannot be opened. -/
theorem AllCalls.length {i : ℕ} (h : AllCalls env tree clock i entries calls)
    (hlisted : ∀ entry ∈ entries, entry.Listed) :
    calls.length = (entries.filter fun entry ↦ entry.Archivable tree).length := by
  induction h with
  | nil => rfl
  | @skip i entry entries calls hnone _ ih =>
    have hrefused : ¬ entry.Archivable tree := by
      intro harchivable
      obtain ⟨call, hcall⟩ := harchivable.calls (hlisted entry List.mem_cons_self) env (clock i)
      exact hnone call hcall
    rw [List.filter_cons_of_neg (by simpa using hrefused)]
    exact ih fun e he ↦ hlisted e (List.mem_cons_of_mem _ he)
  | @add i entry entries call calls hfirst _ ih =>
    rw [List.filter_cons_of_pos (by simpa using hfirst.archivable), List.length_cons, List.length_cons,
      ih fun e he ↦ hlisted e (List.mem_cons_of_mem _ he)]

/-- The archive that is made of a list of inputs. -/
theorem AllCalls.createArchive (h : AllCalls env tree clock 0 entries calls) (henv : env.Works level)
    (hlevel : -15 ≤ level ∧ level ≤ 22) {fuel : ℕ} {inputs : List (List UInt8)}
    (hinputs : collectInputs tree fuel inputs = some (some entries))
    (hfits : ∀ entry ∈ entries, entry.Fits tree) (hne : calls ≠ []) :
    ∃ w w', addAll env calls (burstWriterCreate ⟨[], []⟩ level) = (some (), w) ∧
      Burst.addEntries env tree clock 0 entries (burstWriterCreate ⟨[], []⟩ level) = (calls.length, w) ∧
      burstWriterFinalize w = (some (), w') ∧
      createArchive env tree clock fuel level [] inputs = some (some w'.output.bytes) := by
  have hheaders {call : AddCall} (hcall : call ∈ calls) :
      call.Admissible env level ∧ call.lfh.fields.signature = zipLocalFileHeaderSig ∧ call.HeaderFits := by
    obtain ⟨entry, hentry, j, hof⟩ := h.mem hcall
    obtain ⟨hw, -, hfit⟩ := hof.headers (hfits entry hentry)
    exact ⟨hof.admissible (hfits entry hentry) henv.compresses, hw.signature, hfit⟩
  obtain ⟨w, w', hadd, hfin⟩ := addAll_finalizes henv.bound (fun call hcall ↦ (hheaders hcall).1)
    (fun call hcall ↦ (hheaders hcall).2.1) fun call hcall ↦ (hheaders hcall).2.2
  refine ⟨w, w', hadd, h.addEntries hadd, hfin, ?_⟩
  rw [Burst.createArchive, if_neg (by omega), hinputs, Option.map_some, Option.bind_some,
    h.addEntries hadd]
  dsimp only
  rw [if_neg (by simpa using hne), hfin]

theorem AllCalls.wellMade (h : AllCalls env tree clock 0 entries calls)
    (hcrc : ∀ crc data, crc < 2 ^ 32 → env.crc32 crc data < 2 ^ 32)
    (hlisted : ∀ entry ∈ entries, entry.Listed) (hfits : ∀ entry ∈ entries, entry.Fits tree) :
    ∀ call ∈ calls, call.WellMade ∧ call.lfh.rawName ≠ paddingLfhFilename := by
  intro call hcall
  obtain ⟨entry, hentry, j, hof⟩ := h.mem hcall
  exact ⟨hof.wellMade hcrc (hlisted entry hentry) (hfits entry hentry), (hof.headers (hfits entry hentry)).2.1⟩

/-- What is not a directory is added with a call of its own. -/
theorem AllCalls.of_node (h : AllCalls env tree clock 0 entries calls)
    (hlisted : ∀ entry ∈ entries, entry.Listed) (hfits : ∀ entry ∈ entries, entry.Fits tree)
    {entry : FileListEntry} (hentry : entry ∈ entries) {node : Node} (hnode : entry.node? tree = some node) :
    ∃ call ∈ calls, call.node? = some node ∧ call.lfh.filename = entry.name := by
  have harchivable : entry.Archivable tree := .inr (by rw [hnode]; rfl)
  obtain ⟨call, hcall, j, hof⟩ := h.complete hentry fun now ↦
    harchivable.calls (hlisted entry hentry) env now
  obtain ⟨hsame, -⟩ := hof.content (hfits entry hentry)
  exact ⟨call, hcall, hsame.trans hnode, hof.filename (hfits entry hentry)⟩

end

section

variable {tree : InputTree} {fuel : ℕ} {root : List UInt8} {names : List (List UInt8)}

theorem ReadableTree.proper (h : ReadableTree tree.toFileSystem fuel root)
    (hnames : names ∈ preorder (directories tree.toFileSystem) fuel root) : names ≠ [] ∧ ProperNames names :=
  ⟨preorder_ne_nil hnames, h.properNames ((mem_preorder h.isTree).mp hnames)⟩

/-- The list that is made of a directory. -/
theorem ReadableTree.collectInputs (h : ReadableTree tree.toFileSystem fuel root)
    (hroot : isDirectory tree root = true)
    (hnames : names ∈ preorder (directories tree.toFileSystem) fuel root) :
    collectInputs tree fuel [root] = some (some ((preorder (directories tree.toFileSystem) fuel root).map
      (archiveEntry tree.toFileSystem root))) := by
  have hentries : (preorder (directories tree.toFileSystem) fuel root).map
      (entryAt tree.toFileSystem root []) =
        (preorder (directories tree.toFileSystem) fuel root).map (archiveEntry tree.toFileSystem root) := by
    apply List.map_congr_left
    intro path hpath
    exact entryAt_root (h.proper hpath).1 (h.proper hpath).2 root
  have hne : ¬((0 : ℤ) ≠ 0 ∨ (preorder (directories tree.toFileSystem) fuel root).map
      (archiveEntry tree.toFileSystem root) = []) := by
    rintro (hrc | hnil)
    · exact hrc rfl
    · rw [List.map_eq_nil_iff.mp hnil] at hnames
      cases hnames
  rw [Burst.collectInputs, if_pos hroot, if_neg (by simp), collectFilesRecursive_eq h, hentries,
    List.nil_append]
  dsimp only
  rw [if_neg hne]

theorem ReadableTree.listed (h : ReadableTree tree.toFileSystem fuel root)
    (hnames : names ∈ preorder (directories tree.toFileSystem) fuel root) :
    (archiveEntry tree.toFileSystem root names).Listed :=
  ⟨rfl, (archiveEntry_slashes (h.proper hnames).1 (h.proper hnames).2).1⟩

/-- No name below the root is `.` or `..`. -/
theorem isBelow_notDot {dir : List UInt8} (h : IsBelow (directories tree.toFileSystem) dir names) :
    ∀ name ∈ names, isDotName name = false := by
  induction names generalizing dir with
  | nil => cases h
  | cons name rest ih =>
    obtain ⟨hchild, hrest⟩ := h
    rw [List.forall_mem_cons]
    constructor
    · have hkept := (List.mem_filter.mp hchild).2
      simpa using hkept
    · rcases hrest with ⟨rfl, -⟩ | ⟨dir', -, hbelow⟩
      · exact List.forall_mem_nil _
      · exact ih hbelow

/-- Below a place there is something only when it is a directory. -/
theorem isBelow_directory {dir : List UInt8} {more : List (List UInt8)} (hnames : names ≠ []) (hmore : more ≠ [])
    (h : IsBelow (directories tree.toFileSystem) dir (names ++ more)) :
    (tree.lstat (names.foldl fullPath dir)).any fun st ↦ isDir st.mode := by
  induction names generalizing dir with
  | nil => exact (hnames rfl).elim
  | cons name rest ih =>
    obtain ⟨-, ⟨hnil, -⟩ | ⟨dir', hdescend, hbelow⟩⟩ := h
    · exact (hmore (List.append_eq_nil_iff.mp hnil).2).elim
    · simp only [directories] at hdescend
      split at hdescend
      · next hdirectory =>
        obtain rfl := Option.some.inj hdescend
        by_cases hrest : rest = []
        · rw [hrest]
          exact hdirectory
        · exact ih hrest hbelow
      · cases hdescend

theorem components_of_names (hproper : ProperNames names) (hdots : ∀ name ∈ names, isDotName name = false) :
    names.filterMap (fun c ↦ if c = [] ∨ c = [46] then none else if c = [46, 46] then some .up
      else some (.name c)) = names.map Component.name := by
  induction names with
  | nil => rfl
  | cons name rest ih =>
    have hname := (hproper name List.mem_cons_self).1
    have hdot := hdots name List.mem_cons_self
    simp only [isDotName, Bool.or_eq_false_iff, decide_eq_false_iff_not] at hdot
    rw [List.filterMap_cons, if_neg (by simp [hname, hdot.1]), if_neg hdot.2, List.map_cons]
    exact congrArg _ (ih (fun n hn ↦ hproper n (List.mem_cons_of_mem _ hn))
      fun n hn ↦ hdots n (List.mem_cons_of_mem _ hn))

/-- The name of an entry leads down the names on the way to it. -/
theorem ReadableTree.components_name (h : ReadableTree tree.toFileSystem fuel root)
    (hnames : names ∈ preorder (directories tree.toFileSystem) fuel root) :
    components (archiveEntry tree.toFileSystem root names).name = names.map .name := by
  have hbelow := (mem_preorder h.isTree).mp hnames
  have hsplit := splitOn_archiveName (h.proper hnames).1 (h.proper hnames).2
    (archiveEntry tree.toFileSystem root names).isDirectory
  have hname : (archiveEntry tree.toFileSystem root names).name.splitOn slash =
      names ++ if (archiveEntry tree.toFileSystem root names).isDirectory then [[]] else [] := hsplit
  rw [components, hname, List.filterMap_append,
    components_of_names (h.proper hnames).2 (isBelow_notDot hbelow)]
  cases (archiveEntry tree.toFileSystem root names).isDirectory with
  | false => exact List.append_nil _
  | true => exact List.append_nil _

/-- The names of a directory tree are plain. -/
theorem ReadableTree.plainNames (h : ReadableTree tree.toFileSystem fuel root) :
    PlainNames (((preorder (directories tree.toFileSystem) fuel root).map
      (archiveEntry tree.toFileSystem root)).map fun entry ↦ entry.name) := by
  have hmap {names names' : List (List UInt8)}
      (heq : names.map Component.name = names'.map Component.name) : names = names' :=
    List.map_injective_iff.mpr (fun a b hab ↦ Component.name.inj hab) heq
  rw [List.map_map]
  constructor
  · rw [List.forall_mem_map]
    intro names hnames
    simp only [Function.comp_apply]
    rw [h.components_name hnames]
    refine ⟨fun hnil ↦ (h.proper hnames).1 (List.map_eq_nil_iff.mp hnil), fun hup ↦ ?_⟩
    obtain ⟨name, -, hname⟩ := List.mem_map.mp hup
    cases hname
  · rw [List.map_map]
    refine List.Nodup.map_on ?_ (preorder_nodup h.isTree)
    intro a ha b hb heq
    simp only [Function.comp_apply] at heq
    rw [h.components_name ha, h.components_name hb] at heq
    exact hmap heq
  · simp only [List.forall_mem_map, Function.comp_apply]
    intro a ha hleaf b hb hway
    rw [h.components_name ha, h.components_name hb] at hway ⊢
    obtain ⟨more, hmore⟩ := hway
    obtain ⟨more', rfl, -⟩ : ∃ more', b = a ++ more' ∧ more = more'.map Component.name := by
      obtain ⟨front, back, rfl, hfront, hback⟩ := List.map_eq_append_iff.mp hmore.symm
      exact ⟨back, by rw [hmap hfront], hback.symm⟩
    by_contra hne
    -- what has something below it is a directory, and its name ends with a slash
    have hmore' : more' ≠ [] := by
      rintro rfl
      exact hne (by rw [List.append_nil])
    have hdirectory := isBelow_directory (h.proper ha).1 hmore' ((mem_preorder h.isTree).mp hb)
    apply hleaf
    refine (archiveEntry_slashes (h.proper ha).1 (h.proper ha).2).1.mpr ?_
    have hpath : a.foldl fullPath root = root ++ 47 :: relativePath a := by
      rw [foldl_fullPath, relativePath_cons root (h.proper ha).1]
    rw [hpath] at hdirectory
    simp only [archiveEntry]
    cases hst : tree.lstat (root ++ 47 :: relativePath a) with
    | none =>
      rw [hst] at hdirectory
      cases hdirectory
    | some st =>
      rw [hst] at hdirectory
      exact hdirectory

end

/-- A directory tree that is archived and extracted comes back: the scan and the writer make an archive of
it and refuse only files that cannot be opened, every part of the archive is extracted without an error, and
in the end every other file below the root has its content and every symlink its target. -/
theorem directory_roundTrip {env : WriterEnv} {tree : InputTree} {level : ℤ} (henv : env.Works level)
    (hlevel : -15 ≤ level ∧ level ≤ 22) {root : List UInt8} (hroot : isDirectory tree root = true)
    {height fuel : ℕ} (htree : ReadableTree tree.toFileSystem height root) (hfuel : height ≤ fuel)
    (hfits : ∀ names, IsBelow (directories tree.toFileSystem) root names →
      (archiveEntry tree.toFileSystem root names).Fits tree)
    (hsome : ∃ names, IsBelow (directories tree.toFileSystem) root names ∧
      (archiveEntry tree.toFileSystem root names).Archivable tree) (clock : ℕ → ℤ) :
    ∃ entries calls archive w, collectInputs tree fuel [root] = some (some entries) ∧
      AllCalls env tree clock 0 entries calls ∧
      addEntries env tree clock 0 entries (burstWriterCreate ⟨[], []⟩ level) =
        ((entries.filter fun entry ↦ entry.Archivable tree).length, w) ∧
      createArchive env tree clock fuel level [] [root] = some (some archive) ∧
      ∀ (x : Extraction) (chunks : ℕ → List (List UInt8)), x.Opens env level calls archive →
        (∀ p, (x.os p).Obliges) → x.zstd.Stable →
        (∀ p < x.numParts, (chunks p).flatten = x.partBytes archive p) →
        (∀ p < x.numParts, NoCutDescriptor (x.env p) (partProcessorCreate []) (chunks p)) →
        (∀ p < x.numParts, (x.extracted chunks p).isSome) ∧
        ∀ history, x.Completes chunks history → ∀ base fresh before, FileTree.NoLinkBelow before base →
          (∃ t, TreeAfter x.outputDir base fresh before (history.map Prod.snd) t) ∧
          ∀ t, TreeAfter x.outputDir base fresh before (history.map Prod.snd) t →
            ∀ names, IsBelow (directories tree.toFileSystem) root names → ∀ node,
              (archiveEntry tree.toFileSystem root names).node? tree = some node →
              (t (base ++ names)).map Inode.node = some node := by
  have hreadable := htree.mono hfuel
  have hmem {names : List (List UInt8)} (hbelow : IsBelow (directories tree.toFileSystem) root names) :
      names ∈ preorder (directories tree.toFileSystem) fuel root := (mem_preorder hreadable.isTree).mpr hbelow
  obtain ⟨names, hbelow, harchivable⟩ := hsome
  have hinputs := hreadable.collectInputs hroot (hmem hbelow)
  have hlisted : ∀ entry ∈ (preorder (directories tree.toFileSystem) fuel root).map
      (archiveEntry tree.toFileSystem root), entry.Listed := by
    rw [List.forall_mem_map]
    exact fun path hpath ↦ hreadable.listed hpath
  have hfitsAll : ∀ entry ∈ (preorder (directories tree.toFileSystem) fuel root).map
      (archiveEntry tree.toFileSystem root), entry.Fits tree := by
    rw [List.forall_mem_map]
    exact fun path hpath ↦ hfits path ((mem_preorder hreadable.isTree).mp hpath)
  obtain ⟨calls, hcalls⟩ := allCalls_exists env tree clock 0
    ((preorder (directories tree.toFileSystem) fuel root).map (archiveEntry tree.toFileSystem root))
  have hne : calls ≠ [] := by
    obtain ⟨call, hcall, -⟩ := hcalls.complete (List.mem_map_of_mem (hmem hbelow))
      fun now ↦ harchivable.calls (hreadable.listed (hmem hbelow)) env now
    exact List.ne_nil_of_mem hcall
  obtain ⟨w, w', hadd, hadded, hfin, hcreate⟩ := hcalls.createArchive henv hlevel hinputs hfitsAll hne
  rw [hcalls.length hlisted] at hadded
  refine ⟨_, calls, _, w, hinputs, hcalls, hadded, hcreate, ?_⟩
  intro x chunks hopens hos hz hchunks hcut
  have hknows := knows_of_opens henv.bound henv.crc32 (hcalls.wellMade henv.crc32 hlisted hfitsAll)
    (hreadable.plainNames.sublist (hcalls.names hfitsAll)) hadd hfin hopens
  refine ⟨hknows.isSome hos hz hchunks hcut, ?_⟩
  intro history hdone base fresh before hbefore
  obtain ⟨hexists, hnodes⟩ := (hdone.restores hknows hos hz hchunks hcut).tree hknows
    hdone.workersComplete.stems base fresh before hbefore
  refine ⟨hexists, fun t ht names hbelow node hnode ↦ ?_⟩
  obtain ⟨call, hcall, hsame, hname⟩ :=
    hcalls.of_node hlisted hfitsAll (List.mem_map_of_mem (hmem hbelow)) hnode
  have hplace : placeOf base call.lfh.filename = base ++ names := by
    rw [placeOf, placeNames, hname, hreadable.components_name (hmem hbelow), List.filterMap_map]
    congr 1
    exact List.filterMap_some
  rw [← hplace]
  exact hnodes t ht call hcall node hsame

/-- The directory `r` of the sample scan, in which the file `a` has three bytes. -/
def sampleTree : InputTree where
  toFileSystem := sampleFileSystem
  stat path := if path = [114] then some ⟨0o40755, 0, 0, 0, 0⟩ else none
  fopen path := if path = [114, 47, 97] then some ⟨[104, 105, 10], none, true⟩ else none

def treeEntries : List FileListEntry :=
  [archiveEntry sampleFileSystem [114] [[100]], archiveEntry sampleFileSystem [114] [[100], [108]],
    archiveEntry sampleFileSystem [114] [[97]]]

def treeCalls : List AddCall :=
  [.directory (headerFor (dosDatetimeFromTimeT rawEnv 0) zipVersionStore 0 zipMethodStore 0 0 [100, 47] 0 0)
      0o40755 0 0,
    .symlink (buildSymlinkLocalFileHeader rawEnv 0 [100, 47, 108] [46, 46, 47, 97] 0 0) [46, 46, 47, 97]
      0o120777 0 0,
    .file ⟨[104, 105, 10], none, true⟩ (buildLocalFileHeader rawEnv 0 [97] false 0 0) 0o100644 0 0]

theorem treeEntries_allCalls : AllCalls rawEnv sampleTree (fun _ ↦ 0) 0 treeEntries treeCalls :=
  .add (.directory rfl rfl) (.add (.symlink rfl rfl) (.add (.file rfl rfl rfl) (.nil _)))

def treeArchive : List UInt8 :=
  ((createArchive rawEnv sampleTree (fun _ ↦ 0) 2 3 [] [[114]]).join).getD []

/-- Its extraction to `out`. -/
def treeExtraction : Extraction where
  os _ := obligingOs
  zstd := rawZstd
  cdResult := (centralDirParse treeArchive treeArchive.length burstPartSize).toOption.getD
    ⟨[], [], 0, 0, false⟩
  outputDir := [111, 117, 116]
  partSize := burstPartSize

theorem treeArchive_length : treeArchive.length = 468 := by decide +kernel

theorem treeArchive_opens : treeExtraction.Opens rawEnv 3 treeCalls treeArchive := by
  have hlength := treeArchive_length
  constructor
  case frames => exact rawZstd_framesDecode 3
  case markers =>
    have hvalues : ∀ e ∈ recordedAll rawEnv 3 0 treeCalls, e.uncompressedSize ≠ 0xFFFFFFFF ∧
        (e.compressedSize = 0xFFFFFFFF → 0xFFFFFFFF < e.uncompressedSize ∧
          e.localHeaderOffset ≤ 0xFFFFFFFF) := by decide +kernel
    exact hvalues
  case partSize => exact dvd_rfl
  case partSize_pos => decide
  case size =>
    rw [hlength]
    decide
  case fewParts =>
    rw [hlength]
    decide
  case parsed =>
    refine ⟨0, Nat.zero_le _, ?_⟩
    simp only [List.drop_zero, treeExtraction]
    apply centralDirParse_toOption
    decide +kernel
  case continues =>
    intro s hs p hcross
    exact (hcross.false_of_onePart hs (by decide +kernel)).elim

theorem treeEntries_fit : ∀ entry ∈ treeEntries, entry.Fits sampleTree := by
  have hopened : ∀ path input, sampleTree.fopen path = some input → input = ⟨[104, 105, 10], none, true⟩ := by
    intro path input hinput
    simp only [sampleTree] at hinput
    split at hinput
    · exact (Option.some.inj hinput).symm
    · cases hinput
  intro entry hentry
  have hvalues : ∀ entry ∈ treeEntries, (∀ b ∈ entry.name, b ≠ 0) ∧ entry.name ≠ paddingLfhFilename ∧
      entry.name.length + (entry.target.getD []).length + 113 ≤ 65579 ∧ entry.stat.uid < 2 ^ 32 ∧
      entry.stat.gid < 2 ^ 32 ∧ (isLnk entry.stat.mode = true → entry.target.getD [] ≠ [] ∧
        ∀ b ∈ entry.target.getD [], b ≠ 0) ∧
        (entry.stat.size = 0 → sampleTree.fopen entry.path = none) := by
    decide +kernel
  obtain ⟨hnul, hpadding, hshort, huid, hgid, htarget, hempty⟩ := hvalues entry hentry
  refine ⟨hnul, hpadding, hshort, huid, hgid, htarget, ?_⟩
  intro input hinput
  obtain rfl := hopened _ _ hinput
  refine ⟨rfl, rfl, by decide, ?_⟩
  intro hsize
  rw [hempty hsize] at hinput
  cases hinput

theorem sampleTree_roundTrip : ∃ history t,
    treeExtraction.Completes (fun _ ↦ [treeArchive.take 50, treeArchive.drop 50]) history ∧
      TreeAfter [111, 117, 116] [[111, 117, 116]] ⟨0o644, 0, 0⟩ emptyTree (history.map Prod.snd) t ∧
      (t [[111, 117, 116], [97]]).map Inode.node = some (.file [104, 105, 10]) ∧
      (t [[111, 117, 116], [100], [108]]).map Inode.node = some (.symlink [46, 46, 47, 97]) := by
  have hnames : preorder (directories sampleTree.toFileSystem) 2 [114] =
      [[[100]], [[100], [108]], [[97]]] := by decide +kernel
  have hbelow (names) : names ∈ [[[100]], [[100], [108]], [[97]]] ↔
      IsBelow (directories sampleTree.toFileSystem) [114] names := by
    rw [← hnames]
    exact mem_preorder sampleFileSystem_readable.isTree
  obtain ⟨entries, calls, archive, w, hentries, hcalls, -, hcreate, hround⟩ :=
    @directory_roundTrip rawEnv sampleTree 3
    ⟨rawEnv_framesBounded 3, fun _ ↦ rfl, fun _ data hcrc ↦ Crc32.crc32_lt hcrc data⟩ (by decide) [114] rfl
    2 2 sampleFileSystem_readable le_rfl (by
      intro names hnames
      apply treeEntries_fit
      exact List.mem_map_of_mem ((hbelow names).mpr hnames))
    ⟨[[97]], (hbelow _).mp (by decide), .inr rfl⟩ (fun _ ↦ 0)
  have hscan : collectInputs sampleTree 2 [[114]] = some (some treeEntries) := by decide +kernel
  obtain rfl : entries = treeEntries := by simpa [hentries] using hscan
  obtain rfl := hcalls.unique treeEntries_allCalls
  have harchive : archive = treeArchive := by rw [treeArchive, hcreate, Option.join_some, Option.getD_some]
  rw [harchive] at hround
  have hparts : treeExtraction.numParts = 1 := by decide +kernel
  have hbytes : treeExtraction.partBytes treeArchive 0 = treeArchive := by
    apply Extraction.partBytes_of_onePart
    rw [treeArchive_length]
    decide
  obtain ⟨hall, htree⟩ := hround treeExtraction (fun _ ↦ [treeArchive.take 50, treeArchive.drop 50])
    treeArchive_opens (fun _ ↦ obligingOs_obliges) rawZstd_stable (by
      intro p hp
      obtain rfl : p = 0 := by omega
      rw [hbytes]
      simp) (by
      intro p hp
      obtain rfl : p = 0 := by omega
      exact feedCutsNone_sound (by decide +kernel))
  obtain ⟨history, hdone⟩ := Extraction.completes_exists hall
  obtain ⟨⟨t, ht⟩, hnodes⟩ := htree history hdone [[111, 117, 116]] ⟨0o644, 0, 0⟩ emptyTree
    (emptyTree_noLink _)
  refine ⟨history, t, hdone, ht, ?_, ?_⟩
  · exact hnodes t ht [[97]] ((hbelow _).mp (by decide)) _ rfl
  · exact hnodes t ht [[100], [108]] ((hbelow _).mp (by decide)) _ rfl

end Burst
