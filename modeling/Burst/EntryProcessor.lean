import Burst.DirectoryScan
import Burst.FileOps
import Burst.BodyGrammar
import Burst.LayoutRefinement

namespace Burst

open Tiling LittleEndian

/-- The file system that an archive is made from. -/
structure InputTree extends FileSystem where
  stat : List UInt8 → Option FileStat
  fopen : List UInt8 → Option InputFile

/-- A header for a name, followed by the unix extra field. -/
def headerFor (modified : ℕ × ℕ) (versionNeeded flags compressionMethod crc32 size : ℕ)
    (name : List UInt8) (uid gid : ℕ) : LocalFileHeader where
  fields := {
    signature := zipLocalFileHeaderSig
    versionNeeded := versionNeeded
    flags := flags
    compressionMethod := compressionMethod
    lastModTime := modified.1
    lastModDate := modified.2
    crc32 := crc32
    compressedSize := size
    uncompressedSize := size
    filenameLength := name.length % 2 ^ 16
    extraFieldLength := (buildUnixExtraField 16 uid gid).length % 2 ^ 16 }
  tail := name ++ buildUnixExtraField 16 uid gid

/-- The size of an empty file is known before it is read, so no data descriptor is needed. -/
def buildLocalFileHeader (env : WriterEnv) (now : ℤ) (filename : List UInt8) (isEmpty : Bool)
    (uid gid : ℕ) : LocalFileHeader :=
  if isEmpty then
    headerFor (dosDatetimeFromTimeT env now) zipVersionStore 0 zipMethodStore 0 0 filename uid gid
  else
    headerFor (dosDatetimeFromTimeT env now) zipVersionZstd zipFlagDataDescriptor zipMethodZstd 0 0 filename
      uid gid

def buildSymlinkLocalFileHeader (env : WriterEnv) (now : ℤ) (filename target : List UInt8)
    (uid gid : ℕ) : LocalFileHeader :=
  headerFor (dosDatetimeFromTimeT env now) zipVersionStore 0 zipMethodStore (env.crc32 0 target)
    (target.length % 2 ^ 32) filename uid gid

def buildDirectoryLocalFileHeader (env : WriterEnv) (dirname : List UInt8) (uid gid : ℕ) (mtime : ℤ) :
    Option LocalFileHeader :=
  if dirname.length = 0 ∨ dirname.getLast? ≠ some slash then none
  else some (headerFor (dosDatetimeFromTimeT env mtime) zipVersionStore 0 zipMethodStore 0 0 dirname uid gid)

/-- `process_entry`, which fails when it returns 0; `now` is the time that it sees. -/
def processEntry (env : WriterEnv) (tree : InputTree) (now : ℤ) (entry : FileListEntry) : WriterM Unit :=
  let st := entry.stat
  if entry.isDirectory then
    match buildDirectoryLocalFileHeader env entry.name st.uid st.gid st.mtime with
    | none => WriterM.fail
    | some lfh => burstWriterAddDirectory env lfh st.mode st.uid st.gid
  else if isLnk st.mode then
    let target := entry.target.getD []
    burstWriterAddSymlink env (buildSymlinkLocalFileHeader env now entry.name target st.uid st.gid) target
      st.mode st.uid st.gid
  else
    match tree.fopen entry.path with
    | none => WriterM.fail
    | some input =>
      burstWriterAddFile env input
        (buildLocalFileHeader env now entry.name (decide (st.size = 0)) st.uid st.gid) st.mode st.uid st.gid

/-- The loop of `main` over the list, and how many entries have been added; `clock i` is the time at which
entry `i` is processed. -/
def addEntries (env : WriterEnv) (tree : InputTree) (clock : ℕ → ℤ) :
    ℕ → List FileListEntry → BurstWriter → ℕ × BurstWriter
  | _, [], w => (0, w)
  | i, entry :: entries, w =>
    let (added, w) := processEntry env tree (clock i) entry w
    let (numAdded, w) := addEntries env tree clock (i + 1) entries w
    (if added.isSome then numAdded + 1 else numAdded, w)

/-- The name of a file without the directories before it. -/
def basename (path : List UInt8) : List UInt8 := (path.reverse.takeWhile (· ≠ slash)).reverse

/-- The loop of `main` over files that are given one by one; `none` is an error. -/
def addInputs (tree : InputTree) : List (List UInt8) → List FileListEntry → Option (List FileListEntry)
  | [], list => some list
  | path :: paths, list =>
    match tree.lstat path with
    | none => none
    | some st =>
      if isDir st.mode then none
      else if isLnk st.mode then
        match tree.readlink path with
        | none => none
        | some target => addInputs tree paths
            (fileListAdd list ⟨path, basename path, st, some (target.take (pathMax - 1)), false⟩)
      else if isReg st.mode then
        addInputs tree paths (fileListAdd list ⟨path, basename path, st, none, false⟩)
      else addInputs tree paths list

def isDirectory (tree : InputTree) (path : List UInt8) : Bool :=
  (tree.stat path).any fun st ↦ isDir st.mode

/-- The list of what is to be archived; `some none` is an error, `none` a scan that has not ended. -/
def collectInputs (tree : InputTree) (fuel : ℕ) :
    List (List UInt8) → Option (Option (List FileListEntry))
  | [] => some none
  | first :: others =>
    if isDirectory tree first then
      if others ≠ [] then some none
      else
        match collectFilesRecursive tree.toFileSystem fuel [] first [] with
        | none => none
        | some (rc, list) => some (if rc ≠ 0 ∨ list = [] then none else some list)
    else some ((addInputs tree (first :: others) []).filter fun list ↦ list ≠ [])

/-- `main` after its options have been read: the archive, unless it exits with an error. -/
def createArchive (env : WriterEnv) (tree : InputTree) (clock : ℕ → ℤ) (fuel : ℕ) (level : ℤ)
    (limits : List ℕ) (inputs : List (List UInt8)) : Option (Option (List UInt8)) :=
  if level < -15 ∨ 22 < level then some none
  else
    (collectInputs tree fuel inputs).map fun list ↦ list.bind fun list ↦
      let (numAdded, w) := addEntries env tree clock 0 list (burstWriterCreate ⟨[], limits⟩ level)
      if numAdded = 0 then none
      else
        match burstWriterFinalize w with
        | (none, _) => none
        | (some _, w) => some w.output.bytes

section

variable {modified : ℕ × ℕ} {versionNeeded flags compressionMethod crc32 size uid gid : ℕ}
  {name : List UInt8}

theorem buildUnixExtraField_length_lfh (uid gid : ℕ) : (buildUnixExtraField 16 uid gid).length = 15 := by
  simp [buildUnixExtraField]

theorem headerFor_len : (headerFor modified versionNeeded flags compressionMethod crc32 size name uid
    gid).len = 45 + name.length := by
  rw [LocalFileHeader.len, headerFor, List.length_append, buildUnixExtraField_length_lfh]
  omega

theorem headerFor_wellFormed (hname : name.length < 2 ^ 16) :
    (headerFor modified versionNeeded flags compressionMethod crc32 size name uid gid).WellFormed where
  signature := rfl
  tail_length := by
    simp only [headerFor, List.length_append, buildUnixExtraField_length_lfh, Nat.mod_eq_of_lt hname]
    rfl
  filenameLength_lt := Nat.mod_lt _ (by norm_num)
  extraFieldLength_lt := Nat.mod_lt _ (by norm_num)

theorem headerFor_rawName (hname : name.length < 2 ^ 16) :
    (headerFor modified versionNeeded flags compressionMethod crc32 size name uid gid).rawName = name := by
  simp only [LocalFileHeader.rawName, headerFor, Nat.mod_eq_of_lt hname]
  exact List.take_left' rfl

theorem headerFor_filename (hname : name.length < 2 ^ 16) (hnul : ∀ b ∈ name, b ≠ 0) :
    (headerFor modified versionNeeded flags compressionMethod crc32 size name uid gid).filename = name := by
  have hraw := @headerFor_rawName modified versionNeeded flags compressionMethod crc32 size uid gid name hname
  rw [LocalFileHeader.rawName] at hraw
  rw [LocalFileHeader.filename, hraw, List.takeWhile_eq_self_iff]
  intro b hb
  simpa using hnul b hb

end

/-- What is added for an entry of the list, unless its file cannot be opened. -/
inductive FileListEntry.Calls (env : WriterEnv) (tree : InputTree) (now : ℤ) (entry : FileListEntry) :
    AddCall → Prop where
  | directory {lfh : LocalFileHeader} (isDirectory : entry.isDirectory = true)
    (built : buildDirectoryLocalFileHeader env entry.name entry.stat.uid entry.stat.gid entry.stat.mtime =
      some lfh) : Calls env tree now entry (.directory lfh entry.stat.mode entry.stat.uid entry.stat.gid)
  | symlink (other : entry.isDirectory = false) (link : isLnk entry.stat.mode = true) :
    Calls env tree now entry (.symlink
      (buildSymlinkLocalFileHeader env now entry.name (entry.target.getD []) entry.stat.uid entry.stat.gid)
      (entry.target.getD []) entry.stat.mode entry.stat.uid entry.stat.gid)
  | file {input : InputFile} (other : entry.isDirectory = false) (regular : isLnk entry.stat.mode = false)
    (opened : tree.fopen entry.path = some input) :
    Calls env tree now entry (.file input
      (buildLocalFileHeader env now entry.name (decide (entry.stat.size = 0)) entry.stat.uid entry.stat.gid)
      entry.stat.mode entry.stat.uid entry.stat.gid)

/-- Processing an entry makes the one call for it, or fails and leaves the writer as it is. -/
theorem processEntry_calls (env : WriterEnv) (tree : InputTree) (now : ℤ) (entry : FileListEntry) :
    (processEntry env tree now entry = WriterM.fail ∧ ∀ call, ¬ entry.Calls env tree now call) ∨
      ∃ call, entry.Calls env tree now call ∧ processEntry env tree now entry = call.run env := by
  rw [processEntry]
  split
  · next hdirectory =>
    split
    · next hnone =>
      refine .inl ⟨rfl, fun call hcall ↦ ?_⟩
      cases hcall with
      | directory _ hbuilt =>
        rw [hnone] at hbuilt
        cases hbuilt
      | symlink hother => simp [hdirectory] at hother
      | file hother => simp [hdirectory] at hother
    · next lfh hbuilt => exact .inr ⟨_, .directory hdirectory hbuilt, rfl⟩
  · next hdirectory =>
    have hother : entry.isDirectory = false := Bool.eq_false_iff.mpr hdirectory
    split
    · next hlink => exact .inr ⟨_, .symlink hother hlink, rfl⟩
    · next hlink =>
      have hregular : isLnk entry.stat.mode = false := Bool.eq_false_iff.mpr hlink
      split
      · next hnone =>
        refine .inl ⟨rfl, fun call hcall ↦ ?_⟩
        cases hcall with
        | directory hdirectory' => exact hdirectory hdirectory'
        | symlink _ hlink' => exact hlink hlink'
        | file _ _ hopened =>
          rw [hnone] at hopened
          cases hopened
      · next input hopened => exact .inr ⟨_, .file hother hregular hopened, rfl⟩

theorem FileListEntry.Calls.unique {env : WriterEnv} {tree : InputTree} {now : ℤ} {entry : FileListEntry}
    {call call' : AddCall} (h : entry.Calls env tree now call) (h' : entry.Calls env tree now call') :
    call = call' := by
  cases h with
  | directory hdirectory hbuilt =>
    cases h' with
    | directory _ hbuilt' => rw [Option.some.inj (hbuilt.symm.trans hbuilt')]
    | symlink hother => simp [hdirectory] at hother
    | file hother => simp [hdirectory] at hother
  | symlink hother hlink =>
    cases h' with
    | directory hdirectory => simp [hother] at hdirectory
    | symlink => rfl
    | file _ hregular => simp [hlink] at hregular
  | file hother hregular hopened =>
    cases h' with
    | directory hdirectory => simp [hother] at hdirectory
    | symlink _ hlink => simp [hregular] at hlink
    | file _ _ hopened' => rw [Option.some.inj (hopened.symm.trans hopened')]

theorem processEntry_eq_fail {env : WriterEnv} {tree : InputTree} {now : ℤ} {entry : FileListEntry}
    (h : ∀ call, ¬ entry.Calls env tree now call) : processEntry env tree now entry = WriterM.fail := by
  rcases processEntry_calls env tree now entry with ⟨hfails, -⟩ | ⟨call, hcall, -⟩
  · exact hfails
  · exact (h call hcall).elim

theorem FileListEntry.Calls.processEntry_eq {env : WriterEnv} {tree : InputTree} {now : ℤ}
    {entry : FileListEntry} {call : AddCall} (h : entry.Calls env tree now call) :
    processEntry env tree now entry = call.run env := by
  rcases processEntry_calls env tree now entry with ⟨-, hnone⟩ | ⟨call', hcall', hruns⟩
  · exact (hnone call h).elim
  · rw [hruns, h.unique hcall']

/-- The calls that the entries of the list come to, one after another. -/
inductive AllCalls (env : WriterEnv) (tree : InputTree) (clock : ℕ → ℤ) :
    ℕ → List FileListEntry → List AddCall → Prop where
  | nil (i : ℕ) : AllCalls env tree clock i [] []
  | skip {i : ℕ} {entry : FileListEntry} {entries : List FileListEntry} {calls : List AddCall}
    (none : ∀ call, ¬ entry.Calls env tree (clock i) call) :
    AllCalls env tree clock (i + 1) entries calls → AllCalls env tree clock i (entry :: entries) calls
  | add {i : ℕ} {entry : FileListEntry} {entries : List FileListEntry} {call : AddCall}
    {calls : List AddCall} (first : entry.Calls env tree (clock i) call) :
    AllCalls env tree clock (i + 1) entries calls →
      AllCalls env tree clock i (entry :: entries) (call :: calls)

theorem allCalls_exists (env : WriterEnv) (tree : InputTree) (clock : ℕ → ℤ) (i : ℕ)
    (entries : List FileListEntry) : ∃ calls, AllCalls env tree clock i entries calls := by
  induction entries generalizing i with
  | nil => exact ⟨[], .nil i⟩
  | cons entry entries ih =>
    obtain ⟨calls, hcalls⟩ := ih (i + 1)
    by_cases hnone : ∀ call, ¬ entry.Calls env tree (clock i) call
    · exact ⟨calls, .skip hnone hcalls⟩
    · push Not at hnone
      obtain ⟨call, hcall⟩ := hnone
      exact ⟨call :: calls, .add hcall hcalls⟩

section

variable {env : WriterEnv} {tree : InputTree} {clock : ℕ → ℤ} {i : ℕ} {entries : List FileListEntry}
  {calls : List AddCall}

/-- When the calls all succeed, the loop adds an entry with each of them. -/
theorem AllCalls.addEntries (h : AllCalls env tree clock i entries calls) {w w' : BurstWriter}
    (hadd : addAll env calls w = (some (), w')) :
    addEntries env tree clock i entries w = (calls.length, w') := by
  induction h generalizing w with
  | nil =>
    cases hadd
    rfl
  | skip hnone _ ih =>
    rw [Burst.addEntries, processEntry_eq_fail hnone, WriterM.fail]
    simp only [ih hadd]
    rfl
  | add hfirst _ ih =>
    obtain ⟨_, w₁, hrun, hrest⟩ := WriterM.bind_ok.mp hadd
    rw [Burst.addEntries, hfirst.processEntry_eq, hrun]
    simp only [ih hrest]
    rfl

theorem AllCalls.mem (h : AllCalls env tree clock i entries calls) {call : AddCall} (hcall : call ∈ calls) :
    ∃ entry ∈ entries, ∃ j, entry.Calls env tree (clock j) call := by
  induction h with
  | nil => cases hcall
  | skip _ _ ih =>
    obtain ⟨entry, hentry, hmem⟩ := ih hcall
    exact ⟨entry, List.mem_cons_of_mem _ hentry, hmem⟩
  | @add i entry entries first calls hfirst _ ih =>
    rcases List.mem_cons.mp hcall with rfl | hlater
    · exact ⟨entry, List.mem_cons_self, i, hfirst⟩
    · obtain ⟨entry, hentry, hmem⟩ := ih hlater
      exact ⟨entry, List.mem_cons_of_mem _ hentry, hmem⟩

/-- Every entry that comes to a call has its call made. -/
theorem AllCalls.complete (h : AllCalls env tree clock i entries calls) {entry : FileListEntry}
    (hentry : entry ∈ entries) (hcalls : ∀ now, ∃ call, entry.Calls env tree now call) :
    ∃ call ∈ calls, ∃ j, entry.Calls env tree (clock j) call := by
  induction h with
  | nil => cases hentry
  | skip hnone _ ih =>
    rcases List.mem_cons.mp hentry with rfl | hlater
    · obtain ⟨call, hcall⟩ := hcalls _
      exact (hnone call hcall).elim
    · exact ih hlater
  | @add i first entries call calls hfirst _ ih =>
    rcases List.mem_cons.mp hentry with rfl | hlater
    · exact ⟨call, List.mem_cons_self, i, hfirst⟩
    · obtain ⟨call, hcall, hmem⟩ := ih hlater
      exact ⟨call, List.mem_cons_of_mem _ hcall, hmem⟩

theorem AllCalls.unique (h : AllCalls env tree clock i entries calls) {calls' : List AddCall}
    (h' : AllCalls env tree clock i entries calls') : calls = calls' := by
  induction h generalizing calls' with
  | nil =>
    cases h'
    rfl
  | skip hnone _ ih =>
    cases h' with
    | skip _ hrest => exact ih hrest
    | add hfirst => exact (hnone _ hfirst).elim
  | add hfirst _ ih =>
    cases h' with
    | skip hnone => exact (hnone _ hfirst).elim
    | add hfirst' hrest => rw [hfirst.unique hfirst', ih hrest]

end

end Burst
