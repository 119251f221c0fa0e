import Burst.EntryProcessor
import Burst.PartMapArrays
import Burst.RestoredStatus

namespace Burst

open PathResolution LittleEndian Incremental Interleaving

/-- The permission bits of the directory at a place that a system call sets. -/
def FileOp.directoryMode (place : List (Component Path)) (mode : Option ℕ) : FileOp → Option ℕ
  | chmod path m => if components path = place then some m else mode
  | _ => mode

/-- The permission bits of the file at a place that a system call sets. -/
def FileOp.fileMode (place : List (Component Path)) (mode : Option ℕ) : FileOp → Option ℕ
  | fchmod path m => if components path = place then some m else mode
  | _ => mode

/-- The system call makes a name at a place. -/
def FileOp.Makes (place : List (Component Path)) : FileOp → Prop
  | mkdir path _ => components path = place
  | openFile path => components path = place
  | symlink _ path => components path = place
  | _ => False

instance (place : List (Component Path)) : DecidablePred (FileOp.Makes place)
  | .mkdir path _ => inferInstanceAs (Decidable (components path = place))
  | .openFile path => inferInstanceAs (Decidable (components path = place))
  | .symlink _ path => inferInstanceAs (Decidable (components path = place))
  | .chmod _ _ => isFalse id
  | .chown _ _ _ => isFalse id
  | .encodedWrite _ _ _ _ => isFalse id
  | .pwrite _ _ _ => isFalse id
  | .ftruncate _ _ => isFalse id
  | .fchmod _ _ => isFalse id
  | .fchown _ _ _ => isFalse id
  | .close _ => isFalse id
  | .unlink _ => isFalse id
  | .lchown _ _ _ => isFalse id

/-- There is something at the place that has been made. -/
def Made (done : List FileOp) (place : List (Component Path)) : Prop := ∃ op ∈ done, op.Makes place

instance (done : List FileOp) (place : List (Component Path)) : Decidable (Made done place) :=
  inferInstanceAs (Decidable (∃ op ∈ done, op.Makes place))

/-- The permission bits that a directory has been given last do not let its owner search it, and the place
is below it. -/
def Unsearchable (done : List FileOp) (place : List (Component Path)) : Prop :=
  ∃ dir mode, dir <+: place ∧ dir ≠ place ∧ done.foldl (FileOp.directoryMode dir) none = some mode ∧
    mode.testBit 6 = false

/-- The permission bits that the directory of the place has been given last do not let its owner write to
it. -/
def DirectoryUnwritable (done : List FileOp) (place : List (Component Path)) : Prop :=
  ∃ mode, done.foldl (FileOp.directoryMode place.dropLast) none = some mode ∧ mode.testBit 7 = false

/-- The permission bits that the file at the place has been given last do not let its owner write to it. -/
def FileUnwritable (done : List FileOp) (place : List (Component Path)) : Prop :=
  ∃ mode, done.foldl (FileOp.fileMode place) none = some mode ∧ mode.testBit 7 = false

/-- The system call fails for the owner of everything that has been made, because of permission bits that
have been set by the calls which have succeeded before: what is above the place has to be searched, to make
something new there its directory has to be written to, and to open a file that is there the file. A place
is told by the components of the paths that lead to it. -/
def Denied (done : List FileOp) : FileOp → Prop
  | .mkdir path _ => Unsearchable done (components path) ∨
      ¬ Made done (components path) ∧ DirectoryUnwritable done (components path)
  | .symlink _ path => Unsearchable done (components path) ∨ DirectoryUnwritable done (components path)
  | .openFile path => Unsearchable done (components path) ∨
      ¬ Made done (components path) ∧ DirectoryUnwritable done (components path) ∨
      Made done (components path) ∧ FileUnwritable done (components path)
  | _ => False

/-- The system call gives something away. -/
def FileOp.ChangesOwner : FileOp → Prop
  | chown _ _ _ => True
  | fchown _ _ _ => True
  | lchown _ _ _ => True
  | _ => False

/-- Who is not root gives nothing away. -/
theorem FileOp.StemsFrom.keepsOwner {env : ProcessorEnv} {opened : List FileMetadata} {op : FileOp}
    (h : op.StemsFrom env opened) (huser : env.os.isRoot = false) : ¬ op.ChangesOwner := by
  have hfalse (hroot : env.os.isRoot = true) : False := by
    rw [huser] at hroot
    cases hroot
  intro hchanges
  cases op with
  | chown =>
    obtain ⟨_, _, _, _, _, hroot, _⟩ := h
    exact hfalse hroot
  | fchown =>
    obtain ⟨_, _, _, _, _, hroot, _⟩ := h
    exact hfalse hroot
  | lchown =>
    obtain ⟨_, _, _, _, _, hroot, _⟩ := h
    exact hfalse hroot
  | _ => exact hchanges

section Run

variable {env : ProcessorEnv} {opened : List FileMetadata} {file : Option FileContext} {ops : List FileOp}

/-- A file is opened at most as often as its entry. -/
theorem FileRun.count_openFile (h : FileRun env opened file ops) {fileMeta : FileMetadata}
    (hunique : ∀ e ∈ env.cdResult.files, env.filePath e = env.filePath fileMeta → e = fileMeta) :
    ops.count (.openFile (env.filePath fileMeta)) ≤ opened.count fileMeta := by
  have hnone {ops : List FileOp} (h : ∀ op ∈ ops, ∀ path, op ≠ .openFile path) :
      ops.count (.openFile (env.filePath fileMeta)) = 0 :=
    List.count_eq_zero.mpr fun hmem ↦ h _ hmem _ rfl
  induction h with
  | start => simp
  | parent _ _ _ ih => simpa using ih
  | @opens opened ops e f made _ hlisted hopening ih =>
    rw [List.count_append, List.count_append]
    apply Nat.add_le_add ih
    cases hopening with
    | directory =>
      rw [hnone]
      · exact Nat.zero_le _
      · intro op hop path
        simp only [restoreDirectoryOps, List.mem_cons, List.mem_append] at hop
        rcases hop with rfl | hmode | hown
        · simp
        · split at hmode
          · rw [List.mem_singleton.mp hmode]
            simp
          · cases hmode
        · split at hown
          · rw [List.mem_singleton.mp hown]
            simp
          · cases hown
    | symlink => simp
    | regular =>
      by_cases hpath : env.filePath e = env.filePath fileMeta
      · rw [hunique e hlisted hpath]
        simp
      · simp [hpath]
  | moves _ _ ih => exact ih
  | reads _ _ _ ih => exact ih
  | encodedWrite _ _ _ _ _ ih => simpa using ih
  | pwrite _ _ _ _ ih => simpa using ih
  | @close opened f ops _ ih =>
    have hclose : (closeOps env.os f).count (.openFile (env.filePath fileMeta)) = 0 := by
      apply hnone
      intro op hop path
      cases closeOps_closing env.os f op hop <;> simp
    rw [List.count_append, hclose]
    exact ih

/-- The permission bits of a file are set after it has been opened. -/
theorem FileRun.openFile_precedes (h : FileRun env opened file ops) (path : Path) :
    Precedes ops (fun op ↦ ∃ mode, op = .fchmod path mode) (· = .openFile path) := by
  have hother {ops : List FileOp} {made : List FileOp} (hmade : ∀ op ∈ made, ∀ mode, op ≠ .fchmod path mode)
      (hops : Precedes ops (fun op ↦ ∃ mode, op = .fchmod path mode) (· = .openFile path)) :
      Precedes (ops ++ made) (fun op ↦ ∃ mode, op = .fchmod path mode) (· = .openFile path) := by
    apply hops.append_of_mem
    rintro op hop ⟨mode, rfl⟩
    exact (hmade _ hop mode rfl).elim
  induction h with
  | start => exact Precedes.nil
  | parent _ _ _ ih => exact hother (by simp) ih
  | opens _ _ hopening ih =>
    refine hother ?_ ih
    intro op hop mode
    cases hopening with
    | directory =>
      simp only [restoreDirectoryOps, List.mem_cons, List.mem_append] at hop
      rcases hop with rfl | hmode | hown
      · simp
      · split at hmode
        · rw [List.mem_singleton.mp hmode]
          simp
        · cases hmode
      · split at hown
        · rw [List.mem_singleton.mp hown]
          simp
        · cases hown
    | symlink => cases hop
    | regular =>
      rw [List.mem_singleton.mp hop]
      simp
  | moves _ _ ih => exact ih
  | reads _ _ _ ih => exact ih
  | encodedWrite _ _ _ _ _ ih => exact hother (by simp) ih
  | pwrite _ _ _ _ ih => exact hother (by simp) ih
  | close hrun ih =>
    apply ih.append_of_mem
    rintro op hop ⟨mode, rfl⟩
    cases closeOps_closing _ _ _ hop with
    | fchmod hopen hunix => exact ⟨_, hrun.openFile_mem rfl hopen, rfl⟩

theorem Attempts.count_openFile (h : Attempts env opened ops) {fileMeta : FileMetadata}
    (hunique : ∀ e ∈ env.cdResult.files, env.filePath e = env.filePath fileMeta → e = fileMeta) :
    ops.count (.openFile (env.filePath fileMeta)) ≤ opened.count fileMeta := by
  cases h with
  | run hrun => exact hrun.count_openFile hunique
  | @failed _ e _ _ hrun hlisted hfails =>
    rw [List.count_append, List.count_append]
    apply Nat.add_le_add (hrun.count_openFile hunique)
    cases hfails with
    | directory => simp
    | regular =>
      by_cases hpath : env.filePath e = env.filePath fileMeta
      · rw [hunique e hlisted hpath]
        simp
      · simp [hpath]

theorem Attempts.openFile_precedes (h : Attempts env opened ops) (path : Path) :
    Precedes ops (fun op ↦ ∃ mode, op = .fchmod path mode) (· = .openFile path) := by
  cases h with
  | run hrun => exact hrun.openFile_precedes path
  | failed hrun _ hfails =>
    apply (hrun.openFile_precedes path).append_of_mem
    rintro op hop ⟨mode, rfl⟩
    rw [← List.mem_singleton.mp hop] at hfails
    cases hfails

/-- An entry whose file is opened after its permission bits have been set has been opened before. -/
theorem Attempts.opens_twice (h : Attempts env opened ops) {fileMeta : FileMetadata}
    (hunique : ∀ e ∈ env.cdResult.files, env.filePath e = env.filePath fileMeta → e = fileMeta)
    {before : List FileOp} (hle : before ++ [.openFile (env.filePath fileMeta)] <+: ops) {mode : ℕ}
    (hmem : .fchmod (env.filePath fileMeta) mode ∈ before) : 2 ≤ opened.count fileMeta := by
  obtain ⟨rest, hops⟩ := (List.prefix_append _ _).trans hle
  have hprecedes := h.openFile_precedes (env.filePath fileMeta)
  rw [← hops] at hprecedes
  obtain ⟨front, back, hsplit⟩ := List.append_of_mem hmem
  obtain ⟨_, hfront, rfl⟩ := hprecedes.of_append front _ back hsplit ⟨_, rfl⟩
  have hfirst : 1 ≤ before.count (.openFile (env.filePath fileMeta)) := by
    rw [hsplit]
    exact List.one_le_count_iff.mpr (List.mem_append_left _ hfront)
  calc
    2 ≤ (before ++ [FileOp.openFile (env.filePath fileMeta)]).count (.openFile (env.filePath fileMeta)) := by
      rw [List.count_append, List.count_singleton_self]
      omega
    _ ≤ ops.count (FileOp.openFile (env.filePath fileMeta)) := hle.sublist.count_le _
    _ ≤ opened.count fileMeta := h.count_openFile hunique

end Run

theorem directoryMode_some {place : List (Component Path)} {history : List FileOp} {mode : ℕ}
    (h : history.foldl (FileOp.directoryMode place) none = some mode) :
    ∃ path, .chmod path mode ∈ history ∧ components path = place := by
  induction history using List.reverseRecOn with
  | nil => cases h
  | append_singleton history op ih =>
    rw [List.foldl_append] at h
    have hbefore (h : history.foldl (FileOp.directoryMode place) none = some mode) :
        ∃ path, .chmod path mode ∈ history ++ [op] ∧ components path = place := by
      obtain ⟨path, hmem, hpath⟩ := ih h
      exact ⟨path, List.mem_append_left _ hmem, hpath⟩
    cases op with
    | chmod path m =>
      simp only [List.foldl_cons, List.foldl_nil, FileOp.directoryMode] at h
      split at h
      · next hpath =>
        cases h
        exact ⟨path, List.mem_append_right _ (List.mem_singleton.mpr rfl), hpath⟩
      · exact hbefore h
    | _ => exact hbefore h

theorem fileMode_some {place : List (Component Path)} {history : List FileOp} {mode : ℕ}
    (h : history.foldl (FileOp.fileMode place) none = some mode) :
    ∃ path, .fchmod path mode ∈ history ∧ components path = place := by
  induction history using List.reverseRecOn with
  | nil => cases h
  | append_singleton history op ih =>
    rw [List.foldl_append] at h
    have hbefore (h : history.foldl (FileOp.fileMode place) none = some mode) :
        ∃ path, .fchmod path mode ∈ history ++ [op] ∧ components path = place := by
      obtain ⟨path, hmem, hpath⟩ := ih h
      exact ⟨path, List.mem_append_left _ hmem, hpath⟩
    cases op with
    | fchmod path m =>
      simp only [List.foldl_cons, List.foldl_nil, FileOp.fileMode] at h
      split at h
      · next hpath =>
        cases h
        exact ⟨path, List.mem_append_right _ (List.mem_singleton.mpr rfl), hpath⟩
      · exact hbefore h
    | _ => exact hbefore h

/-- The permission bits of the archive let its owner make what lies below its directories, and write to the
files that more than one part opens. -/
structure Extraction.LeavesAccess (x : Extraction) : Prop where
  directories : ∀ d ∈ x.cdResult.files, d.isDirectory = true → d.hasUnixMode = true →
    ∀ e ∈ x.cdResult.files, components d.filename <+: components e.filename →
      components d.filename ≠ components e.filename →
        d.unixMode.testBit 7 = true ∧ d.unixMode.testBit 6 = true
  files : ∀ e ∈ x.cdResult.files, e.IsRegular → e.hasUnixMode = true → ∀ p,
    (x.env p).continuingFile = some e → e.unixMode.testBit 7 = true

namespace Extraction

variable {x : Extraction} {archiveSize : ℕ}

/-- A part of a parsed archive lists entries that start in it, each once. -/
theorem part_entries (hcd : x.cdResult.Parsed archiveSize x.partSize) (p : ℕ) :
    ((x.env p).part.entries.map PartFileEntry.fileIndex).Nodup ∧
      ∀ entry ∈ (x.env p).part.entries, ∃ f, x.cdResult.files[entry.fileIndex]? = some f ∧
        f.partIndex = p := by
  rw [ProcessorEnv.part]
  cases hpart : x.cdResult.parts[p]? with
  | none =>
    have hnone : ((x.env p).cdResult.parts[(x.env p).partIndex]?).getD ⟨[], none⟩ = ⟨[], none⟩ := by
      have hsame : (x.env p).cdResult.parts[(x.env p).partIndex]? = none := hpart
      rw [hsame]
      rfl
    rw [hnone]
    exact ⟨List.nodup_nil, by simp⟩
  | some part =>
    obtain ⟨-, rfl⟩ := buildPartMap_some hcd.parts hpart
    have hsome : ((x.env p).cdResult.parts[(x.env p).partIndex]?).getD ⟨[], none⟩ =
        partFilesAt x.cdResult.files x.partSize p := by
      have hsame : (x.env p).cdResult.parts[(x.env p).partIndex]? = _ := hpart
      rw [hsame]
      rfl
    rw [hsome]
    have hperm := List.perm_insertionSort (fun a b : PartFileEntry ↦ a.offsetInPart ≤ b.offsetInPart)
      (partEntries x.cdResult.files x.partSize p)
    constructor
    · exact (hperm.map _).nodup_iff.mpr (partEntries_fileIndex_nodup _ _ _)
    · intro entry hentry
      obtain ⟨f, hget, hf, -⟩ := mem_partEntries.mp (hperm.mem_iff.mp hentry)
      exact ⟨f, hget, hf⟩

theorem nextFile_partIndex (hcd : x.cdResult.Parsed archiveSize x.partSize) {p i : ℕ} {f : FileMetadata}
    (h : (x.env p).nextFile i = some f) : f.partIndex = p := by
  obtain ⟨entry, hentry, hget⟩ := Option.bind_eq_some_iff.mp h
  obtain ⟨g, hg, hpart⟩ := (part_entries hcd p).2 entry (List.mem_of_getElem? hentry)
  have hsame : some g = some f := hg.symm.trans hget
  rw [← Option.some.inj hsame]
  exact hpart

/-- A processor opens an entry once, unless it is the file that goes on from the part before. -/
theorem openings_count (hcd : x.cdResult.Parsed archiveSize x.partSize)
    (hnames : (x.cdResult.files.map (·.filename)).Nodup) {p : ℕ} {f : FileMetadata}
    (hcontinuing : (x.env p).continuingFile ≠ some f) : (x.env p).openings.count f ≤ 1 := by
  have hfirst : ((x.env p).continuingFile.toList).count f = 0 := by
    apply List.count_eq_zero.mpr
    rwa [Option.mem_toList]
  rw [ProcessorEnv.openings, List.count_append, hfirst, Nat.zero_add]
  apply List.nodup_iff_count_le_one.mp
  apply List.Nodup.filterMap _ List.nodup_range
  intro i j g hi hj
  obtain ⟨entry, hentry, hget⟩ := Option.bind_eq_some_iff.mp hi
  obtain ⟨entry', hentry', hget'⟩ := Option.bind_eq_some_iff.mp hj
  obtain ⟨hindex, -⟩ := part_entries hcd p
  have hfiles : entry.fileIndex = entry'.fileIndex := by
    obtain ⟨hlt, -⟩ := List.getElem?_eq_some_iff.mp hget
    exact (List.getElem?_inj hlt (List.Nodup.of_map _ hnames)).mp (hget.trans hget'.symm)
  obtain ⟨hlt, -⟩ := List.getElem?_eq_some_iff.mp hentry
  apply (List.getElem?_inj (by rwa [List.length_map]) hindex).mp
  rw [List.getElem?_map, List.getElem?_map, hentry, hentry', Option.map_some, Option.map_some, hfiles]

theorem Interleaves.tries {history : List (ℕ × FileOp)} (h : x.Interleaves history) (p : ℕ) :
    ∃ opened ops, opened <+: (x.env p).openings ∧ Attempts (x.env p) opened ops ∧
      own p history <+: ops := by
  obtain ⟨ops, hmakes, hle⟩ := h p
  obtain ⟨opened, hopenings, hattempts⟩ := hmakes.tries
  exact ⟨opened, ops, hopenings, hattempts, hle⟩

/-- Every system call in a history has what it is made for. -/
theorem Interleaves.stemsFrom {history : List (ℕ × FileOp)} (h : x.Interleaves history) {p : ℕ}
    {op : FileOp} (hmem : (p, op) ∈ history) :
    ∃ opened, opened <+: (x.env p).openings ∧ opened ⊆ x.cdResult.files ∧ op.StemsFrom (x.env p) opened := by
  obtain ⟨opened, ops, hopenings, hattempts, hle⟩ := h.tries p
  exact ⟨opened, hopenings, hattempts.listed, hattempts.stemsFrom op (hle.subset (mem_own.mpr hmem))⟩

/-- An entry that is not the file that goes on from the part before is opened in the part in which it
starts. -/
theorem partIndex_of_opened (hcd : x.cdResult.Parsed archiveSize x.partSize) {p : ℕ} {e : FileMetadata}
    (hcontinuing : (x.env p).continuingFile ≠ some e) (h : e ∈ (x.env p).openings) : e.partIndex = p := by
  rcases List.mem_append.mp h with hfirst | hlater
  · exact (hcontinuing (Option.mem_toList.mp hfirst)).elim
  · obtain ⟨i, -, hi⟩ := List.mem_filterMap.mp hlater
    exact nextFile_partIndex hcd hi

theorem components_path (x : Extraction) (e : FileMetadata) :
    components (x.path e) = components x.outputDir ++ components e.filename := by
  have hpath : x.path e = x.outputDir ++ slash :: e.filename := by simp [path]
  rw [hpath, components_append]

/-- What is made for an entry is at its place or above it. -/
theorem parent_components (e : FileMetadata) {path : Path}
    (hpath : path ∈ directoryPaths (dirname (x.path e))) : components path <+: components (x.path e) := by
  rcases parentPaths_goesOn hpath with rfl | ⟨rest, hrest⟩
  · exact List.nil_prefix
  · rw [← hrest, components_append]
    exact List.prefix_append _ _

section Rights

variable (hplain : x.NamesPlain) (haccess : x.LeavesAccess) {history : List (ℕ × FileOp)}
  {done : List FileOp} (hdone : done.Sublist (history.map Prod.snd))
include haccess hdone

/-- The permission bits that a directory above what is made for an entry has been given let its owner write
to it and search it. -/
theorem directory_allows (h : x.Interleaves history) {e : FileMetadata} (he : e ∈ x.cdResult.files)
    {place dir : List (Component Path)} (hplace : place <+: components (x.path e)) (hdir : dir <+: place)
    (hother : dir ≠ place) {mode : ℕ} (hmode : done.foldl (FileOp.directoryMode dir) none = some mode) :
    mode.testBit 7 = true ∧ mode.testBit 6 = true := by
  obtain ⟨path, hmem, rfl⟩ := directoryMode_some hmode
  obtain ⟨⟨q, op⟩, hq, hop⟩ := List.mem_map.mp (hdone.subset hmem)
  obtain rfl : op = .chmod path mode := hop
  obtain ⟨opened, -, hlisted, d, hd, hdirectory, rfl, hunix, rfl⟩ := h.stemsFrom hq
  have habove : components (x.path d) <+: components (x.path e) := hdir.trans hplace
  have hstrict : components d.filename ≠ components e.filename := by
    intro heq
    have hsame : components (x.path d) = components (x.path e) := by
      rw [components_path, components_path, heq]
    have hle := hplace.length_le
    rw [← hsame] at hle
    exact hother (hdir.eq_of_length_le hle)
  rw [components_path, components_path, List.prefix_append_right_inj] at habove
  obtain ⟨hwrite, hsearch⟩ := haccess.directories d (hlisted hd) hdirectory hunix e he habove hstrict
  have hbits (i : ℕ) : (d.unixMode % 0o10000).testBit i = (decide (i < 12) && d.unixMode.testBit i) :=
    Nat.testBit_mod_two_pow d.unixMode 12 i
  rw [hbits, hbits, hwrite, hsearch]
  decide

/-- No permission bits keep what is made for an entry from being made. -/
theorem not_unsearchable (h : x.Interleaves history) {e : FileMetadata} (he : e ∈ x.cdResult.files)
    {place : List (Component Path)} (hplace : place <+: components (x.path e)) :
    ¬ Unsearchable done place := by
  rintro ⟨dir, mode, hdir, hother, hmode, hbit⟩
  have hallows := (directory_allows haccess hdone h he hplace hdir hother hmode).2
  rw [hbit] at hallows
  cases hallows

include hplain

theorem not_directoryUnwritable (h : x.Interleaves history) {e : FileMetadata} (he : e ∈ x.cdResult.files)
    {place : List (Component Path)} (hplace : place <+: components (x.path e)) :
    ¬ DirectoryUnwritable done place := by
  rintro ⟨mode, hmode, hbit⟩
  have hother : place.dropLast ≠ place := by
    intro hsame
    have hnil : place = [] := by
      by_contra hne
      have hlength := congrArg List.length hsame
      rw [List.length_dropLast] at hlength
      have hpos := List.length_pos_iff.mpr hne
      omega
    -- the output directory itself is given no permission bits
    obtain ⟨path, hmem, hpath⟩ := directoryMode_some hmode
    obtain ⟨⟨q, op⟩, hq, hop⟩ := List.mem_map.mp (hdone.subset hmem)
    obtain rfl : op = .chmod path mode := hop
    obtain ⟨opened, -, hlisted, d, hd, -, rfl, -⟩ := h.stemsFrom hq
    have hproper := (hplain.proper _ (List.mem_map_of_mem (hlisted hd))).1
    have hempty : components (x.path d) = [] := hpath.trans (by rw [hnil]; rfl)
    rw [components_path] at hempty
    exact hproper (List.append_eq_nil_iff.mp hempty).2
  have hallows := (directory_allows haccess hdone h he hplace (List.dropLast_prefix place) hother hmode).1
  rw [hbit] at hallows
  cases hallows

end Rights

/-- No permission bits that a file has been given keep a part from opening it. -/
theorem not_fileUnwritable (hcd : x.cdResult.Parsed archiveSize x.partSize) (hplain : x.NamesPlain)
    (haccess : x.LeavesAccess) {history : List (ℕ × FileOp)} {p : ℕ} {path : Path}
    (h : x.Interleaves (history ++ [(p, .openFile path)])) {done : List FileOp}
    (hdone : done.Sublist (history.map Prod.snd)) : ¬ FileUnwritable done (components path) := by
  rintro ⟨mode, hmode, hbit⟩
  obtain ⟨path', hmem, hplace⟩ := fileMode_some hmode
  obtain ⟨⟨q, op⟩, hq, hop⟩ := List.mem_map.mp (hdone.subset hmem)
  obtain rfl : op = .fchmod path' mode := hop
  have hlast : (p, FileOp.openFile path) ∈ history ++ [(p, .openFile path)] :=
    List.mem_append_right _ (List.mem_singleton.mpr rfl)
  obtain ⟨opened, hopenings, hlisted, e, he, hregular, rfl, hunix, rfl⟩ :=
    h.stemsFrom (List.mem_append_left _ hq)
  obtain ⟨opened', hopenings', hlisted', e', he', -, rfl⟩ := h.stemsFrom hlast
  have hsame : components (x.path e) = components (x.path e') := hplace
  rw [components_path, components_path, List.append_cancel_left_eq] at hsame
  obtain rfl : e = e' := hplain.eq_of_components (hlisted he) (hlisted' he') hsame
  have hwrite : e.unixMode.testBit 7 = false := by
    have hbits := Nat.testBit_mod_two_pow e.unixMode 12 7
    rw [show e.unixMode % 2 ^ 12 = e.unixMode % 0o10000 from rfl, hbit] at hbits
    simpa using hbits.symm
  have honce (q : ℕ) : (x.env q).continuingFile ≠ some e := by
    intro hcontinuing
    have hkept := haccess.files e (hlisted he) hregular hunix q hcontinuing
    rw [hwrite] at hkept
    cases hkept
  -- the part that has closed the file opens it again
  obtain rfl : q = p :=
    (partIndex_of_opened hcd (honce q) (hopenings.subset he)).symm.trans
      (partIndex_of_opened hcd (honce p) (hopenings'.subset he'))
  obtain ⟨opened, ops, hopenings, hattempts, hle⟩ := h.tries q
  rw [own_concat] at hle
  have htwice := hattempts.opens_twice
    (fun e' he' hpath ↦ hplain.eq_of_path he' (hlisted he) hpath) hle (mem_own.mpr hq)
  have hcount := (hopenings.sublist.count_le e).trans (openings_count hcd hplain.nodup (honce q))
  omega

end Extraction

/-- Where the permission bits of the archive leave its owner access to what has to be made or opened
again, no system call of an extraction by a user other than root is denied because of permission bits that
the extraction has set itself, in whatever order the processors of the parts make their calls and whichever
of the calls before have succeeded; and none of them gives anything away. -/
theorem extraction_neverDenied {x : Extraction} {archiveSize : ℕ}
    (hcd : x.cdResult.Parsed archiveSize x.partSize) (hplain : x.NamesPlain)
    (huser : ∀ p, (x.os p).isRoot = false) (haccess : x.LeavesAccess) {history : List (ℕ × FileOp)} {p : ℕ}
    {op : FileOp} (h : x.Interleaves (history ++ [(p, op)])) :
    ¬ op.ChangesOwner ∧ ∀ done, done.Sublist (history.map Prod.snd) → ¬ Denied done op := by
  have hbefore : x.Interleaves history := by
    intro q
    obtain ⟨ops, hmakes, hle⟩ := h q
    refine ⟨ops, hmakes, List.IsPrefix.trans ?_ hle⟩
    rw [List.filter_append, List.map_append]
    exact List.prefix_append _ _
  obtain ⟨opened, -, hlisted, hstems⟩ := h.stemsFrom (List.mem_append_right _ (List.mem_singleton.mpr rfl))
  refine ⟨hstems.keepsOwner (huser p), fun done hdone ↦ ?_⟩
  cases op with
  | mkdir path mode =>
    obtain ⟨e, he, hpath⟩ := hstems
    have hplace : components path <+: components (x.path e) := by
      rcases hpath with rfl | hparent
      · exact List.prefix_refl _
      · exact Extraction.parent_components e hparent
    rintro (hforbids | ⟨-, hforbids⟩)
    · exact Extraction.not_unsearchable haccess hdone hbefore he hplace hforbids
    · exact Extraction.not_directoryUnwritable hplain haccess hdone hbefore he hplace hforbids
  | symlink target path =>
    obtain ⟨e, he, -, rfl⟩ := hstems
    rintro (hforbids | hforbids)
    · exact Extraction.not_unsearchable haccess hdone hbefore (hlisted he) (List.prefix_refl _) hforbids
    · exact Extraction.not_directoryUnwritable hplain haccess hdone hbefore (hlisted he) (List.prefix_refl _)
        hforbids
  | openFile path =>
    obtain ⟨e, he, -, rfl⟩ := hstems
    rintro (hforbids | ⟨-, hforbids⟩ | ⟨-, hforbids⟩)
    · exact Extraction.not_unsearchable haccess hdone hbefore (hlisted he) (List.prefix_refl _) hforbids
    · exact Extraction.not_directoryUnwritable hplain haccess hdone hbefore (hlisted he) (List.prefix_refl _)
        hforbids
    · exact Extraction.not_fileUnwritable hcd hplain haccess h hdone hforbids
  | _ => exact id

/-- A directory `d` and a file `f` in it. -/
def nestedCalls (mode : ℕ) : List AddCall :=
  [.directory (headerFor (0, 33) zipVersionStore 0 zipMethodStore 0 0 [100, 47] 1000 1000) mode 1000 1000,
    .file ⟨[104, 105], none, true⟩ (buildLocalFileHeader rawEnv 0 [100, 47, 102] false 1000 1000) 0o100644
      1000 1000]

/-- What is done before the file is opened. -/
def directoryOps (bits : ℕ) : List FileOp :=
  [.mkdir [111, 117, 116] 0o755, .mkdir [111, 117, 116, 47, 100, 47] 0o755,
    .chmod [111, 117, 116, 47, 100, 47] bits, .mkdir [111, 117, 116] 0o755,
    .mkdir [111, 117, 116, 47, 100] 0o755]

/-- The system serves a user other than root, and opens no file. -/
def lockedOs : Os where
  respond _ op := match op with
    | .openFile _ => .error .other
    | _ => .ok 0
  statIsDir _ _ := true
  isRoot := false

def nestedExtraction (mode : ℕ) : Extraction := writtenExtraction lockedOs (nestedCalls mode)

theorem nestedExtraction_interleaves {mode bits : ℕ}
    (hops : (nestedExtraction mode).firstOps (writtenArchive (nestedCalls mode)) =
      directoryOps bits ++ [.openFile [111, 117, 116, 47, 100, 47, 102]]) :
    (nestedExtraction mode).Interleaves ((directoryOps bits).map (fun op ↦ (0, op)) ++
      [(0, .openFile [111, 117, 116, 47, 100, 47, 102])]) := by
  have hmakes := firstOps_makes (nestedExtraction mode) (writtenArchive (nestedCalls mode))
  rw [hops] at hmakes
  rw [← List.append_nil (directoryOps bits ++ _)] at hmakes
  have hhistory := interleaves_solo hmakes
  rwa [List.map_append] at hhistory

/-- Below a directory of mode 755 the file can be opened. -/
theorem writableDirectory_allows :
    ¬ Denied (directoryOps 0o755) (.openFile [111, 117, 116, 47, 100, 47, 102]) := by
  have hhistory := @nestedExtraction_interleaves 0o40755 0o755 (by decide +kernel)
  have hcd : (nestedExtraction 0o40755).cdResult.Parsed 355 (nestedExtraction 0o40755).partSize := by
    constructor
    · decide +kernel
    · decide +kernel
  have hplain : (nestedExtraction 0o40755).NamesPlain := by
    have hnames : (nestedExtraction 0o40755).cdResult.files.map (·.filename) =
      [[100, 47], [100, 47, 102]] := by decide +kernel
    have hplain : PlainNames [[100, 47], [100, 47, 102]] :=
      ⟨by decide +kernel, by decide +kernel, by decide +kernel⟩
    rw [Extraction.NamesPlain, hnames]
    exact hplain
  have haccess : (nestedExtraction 0o40755).LeavesAccess := by
    constructor
    · intro d hd hdirectory _ e _ _ _
      have hall : ∀ d ∈ (nestedExtraction 0o40755).cdResult.files, d.isDirectory = true →
          d.unixMode.testBit 7 = true ∧ d.unixMode.testBit 6 = true := by
        decide +kernel
      exact hall d hd hdirectory
    · intro e he hregular _ p _
      have hall : ∀ e ∈ (nestedExtraction 0o40755).cdResult.files, e.unixMode.testBit 7 = true := by
        decide +kernel
      exact hall e he
  obtain ⟨-, hnever⟩ := extraction_neverDenied hcd hplain (fun _ ↦ rfl) haccess hhistory
  apply hnever
  have hsame : ((directoryOps 0o755).map fun op ↦ (0, op)).map Prod.snd = directoryOps 0o755 := by
    rw [List.map_map]
    exact List.map_id _
  rw [hsame]

/-- Below a directory of mode 555 it cannot, and the part is not extracted. -/
theorem readOnlyDirectory_denies :
    (nestedExtraction 0o40555).Interleaves ((directoryOps 0o555).map (fun op ↦ (0, op)) ++
        [(0, .openFile [111, 117, 116, 47, 100, 47, 102])]) ∧
      Denied (directoryOps 0o555) (.openFile [111, 117, 116, 47, 100, 47, 102]) ∧
      (nestedExtraction 0o40555).extracted (fun _ ↦ [writtenArchive (nestedCalls 0o40555)]) 0 = none := by
  refine ⟨nestedExtraction_interleaves (by decide +kernel), .inr (.inl ⟨by decide +kernel, ?_⟩),
    by decide +kernel⟩
  exact ⟨0o555, by decide +kernel, by decide⟩

end Burst
