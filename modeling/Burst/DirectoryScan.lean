import Burst.CentralDirParser
import Burst.Lib.Preorder

namespace Burst

open Preorder

structure FileStat where
  mode : ℕ
  uid : ℕ
  gid : ℕ
  size : ℕ
  mtime : ℤ
  deriving DecidableEq, Repr, Inhabited

/-- What the scan asks the file system: the names of a directory in the order in which `readdir` gives
them, what a path is without following a link, and what a link points to. -/
structure FileSystem where
  opendir : List UInt8 → Option (List (List UInt8))
  lstat : List UInt8 → Option FileStat
  readlink : List UInt8 → Option (List UInt8)

structure FileListEntry where
  path : List UInt8
  name : List UInt8
  stat : FileStat
  target : Option (List UInt8)
  isDirectory : Bool
  deriving DecidableEq, Repr

def fileListAdd (list : List FileListEntry) (entry : FileListEntry) : List FileListEntry :=
  list ++ [entry]

def pathMax : ℕ := 4096

/-- `S_ISDIR` -/
def isDir (mode : ℕ) : Bool := mode / 0o10000 % 16 = 0o4

/-- `S_ISREG` -/
def isReg (mode : ℕ) : Bool := mode / 0o10000 % 16 = 0o10

def isDotName (name : List UInt8) : Bool := name = [46] || name = [46, 46]

def fullPath (currentDir name : List UInt8) : List UInt8 := currentDir ++ 47 :: name

def archiveName (pref name : List UInt8) : List UInt8 :=
  if pref ≠ [] then pref ++ 47 :: name else name

section Scan

variable (fs : FileSystem)

/-- The `readdir` loop; `recurse` is the call for a subdirectory. -/
def visitEntries
    (recurse : List FileListEntry → List UInt8 → List UInt8 → Option (ℤ × List FileListEntry))
    (currentDir pref : List UInt8) :
    List (List UInt8) → List FileListEntry → Option (ℤ × List FileListEntry)
  | [], list => some (0, list)
  | name :: names, list =>
    if isDotName name then visitEntries recurse currentDir pref names list
    else
      let path := fullPath currentDir name
      match fs.lstat path with
      | none => visitEntries recurse currentDir pref names list
      | some st =>
        let archive := archiveName pref name
        if isDir st.mode then
          -- the directory stands in the list before what is in it
          match recurse (fileListAdd list ⟨path, archive ++ [47], st, none, true⟩) path archive with
          | none => none
          | some (rc, list) =>
            if rc ≠ 0 then some (rc, list) else visitEntries recurse currentDir pref names list
        else if isReg st.mode then
          visitEntries recurse currentDir pref names (fileListAdd list ⟨path, archive, st, none, false⟩)
        else if isLnk st.mode then
          match fs.readlink path with
          | none => visitEntries recurse currentDir pref names list
          | some target => visitEntries recurse currentDir pref names
              (fileListAdd list ⟨path, archive, st, some (target.take (pathMax - 1)), false⟩)
        else visitEntries recurse currentDir pref names list

/-- `collect_files_recursive`; `none` is a recursion that has not ended. -/
def collectFilesRecursive : ℕ → List FileListEntry → List UInt8 → List UInt8 →
    Option (ℤ × List FileListEntry)
  | 0, _, _, _ => none
  | fuel + 1, list, currentDir, pref =>
    match fs.opendir currentDir with
    | none => some (-1, list)
    | some names => visitEntries fs (collectFilesRecursive fuel) currentDir pref names list

/-- The directories of a file system, by their paths. -/
def directories : Places (List UInt8) (List UInt8) where
  children dir := ((fs.opendir dir).getD []).filter fun name ↦ !isDotName name
  listed dir name := (fs.lstat (fullPath dir name)).any fun st ↦
    isDir st.mode || isReg st.mode || isLnk st.mode
  descend dir name :=
    if (fs.lstat (fullPath dir name)).any fun st ↦ isDir st.mode then some (fullPath dir name)
    else none

/-- A directory tree of height less than `n` in which every call of the scan succeeds. -/
def ReadableTree : ℕ → List UInt8 → Prop
  | 0, _ => False
  | n + 1, dir => ∃ names, fs.opendir dir = some names ∧
      (names.filter fun name ↦ !isDotName name).Nodup ∧
      ∀ name ∈ names, isDotName name = false → name ≠ [] ∧ 47 ∉ name ∧
        ∃ st, fs.lstat (fullPath dir name) = some st ∧
          (isLnk st.mode → (fs.readlink (fullPath dir name)).isSome) ∧
          (isDir st.mode → ReadableTree n (fullPath dir name))

/-- The entry the scan makes for a path below a directory with an archive name of its own. -/
def entryAt (dir pref : List UInt8) (names : List (List UInt8)) : FileListEntry :=
  let path := names.foldl fullPath dir
  let archive := names.foldl archiveName pref
  let st := (fs.lstat path).getD default
  { path := path
    name := if isDir st.mode then archive ++ [47] else archive
    stat := st
    target := if isLnk st.mode then (fs.readlink path).map fun target ↦ target.take (pathMax - 1)
      else none
    isDirectory := isDir st.mode }

end Scan

variable {fs : FileSystem} {dir pref name : List UInt8}

theorem ReadableTree.isTree {n : ℕ} (h : ReadableTree fs n dir) : IsTree (directories fs) n dir := by
  induction n generalizing dir with
  | zero => cases h
  | succ n ih =>
    obtain ⟨names, hopen, hnodup, hnames⟩ := h
    have hchildren : (directories fs).children dir = names.filter fun name ↦ !isDotName name := by
      simp only [directories, hopen, Option.getD_some]
    refine ⟨hchildren ▸ hnodup, fun name hname s' hdescend ↦ ?_⟩
    rw [hchildren, List.mem_filter] at hname
    obtain ⟨-, -, st, hst, -, htree⟩ := hnames name hname.1 (by simpa using hname.2)
    simp only [directories, hst, Option.any_some] at hdescend
    split at hdescend
    · next hdir =>
      obtain rfl := Option.some.inj hdescend
      exact ih (htree hdir)
    · cases hdescend

theorem ReadableTree.succ {n : ℕ} (h : ReadableTree fs n dir) : ReadableTree fs (n + 1) dir := by
  induction n generalizing dir with
  | zero => cases h
  | succ n ih =>
    obtain ⟨names, hopen, hnodup, hnames⟩ := h
    refine ⟨names, hopen, hnodup, fun name hname hdot ↦ ?_⟩
    obtain ⟨hne, hslash, st, hst, hlink, htree⟩ := hnames name hname hdot
    exact ⟨hne, hslash, st, hst, hlink, fun hdir ↦ ih (htree hdir)⟩

theorem ReadableTree.mono {n m : ℕ} (h : ReadableTree fs n dir) (hle : n ≤ m) :
    ReadableTree fs m dir := by
  induction hle with
  | refl => exact h
  | step _ ih => exact ih.succ

theorem entryAt_single {st : FileStat} (hst : fs.lstat (fullPath dir name) = some st) :
    entryAt fs dir pref [name] =
      { path := fullPath dir name
        name := if isDir st.mode then archiveName pref name ++ [47] else archiveName pref name
        stat := st
        target := if isLnk st.mode then
          (fs.readlink (fullPath dir name)).map fun target ↦ target.take (pathMax - 1) else none
        isDirectory := isDir st.mode } := by
  simp only [entryAt, List.foldl_cons, List.foldl_nil, hst, Option.getD_some]

theorem isLnk_of_isDir {mode : ℕ} (h : isDir mode = true) : isLnk mode = false := by
  simp only [isDir, isLnk, decide_eq_true_eq, decide_eq_false_iff_not] at *
  omega

theorem isLnk_of_isReg {mode : ℕ} (h : isReg mode = true) : isLnk mode = false := by
  simp only [isReg, isLnk, decide_eq_true_eq, decide_eq_false_iff_not] at *
  omega

/-- What the scan lists of one name in a directory. -/
theorem branch_entries {st : FileStat} (hst : fs.lstat (fullPath dir name) = some st)
    (below : List UInt8 → List (List (List UInt8))) (pref : List UInt8) :
    (branch (directories fs) below dir name).map (entryAt fs dir pref) =
      (if isDir st.mode || isReg st.mode || isLnk st.mode then [entryAt fs dir pref [name]] else []) ++
        (if isDir st.mode then (below (fullPath dir name)).map
          (entryAt fs (fullPath dir name) (archiveName pref name)) else []) := by
  rw [branch, List.map_append]
  congr 1
  · simp only [directories, hst, Option.any_some]
    split <;> rfl
  · simp only [directories, hst, Option.any_some]
    split
    · rw [Option.elim_some, List.map_map]
      rfl
    · rfl

/-- The scan of a name in a directory, with what is asked about it. -/
structure VisitsBelow (fs : FileSystem)
    (recurse : List FileListEntry → List UInt8 → List UInt8 → Option (ℤ × List FileListEntry))
    (n : ℕ) (dir pref name : List UInt8) (st : FileStat) : Prop where
  lstat : fs.lstat (fullPath dir name) = some st
  readlink : isLnk st.mode → (fs.readlink (fullPath dir name)).isSome
  recurse : isDir st.mode → ∀ list, recurse list (fullPath dir name) (archiveName pref name) =
    some (0, list ++ (preorder (directories fs) n (fullPath dir name)).map
      (entryAt fs (fullPath dir name) (archiveName pref name)))

/-- One round of the loop adds what is to be listed of the name. -/
theorem visitEntries_cons {n : ℕ}
    {recurse : List FileListEntry → List UInt8 → List UInt8 → Option (ℤ × List FileListEntry)}
    {st : FileStat} (hdot : isDotName name = false) (h : VisitsBelow fs recurse n dir pref name st)
    (names : List (List UInt8)) (list : List FileListEntry) :
    visitEntries fs recurse dir pref (name :: names) list =
      visitEntries fs recurse dir pref names (list ++
        (branch (directories fs) (preorder (directories fs) n) dir name).map
          (entryAt fs dir pref)) := by
  rw [visitEntries, branch_entries h.lstat, entryAt_single h.lstat]
  simp only [hdot, h.lstat, Bool.false_eq_true, if_false]
  by_cases hdir : isDir st.mode = true
  · have hlnk := isLnk_of_isDir hdir
    simp only [hdir, hlnk, if_true, Bool.true_or, Bool.false_eq_true, if_false, h.recurse hdir,
      fileListAdd, ne_eq, not_true, List.append_assoc]
  have hdir : isDir st.mode = false := by simpa using hdir
  simp only [hdir, Bool.false_eq_true, if_false, Bool.false_or, List.append_nil]
  by_cases hreg : isReg st.mode = true
  · have hlnk := isLnk_of_isReg hreg
    simp only [hreg, hlnk, if_true, Bool.true_or, Bool.false_eq_true, if_false, fileListAdd]
  have hreg : isReg st.mode = false := by simpa using hreg
  simp only [hreg, Bool.false_eq_true, if_false, Bool.false_or]
  by_cases hlnk : isLnk st.mode = true
  · obtain ⟨target, htarget⟩ := Option.isSome_iff_exists.mp (h.readlink hlnk)
    simp only [hlnk, if_true, htarget, Option.map_some, fileListAdd]
  have hlnk : isLnk st.mode = false := by simpa using hlnk
  simp only [hlnk, Bool.false_eq_true, if_false, List.append_nil]

/-- What the loop adds for the names it still has to visit. -/
theorem visitEntries_eq {n : ℕ}
    {recurse : List FileListEntry → List UInt8 → List UInt8 → Option (ℤ × List FileListEntry)}
    {names : List (List UInt8)}
    (hnames : ∀ name ∈ names, isDotName name = false →
      ∃ st, VisitsBelow fs recurse n dir pref name st) (list : List FileListEntry) :
    visitEntries fs recurse dir pref names list =
      some (0, list ++ ((names.filter fun name ↦ !isDotName name).flatMap
        (branch (directories fs) (preorder (directories fs) n) dir)).map (entryAt fs dir pref)) := by
  induction names generalizing list with
  | nil =>
    rw [visitEntries, List.filter_nil, List.flatMap_nil, List.map_nil, List.append_nil]
  | cons name names ih =>
    have ih := ih fun name' hname' ↦ hnames name' (List.mem_cons_of_mem name hname')
    by_cases hdot : isDotName name = true
    · rw [visitEntries, if_pos hdot, ih, List.filter_cons_of_neg (by simp [hdot])]
    have hdot : isDotName name = false := by simpa using hdot
    obtain ⟨st, hvisits⟩ := hnames name List.mem_cons_self hdot
    rw [visitEntries_cons hdot hvisits, ih, List.filter_cons_of_pos (by simp [hdot]),
      List.flatMap_cons, List.map_append, List.append_assoc]

/-- The scan of a readable tree appends its listing in pre-order. -/
theorem collectFilesRecursive_eq {n : ℕ} (h : ReadableTree fs n dir) (pref : List UInt8)
    (list : List FileListEntry) :
    collectFilesRecursive fs n list dir pref =
      some (0, list ++ (preorder (directories fs) n dir).map (entryAt fs dir pref)) := by
  induction n generalizing dir pref list with
  | zero => cases h
  | succ n ih =>
    obtain ⟨names, hopen, -, hnames⟩ := h
    have hchildren : (directories fs).children dir = names.filter fun name ↦ !isDotName name := by
      simp only [directories, hopen, Option.getD_some]
    rw [collectFilesRecursive, hopen, preorder, hchildren]
    apply visitEntries_eq
    intro name hname hdot
    obtain ⟨-, -, st, hst, hlink, htree⟩ := hnames name hname hdot
    exact ⟨st, hst, hlink, fun hdir list ↦ ih (htree hdir) (archiveName pref name) list⟩

/-- The names on the way to a file, with slashes between them. -/
def relativePath (names : List (List UInt8)) : List UInt8 := [47].intercalate names

/-- What the archive is to have for a file below the root: its path from there, with a slash after the
name of a directory. -/
def archiveEntry (fs : FileSystem) (root : List UInt8) (names : List (List UInt8)) : FileListEntry :=
  let path := root ++ 47 :: relativePath names
  let st := (fs.lstat path).getD default
  { path := path
    name := relativePath names ++ if isDir st.mode then [47] else []
    stat := st
    target := if isLnk st.mode then (fs.readlink path).map fun target ↦ target.take (pathMax - 1)
      else none
    isDirectory := isDir st.mode }

theorem relativePath_cons (name : List UInt8) {names : List (List UInt8)} (h : names ≠ []) :
    relativePath (name :: names) = name ++ 47 :: relativePath names := by
  rw [relativePath, List.intercalate_cons_of_ne_nil h, List.append_assoc]
  rfl

theorem foldl_fullPath (dir : List UInt8) (names : List (List UInt8)) :
    names.foldl fullPath dir = relativePath (dir :: names) := by
  induction names generalizing dir with
  | nil => rw [List.foldl_nil, relativePath, List.intercalate_singleton]
  | cons name names ih =>
    rw [List.foldl_cons, ih, relativePath_cons dir (List.cons_ne_nil name names), fullPath]
    cases names with
    | nil => rw [relativePath, relativePath, List.intercalate_singleton, List.intercalate_singleton]
    | cons name' names =>
      have hne := List.cons_ne_nil name' names
      rw [relativePath_cons _ hne, relativePath_cons _ hne, List.append_assoc, List.cons_append]

/-- Behind a prefix that is not empty the archive names grow as the paths do. -/
theorem foldl_archiveName (hpref : pref ≠ []) (names : List (List UInt8)) :
    names.foldl archiveName pref = names.foldl fullPath pref := by
  induction names generalizing pref with
  | nil => rfl
  | cons name names ih =>
    rw [List.foldl_cons, List.foldl_cons, archiveName, if_pos hpref]
    exact ih (List.append_ne_nil_of_right_ne_nil _ (List.cons_ne_nil 47 name))

/-- The names below the root are as a file system has them. -/
def ProperNames (names : List (List UInt8)) : Prop := ∀ name ∈ names, name ≠ [] ∧ 47 ∉ name

theorem ReadableTree.properNames {n : ℕ} {names : List (List UInt8)} (h : ReadableTree fs n dir)
    (hbelow : IsBelow (directories fs) dir names) : ProperNames names := by
  induction names generalizing n dir with
  | nil => cases hbelow
  | cons name rest ih =>
    cases n with
    | zero => cases h
    | succ n =>
      obtain ⟨listed, hopen, -, hlisted⟩ := h
      obtain ⟨hname, hrest⟩ := hbelow
      simp only [directories, hopen, Option.getD_some, List.mem_filter] at hname
      obtain ⟨hne, hslash, st, hst, -, htree⟩ := hlisted name hname.1 (by simpa using hname.2)
      intro name' hname'
      cases hname' with
      | head => exact ⟨hne, hslash⟩
      | tail _ hin =>
        obtain ⟨rfl, -⟩ | ⟨s', hdescend, hbelow⟩ := hrest
        · cases hin
        · simp only [directories, hst, Option.any_some] at hdescend
          split at hdescend
          · next hdir =>
            obtain rfl := Option.some.inj hdescend
            exact ih (htree hdir) hbelow name' hin
          · cases hdescend

/-- From the root, without a prefix, the scan makes the entries the archive is to have. -/
theorem entryAt_root {names : List (List UInt8)} (hne : names ≠ []) (hproper : ProperNames names)
    (root : List UInt8) : entryAt fs root [] names = archiveEntry fs root names := by
  have hpath : names.foldl fullPath root = root ++ 47 :: relativePath names := by
    rw [foldl_fullPath, relativePath_cons root hne]
  have harchive : names.foldl archiveName [] = relativePath names := by
    cases names with
    | nil => exact (hne rfl).elim
    | cons name rest =>
      have hname := (hproper name List.mem_cons_self).1
      rw [List.foldl_cons, archiveName, if_neg (not_not.mpr rfl), foldl_archiveName hname,
        foldl_fullPath]
  simp only [entryAt, archiveEntry, hpath, harchive]
  congr 1
  split
  · rfl
  · rw [List.append_nil]

theorem relativePath_slash {names : List (List UInt8)} (hne : names ≠ []) :
    relativePath names ++ [47] = relativePath (names ++ [[]]) := by
  induction names with
  | nil => exact (hne rfl).elim
  | cons name names ih =>
    cases names with
    | nil =>
      rw [List.cons_append, List.nil_append, relativePath_cons name (List.cons_ne_nil [] []),
        relativePath, relativePath, List.intercalate_singleton, List.intercalate_singleton]
    | cons name' names =>
      rw [relativePath_cons name (List.cons_ne_nil name' names), List.append_assoc, List.cons_append,
        ih (List.cons_ne_nil name' names)]
      exact (relativePath_cons name (by simp)).symm

/-- The names can be read off an archive name, a directory by the empty name after its slash. -/
theorem splitOn_archiveName {names : List (List UInt8)} (hne : names ≠ []) (hproper : ProperNames names)
    (directory : Bool) :
    (relativePath names ++ if directory then [47] else []).splitOn 47 =
      names ++ if directory then [[]] else [] := by
  cases directory with
  | false =>
    simp only [Bool.false_eq_true, if_false, List.append_nil]
    exact List.splitOn_intercalate 47 (fun name hname ↦ (hproper name hname).2) hne
  | true =>
    simp only [if_true]
    rw [relativePath_slash hne]
    refine List.splitOn_intercalate 47 (fun name hname ↦ ?_) (by simp)
    rcases List.mem_append.mp hname with h | h
    · exact (hproper name h).2
    · obtain rfl := List.mem_singleton.mp h
      exact List.not_mem_nil

theorem ProperNames.ne_append_nil {a b : List (List UInt8)} (hb : ProperNames b) :
    a ++ [[]] ≠ b := by
  rintro rfl
  exact (hb [] (List.mem_append_right a (List.mem_singleton_self []))).1 rfl

/-- Two files have one archive name only if they are one file. -/
theorem archiveEntry_name_inj {root : List UInt8} {a b : List (List UInt8)} (ha : a ≠ [])
    (hb : b ≠ []) (hpa : ProperNames a) (hpb : ProperNames b)
    (h : (archiveEntry fs root a).name = (archiveEntry fs root b).name) : a = b := by
  have hsplit := congrArg (List.splitOn 47) h
  simp only [archiveEntry] at hsplit
  rw [splitOn_archiveName ha hpa, splitOn_archiveName hb hpb] at hsplit
  split at hsplit
  · split at hsplit
    · exact List.append_cancel_right hsplit
    · rw [List.append_nil] at hsplit
      exact (hpb.ne_append_nil hsplit).elim
  · split at hsplit
    · rw [List.append_nil] at hsplit
      exact (hpa.ne_append_nil hsplit.symm).elim
    · rwa [List.append_nil, List.append_nil] at hsplit

/-- A path from the root neither begins nor ends with a slash. -/
theorem relativePath_ends {names : List (List UInt8)} (hne : names ≠ [])
    (hproper : ProperNames names) :
    relativePath names ≠ [] ∧ (relativePath names).head? ≠ some 47 ∧
      (relativePath names).getLast? ≠ some 47 := by
  induction names with
  | nil => exact (hne rfl).elim
  | cons name names ih =>
    obtain ⟨hname, hslash⟩ := hproper name List.mem_cons_self
    have hhead : name.head? ≠ some 47 := fun h ↦ hslash (List.mem_of_mem_head? h)
    have hlast : name.getLast? ≠ some 47 := fun h ↦ hslash (List.mem_of_mem_getLast? h)
    cases names with
    | nil =>
      rw [relativePath, List.intercalate_singleton]
      exact ⟨hname, hhead, hlast⟩
    | cons name' names =>
      obtain ⟨hne', -, hlast'⟩ := ih (List.cons_ne_nil name' names)
        fun n hn ↦ hproper n (List.mem_cons_of_mem name hn)
      rw [relativePath_cons name (List.cons_ne_nil name' names)]
      refine ⟨List.append_ne_nil_of_left_ne_nil hname _, ?_, ?_⟩
      · rwa [List.head?_append_of_ne_nil _ hname]
      · obtain ⟨b, bs, hbs⟩ := List.exists_cons_of_ne_nil hne'
        rw [hbs] at hlast' ⊢
        rwa [List.getLast?_append_of_ne_nil _ (List.cons_ne_nil 47 _), List.getLast?_cons_cons]

/-- The name of a directory ends in a slash and no other does; none begins with one. -/
theorem archiveEntry_slashes {root : List UInt8} {names : List (List UInt8)} (hne : names ≠ [])
    (hproper : ProperNames names) :
    ((archiveEntry fs root names).name.getLast? = some 47 ↔
      (archiveEntry fs root names).isDirectory = true) ∧
      (archiveEntry fs root names).name.head? ≠ some 47 := by
  obtain ⟨hpath, hhead, hlast⟩ := relativePath_ends hne hproper
  simp only [archiveEntry]
  split
  · next hdir =>
    rw [List.head?_append_of_ne_nil _ hpath, List.getLast?_concat]
    exact ⟨iff_of_true rfl hdir, hhead⟩
  · next hdir =>
    rw [List.append_nil]
    exact ⟨iff_of_false hlast hdir, hhead⟩

/-- The scan of a directory tree: complete, without duplicates, and with every directory before what is
in it. -/
theorem collectFilesRecursive_complete {height fuel : ℕ} {root : List UInt8}
    (h : ReadableTree fs height root) (hfuel : height ≤ fuel) (list : List FileListEntry) :
    ∃ paths : List (List (List UInt8)),
      collectFilesRecursive fs fuel list root [] =
        some (0, list ++ paths.map (archiveEntry fs root)) ∧
      (∀ path, path ∈ paths ↔ IsBelow (directories fs) root path) ∧
      paths.Nodup ∧ (paths.map fun path ↦ (archiveEntry fs root path).name).Nodup ∧
      (∀ path ∈ paths, ((archiveEntry fs root path).name.getLast? = some 47 ↔
          (archiveEntry fs root path).isDirectory = true) ∧
        (archiveEntry fs root path).name.head? ≠ some 47) ∧
      ∀ (i j : ℕ) a b, paths[i]? = some a → paths[j]? = some b → a <+: b → a ≠ b → i < j := by
  have htree := h.mono hfuel
  have hproper : ∀ path ∈ preorder (directories fs) fuel root, path ≠ [] ∧ ProperNames path := by
    intro path hpath
    exact ⟨preorder_ne_nil hpath, htree.properNames ((mem_preorder htree.isTree).mp hpath)⟩
  refine ⟨preorder (directories fs) fuel root, ?_, fun path ↦ mem_preorder htree.isTree,
    preorder_nodup htree.isTree, ?_, ?_, fun i j a b ↦ preorder_lt htree.isTree⟩
  · rw [collectFilesRecursive_eq htree]
    congr 3
    apply List.map_congr_left
    intro path hpath
    exact entryAt_root (hproper path hpath).1 (hproper path hpath).2 root
  · refine List.Nodup.map_on ?_ (preorder_nodup htree.isTree)
    intro a ha b hb heq
    exact archiveEntry_name_inj (hproper a ha).1 (hproper b hb).1 (hproper a ha).2 (hproper b hb).2 heq
  · intro path hpath
    exact archiveEntry_slashes (hproper path hpath).1 (hproper path hpath).2

/-- A directory `r` with a file `a` and a directory `d`, in which there is a link `l`. -/
def sampleFileSystem : FileSystem where
  opendir path :=
    if path = [114] then some [[46], [100], [46, 46], [97]]
    else if path = [114, 47, 100] then some [[46, 46], [108], [46]]
    else none
  lstat path :=
    if path = [114, 47, 97] then some ⟨0o100644, 0, 0, 3, 0⟩
    else if path = [114, 47, 100] then some ⟨0o40755, 0, 0, 0, 0⟩
    else if path = [114, 47, 100, 47, 108] then some ⟨0o120777, 0, 0, 4, 0⟩
    else none
  readlink path := if path = [114, 47, 100, 47, 108] then some [46, 46, 47, 97] else none

theorem sampleFileSystem_readable : ReadableTree sampleFileSystem 2 [114] := by
  refine ⟨[[46], [100], [46, 46], [97]], rfl, by decide, ?_⟩
  simp only [List.forall_mem_cons, List.not_mem_nil, false_imp_iff, implies_true, and_true]
  refine ⟨fun h ↦ (by cases h), fun _ ↦ ?_, fun h ↦ (by cases h), fun _ ↦ ?_⟩
  · refine ⟨by decide, by decide, ⟨0o40755, 0, 0, 0, 0⟩, rfl, fun h ↦ (by cases h), fun _ ↦ ?_⟩
    refine ⟨[[46, 46], [108], [46]], rfl, by decide, ?_⟩
    simp only [List.forall_mem_cons, List.not_mem_nil, false_imp_iff, implies_true, and_true]
    refine ⟨fun h ↦ (by cases h), fun _ ↦ ?_, fun h ↦ (by cases h)⟩
    exact ⟨by decide, by decide, ⟨0o120777, 0, 0, 4, 0⟩, rfl, fun _ ↦ rfl, fun h ↦ (by cases h)⟩
  · exact ⟨by decide, by decide, ⟨0o100644, 0, 0, 3, 0⟩, rfl, fun h ↦ (by cases h), fun h ↦ (by cases h)⟩

theorem collectFilesRecursive_complete_sample :
    ∃ paths : List (List (List UInt8)),
      collectFilesRecursive sampleFileSystem 2 [] [114] [] =
        some (0, paths.map (archiveEntry sampleFileSystem [114])) ∧ paths.Nodup ∧
      ∀ path, path ∈ paths ↔ IsBelow (directories sampleFileSystem) [114] path := by
  obtain ⟨paths, hscan, hall, hnodup, -⟩ :=
    collectFilesRecursive_complete sampleFileSystem_readable le_rfl []
  exact ⟨paths, hscan, hnodup, hall⟩

end Burst
