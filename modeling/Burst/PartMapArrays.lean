import Burst.PartMap
import Burst.Lib.Buckets
import Mathlib.Data.List.Nodup
import Mathlib.Data.List.Perm.Basic

namespace Burst

/-- `struct part_files` with its array of entries and their number. -/
structure PartTable where
  entries : List PartFileEntry
  numEntries : ℕ
  continuingFile : Option ℕ
  deriving DecidableEq, Repr

def comparePartFileEntries (a b : PartFileEntry) : ℤ :=
  if a.offsetInPart < b.offsetInPart then -1
  else if a.offsetInPart > b.offsetInPart then 1
  else 0

/-- What `qsort` promises for a comparison: a rearrangement, in the order of the comparison. -/
structure QsortSpec (compare : PartFileEntry → PartFileEntry → ℤ)
    (qsort : List PartFileEntry → List PartFileEntry) : Prop where
  perm : ∀ entries, (qsort entries).Perm entries
  sorted : ∀ entries, (qsort entries).Pairwise fun a b ↦ compare a b ≤ 0

section Build

variable (qsort : List PartFileEntry → List PartFileEntry)

/-- Sorts the first `numEntries` entries of a part. -/
def sortPart (entries : List PartFileEntry) (numEntries : ℕ) : List PartFileEntry :=
  if numEntries > 1 then qsort (entries.take numEntries) ++ entries.drop numEntries else entries

/-- The entry of the second pass for a file, with the part it goes to. -/
def keyedEntry (partSize : ℕ) (f : FileMetadata × ℕ) : ℕ × PartFileEntry :=
  (f.1.partIndex, ⟨f.2, f.1.localHeaderOffset % partSize⟩)

/-- `build_part_map` with its arrays; `none` is an access outside one of them. -/
def buildPartTables (files : List FileMetadata) (archiveSize partSize : ℕ) :
    Option (Except CentralDirParseError (List PartTable)) :=
  let numParts := numPartsFor archiveSize partSize
  if 2 ^ 63 ≤ numParts * sizeofPartFiles then some (.error .memory)
  else
    let counts := Buckets.count numParts (files.map (·.partIndex))
    let arrays := Buckets.allocate ⟨0, 0⟩ counts
    (Buckets.fill numParts arrays (files.zipIdx.map (keyedEntry partSize))).map fun t ↦
      .ok <| (List.range numParts).map fun p ↦
        { entries := sortPart qsort (t.slots.getD p []) (t.counts.getD p 0)
          numEntries := t.counts.getD p 0
          continuingFile := continuingFile files partSize p }

/-- What the passes leave for a part. -/
def partTableAt (files : List FileMetadata) (partSize p : ℕ) : PartTable where
  entries := sortPart qsort (partEntries files partSize p) (partEntries files partSize p).length
  numEntries := (partEntries files partSize p).length
  continuingFile := continuingFile files partSize p

end Build

variable {qsort : List PartFileEntry → List PartFileEntry}

theorem partEntries_eq_bucket (files : List FileMetadata) (partSize p : ℕ) :
    partEntries files partSize p = Buckets.bucket p (files.zipIdx.map (keyedEntry partSize)) := by
  rw [partEntries, Buckets.bucket, List.filterMap_map]
  rfl

theorem keyedEntry_keys (files : List FileMetadata) (partSize : ℕ) :
    (files.zipIdx.map (keyedEntry partSize)).map (·.1) = files.map (·.partIndex) := by
  have hkeys : (fun x : ℕ × PartFileEntry ↦ x.1) ∘ keyedEntry partSize =
      (fun f : FileMetadata ↦ f.partIndex) ∘ Prod.fst := rfl
  rw [List.map_map, hkeys, ← List.map_map, List.zipIdx_map_fst]

/-- The passes never leave their arrays. -/
theorem buildPartTables_eq (qsort : List PartFileEntry → List PartFileEntry)
    (files : List FileMetadata) (archiveSize partSize : ℕ) :
    buildPartTables qsort files archiveSize partSize =
      some (if 2 ^ 63 ≤ numPartsFor archiveSize partSize * sizeofPartFiles then .error .memory
        else .ok ((List.range (numPartsFor archiveSize partSize)).map
          (partTableAt qsort files partSize))) := by
  have hfill := Buckets.fill_allocate (numPartsFor archiveSize partSize) ⟨0, 0⟩
    (files.zipIdx.map (keyedEntry partSize))
  rw [keyedEntry_keys] at hfill
  rw [buildPartTables]
  by_cases hmem : 2 ^ 63 ≤ numPartsFor archiveSize partSize * sizeofPartFiles
  · simp only [if_pos hmem]
  · simp only [if_neg hmem, hfill, Option.map_some, Option.some.injEq, Except.ok.injEq]
    apply Buckets.map_range_congr
    intro p hp
    simp [partTableAt, partEntries_eq_bucket, hp]

theorem sortPart_perm (hqsort : ∀ entries, (qsort entries).Perm entries)
    (entries : List PartFileEntry) : (sortPart qsort entries entries.length).Perm entries := by
  rw [sortPart]
  split
  · rw [List.take_length, List.drop_length, List.append_nil]
    exact hqsort entries
  · exact List.Perm.refl entries

theorem comparePartFileEntries_nonpos {a b : PartFileEntry} :
    comparePartFileEntries a b ≤ 0 ↔ a.offsetInPart ≤ b.offsetInPart := by
  rw [comparePartFileEntries]
  split_ifs <;> omega

theorem sortPart_sorted (hqsort : QsortSpec comparePartFileEntries qsort)
    (entries : List PartFileEntry) :
    (sortPart qsort entries entries.length).Pairwise (·.offsetInPart ≤ ·.offsetInPart) := by
  rw [sortPart]
  split
  · rw [List.take_length, List.drop_length, List.append_nil]
    exact (hqsort.sorted entries).imp comparePartFileEntries_nonpos.mp
  · next h =>
    cases entries with
    | nil => exact List.Pairwise.nil
    | cons e rest =>
      cases rest with
      | nil => exact List.pairwise_singleton _ e
      | cons e' rest => simp at h

/-- The entries of the map that the rest of the downloader is modelled with are the entries of the
arrays, and in the same order when no two files of the part start at one place. -/
theorem partTableAt_partFilesAt (hqsort : QsortSpec comparePartFileEntries qsort)
    (files : List FileMetadata) (partSize p : ℕ) :
    (partTableAt qsort files partSize p).entries.Perm (partFilesAt files partSize p).entries ∧
      ((partEntries files partSize p).Pairwise (·.offsetInPart ≠ ·.offsetInPart) →
        (partTableAt qsort files partSize p).entries = (partFilesAt files partSize p).entries) := by
  have hinsert := List.perm_insertionSort (fun a b : PartFileEntry ↦ a.offsetInPart ≤ b.offsetInPart)
    (partEntries files partSize p)
  have hperm : (partTableAt qsort files partSize p).entries.Perm
      (partFilesAt files partSize p).entries := (sortPart_perm hqsort.perm _).trans hinsert.symm
  refine ⟨hperm, fun hdistinct ↦ ?_⟩
  have htotal : Std.Total fun a b : PartFileEntry ↦ a.offsetInPart ≤ b.offsetInPart :=
    ⟨fun a b ↦ Nat.le_total _ _⟩
  have htrans : IsTrans PartFileEntry fun a b ↦ a.offsetInPart ≤ b.offsetInPart :=
    ⟨fun _ _ _ ↦ Nat.le_trans⟩
  have hnodup : ((partEntries files partSize p).map (·.offsetInPart)).Nodup :=
    List.pairwise_map.mpr hdistinct
  apply List.Perm.eq_of_pairwise
  · intro a b ha hb hab hba
    have ha' := (sortPart_perm hqsort.perm _).subset ha
    exact List.inj_on_of_nodup_map hnodup ha' (hinsert.subset hb) (Nat.le_antisymm hab hba)
  · exact sortPart_sorted hqsort (partEntries files partSize p)
  · exact List.pairwise_insertionSort _ _
  · exact hperm

/-- The map of the rest of the downloader is the one in the arrays. -/
theorem buildPartTables_refines (hqsort : QsortSpec comparePartFileEntries qsort)
    {files : List FileMetadata} {archiveSize partSize : ℕ} {parts : List PartFiles}
    (h : buildPartMap files archiveSize partSize = .ok parts) :
    ∃ tables, buildPartTables qsort files archiveSize partSize = some (.ok tables) ∧
      List.Forall₂ (fun table part ↦ table.entries.Perm part.entries ∧
        table.numEntries = part.entries.length ∧
        table.continuingFile = part.continuingFile) tables parts := by
  rw [buildPartMap] at h
  split at h
  · cases h
  · next hmem =>
    obtain rfl := Except.ok.inj h
    refine ⟨_, by rw [buildPartTables_eq, if_neg hmem], ?_⟩
    rw [List.forall₂_map_left_iff, List.forall₂_map_right_iff, List.forall₂_same]
    intro p _
    refine ⟨(partTableAt_partFilesAt hqsort files partSize p).1, ?_, rfl⟩
    exact (List.length_insertionSort _ _).symm

/-- The parser derives the part of a file from the offset it has read. -/
theorem parseEntries_partIndex {partSize numEntries : ℕ} {first : Bool} {cd : List UInt8}
    {files : List FileMetadata} (h : parseEntries partSize numEntries first cd = .ok files) :
    ∀ f ∈ files, f.partIndex = f.localHeaderOffset / partSize % 2 ^ 32 := by
  induction numEntries generalizing first cd files with
  | zero =>
    obtain rfl := Except.ok.inj h
    intro f hf
    cases hf
  | succ numEntries ih =>
    have hnil : ∀ {f : FileMetadata}, (Except.ok [] : Except CentralDirParseError _) = .ok files →
        f ∈ files → f.partIndex = f.localHeaderOffset / partSize % 2 ^ 32 := by
      intro f hnil hf
      obtain rfl := Except.ok.inj hnil
      cases hf
    intro f hf
    rw [parseEntries] at h
    split at h
    · exact hnil h hf
    split at h
    · split at h
      · cases h
      · exact hnil h hf
    dsimp only at h
    split at h
    · split at h
      · cases h
      · exact hnil h hf
    split at h
    · cases h
    cases htail : parseEntries partSize numEntries false
        (cd.drop (46 + variableLen (parseCentralHeader cd))) with
    | error e =>
      rw [htail] at h
      cases h
    | ok rest =>
      rw [htail] at h
      obtain rfl := Except.ok.inj h
      cases hf with
      | head => rfl
      | tail _ hrest => exact ih htail f hrest

theorem parseCentralDirectory_partIndex {buffer : List UInt8}
    {cdOffset bufferOffset numEntries cdSize partSize : ℕ} {files : List FileMetadata}
    (h : parseCentralDirectory buffer cdOffset bufferOffset numEntries cdSize partSize =
      .ok files) : ∀ f ∈ files, f.partIndex = f.localHeaderOffset / partSize % 2 ^ 32 := by
  rw [parseCentralDirectory] at h
  split at h
  · cases h
  split at h
  · cases h
  split at h
  · cases h
  exact parseEntries_partIndex h

/-- What the part map is for: each file that has a part is listed once, in the part its header lies in
and at its place there, nothing else is listed, and the files of a part are in ascending order. -/
structure Partitions (files : List FileMetadata) (partSize : ℕ) (parts : List PartTable) : Prop where
  once : ∀ i f, files[i]? = some f → f.localHeaderOffset / partSize < parts.length →
    (parts.flatMap (·.entries)).countP (·.fileIndex = i) = 1
  placed : ∀ p part entry, parts[p]? = some part → entry ∈ part.entries →
    ∃ f, files[entry.fileIndex]? = some f ∧ p = f.localHeaderOffset / partSize ∧
      entry.offsetInPart + p * partSize = f.localHeaderOffset
  counted : ∀ part ∈ parts, part.numEntries = part.entries.length
  ascending : ∀ part ∈ parts, part.entries.Pairwise (·.offsetInPart ≤ ·.offsetInPart)

theorem partEntries_fileIndex_nodup (files : List FileMetadata) (partSize p : ℕ) :
    ((partEntries files partSize p).map (·.fileIndex)).Nodup := by
  have hsub : ((partEntries files partSize p).map (·.fileIndex)).Sublist
      (files.zipIdx.map (·.2)) := by
    rw [partEntries, List.map_filterMap]
    generalize files.zipIdx = numbered
    induction numbered with
    | nil => exact List.Sublist.refl _
    | cons f numbered ih =>
      by_cases hpart : f.1.partIndex = p
      · simpa [hpart] using ih
      · simpa [hpart] using ih.cons f.2
  apply hsub.nodup
  rw [List.zipIdx_map_snd]
  exact List.nodup_range'

/-- No file is listed twice: its part index puts it into one part. -/
theorem partEntries_flatMap_nodup (files : List FileMetadata) (partSize numParts : ℕ) :
    (((List.range numParts).flatMap (partEntries files partSize)).map (·.fileIndex)).Nodup := by
  rw [List.map_flatMap, List.nodup_flatMap]
  constructor
  · intro p _
    exact partEntries_fileIndex_nodup files partSize p
  · refine (List.nodup_range).imp ?_
    intro p q hne i hp hq
    obtain ⟨entry, hentry, rfl⟩ := List.mem_map.mp hp
    obtain ⟨entry', hentry', heq⟩ := List.mem_map.mp hq
    obtain ⟨f, hf, hfp, -⟩ := mem_partEntries.mp hentry
    obtain ⟨f', hf', hfq, -⟩ := mem_partEntries.mp hentry'
    rw [heq, hf, Option.some.injEq] at hf'
    subst hf'
    exact hne (hfp.symm.trans hfq)

theorem countP_fileIndex_eq_one {entries : List PartFileEntry}
    (hnodup : (entries.map (·.fileIndex)).Nodup) {i : ℕ} (hmem : i ∈ entries.map (·.fileIndex)) :
    entries.countP (·.fileIndex = i) = 1 := by
  have hcount := List.count_eq_one_of_mem hnodup hmem
  rw [List.count, List.countP_map] at hcount
  rw [← hcount]
  apply List.countP_congr
  intro entry _
  simp

theorem partIndex_exact {partSize : ℕ} (hpart : burstPartSize ≤ partSize) {offset : ℕ}
    (hoffset : offset < 2 ^ 55) : offset / partSize % 2 ^ 32 = offset / partSize := by
  apply Nat.mod_eq_of_lt
  have hle : offset / partSize ≤ offset / burstPartSize :=
    Nat.div_le_div_left hpart (by norm_num [burstPartSize])
  rw [burstPartSize] at hle
  omega

theorem partTables_partition {files : List FileMetadata} {partSize : ℕ}
    (hqsort : QsortSpec comparePartFileEntries qsort)
    (hindex : ∀ f ∈ files, f.partIndex = f.localHeaderOffset / partSize) (numParts : ℕ) :
    Partitions files partSize ((List.range numParts).map (partTableAt qsort files partSize)) where
  once := by
    intro i f hf hpart
    rw [List.length_map, List.length_range] at hpart
    rw [List.flatMap_map]
    have hperm : ((List.range numParts).flatMap fun p ↦
        (partTableAt qsort files partSize p).entries).Perm
        ((List.range numParts).flatMap (partEntries files partSize)) :=
      List.Perm.flatMap_left _ fun p _ ↦ sortPart_perm hqsort.perm _
    rw [hperm.countP_eq]
    apply countP_fileIndex_eq_one (partEntries_flatMap_nodup files partSize numParts)
    refine List.mem_map.mpr ⟨⟨i, f.localHeaderOffset % partSize⟩, ?_, rfl⟩
    refine List.mem_flatMap.mpr ⟨f.localHeaderOffset / partSize, List.mem_range.mpr hpart, ?_⟩
    exact mem_partEntries.mpr ⟨f, hf, hindex f (List.mem_of_getElem? hf), rfl⟩
  placed := by
    intro p part entry hpart hentry
    rw [List.getElem?_map, Option.map_eq_some_iff] at hpart
    obtain ⟨q, hq, rfl⟩ := hpart
    obtain ⟨hlt, hget⟩ := List.getElem?_eq_some_iff.mp hq
    rw [List.getElem_range] at hget
    subst hget
    obtain ⟨f, hf, hfp, hoffset⟩ := mem_partEntries.mp ((sortPart_perm hqsort.perm _).subset hentry)
    rw [hindex f (List.mem_of_getElem? hf)] at hfp
    refine ⟨f, hf, hfp.symm, ?_⟩
    rw [hoffset, ← hfp, Nat.mul_comm]
    exact Nat.mod_add_div _ _
  counted := by
    intro part hpart
    obtain ⟨p, -, rfl⟩ := List.mem_map.mp hpart
    exact (sortPart_perm hqsort.perm _).length_eq.symm
  ascending := by
    intro part hpart
    obtain ⟨p, -, rfl⟩ := List.mem_map.mp hpart
    exact sortPart_sorted hqsort _

/-- Every list of files is partitioned, whatever `qsort` does with files that start at one place. -/
theorem buildPartTables_partition {files : List FileMetadata} {archiveSize partSize : ℕ}
    (hqsort : QsortSpec comparePartFileEntries qsort)
    (hindex : ∀ f ∈ files, f.partIndex = f.localHeaderOffset / partSize % 2 ^ 32)
    (hoffset : ∀ f ∈ files, f.localHeaderOffset < 2 ^ 55)
    (hdvd : burstPartSize ∣ partSize) (hpos : 0 < partSize)
    (hsize : archiveSize + partSize ≤ 2 ^ 64) :
    ∃ parts, buildPartTables qsort files archiveSize partSize = some (.ok parts) ∧
      Partitions files partSize parts ∧
      ∀ f ∈ files, f.localHeaderOffset < archiveSize →
        f.localHeaderOffset / partSize < parts.length := by
  have hpart : burstPartSize ≤ partSize := Nat.le_of_dvd hpos hdvd
  have hexact : ∀ f ∈ files, f.partIndex = f.localHeaderOffset / partSize := by
    intro f hf
    rw [hindex f hf, partIndex_exact hpart (hoffset f hf)]
  refine ⟨_, ?_, partTables_partition hqsort hexact (numPartsFor archiveSize partSize), ?_⟩
  · rw [buildPartTables_eq, if_neg (numPartsFor_allocates archiveSize hpart)]
  · intro f _ hlt
    rw [List.length_map, List.length_range]
    apply lt_numPartsFor hpos hsize
    exact (Nat.div_mul_le_self _ _).trans_lt hlt

theorem insertionSort_qsortSpec : QsortSpec comparePartFileEntries
    (List.insertionSort fun a b : PartFileEntry ↦ a.offsetInPart ≤ b.offsetInPart) where
  perm := List.perm_insertionSort _
  sorted := by
    intro entries
    have htotal : Std.Total fun a b : PartFileEntry ↦ a.offsetInPart ≤ b.offsetInPart :=
      ⟨fun a b ↦ Nat.le_total _ _⟩
    have htrans : IsTrans PartFileEntry fun a b ↦ a.offsetInPart ≤ b.offsetInPart :=
      ⟨fun _ _ _ ↦ Nat.le_trans⟩
    exact (List.pairwise_insertionSort _ entries).imp comparePartFileEntries_nonpos.mpr

/-- The metadata of a file at an offset, for parts of 8 MiB. -/
def fileAt (offset : ℕ) : FileMetadata where
  filename := [97]
  localHeaderOffset := offset
  compressedSize := 9
  uncompressedSize := 3
  crc32 := 0
  compressionMethod := zipMethodZstd
  partIndex := offset / burstPartSize % 2 ^ 32
  unixMode := 0
  uid := 0
  gid := 0
  hasUnixMode := false
  hasUnixExtra := false
  isSymlink := false
  usesZip64Descriptor := false

theorem buildPartTables_partition_sample :
    ∃ parts, buildPartTables
        (List.insertionSort fun a b : PartFileEntry ↦ a.offsetInPart ≤ b.offsetInPart)
        [fileAt 8388708, fileAt 50, fileAt 0] 8388800 burstPartSize = some (.ok parts) ∧
      Partitions [fileAt 8388708, fileAt 50, fileAt 0] burstPartSize parts := by
  have hindex : ∀ f ∈ [fileAt 8388708, fileAt 50, fileAt 0],
      f.partIndex = f.localHeaderOffset / burstPartSize % 2 ^ 32 := by
    simp [fileAt]
  have hoffset : ∀ f ∈ [fileAt 8388708, fileAt 50, fileAt 0], f.localHeaderOffset < 2 ^ 55 := by
    simp [fileAt]
  obtain ⟨parts, hbuild, hparts, -⟩ := buildPartTables_partition insertionSort_qsortSpec hindex
    hoffset dvd_rfl (by decide) (show 8388800 + burstPartSize ≤ 2 ^ 64 by decide)
  exact ⟨parts, hbuild, hparts⟩

/-- A header after the end of the archive still lies in its last part and is listed there. -/
theorem headerBehindArchive_listed :
    ∃ parts, buildPartTables
        (List.insertionSort fun a b : PartFileEntry ↦ a.offsetInPart ≤ b.offsetInPart)
        [fileAt 200] 100 burstPartSize = some (.ok parts) ∧
      ¬ ∀ part ∈ parts, ∀ entry ∈ part.entries,
        ∃ f, [fileAt 200][entry.fileIndex]? = some f ∧ f.localHeaderOffset < 100 := by
  refine ⟨[⟨[⟨0, 200⟩], 1, none⟩], by decide, ?_⟩
  intro hall
  obtain ⟨f, hf, hlt⟩ := hall _ List.mem_cons_self ⟨0, 200⟩ List.mem_cons_self
  obtain rfl := Option.some.inj hf
  simp [fileAt] at hlt

end Burst
