import Burst.CentralDirParser
import Mathlib.Data.List.Sort

namespace Burst

structure PartFileEntry where
  fileIndex : ℕ
  offsetInPart : ℕ
  deriving DecidableEq, Repr

/-- `continuingFile` is the index of the file the pointer refers to. -/
structure PartFiles where
  entries : List PartFileEntry
  continuingFile : Option ℕ
  deriving DecidableEq, Repr

def sizeofPartFiles : ℕ := 24

def numPartsFor (archiveSize partSize : ℕ) : ℕ :=
  let numParts := (archiveSize + partSize - 1) % 2 ^ 64 / partSize
  if numParts = 0 then 1 else numParts

/-- The files that start in a part, as the second pass collects them. -/
def partEntries (files : List FileMetadata) (partSize partIdx : ℕ) : List PartFileEntry :=
  files.zipIdx.filterMap fun f ↦
    if f.1.partIndex = partIdx then some ⟨f.2, f.1.localHeaderOffset % partSize⟩ else none

theorem mem_partEntries {files : List FileMetadata} {partSize p : ℕ} {entry : PartFileEntry} :
    entry ∈ partEntries files partSize p ↔ ∃ f, files[entry.fileIndex]? = some f ∧
      f.partIndex = p ∧ entry.offsetInPart = f.localHeaderOffset % partSize := by
  simp only [partEntries, List.mem_filterMap, Prod.exists, List.mem_zipIdx_iff_getElem?]
  constructor
  · rintro ⟨f, i, hget, heq⟩
    split at heq
    · next hpart =>
      obtain rfl := Option.some.inj heq
      exact ⟨f, hget, hpart, rfl⟩
    · cases heq
  · rintro ⟨f, hget, hpart, hoffset⟩
    refine ⟨f, entry.fileIndex, hget, ?_⟩
    rw [if_pos hpart, ← hoffset]

/-- Whether the estimate of where a file's data ends reaches over a part boundary. -/
def continuesInto (partStart : ℕ) (f : FileMetadata) : Bool :=
  f.localHeaderOffset < partStart ∧
    (f.localHeaderOffset + 30 + f.compressedSize + 16) % 2 ^ 64 > partStart

def continuingFile (files : List FileMetadata) (partSize partIdx : ℕ) : Option ℕ :=
  if partIdx = 0 then none
  else files.findIdx? (continuesInto (partIdx * partSize % 2 ^ 64))

def partFilesAt (files : List FileMetadata) (partSize partIdx : ℕ) : PartFiles where
  entries := (partEntries files partSize partIdx).insertionSort
    fun a b ↦ a.offsetInPart ≤ b.offsetInPart
  continuingFile := continuingFile files partSize partIdx

def buildPartMap (files : List FileMetadata) (archiveSize partSize : ℕ) :
    Except CentralDirParseError (List PartFiles) :=
  let numParts := numPartsFor archiveSize partSize
  if 2 ^ 63 ≤ numParts * sizeofPartFiles then .error .memory
  else .ok ((List.range numParts).map (partFilesAt files partSize))

theorem buildPartMap_getElem {files : List FileMetadata} {archiveSize partSize : ℕ}
    {parts : List PartFiles} (h : buildPartMap files archiveSize partSize = .ok parts) {p : ℕ}
    (hp : p < numPartsFor archiveSize partSize) : parts[p]? = some (partFilesAt files partSize p) := by
  rw [buildPartMap] at h
  split at h
  · cases h
  · obtain rfl := Except.ok.inj h
    rw [List.getElem?_map, List.getElem?_range hp]
    rfl

theorem buildPartMap_some {files : List FileMetadata} {archiveSize partSize : ℕ}
    {parts : List PartFiles} (h : buildPartMap files archiveSize partSize = .ok parts) {p : ℕ}
    {part : PartFiles} (hpart : parts[p]? = some part) :
    p < numPartsFor archiveSize partSize ∧ part = partFilesAt files partSize p := by
  have hlt : p < numPartsFor archiveSize partSize := by
    by_contra hge
    rw [buildPartMap] at h
    split at h
    · cases h
    · obtain rfl := Except.ok.inj h
      rw [List.getElem?_eq_none (by rw [List.length_map, List.length_range]; omega)] at hpart
      cases hpart
  rw [buildPartMap_getElem h hlt] at hpart
  exact ⟨hlt, (Option.some.inj hpart).symm⟩

theorem lt_numPartsFor {archiveSize partSize p : ℕ} (hpart : 0 < partSize)
    (hsize : archiveSize + partSize ≤ 2 ^ 64) (hp : p * partSize < archiveSize) :
    p < numPartsFor archiveSize partSize := by
  have hle : p + 1 ≤ (archiveSize + partSize - 1) / partSize := by
    rw [Nat.le_div_iff_mul_le hpart, Nat.succ_mul]
    omega
  rw [numPartsFor, Nat.mod_eq_of_lt (by omega)]
  split <;> omega

theorem numPartsFor_allocates (archiveSize : ℕ) {partSize : ℕ} (hpart : burstPartSize ≤ partSize) :
    ¬ 2 ^ 63 ≤ numPartsFor archiveSize partSize * sizeofPartFiles := by
  have hbound : numPartsFor archiveSize partSize ≤ 2 ^ 64 / burstPartSize := by
    have hdiv : (archiveSize + partSize - 1) % 2 ^ 64 / partSize ≤ 2 ^ 64 / burstPartSize :=
      Nat.div_le_div (Nat.mod_lt _ (by norm_num)).le hpart (by norm_num [burstPartSize])
    rw [numPartsFor]
    split
    · norm_num [burstPartSize]
    · exact hdiv
  have hsmall : 2 ^ 64 / burstPartSize = 2 ^ 41 := by norm_num [burstPartSize]
  rw [hsmall] at hbound
  rw [sizeofPartFiles]
  omega

theorem buildPartMap_total (files : List FileMetadata) (archiveSize : ℕ) {partSize : ℕ}
    (hpart : burstPartSize ≤ partSize) :
    ∃ parts, buildPartMap files archiveSize partSize = .ok parts := by
  refine ⟨(List.range (numPartsFor archiveSize partSize)).map (partFilesAt files partSize), ?_⟩
  rw [buildPartMap, if_neg (numPartsFor_allocates archiveSize hpart)]

end Burst
