import Burst.BodySegments
import Burst.CentralDirParser

namespace Burst

def uint32Max : ℕ := 2 ^ 32 - 1

/-- The first part of which the first file at hand is the first file; `prevPart` is the part of the
file before. -/
def firstSafePart (partSize : ℕ) : Option ℕ → List FileMetadata → Option ℕ
  | _, [] => none
  | prevPart, f :: files =>
    if f.localHeaderOffset = partStart partSize f.partIndex then some f.partIndex
    else if prevPart.any (· < f.partIndex) then some f.partIndex
    else firstSafePart partSize (some f.partIndex) files

/-- The parts from the first safe one on, without those that begin in the tail buffer. -/
def queueParts (partSize initialStart firstSafe : ℕ) : ℕ → List FileMetadata → List ℕ
  | _, [] => []
  | lastQueued, f :: files =>
    if f.partIndex ≥ firstSafe ∧ f.partIndex ≠ lastQueued then
      if partStart partSize f.partIndex ≥ initialStart then
        queueParts partSize initialStart firstSafe f.partIndex files
      else f.partIndex :: queueParts partSize initialStart firstSafe f.partIndex files
    else queueParts partSize initialStart firstSafe lastQueued files

/-- `UINT32_MAX` stands for no safe part and for nothing queued yet. -/
def buildEarlyPartQueue (partSize initialStart : ℕ) (files : List FileMetadata) : List ℕ :=
  let firstSafe := (firstSafePart partSize none files).getD uint32Max
  if firstSafe = uint32Max then []
  else queueParts partSize initialStart firstSafe uint32Max files

/-- The number of parts `hybrid_coordinator_create` allocates the queues for. -/
def maxParts (archiveSize partSize : ℕ) : ℕ := (archiveSize + partSize - 1) % 2 ^ 64 / partSize

end Burst
