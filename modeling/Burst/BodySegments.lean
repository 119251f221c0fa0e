import Mathlib.Tactic.NormNum

namespace Burst

/-- `data` are the bytes the pointer refers to, at least `size` of them. -/
structure BodyDataSegment where
  data : List UInt8
  size : ℕ
  archiveOffset : ℕ
  deriving DecidableEq, Repr

def BodyDataSegment.archiveEnd (segment : BodyDataSegment) : ℕ :=
  (segment.archiveOffset + segment.size) % 2 ^ 64

def partStart (partSize p : ℕ) : ℕ := p * partSize % 2 ^ 64

/-- The end of a part, clamped to the central directory. -/
def partBodyEnd (partSize centralDirOffset p : ℕ) : ℕ :=
  min ((partStart partSize p + partSize) % 2 ^ 64) centralDirOffset

theorem partStart_eq {partSize p bound : ℕ} (h : p * partSize < bound) (hbound : bound < 2 ^ 64) :
    partStart partSize p = p * partSize := Nat.mod_eq_of_lt (h.trans hbound)

theorem partBodyEnd_eq {partSize centralDirOffset p : ℕ} (h : p * partSize < centralDirOffset)
    (hsize : centralDirOffset + partSize < 2 ^ 64) :
    partBodyEnd partSize centralDirOffset p = min ((p + 1) * partSize) centralDirOffset := by
  rw [partBodyEnd, partStart_eq h (by omega), ← Nat.add_one_mul, Nat.mod_eq_of_lt]
  rw [Nat.add_one_mul]
  omega

/-- The segment holds all body data of the part. -/
def BodyDataSegment.Covers (segment : BodyDataSegment) (partSize centralDirOffset p : ℕ) : Prop :=
  segment.archiveOffset ≤ partStart partSize p ∧
    partBodyEnd partSize centralDirOffset p ≤ segment.archiveEnd

instance (segment : BodyDataSegment) (partSize centralDirOffset p : ℕ) :
    Decidable (segment.Covers partSize centralDirOffset p) :=
  inferInstanceAs (Decidable (_ ∧ _))

def findBodySegmentForOffset (segments : List BodyDataSegment) (offset : ℕ) :
    Option BodyDataSegment :=
  segments.find? fun segment ↦
    segment.archiveOffset ≤ offset ∧ offset < segment.archiveEnd

/-- A covered part that has body data starts in some segment. -/
theorem findBodySegmentForOffset_of_covers {segments : List BodyDataSegment}
    {segment : BodyDataSegment} {partSize centralDirOffset p : ℕ} (hmem : segment ∈ segments)
    (hcovers : segment.Covers partSize centralDirOffset p)
    (hbody : partStart partSize p < partBodyEnd partSize centralDirOffset p) :
    ∃ found, findBodySegmentForOffset segments (partStart partSize p) = some found := by
  rw [← Option.isSome_iff_exists, findBodySegmentForOffset, List.find?_isSome]
  refine ⟨segment, hmem, ?_⟩
  have hend := hcovers.2
  simp only [decide_eq_true_eq]
  exact ⟨hcovers.1, by omega⟩

end Burst
