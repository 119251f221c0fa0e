import Burst.Lib.LittleEndian

namespace LittleEndian

/-- A read that traps when it touches a byte outside the buffer. -/
def readChecked (bs : List UInt8) (off w : ℕ) : Option ℕ :=
  if off + w ≤ bs.length then some (read bs off w) else none

theorem readChecked_inside {bs : List UInt8} {off w : ℕ} (h : off + w ≤ bs.length) :
    readChecked bs off w = some (read bs off w) := if_pos h

theorem readChecked_outside {bs : List UInt8} {off w : ℕ} (h : bs.length < off + w) :
    readChecked bs off w = none := if_neg (Nat.not_le.mpr h)

theorem readChecked_ne_none_iff {bs : List UInt8} {off w : ℕ} :
    readChecked bs off w ≠ none ↔ off + w ≤ bs.length := by
  rw [readChecked]
  split <;> simp_all

/-- A read that does not trap reads what is there. -/
theorem readChecked_eq_some {bs : List UInt8} {off w n : ℕ} (h : readChecked bs off w = some n) :
    n = read bs off w ∧ off + w ≤ bs.length := by
  rw [readChecked] at h
  split_ifs at h with hin
  exact ⟨(Option.some.inj h).symm, hin⟩

theorem read_outside {bs : List UInt8} {off : ℕ} (h : bs.length ≤ off) (w : ℕ) :
    read bs off w = 0 := by
  rw [read, List.drop_eq_nil_of_le h, List.take_nil, decode]

/-- A piece of the buffer, read byte by byte. -/
def sliceChecked (bs : List UInt8) (off n : ℕ) : Option (List UInt8) :=
  if off + n ≤ bs.length then some ((bs.drop off).take n) else none

theorem sliceChecked_inside {bs : List UInt8} {off n : ℕ} (h : off + n ≤ bs.length) :
    sliceChecked bs off n = some ((bs.drop off).take n) := if_pos h

/-- A write of some bytes at an offset into a buffer of a size. -/
def writeChecked (size off n : ℕ) : Option Unit := if off + n ≤ size then some () else none

theorem writeChecked_inside {size off n : ℕ} (h : off + n ≤ size) :
    writeChecked size off n = some () := if_pos h

theorem writeChecked_outside {size off n : ℕ} (h : size < off + n) :
    writeChecked size off n = none := if_neg (Nat.not_le.mpr h)

end LittleEndian
