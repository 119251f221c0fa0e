import Burst.FileOps

namespace Burst

/-- What a system call that succeeds with a result does; an encoded write is the same as a write
of what the frame decompresses to. -/
def FileOp.completed (zstd : ZstdLib) (n : ℕ) : FileOp → FileOp
  | encodedWrite path frame _ offset =>
    pwrite path ((zstd.decompressDCtx maxExtentSize frame).getD []) offset
  | pwrite path data offset => pwrite path (data.take n) offset
  | op => op

/-- What a system call does: nothing when it fails. -/
def effect (os : Os) (zstd : ZstdLib) (done : List FileOp) (op : FileOp) : List FileOp :=
  match os.respond done op with
  | .error _ => []
  | .ok n => [op.completed zstd n]

/-- What a sequence of system calls does after others. -/
def effects (os : Os) (zstd : ZstdLib) : List FileOp → List FileOp → List FileOp
  | _, [] => []
  | done, op :: ops => effect os zstd done op ++ effects os zstd (done ++ [op]) ops

theorem effects_append (os : Os) (zstd : ZstdLib) (done ops ops' : List FileOp) :
    effects os zstd done (ops ++ ops') =
      effects os zstd done ops ++ effects os zstd (done ++ ops) ops' := by
  induction ops generalizing done with
  | nil => simp [effects]
  | cons op ops ih => simp [effects, ih]

/-- System calls made after others, with what they do. -/
def Performs (os : Os) (zstd : ZstdLib) (done ops' : List FileOp) (does : List FileOp) : Prop :=
  ∃ ops, ops' = done ++ ops ∧ effects os zstd done ops = does

namespace Performs

variable {os : Os} {zstd : ZstdLib} {done ops ops' does does' : List FileOp}

theorem refl (os : Os) (zstd : ZstdLib) (done : List FileOp) : Performs os zstd done done [] :=
  ⟨[], by simp, rfl⟩

theorem trans (h : Performs os zstd done ops does) (h' : Performs os zstd ops ops' does') :
    Performs os zstd done ops' (does ++ does') := by
  obtain ⟨xs, rfl, hxs⟩ := h
  obtain ⟨ys, rfl, hys⟩ := h'
  exact ⟨xs ++ ys, by rw [List.append_assoc], by rw [effects_append, hxs, hys]⟩

theorem effects_eq (h : Performs os zstd [] ops does) : effects os zstd [] ops = does := by
  obtain ⟨xs, rfl, hxs⟩ := h
  exact hxs

end Performs

theorem performs_one (os : Os) (zstd : ZstdLib) (done : List FileOp) (op : FileOp) :
    Performs os zstd done (done ++ [op]) (effect os zstd done op) :=
  ⟨[op], rfl, by simp [effects]⟩

theorem doWriteUnencoded_performs {os : Os} {zstd : ZstdLib} {ops ops' : List FileOp} {path : Path}
    {frame chunk : List UInt8} (hframe : zstd.decompressDCtx maxExtentSize frame = some chunk)
    {len offset : ℕ} (h : doWriteUnencoded os zstd ops path frame len offset = (none, ops')) :
    Performs os zstd ops ops' [.pwrite path chunk offset] := by
  rw [doWriteUnencoded] at h
  split_ifs at h
  · cases h
  · cases h
  rw [hframe] at h
  simp only at h
  cases hresponse : os.respond ops (.pwrite path chunk offset) with
  | error e =>
    rw [hresponse] at h
    cases h
  | ok n =>
    rw [hresponse] at h
    obtain ⟨hn, rfl⟩ := Prod.mk.inj h
    have hall : n = chunk.length := by
      by_contra hne
      rw [if_neg hne] at hn
      cases hn
    have hone := performs_one os zstd ops (.pwrite path chunk offset)
    simpa only [effect, hresponse, FileOp.completed, hall, List.take_length] using hone

/-- A write that succeeds writes the chunk at its offset, whichever way it takes. -/
theorem doWriteEncoded_performs {os : Os} {zstd : ZstdLib} {ops ops' : List FileOp} {path : Path}
    {frame chunk : List UInt8} (hframe : zstd.decompressDCtx maxExtentSize frame = some chunk)
    {len offset : ℕ} (h : doWriteEncoded os zstd ops path frame len offset = (none, ops')) :
    Performs os zstd ops ops' [.pwrite path chunk offset] := by
  rw [doWriteEncoded] at h
  split_ifs at h
  · cases h
  · exact doWriteUnencoded_performs hframe h
  · cases h
  · have hone := performs_one os zstd ops (.encodedWrite path frame len offset)
    dsimp only at h
    cases hresponse : os.respond ops (.encodedWrite path frame len offset) with
    | ok n =>
      rw [hresponse] at h
      obtain ⟨-, rfl⟩ := Prod.mk.inj h
      simpa only [effect, hresponse, FileOp.completed, hframe, Option.getD_some] using hone
    | error e =>
      rw [effect, hresponse] at hone
      rw [hresponse] at h
      cases e with
      | enotty => exact hone.trans (doWriteUnencoded_performs hframe h)
      | eopnotsupp => exact hone.trans (doWriteUnencoded_performs hframe h)
      | eexist => cases h
      | other => cases h

end Burst
