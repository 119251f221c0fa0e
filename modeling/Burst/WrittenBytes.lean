import Burst.StreamBounds

namespace Burst

open LittleEndian Incremental

/-- What a frame decompresses to has the size that its header declares. -/
def ZstdLib.SizesAgree (zstd : ZstdLib) : Prop :=
  ∀ {bs data : List UInt8} {compressedSize contentSize : ℕ} (capacity : ℕ),
    zstd.findFrameCompressedSize bs = .size compressedSize →
    zstd.getFrameContentSize bs = .size contentSize →
    zstd.decompressDCtx capacity (bs.take compressedSize) = some data → data.length = contentSize

/-- A system call that succeeds with a result writes a byte of a file. -/
def FileOp.Writes (n : ℕ) (path : Path) (i : ℕ) : FileOp → Prop
  | encodedWrite p _ unencodedLen offset => p = path ∧ offset ≤ i ∧ i < offset + unencodedLen
  | pwrite p data offset => p = path ∧ offset ≤ i ∧ i < offset + min n data.length
  | _ => False

/-- One of the system calls made has written a byte of a file. -/
def Written (os : Os) (ops : List FileOp) (path : Path) (i : ℕ) : Prop :=
  ∃ done op n rest, ops = done ++ op :: rest ∧ os.respond done op = .ok n ∧ op.Writes n path i

/-- The bytes of a file between two offsets have been written. -/
def WrittenRange (os : Os) (ops : List FileOp) (path : Path) (lo hi : ℕ) : Prop :=
  ∀ i, lo ≤ i → i < hi → Written os ops path i

theorem Written.mono {os : Os} {ops ops' : List FileOp} {path : Path} {i : ℕ}
    (h : Written os ops path i) (hle : ops <+: ops') : Written os ops' path i := by
  obtain ⟨done, op, n, rest, rfl, hok, hwrites⟩ := h
  obtain ⟨more, rfl⟩ := hle
  exact ⟨done, op, n, rest ++ more, by simp, hok, hwrites⟩

theorem WrittenRange.mono {os : Os} {ops ops' : List FileOp} {path : Path} {lo hi : ℕ}
    (h : WrittenRange os ops path lo hi) (hle : ops <+: ops') : WrittenRange os ops' path lo hi :=
  fun i hlo hhi ↦ (h i hlo hhi).mono hle

theorem WrittenRange.append {os : Os} {ops : List FileOp} {path : Path} {lo mid hi : ℕ}
    (h : WrittenRange os ops path lo mid) (h' : WrittenRange os ops path mid hi) :
    WrittenRange os ops path lo hi := by
  intro i hlo hhi
  rcases Nat.lt_or_ge i mid with hlt | hge
  · exact h i hlo hlt
  · exact h' i hge hhi

theorem writtenRange_empty (os : Os) (ops : List FileOp) (path : Path) {lo hi : ℕ} (h : hi ≤ lo) :
    WrittenRange os ops path lo hi := by
  intro i hlo hhi
  omega

theorem doWriteUnencoded_written {os : Os} {zstd : ZstdLib} {ops ops' : List FileOp} {path : Path}
    {frame : List UInt8} {len offset : ℕ}
    (hsize : ∀ data, zstd.decompressDCtx maxExtentSize frame = some data → data.length = len)
    (h : doWriteUnencoded os zstd ops path frame len offset = (none, ops')) :
    ops <+: ops' ∧ WrittenRange os ops' path offset (offset + len) := by
  rw [doWriteUnencoded] at h
  split at h
  · cases h
  split at h
  · cases h
  split at h
  · cases h
  · next data hdata =>
    have hlen := hsize data hdata
    dsimp only at h
    split at h
    · next n hok =>
      obtain ⟨hn, rfl⟩ := Prod.mk.inj h
      have hall : n = data.length := by
        by_contra hne
        rw [if_neg hne] at hn
        cases hn
      refine ⟨List.prefix_append _ _, fun i hlo hhi ↦ ?_⟩
      refine ⟨ops, _, n, [], rfl, hok, rfl, hlo, ?_⟩
      rw [hall, Nat.min_self, hlen]
      exact hhi
    · cases h

/-- A write that succeeds has written the bytes from its offset on. -/
theorem doWriteEncoded_written {os : Os} {zstd : ZstdLib} {ops ops' : List FileOp} {path : Path}
    {frame : List UInt8} {len offset : ℕ}
    (hsize : ∀ data, zstd.decompressDCtx maxExtentSize frame = some data → data.length = len)
    (h : doWriteEncoded os zstd ops path frame len offset = (none, ops')) :
    ops <+: ops' ∧ WrittenRange os ops' path offset (offset + len) := by
  rw [doWriteEncoded] at h
  split at h
  · cases h
  split at h
  · exact doWriteUnencoded_written hsize h
  split at h
  · cases h
  dsimp only at h
  have hfallback {ops' : List FileOp} (h : doWriteUnencoded os zstd
      (ops ++ [.encodedWrite path frame len offset]) path frame len offset = (none, ops')) :
      ops <+: ops' ∧ WrittenRange os ops' path offset (offset + len) := by
    obtain ⟨hle, hwritten⟩ := doWriteUnencoded_written hsize h
    exact ⟨(List.prefix_append _ _).trans hle, hwritten⟩
  split at h
  · next n hok =>
    obtain ⟨-, rfl⟩ := Prod.mk.inj h
    exact ⟨List.prefix_append _ _, fun i hlo hhi ↦ ⟨ops, _, n, [], rfl, hok, rfl, hlo, hhi⟩⟩
  · exact hfallback h
  · exact hfallback h
  · cases h

/-- Where the file of an entry is put. -/
def ProcessorEnv.filePath (env : ProcessorEnv) (fileMeta : FileMetadata) : Path :=
  env.outputDir ++ [slash] ++ fileMeta.filename

def FileMetadata.isDirectory (fileMeta : FileMetadata) : Bool :=
  fileMeta.filename.getLast? = some slash

/-- The entry has been opened: its file or directory has been created. A symlink is made when it is
closed. -/
structure Opened (env : ProcessorEnv) (ops : List FileOp) (fileMeta : FileMetadata) : Prop where
  directory : fileMeta.isDirectory = true → .mkdir (env.filePath fileMeta) 0o755 ∈ ops
  regular : fileMeta.isDirectory = false → fileMeta.isSymlink = false →
    .openFile (env.filePath fileMeta) ∈ ops

/-- A local header from its signature to the end of its extra field. -/
def IsLocalHeader (header : List UInt8) : Prop :=
  30 ≤ header.length ∧ header.length = localHeaderSize header ∧
    read header 0 4 = zipLocalFileHeaderSig

/-- The bytes end with a local header and what follows it. -/
def EndsAfterHeader (bytes target : List UInt8) : Prop :=
  ∃ before header, bytes = before ++ header ++ target ∧ IsLocalHeader header

/-- Nothing, or what follows a local header in the bytes. -/
def FollowsHeader (bytes target : List UInt8) : Prop :=
  target = [] ∨ ∃ upto, upto <+: bytes ∧ EndsAfterHeader upto target

/-- The entry has all of its data, from an offset on: the bytes of a regular file, the target of a
symlink that has been read from the stream. -/
structure Whole (env : ProcessorEnv) (bytes : List UInt8) (ops : List FileOp) (fileMeta : FileMetadata)
    (start : ℕ) : Prop where
  symlink : fileMeta.isSymlink = true → ∃ target : List UInt8,
    target.length = fileMeta.uncompressedSize ∧ FollowsHeader bytes target ∧
      .symlink (target.takeWhile (· ≠ 0)) (env.filePath fileMeta) ∈ ops
  regular : fileMeta.isDirectory = false → fileMeta.isSymlink = false →
    WrittenRange env.os ops (env.filePath fileMeta) start fileMeta.uncompressedSize

theorem Opened.mono {env : ProcessorEnv} {ops ops' : List FileOp} {fileMeta : FileMetadata}
    (h : Opened env ops fileMeta) (hle : ops <+: ops') : Opened env ops' fileMeta where
  directory hdirectory := hle.subset (h.directory hdirectory)
  regular hfile hlink := hle.subset (h.regular hfile hlink)

theorem FollowsHeader.mono {bytes bytes' target : List UInt8} (h : FollowsHeader bytes target)
    (hle : bytes <+: bytes') : FollowsHeader bytes' target := by
  rcases h with hempty | ⟨upto, hupto, hends⟩
  · exact .inl hempty
  · exact .inr ⟨upto, hupto.trans hle, hends⟩

theorem Whole.mono {env : ProcessorEnv} {bytes bytes' : List UInt8} {ops ops' : List FileOp}
    {fileMeta : FileMetadata} {start : ℕ} (h : Whole env bytes ops fileMeta start)
    (hbytes : bytes <+: bytes') (hle : ops <+: ops') : Whole env bytes' ops' fileMeta start where
  symlink hlink := by
    obtain ⟨target, hlen, hfollows, hmem⟩ := h.symlink hlink
    exact ⟨target, hlen, hfollows.mono hbytes, hle.subset hmem⟩
  regular hfile hlink := (h.regular hfile hlink).mono hle

/-- The file that is open is that of an entry, and has been written from an offset on up to where it
is. -/
structure Opens (env : ProcessorEnv) (ops : List FileOp) (fileMeta : FileMetadata) (start : ℕ)
    (f : FileContext) : Prop where
  filename : f.filename = env.filePath fileMeta
  size : f.expectedTotalSize = fileMeta.uncompressedSize
  isSymlink : f.isSymlink = fileMeta.isSymlink
  isDirectory : f.isDirectory = fileMeta.isDirectory
  opened : Opened env ops fileMeta
  written : WrittenRange env.os ops f.filename start f.uncompressedOffset

/-- The file that is open has all of its data. -/
def FileContext.Complete (f : FileContext) : Prop :=
  (f.isSymlink = true → f.symlinkBuffer.any (f.expectedTotalSize ≤ ·.length) = true) ∧
    (f.isSymlink = false → f.isDirectory = false → f.expectedTotalSize ≤ f.uncompressedOffset)

instance (f : FileContext) : Decidable f.Complete := inferInstanceAs (Decidable (_ ∧ _))

/-- An entry whose file is complete when it is closed is whole. -/
theorem Opens.close {env : ProcessorEnv} {bytes : List UInt8} {ops : List FileOp}
    {fileMeta : FileMetadata} {start : ℕ} {f : FileContext} (h : Opens env ops fileMeta start f)
    (hf : f.Bounded) (htarget : ∀ target, f.symlinkBuffer = some target → FollowsHeader bytes target)
    (hcomplete : f.Complete) : Whole env bytes (ops ++ closeOps env.os f) fileMeta start where
  symlink hlink := by
    rw [← h.isSymlink] at hlink
    have hall := hcomplete.1 hlink
    cases hread : f.symlinkBuffer with
    | none =>
      rw [hread] at hall
      cases hall
    | some target =>
      have hle := (hf.symlink target hread).2
      have hge : f.expectedTotalSize ≤ target.length := by simpa [hread] using hall
      refine ⟨target, by rw [← h.size]; omega, htarget target hread, ?_⟩
      rw [closeOps, hlink, hread, ← h.filename]
      simp
  regular hfile hlink := by
    have hle := hcomplete.2 (h.isSymlink.trans hlink) (h.isDirectory.trans hfile)
    intro i hlo hhi
    rw [← h.filename]
    exact (h.written i hlo (by rw [← h.size] at hhi; omega)).mono (List.prefix_append _ _)

end Burst
