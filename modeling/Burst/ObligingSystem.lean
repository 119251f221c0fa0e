import Burst.FileEffects
import Burst.FileRuns
import Burst.Reader

namespace Burst

open LittleEndian Incremental Tiling

/-- None of the calls that an extraction depends on fails. Encoded writes may not be there, a directory may
be there already, and there may be nothing to unlink. -/
structure Os.Obliges (os : Os) : Prop where
  mkdir : ∀ done path mode, (∃ n, os.respond done (.mkdir path mode) = .ok n) ∨
    os.respond done (.mkdir path mode) = .error .eexist
  openFile : ∀ done path, ∃ n, os.respond done (.openFile path) = .ok n
  encodedWrite : ∀ done path frame len offset,
    (∃ n, os.respond done (.encodedWrite path frame len offset) = .ok n) ∨
      os.respond done (.encodedWrite path frame len offset) = .error .enotty ∨
      os.respond done (.encodedWrite path frame len offset) = .error .eopnotsupp
  pwrite : ∀ done path data offset, os.respond done (.pwrite path data offset) = .ok data.length
  ftruncate : ∀ done path size, ∃ n, os.respond done (.ftruncate path size) = .ok n
  symlink : ∀ done target path, ∃ n, os.respond done (.symlink target path) = .ok n

theorem obligingOs_obliges : obligingOs.Obliges where
  mkdir _ _ _ := .inl ⟨0, rfl⟩
  openFile _ _ := ⟨0, rfl⟩
  encodedWrite _ _ _ _ _ := .inl ⟨0, rfl⟩
  pwrite _ _ _ _ := rfl
  ftruncate _ _ _ := ⟨0, rfl⟩
  symlink _ _ _ := ⟨0, rfl⟩

/-- What bears on the content of files and on the targets of symlinks. -/
def FileOp.isDeed : FileOp → Bool
  | openFile _ => true
  | pwrite _ _ _ => true
  | ftruncate _ _ => true
  | symlink _ _ => true
  | _ => false

/-- What the system calls come to that a processor has made. -/
def ProcessorEnv.deeds (env : ProcessorEnv) (ops : List FileOp) : List FileOp :=
  (effects env.os env.zstd [] ops).filter FileOp.isDeed

/-- System calls made after others, with what bears on contents. -/
def Does (env : ProcessorEnv) (ops ops' deeds : List FileOp) : Prop :=
  ∃ does, Performs env.os env.zstd ops ops' does ∧ does.filter FileOp.isDeed = deeds

namespace Does

variable {env : ProcessorEnv} {ops ops' ops'' deeds deeds' : List FileOp}

theorem refl (env : ProcessorEnv) (ops : List FileOp) : Does env ops ops [] :=
  ⟨[], .refl _ _ _, rfl⟩

theorem trans (h : Does env ops ops' deeds) (h' : Does env ops' ops'' deeds') :
    Does env ops ops'' (deeds ++ deeds') := by
  obtain ⟨does, hdoes, rfl⟩ := h
  obtain ⟨more, hmore, rfl⟩ := h'
  exact ⟨does ++ more, hdoes.trans hmore, List.filter_append _ _⟩

theorem deeds_eq (h : Does env ops ops' deeds) : env.deeds ops' = env.deeds ops ++ deeds := by
  obtain ⟨does, ⟨made, rfl, hdoes⟩, rfl⟩ := h
  rw [ProcessorEnv.deeds, effects_append, List.filter_append, List.nil_append, hdoes]
  rfl

/-- A call that does not bear on contents, whatever it returns. -/
theorem idle {op : FileOp} (hop : ∀ n, (op.completed env.zstd n).isDeed = false) :
    Does env ops (ops ++ [op]) [] := by
  refine ⟨_, performs_one env.os env.zstd ops op, ?_⟩
  rw [effect]
  cases env.os.respond ops op with
  | error e => rfl
  | ok n => exact List.filter_cons_of_neg (by simp [hop n])

theorem deed {op done : FileOp} {n : ℕ} (hok : env.os.respond ops op = .ok n)
    (hop : op.completed env.zstd n = done) (hdone : done.isDeed = true) :
    Does env ops (ops ++ [op]) [done] := by
  refine ⟨_, performs_one env.os env.zstd ops op, ?_⟩
  rw [effect, hok]
  simp only [hop]
  exact List.filter_cons_of_pos hdone

theorem idles {made : List FileOp} (hmade : ∀ op ∈ made, ∀ n, (op.completed env.zstd n).isDeed = false) :
    Does env ops (ops ++ made) [] := by
  induction made generalizing ops with
  | nil =>
    rw [List.append_nil]
    exact .refl env ops
  | cons op made ih =>
    have hfirst : Does env ops (ops ++ [op]) [] := idle (hmade op List.mem_cons_self)
    have hrest : Does env (ops ++ [op]) (ops ++ [op] ++ made) [] :=
      ih fun o ho ↦ hmade o (List.mem_cons_of_mem op ho)
    rw [List.append_assoc, List.singleton_append] at hrest
    exact hfirst.trans hrest

end Does

theorem openOutputFile_of_closed {env : ProcessorEnv} {p : PartProcessor} (hclosed : p.currentFile = none)
    (fileMeta : FileMetadata) :
    openOutputFile env p fileMeta = openOutputPath env p (env.context fileMeta) := by
  have hclose : closeOutputFile env.os p = p := by
    rw [closeOutputFile, hclosed]
  rw [openOutputFile, hclose]
  rfl

section

variable {env : ProcessorEnv} (hos : env.os.Obliges)
include hos

theorem Os.Obliges.mkdirAll (ops : List FileOp) (paths : List Path) :
    ∃ made, mkdirAll env.os ops paths = (true, made) ∧ Does env ops made [] := by
  induction paths generalizing ops with
  | nil => exact ⟨ops, rfl, .refl env ops⟩
  | cons path paths ih =>
    obtain ⟨made, hmade, hdoes⟩ := ih (ops ++ [.mkdir path 0o755])
    have hfirst : Does env ops (ops ++ [.mkdir path 0o755]) [] := .idle fun n ↦ rfl
    refine ⟨made, ?_, hfirst.trans hdoes⟩
    rw [Burst.mkdirAll]
    rcases hos.mkdir ops path 0o755 with ⟨n, hok⟩ | hexist
    · simp only [hok, hmade]
    · simp only [hexist, hmade]

/-- Closing a regular file gives it its length. -/
theorem Os.Obliges.closeRegular {fileMeta : FileMetadata} (hlink : fileMeta.isSymlink = false)
    (ops : List FileOp) (offset : ℕ) :
    Does env ops (ops ++ closeOps env.os { env.context fileMeta with
      fdOpen := true, uncompressedOffset := offset })
      [.ftruncate (env.filePath fileMeta) fileMeta.uncompressedSize] := by
  have hrest : ∀ op ∈ restoreFileOps env.os (env.context fileMeta) ++ [.close (env.filePath fileMeta)],
      ∀ n, (op.completed env.zstd n).isDeed = false := by
    intro op hop n
    simp only [restoreFileOps, List.mem_append, List.mem_ite_nil_right, List.mem_singleton] at hop
    rcases hop with (⟨-, rfl⟩ | ⟨-, rfl⟩) | rfl <;> rfl
  obtain ⟨n, hok⟩ := hos.ftruncate ops (env.filePath fileMeta) fileMeta.uncompressedSize
  have hfirst := Does.deed hok rfl rfl
  rw [closeOps_regular hlink, List.append_assoc, ← List.append_assoc ops]
  exact hfirst.trans (.idles hrest)

/-- Closing a symlink makes it. -/
theorem Os.Obliges.closeSymlink {fileMeta : FileMetadata} (hlink : fileMeta.isSymlink = true)
    (ops : List FileOp) (offset : ℕ) (target : List UInt8) :
    Does env ops (ops ++ closeOps env.os { env.context fileMeta with
      uncompressedOffset := offset, symlinkBuffer := some target })
      [.symlink (target.takeWhile (· ≠ 0)) (env.filePath fileMeta)] := by
  have hfirst : Does env ops (ops ++ [.unlink (env.filePath fileMeta)]) [] := .idle fun n ↦ rfl
  obtain ⟨n, hok⟩ := hos.symlink (ops ++ [.unlink (env.filePath fileMeta)]) (target.takeWhile (· ≠ 0))
    (env.filePath fileMeta)
  have hmade : Does env (ops ++ [.unlink (env.filePath fileMeta)]) (ops ++ [.unlink (env.filePath fileMeta)] ++
      [.symlink (target.takeWhile (· ≠ 0)) (env.filePath fileMeta)])
      [.symlink (target.takeWhile (· ≠ 0)) (env.filePath fileMeta)] := .deed hok rfl rfl
  have hrest : ∀ op ∈ (if fileMeta.hasUnixExtra ∧ env.os.isRoot then
      [FileOp.lchown (env.filePath fileMeta) fileMeta.uid fileMeta.gid] else []),
      ∀ n, (op.completed env.zstd n).isDeed = false := by
    intro op hop n
    simp only [List.mem_ite_nil_right, List.mem_singleton] at hop
    rw [hop.2]
    rfl
  have hall := hfirst.trans (hmade.trans (.idles hrest))
  rw [closeOps_symlink hlink, ← List.append_assoc]
  simpa only [List.append_assoc, List.cons_append, List.nil_append, List.append_nil] using hall

theorem Os.Obliges.ensureDirectoryExists (p : PartProcessor) (fileMeta : FileMetadata) :
    ∃ parents, ensureDirectoryExists env.os p.ops (env.context fileMeta).filename = (true, parents) ∧
      Does env p.ops parents [] :=
  hos.mkdirAll p.ops (directoryPaths (dirname (env.filePath fileMeta)))

section Opening

variable {p : PartProcessor} (hclosed : p.currentFile = none) {fileMeta : FileMetadata}
include hclosed

theorem Os.Obliges.openDirectory (hdirectory : fileMeta.isDirectory = true) :
    ∃ ops, openOutputFile env p fileMeta =
        (none, { p with currentFile := some (env.context fileMeta), ops := ops }) ∧
      Does env p.ops ops [] := by
  obtain ⟨parents, hparents, hdoes⟩ := hos.ensureDirectoryExists p fileMeta
  have hkind : (env.context fileMeta).isDirectory = true := hdirectory
  have hmade : Does env parents (parents ++ [.mkdir (env.filePath fileMeta) 0o755]) [] := .idle fun n ↦ rfl
  have hrestore : ∀ op ∈ restoreDirectoryOps env.os (env.context fileMeta),
      ∀ n, (op.completed env.zstd n).isDeed = false := by
    intro op hop n
    simp only [restoreDirectoryOps, List.mem_append, List.mem_ite_nil_right, List.mem_singleton] at hop
    rcases hop with ⟨-, rfl⟩ | ⟨-, rfl⟩ <;> rfl
  refine ⟨parents ++ [.mkdir (env.filePath fileMeta) 0o755] ++
    restoreDirectoryOps env.os (env.context fileMeta), ?_, hdoes.trans (hmade.trans (.idles hrestore))⟩
  rw [openOutputFile_of_closed hclosed, openOutputPath, hparents]
  simp only [hkind, if_true, makeDirectory]
  rcases hos.mkdir parents (env.filePath fileMeta) 0o755 with ⟨n, hok⟩ | hexist
  · have hrespond : env.os.respond parents (.mkdir (env.context fileMeta).filename 0o755) = .ok n := hok
    rw [hrespond]
    rfl
  · have hrespond : env.os.respond parents (.mkdir (env.context fileMeta).filename 0o755) =
        .error .eexist := hexist
    rw [hrespond]
    rfl

theorem Os.Obliges.openSymlink (hother : fileMeta.isDirectory = false) (hlink : fileMeta.isSymlink = true)
    (hsmall : fileMeta.uncompressedSize + 1 < 2 ^ 63) :
    ∃ ops, openOutputFile env p fileMeta = (none, { p with
        currentFile := some { env.context fileMeta with symlinkBuffer := some [] }, ops := ops }) ∧
      Does env p.ops ops [] := by
  obtain ⟨parents, hparents, hdoes⟩ := hos.ensureDirectoryExists p fileMeta
  have hkind : (env.context fileMeta).isDirectory = false := hother
  have hsymlink : (env.context fileMeta).isSymlink = true := hlink
  have hsize : ¬ ((env.context fileMeta).expectedTotalSize + 1) % 2 ^ 64 ≥ 2 ^ 63 := by
    have heq : (env.context fileMeta).expectedTotalSize = fileMeta.uncompressedSize := rfl
    rw [heq]
    omega
  refine ⟨parents, ?_, hdoes⟩
  rw [openOutputFile_of_closed hclosed, openOutputPath, hparents]
  simp only [hkind, hsymlink, Bool.false_eq_true, if_false, if_true, allocateSymlinkBuffer]
  rw [if_neg hsize]

theorem Os.Obliges.openRegular (hother : fileMeta.isDirectory = false) (hregular : fileMeta.isSymlink = false) :
    ∃ ops, openOutputFile env p fileMeta = (none, { p with
        currentFile := some { env.context fileMeta with fdOpen := true }, ops := ops }) ∧
      Does env p.ops ops [.openFile (env.filePath fileMeta)] := by
  obtain ⟨parents, hparents, hdoes⟩ := hos.ensureDirectoryExists p fileMeta
  have hkind : (env.context fileMeta).isDirectory = false := hother
  have hsymlink : (env.context fileMeta).isSymlink = false := hregular
  obtain ⟨n, hok⟩ := hos.openFile parents (env.filePath fileMeta)
  have hrespond : env.os.respond parents (.openFile (env.context fileMeta).filename) = .ok n := hok
  refine ⟨parents ++ [.openFile (env.filePath fileMeta)], ?_, hdoes.trans (.deed hok rfl rfl)⟩
  rw [openOutputFile_of_closed hclosed, openOutputPath, hparents]
  simp only [hkind, hsymlink, Bool.false_eq_true, if_false, openRegularFile, hrespond]
  rfl

end Opening

/-- A frame is written, whichever way it takes. -/
theorem Os.Obliges.doWriteEncoded {path : Path} {frame chunk : List UInt8}
    (hframe : env.zstd.decompressDCtx maxExtentSize frame = some chunk) (hpos : frame ≠ [])
    {len : ℕ} (hlen : len ≤ maxExtentSize) (ops : List FileOp) (offset : ℕ) :
    ∃ made, doWriteEncoded env.os env.zstd ops path frame len offset = (none, made) ∧
      Does env ops made [.pwrite path chunk offset] := by
  have hplain (ops : List FileOp) : ∃ made,
      doWriteUnencoded env.os env.zstd ops path frame len offset = (none, made) := by
    refine ⟨ops ++ [.pwrite path chunk offset], ?_⟩
    rw [doWriteUnencoded, if_neg (by simpa using hpos), if_neg (by omega), hframe]
    simp only [hos.pwrite, if_true]
  have hmade : ∃ made, Burst.doWriteEncoded env.os env.zstd ops path frame len offset = (none, made) := by
    rw [Burst.doWriteEncoded, if_neg (by simpa using hpos)]
    split
    · exact hplain ops
    · rw [if_neg (by omega)]
      dsimp only
      rcases hos.encodedWrite ops path frame len offset with ⟨n, hok⟩ | hnotty | hnotsupp
      · rw [hok]
        exact ⟨_, rfl⟩
      · rw [hnotty]
        exact hplain _
      · rw [hnotsupp]
        exact hplain _
  obtain ⟨made, hmade⟩ := hmade
  exact ⟨made, hmade, _, doWriteEncoded_performs hframe hmade, rfl⟩

end

end Burst
