import Burst.FileEffects
import Burst.FileRuns

namespace Burst

open LittleEndian Incremental

/-- The entry is extracted to a file. -/
def FileMetadata.IsRegular (e : FileMetadata) : Prop := e.isDirectory = false ∧ e.isSymlink = false

/-- The entry is extracted to a symlink. -/
def FileMetadata.IsLink (e : FileMetadata) : Prop := e.isDirectory = false ∧ e.isSymlink = true

/-- What a system call is made for: an entry that has been opened or, for a directory that is made, an
entry that is listed. Only root gives files away. -/
def FileOp.StemsFrom (env : ProcessorEnv) (opened : List FileMetadata) : FileOp → Prop
  | mkdir path _ => ∃ e ∈ env.cdResult.files,
      path = env.filePath e ∨ path ∈ directoryPaths (dirname (env.filePath e))
  | openFile path => ∃ e ∈ opened, e.IsRegular ∧ path = env.filePath e
  | encodedWrite path _ _ _ => ∃ e ∈ opened, e.IsRegular ∧ path = env.filePath e
  | pwrite path _ _ => ∃ e ∈ opened, e.IsRegular ∧ path = env.filePath e
  | ftruncate path size => ∃ e ∈ opened, e.IsRegular ∧ path = env.filePath e ∧ size = e.uncompressedSize
  | close path => ∃ e ∈ opened, e.IsRegular ∧ path = env.filePath e
  | fchmod path mode => ∃ e ∈ opened, e.IsRegular ∧ path = env.filePath e ∧ e.hasUnixMode = true ∧
      mode = e.unixMode % 0o10000
  | fchown path uid gid => ∃ e ∈ opened, e.IsRegular ∧ path = env.filePath e ∧ e.hasUnixExtra = true ∧
      env.os.isRoot = true ∧ uid = e.uid ∧ gid = e.gid
  | chmod path mode => ∃ e ∈ opened, e.isDirectory = true ∧ path = env.filePath e ∧
      e.hasUnixMode = true ∧ mode = e.unixMode % 0o10000
  | chown path uid gid => ∃ e ∈ opened, e.isDirectory = true ∧ path = env.filePath e ∧
      e.hasUnixExtra = true ∧ env.os.isRoot = true ∧ uid = e.uid ∧ gid = e.gid
  | unlink path => ∃ e ∈ opened, e.IsLink ∧ path = env.filePath e
  | symlink _ path => ∃ e ∈ opened, e.IsLink ∧ path = env.filePath e
  | lchown path uid gid => ∃ e ∈ opened, e.IsLink ∧ path = env.filePath e ∧ e.hasUnixExtra = true ∧
      env.os.isRoot = true ∧ uid = e.uid ∧ gid = e.gid

theorem FileOp.StemsFrom.mono {env : ProcessorEnv} {opened opened' : List FileMetadata} {op : FileOp}
    (h : op.StemsFrom env opened) (hsub : opened ⊆ opened') : op.StemsFrom env opened' := by
  cases op with
  | mkdir => exact h
  | _ => exact h.imp fun e he ↦ ⟨hsub he.1, he.2⟩

/-- What an encoded write comes to stems from the same entry. -/
theorem FileOp.StemsFrom.completed {env : ProcessorEnv} {opened : List FileMetadata} {op : FileOp}
    (h : op.StemsFrom env opened) (n : ℕ) : (op.completed env.zstd n).StemsFrom env opened := by
  cases op with
  | encodedWrite => exact h
  | pwrite => exact h
  | _ => exact h

section Run

variable {env : ProcessorEnv} {opened : List FileMetadata} {file : Option FileContext} {ops : List FileOp}

theorem FileRun.listed (h : FileRun env opened file ops) : opened ⊆ env.cdResult.files := by
  induction h with
  | start => exact List.nil_subset _
  | parent _ _ _ ih => exact ih
  | opens _ hlisted _ ih =>
    exact List.append_subset.mpr ⟨ih, List.cons_subset.mpr ⟨hlisted, List.nil_subset _⟩⟩
  | moves _ _ ih => exact ih
  | reads _ _ _ ih => exact ih
  | encodedWrite _ _ _ _ _ ih => exact ih
  | pwrite _ _ _ _ ih => exact ih
  | close _ ih => exact ih

theorem Opening.stemsFrom {e : FileMetadata} {f : FileContext} {done made : List FileOp}
    (h : Opening env done e f made) (hlisted : e ∈ env.cdResult.files) (hmem : e ∈ opened) :
    ∀ op ∈ made, op.StemsFrom env opened := by
  intro op hop
  cases h with
  | directory hdirectory =>
    simp only [restoreDirectoryOps, List.mem_cons, List.mem_append] at hop
    rcases hop with rfl | hmode | hown
    · exact ⟨e, hlisted, .inl rfl⟩
    · split at hmode
      · next hunix =>
        rw [List.mem_singleton.mp hmode]
        exact ⟨e, hmem, hdirectory, rfl, hunix, rfl⟩
      · cases hmode
    · split at hown
      · next hroot =>
        rw [List.mem_singleton.mp hown]
        exact ⟨e, hmem, hdirectory, rfl, hroot.1, hroot.2, rfl, rfl⟩
      · cases hown
  | symlink => cases hop
  | regular hother hregular =>
    rw [List.mem_singleton.mp hop]
    exact ⟨e, hmem, ⟨hother, hregular⟩, rfl⟩

/-- A file with a descriptor is that of a regular entry. -/
theorem FileContext.IsOf.regular_of_open {e : FileMetadata} {f : FileContext} (h : f.IsOf env e)
    (hopen : f.fdOpen = true) : e.IsRegular := by
  cases h with
  | directory => cases hopen
  | symlink => cases hopen
  | regular offset hother hregular => exact ⟨hother, hregular⟩

theorem FileContext.IsOf.link_of_buffer {e : FileMetadata} {f : FileContext} (h : f.IsOf env e)
    (hbuffer : f.symlinkBuffer.isSome = true) : e.IsLink := by
  cases h with
  | directory => cases hbuffer
  | symlink offset target hother hlink => exact ⟨hother, hlink⟩
  | regular => cases hbuffer

/-- What is known of the file is what the archive has of the entry. -/
theorem FileContext.IsOf.metadata {e : FileMetadata} {f : FileContext} (h : f.IsOf env e) :
    f.expectedTotalSize = e.uncompressedSize ∧ f.hasUnixMode = e.hasUnixMode ∧ f.unixMode = e.unixMode ∧
      f.hasUnixExtra = e.hasUnixExtra ∧ f.uid = e.uid ∧ f.gid = e.gid := by
  cases h with
  | directory => exact ⟨rfl, rfl, rfl, rfl, rfl, rfl⟩
  | symlink => exact ⟨rfl, rfl, rfl, rfl, rfl, rfl⟩
  | regular => exact ⟨rfl, rfl, rfl, rfl, rfl, rfl⟩

theorem FileContext.IsOf.closeOps_stemsFrom {e : FileMetadata} {f : FileContext} (h : f.IsOf env e)
    (hmem : e ∈ opened) : ∀ op ∈ closeOps env.os f, op.StemsFrom env opened := by
  intro op hop
  have hpath := h.filename
  obtain ⟨hsize, hunix, hmode, hextra, huid, hgid⟩ := h.metadata
  cases closeOps_closing env.os f op hop with
  | unlink hbuffer => exact ⟨e, hmem, h.link_of_buffer hbuffer, hpath⟩
  | symlink target hbuffer => exact ⟨e, hmem, h.link_of_buffer hbuffer, hpath⟩
  | lchown hbuffer hown hroot =>
    exact ⟨e, hmem, h.link_of_buffer hbuffer, hpath, hextra ▸ hown, hroot, huid, hgid⟩
  | ftruncate hopen => exact ⟨e, hmem, h.regular_of_open hopen, hpath, hsize⟩
  | fchmod hopen hrestores =>
    exact ⟨e, hmem, h.regular_of_open hopen, hpath, hunix ▸ hrestores, by rw [hmode]⟩
  | fchown hopen hown hroot =>
    exact ⟨e, hmem, h.regular_of_open hopen, hpath, hextra ▸ hown, hroot, huid, hgid⟩
  | close hopen => exact ⟨e, hmem, h.regular_of_open hopen, hpath⟩

/-- Every system call of a run has what it is made for. -/
theorem FileRun.stemsFrom (h : FileRun env opened file ops) : ∀ op ∈ ops, op.StemsFrom env opened := by
  have hwrite {opened : List FileMetadata} {f : FileContext} {ops : List FileOp}
      (hrun : FileRun env opened (some f) ops) (hopen : f.fdOpen = true) :
      ∃ e ∈ opened, e.IsRegular ∧ f.filename = env.filePath e := by
    obtain ⟨before, e, rfl, -, hof⟩ := hrun.current rfl
    exact ⟨e, List.mem_append_right _ (List.mem_singleton.mpr rfl), hof.regular_of_open hopen, hof.filename⟩
  induction h with
  | start => simp
  | parent _ hlisted hpath ih =>
    apply forall_mem_append ih
    intro op hop
    rw [List.mem_singleton.mp hop]
    exact ⟨_, hlisted, .inr hpath⟩
  | opens _ hlisted hopening ih =>
    apply forall_mem_append
    · intro op hop
      exact (ih op hop).mono (List.subset_append_left _ _)
    · exact hopening.stemsFrom hlisted (List.mem_append_right _ (List.mem_singleton.mpr rfl))
  | moves _ _ ih => exact ih
  | reads _ _ _ ih => exact ih
  | encodedWrite frame len offset hrun hopen ih =>
    apply forall_mem_append ih
    intro op hop
    rw [List.mem_singleton.mp hop]
    exact hwrite hrun hopen
  | pwrite data offset hrun hopen ih =>
    apply forall_mem_append ih
    intro op hop
    rw [List.mem_singleton.mp hop]
    exact hwrite hrun hopen
  | close hrun ih =>
    apply forall_mem_append ih
    obtain ⟨before, e, rfl, -, hof⟩ := hrun.current rfl
    exact hof.closeOps_stemsFrom (List.mem_append_right _ (List.mem_singleton.mpr rfl))

theorem Attempts.listed (h : Attempts env opened ops) : opened ⊆ env.cdResult.files := by
  cases h with
  | run hrun => exact hrun.listed
  | failed hrun hlisted =>
    exact List.append_subset.mpr ⟨hrun.listed, List.cons_subset.mpr ⟨hlisted, List.nil_subset _⟩⟩

theorem Attempts.stemsFrom (h : Attempts env opened ops) : ∀ op ∈ ops, op.StemsFrom env opened := by
  cases h with
  | run hrun => exact hrun.stemsFrom
  | @failed _ e _ _ hrun hlisted hfails =>
    apply forall_mem_append
    · intro op hop
      exact (hrun.stemsFrom op hop).mono (List.subset_append_left _ _)
    · intro op hop
      rw [List.mem_singleton.mp hop]
      cases hfails with
      | directory => exact ⟨e, hlisted, .inl rfl⟩
      | regular hother hregular =>
        exact ⟨e, List.mem_append_right _ (List.mem_singleton.mpr rfl), ⟨hother, hregular⟩, rfl⟩

end Run

theorem mem_effects {os : Os} {zstd : ZstdLib} {done ops : List FileOp} {op : FileOp}
    (h : op ∈ effects os zstd done ops) : ∃ made ∈ ops, ∃ n, made.completed zstd n = op := by
  induction ops generalizing done with
  | nil => cases h
  | cons made ops ih =>
    rcases List.mem_append.mp h with hfirst | hlater
    · rw [effect] at hfirst
      split at hfirst
      · cases hfirst
      · next n _ => exact ⟨made, List.mem_cons_self, n, (List.mem_singleton.mp hfirst).symm⟩
    · obtain ⟨o, ho, hcompleted⟩ := ih hlater
      exact ⟨o, List.mem_cons_of_mem _ ho, hcompleted⟩

/-- What completes in a run stems from the entries that are listed. -/
theorem FileRun.effects_stemFrom {env : ProcessorEnv} {opened : List FileMetadata} {file : Option FileContext}
    {ops : List FileOp} (h : FileRun env opened file ops) :
    ∀ op ∈ effects env.os env.zstd [] ops, op.StemsFrom env env.cdResult.files := by
  intro op hop
  obtain ⟨made, hmade, n, rfl⟩ := mem_effects hop
  exact ((h.stemsFrom made hmade).completed n).mono h.listed

end Burst
