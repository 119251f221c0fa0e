import Burst.WrittenBytes

namespace Burst

open LittleEndian Incremental

theorem mkdirAll_ops_le (os : Os) (ops : List FileOp) (paths : List Path) :
    ops <+: (mkdirAll os ops paths).2 := by
  induction paths generalizing ops with
  | nil => exact List.prefix_refl _
  | cons path paths ih =>
    have hmade := (List.prefix_append ops [.mkdir path 0o755]).trans (ih _)
    rw [mkdirAll]
    split
    · exact hmade
    · exact hmade
    · split
      · exact hmade
      · exact List.prefix_append _ _

theorem closeOutputFile_ops_le (os : Os) (p : PartProcessor) : p.ops <+: (closeOutputFile os p).ops := by
  rw [closeOutputFile]
  split
  · exact List.prefix_refl _
  · exact List.prefix_append _ _

theorem closeOutputFile_nextEntryIdx (os : Os) (p : PartProcessor) :
    (closeOutputFile os p).nextEntryIdx = p.nextEntryIdx := by
  rw [closeOutputFile]
  split <;> rfl

/-- What opening the file of an entry leaves behind. -/
theorem openOutputFile_opens {env : ProcessorEnv} {p q : PartProcessor} {fileMeta : FileMetadata}
    (h : openOutputFile env p fileMeta = (none, q)) {offset start : ℕ} (hstart : offset ≤ start) :
    p.ops <+: q.ops ∧ ∃ f, q.currentFile = some f ∧
      (∀ target, f.symlinkBuffer = some target → target = []) ∧
      Opens env q.ops fileMeta start { f with uncompressedOffset := offset } := by
  have hclose := closeOutputFile_ops_le env.os p
  have hmade := mkdirAll_ops_le env.os (closeOutputFile env.os p).ops
    (directoryPaths (dirname (env.filePath fileMeta)))
  rw [openOutputFile, openOutputPath] at h
  cases hmk : mkdirAll env.os (closeOutputFile env.os p).ops
    (directoryPaths (dirname (env.filePath fileMeta))) with
  | mk made ops =>
  have hensure : ensureDirectoryExists env.os (closeOutputFile env.os p).ops
      (fileContext (env.outputDir ++ [slash] ++ fileMeta.filename) fileMeta).filename = (made, ops) :=
    hmk
  rw [hensure] at h
  cases made with
  | false => cases h
  | true =>
    dsimp only at h
    rw [hmk] at hmade
    have hdir : (fileContext (env.outputDir ++ [slash] ++ fileMeta.filename) fileMeta).isDirectory =
      fileMeta.isDirectory := rfl
    have hlink : (fileContext (env.outputDir ++ [slash] ++ fileMeta.filename) fileMeta).isSymlink =
      fileMeta.isSymlink := rfl
    have hbefore : p.ops <+: ops := hclose.trans hmade
    rw [hdir, hlink] at h
    cases hdirectory : fileMeta.isDirectory with
    | true =>
      rw [if_pos hdirectory, makeDirectory] at h
      have hopened (restore : List FileOp) :
          Opened env (ops ++ [.mkdir (env.filePath fileMeta) 0o755] ++ restore) fileMeta :=
        ⟨fun _ ↦ by simp, fun hfile ↦ by rw [hdirectory] at hfile; cases hfile⟩
      dsimp only at h
      split at h
      · cases h
        refine ⟨(hbefore.trans (List.prefix_append _ _)).trans (List.prefix_append _ _), _, rfl,
          by rintro _ ⟨⟩, ?_⟩
        exact ⟨rfl, rfl, rfl, rfl, hopened _, writtenRange_empty _ _ _ hstart⟩
      · cases h
        refine ⟨(hbefore.trans (List.prefix_append _ _)).trans (List.prefix_append _ _), _, rfl,
          by rintro _ ⟨⟩, ?_⟩
        exact ⟨rfl, rfl, rfl, rfl, hopened _, writtenRange_empty _ _ _ hstart⟩
      · cases h
    | false =>
      rw [if_neg (by rw [hdirectory]; decide)] at h
      cases hsymlink : fileMeta.isSymlink with
      | true =>
        rw [if_pos hsymlink, allocateSymlinkBuffer] at h
        split at h
        · cases h
        · cases h
          refine ⟨hbefore, _, rfl, fun target htarget ↦ (Option.some.inj htarget).symm, rfl, rfl, rfl, rfl,
            ⟨?_, ?_⟩, writtenRange_empty _ _ _ hstart⟩
          · intro hd
            rw [hdirectory] at hd
            cases hd
          · intro _ hl
            rw [hsymlink] at hl
            cases hl
      | false =>
        rw [if_neg (by rw [hsymlink]; decide), openRegularFile] at h
        split at h
        · cases h
          refine ⟨hbefore.trans (List.prefix_append _ _), _, rfl, by rintro _ ⟨⟩, rfl, rfl, rfl, rfl,
            ⟨?_, ?_⟩,
            writtenRange_empty _ _ _ hstart⟩
          · intro hd
            rw [hdirectory] at hd
            cases hd
          · intro _ _
            exact List.mem_append_right _ (List.mem_singleton.mpr rfl)
        · cases h

theorem openOutputFile_nextEntryIdx {env : ProcessorEnv} {p q : PartProcessor} {fileMeta : FileMetadata}
    (h : openOutputFile env p fileMeta = (none, q)) : q.nextEntryIdx = p.nextEntryIdx := by
  rw [← closeOutputFile_nextEntryIdx env.os p]
  rw [openOutputFile, openOutputPath] at h
  split at h
  · cases h
  · split at h
    · rw [makeDirectory] at h
      dsimp only at h
      split at h
      · cases h
        rfl
      · cases h
        rfl
      · cases h
    · split at h
      · rw [allocateSymlinkBuffer] at h
        split at h
        · cases h
        · cases h
          rfl
      · rw [openRegularFile] at h
        split at h
        · cases h
          rfl
        · cases h

/-- The entries that have been opened, each with the offset its part begins to write at: the file that
goes on from the part before, from where that part got to, and the entries up to the next one. -/
def openedEntries (env : ProcessorEnv) (resume : ℕ) (p : PartProcessor) :
    List (FileMetadata × ℕ) :=
  (if p.state = .init ∨ p.state = .continuingFile then []
    else env.continuingFile.toList.map fun fileMeta ↦ (fileMeta, resume)) ++
  ((List.range p.nextEntryIdx).filterMap env.nextFile).map fun fileMeta ↦ (fileMeta, 0)

def Settled (env : ProcessorEnv) (bytes : List UInt8) (ops : List FileOp)
    (xs : List (FileMetadata × ℕ)) : Prop :=
  ∀ x ∈ xs, Opened env ops x.1 ∧ Whole env bytes ops x.1 x.2

theorem Settled.mono {env : ProcessorEnv} {bytes bytes' : List UInt8} {ops ops' : List FileOp}
    {xs : List (FileMetadata × ℕ)} (h : Settled env bytes ops xs) (hbytes : bytes <+: bytes')
    (hle : ops <+: ops') : Settled env bytes' ops' xs :=
  fun x hx ↦ ⟨(h x hx).1.mono hle, (h x hx).2.mono hbytes hle⟩

theorem Settled.concat {env : ProcessorEnv} {bytes : List UInt8} {ops : List FileOp}
    {xs : List (FileMetadata × ℕ)} {x : FileMetadata × ℕ} (h : Settled env bytes ops xs)
    (hopened : Opened env ops x.1) (hwhole : Whole env bytes ops x.1 x.2) :
    Settled env bytes ops (xs ++ [x]) := by
  intro y hy
  rcases List.mem_append.mp hy with hleft | hlast
  · exact h y hleft
  · rw [List.mem_singleton.mp hlast]
    exact ⟨hopened, hwhole⟩

/-- After some bytes of a stream the entries opened so far are whole, but for the last one while its
file is open. -/
structure Progress (env : ProcessorEnv) (resume : ℕ) (bytes : List UInt8) (p : PartProcessor) :
    Prop where
  bounded : p.Bounded
  next : p.nextEntryIdx ≤ env.part.entries.length
  fresh : p.state = .init ∨ p.state = .continuingFile → p.nextEntryIdx = 0
  busy : p.state = .processingFrames → p.currentFile ≠ none
  done : p.state = .done → env.part.entries.length ≤ p.nextEntryIdx
  target : ∀ f target, p.currentFile = some f → f.symlinkBuffer = some target →
    if p.state = .readingSymlink then EndsAfterHeader bytes target else target = []
  closed : p.currentFile = none → Settled env bytes p.ops (openedEntries env resume p)
  opened : ∀ f, p.currentFile = some f → ∃ xs x, openedEntries env resume p = xs ++ [x] ∧
    Settled env bytes p.ops xs ∧ Opens env p.ops x.1 x.2 f

/-- A Start-of-Part frame is there as a whole. -/
def BeginsPart (bs : List UInt8) : Prop :=
  24 ≤ bs.length ∧ read bs 0 4 = burstSkippableMagic ∧ read bs 4 4 = 16 ∧
    read bs 8 1 = burstTypeStartOfPart

/-- The central directory begins. -/
def BeginsDirectory (bs : List UInt8) : Prop :=
  4 ≤ bs.length ∧ read bs 0 4 = zipCentralDirHeaderSig

instance (bs : List UInt8) : Decidable (BeginsPart bs) := inferInstanceAs (Decidable (_ ∧ _))

instance (bs : List UInt8) : Decidable (BeginsDirectory bs) := inferInstanceAs (Decidable (_ ∧ _))

/-- What the frames are taken for says what is there. -/
theorem parseNextFrame_content {zstd : ZstdLib} {bs : List UInt8} {info : FrameInfo}
    (h : parseNextFrame zstd bs = .success info) :
    (info.type = .zstdCompressed → zstd.findFrameCompressedSize bs = .size info.frameSize ∧
        zstd.getFrameContentSize bs = .size info.uncompressedSize) ∧
      (info.type = .burstStartOfPart → BeginsPart bs) ∧
      (info.type = .zipCentralDirectory → BeginsDirectory bs) ∧
      (info.type = .zipLocalHeader → read bs 0 4 = zipLocalFileHeaderSig) := by
  have hlong := (parseNextFrame_success h).2.2.1
  rw [parseNextFrame] at h
  split_ifs at h with hlen hlocal hdescriptor hdirectory hzstd hskippable
  · rw [parseLocalHeaderFrame] at h
    split at h
    · cases h
    · cases h
      exact ⟨by rintro ⟨⟩, by rintro ⟨⟩, by rintro ⟨⟩, fun _ ↦ hlocal⟩
  · cases h
    exact ⟨by rintro ⟨⟩, by rintro ⟨⟩, by rintro ⟨⟩, by rintro ⟨⟩⟩
  · cases h
    exact ⟨by rintro ⟨⟩, by rintro ⟨⟩, fun _ ↦ ⟨by omega, hdirectory⟩, by rintro ⟨⟩⟩
  · rw [parseZstdFrame] at h
    split at h
    · cases h
    · cases h
    · next n hsize =>
      split at h
      · next m hcontent =>
        cases h
        exact ⟨fun _ ↦ ⟨hsize, hcontent⟩, by rintro ⟨⟩, by rintro ⟨⟩, by rintro ⟨⟩⟩
      · cases h
      · cases h
  · rw [parseSkippableFrame] at h
    split_ifs at h with hshort hframe hstart
    · cases h
      exact ⟨by rintro ⟨⟩, fun _ ↦ ⟨(hlong rfl).2, hskippable, hstart.2.2, hstart.2.1⟩, by rintro ⟨⟩,
        by rintro ⟨⟩⟩
    · cases h
      exact ⟨by rintro ⟨⟩, by rintro ⟨⟩, by rintro ⟨⟩, by rintro ⟨⟩⟩

/-- No round leaves out data without an error: a file is closed when it is complete, the central
directory comes after the last entry, and no Start-of-Part frame goes on behind where the file has been
written to. -/
def KeepsData (env : ProcessorEnv) (resume : ℕ) (p : PartProcessor) (bs : List UInt8) : Prop :=
  match p.state with
  | .continuingFile => BeginsPart bs → read bs 9 8 ≤ resume
  | .expectLocalHeader =>
    BeginsDirectory bs → env.part.entries.length ≤ p.nextEntryIdx
  | .processingFrames =>
    (ClosesFile bs → ∀ f ∈ p.currentFile, f.Complete) ∧
      (BeginsDirectory bs → env.part.entries.length ≤ p.nextEntryIdx) ∧
      (BeginsPart bs → ∀ f ∈ p.currentFile, read bs 9 8 ≤ f.uncompressedOffset)
  | _ => True

instance (env : ProcessorEnv) (resume : ℕ) (p : PartProcessor) (bs : List UInt8) :
    Decidable (KeepsData env resume p bs) := by
  unfold KeepsData
  cases p.state <;> infer_instance

theorem openedEntries_eq {env : ProcessorEnv} (resume : ℕ) {p q : PartProcessor}
    (hnext : q.nextEntryIdx = p.nextEntryIdx) (hp : p.state ≠ .init ∧ p.state ≠ .continuingFile)
    (hq : q.state ≠ .init ∧ q.state ≠ .continuingFile) :
    openedEntries env resume q = openedEntries env resume p := by
  rw [openedEntries, openedEntries, if_neg (by tauto), if_neg (by tauto), hnext]

theorem Progress.close {env : ProcessorEnv} {resume : ℕ} {bytes : List UInt8} {p : PartProcessor}
    (h : Progress env resume bytes p) (hcomplete : ∀ f ∈ p.currentFile, f.Complete) :
    Settled env bytes (closeOutputFile env.os p).ops (openedEntries env resume p) := by
  rw [closeOutputFile]
  cases hfile : p.currentFile with
  | none => exact h.closed hfile
  | some f =>
    obtain ⟨xs, x, hxs, hsettled, hopens⟩ := h.opened f hfile
    have hle : p.ops <+: p.ops ++ closeOps env.os f := List.prefix_append _ _
    have hfollows (target : List UInt8) (htarget : f.symlinkBuffer = some target) :
        FollowsHeader bytes target := by
      have hread := h.target f target hfile htarget
      split at hread
      · exact .inr ⟨bytes, List.prefix_refl _, hread⟩
      · exact .inl hread
    rw [hxs]
    exact (hsettled.mono (List.prefix_refl _) hle).concat (hopens.opened.mono hle)
      (hopens.close (h.bounded.file f hfile) hfollows (hcomplete f hfile))

/-- A processor that has closed its file. -/
theorem Progress.of_closed {env : ProcessorEnv} {resume : ℕ} {bytes : List UInt8} {q : PartProcessor}
    (hq : q.Bounded) (hnext : q.nextEntryIdx ≤ env.part.entries.length) (hnone : q.currentFile = none)
    (hstate : q.state = .expectLocalHeader ∨
      q.state = .done ∧ env.part.entries.length ≤ q.nextEntryIdx)
    (hsettled : Settled env bytes q.ops (openedEntries env resume q)) :
    Progress env resume bytes q where
  bounded := hq
  next := hnext
  fresh hfresh := by
    rcases hstate with hs | ⟨hs, -⟩
    · simp [hs] at hfresh
    · simp [hs] at hfresh
  busy hbusy := by
    rcases hstate with hs | ⟨hs, -⟩
    · simp [hs] at hbusy
    · simp [hs] at hbusy
  done hdone := by
    rcases hstate with hs | ⟨-, hall⟩
    · simp [hs] at hdone
    · exact hall
  target f target hf := by
    rw [hnone] at hf
    cases hf
  closed _ := hsettled
  opened f hf := by
    rw [hnone] at hf
    cases hf

/-- A processor with a file open. -/
theorem Progress.of_opened {env : ProcessorEnv} {resume start : ℕ} {bytes : List UInt8}
    {q : PartProcessor} {xs : List (FileMetadata × ℕ)} {fileMeta : FileMetadata} {f : FileContext}
    (hq : q.Bounded) (hnext : q.nextEntryIdx ≤ env.part.entries.length)
    (hfile : q.currentFile = some f)
    (hstate : q.state = .processingFrames ∧ (∀ target, f.symlinkBuffer = some target → target = []) ∨
      q.state = .readingSymlink ∧
        ∀ target, f.symlinkBuffer = some target → EndsAfterHeader bytes target)
    (hxs : openedEntries env resume q = xs ++ [(fileMeta, start)])
    (hsettled : Settled env bytes q.ops xs) (hopens : Opens env q.ops fileMeta start f) :
    Progress env resume bytes q where
  bounded := hq
  next := hnext
  fresh hfresh := by
    rcases hstate with ⟨hs, -⟩ | ⟨hs, -⟩
    · simp [hs] at hfresh
    · simp [hs] at hfresh
  busy _ := by simp [hfile]
  done hdone := by
    rcases hstate with ⟨hs, -⟩ | ⟨hs, -⟩
    · simp [hs] at hdone
    · simp [hs] at hdone
  target g target hg htarget := by
    rw [hfile] at hg
    cases hg
    rcases hstate with ⟨hs, hempty⟩ | ⟨hs, hends⟩
    · rw [if_neg (by simp [hs])]
      exact hempty target htarget
    · rw [if_pos hs]
      exact hends target htarget
  closed hnone := by
    rw [hfile] at hnone
    cases hnone
  opened g hg := by
    rw [hfile] at hg
    cases hg
    exact ⟨xs, (fileMeta, start), hxs, hsettled, hopens⟩

/-- A round takes bytes from the front of the buffer and goes on with the rest. -/
def Advances (env : ProcessorEnv) (resume : ℕ) (bytes bs : List UInt8) (q : PartProcessor)
    (rest : List UInt8) : Prop :=
  ∃ n, rest = bs.drop n ∧ Progress env resume (bytes ++ bs.take n) q

theorem Progress.advances {env : ProcessorEnv} {resume : ℕ} {bytes bs : List UInt8} {q : PartProcessor}
    (h : Progress env resume bytes q) : Advances env resume bytes bs q bs :=
  ⟨0, rfl, by rwa [List.take_zero, List.append_nil]⟩

theorem stepInit_advances {env : ProcessorEnv} {resume : ℕ} {bytes : List UInt8} {p q : PartProcessor}
    {bs rest : List UInt8} (hp : Progress env resume bytes p) (hs : p.state = .init)
    (hq : q.Bounded) (h : stepInit env p bs = .next q rest) : Advances env resume bytes bs q rest := by
  have hnone := hp.bounded.idle (.inl hs)
  have hzero := hp.fresh (.inl hs)
  rw [stepInit] at h
  split at h
  · cases h
    have hsame : openedEntries env resume (p.enter .continuingFile) = openedEntries env resume p := by
      simp [openedEntries, PartProcessor.enter, hs]
    refine Progress.advances ⟨hq, hp.next, fun _ ↦ hzero, by simp [PartProcessor.enter],
      by simp [PartProcessor.enter], fun f target hf ↦ ?_, fun _ ↦ ?_, fun f hf ↦ ?_⟩
    · rw [show p.currentFile = some f from hf] at hnone
      cases hnone
    · rw [hsame]
      exact hp.closed hnone
    · rw [show p.currentFile = some f from hf] at hnone
      cases hnone
  · next hcontinuing =>
    cases h
    have hfile : env.continuingFile = none := by
      rw [ProcessorEnv.continuingFile]
      simp only [Bool.not_eq_true, Option.isSome_eq_false_iff, Option.isNone_iff_eq_none] at hcontinuing
      rw [hcontinuing]
      rfl
    have hsame : openedEntries env resume (p.enter .expectLocalHeader) = openedEntries env resume p := by
      simp [openedEntries, PartProcessor.enter, hs, hfile]
    refine Progress.advances (Progress.of_closed hq hp.next hnone (.inl rfl) ?_)
    rw [hsame]
    exact hp.closed hnone

theorem openedEntries_start {env : ProcessorEnv} {resume : ℕ} {q : PartProcessor}
    {fileMeta : FileMetadata} (hfile : env.continuingFile = some fileMeta) (hzero : q.nextEntryIdx = 0)
    (hstate : q.state = .processingFrames) :
    openedEntries env resume q = [] ++ [(fileMeta, resume)] := by
  simp [openedEntries, hfile, hzero, hstate]

theorem openedEntries_next {env : ProcessorEnv} {resume : ℕ} {p q : PartProcessor}
    {fileMeta : FileMetadata} (hfile : env.nextFile p.nextEntryIdx = some fileMeta)
    (hnext : q.nextEntryIdx = p.nextEntryIdx + 1) (hp : p.state ≠ .init ∧ p.state ≠ .continuingFile)
    (hq : q.state ≠ .init ∧ q.state ≠ .continuingFile) :
    openedEntries env resume q = openedEntries env resume p ++ [(fileMeta, 0)] := by
  rw [openedEntries, openedEntries, if_neg (by tauto), if_neg (by tauto), hnext, List.range_succ,
    List.filterMap_append, List.map_append, List.append_assoc]
  simp [hfile]

theorem stepContinuingFile_advances {env : ProcessorEnv} {resume : ℕ} {bytes : List UInt8}
    {p q : PartProcessor} {bs rest : List UInt8} (hp : Progress env resume bytes p)
    (hs : p.state = .continuingFile) (hkeeps : KeepsData env resume p bs) (hq : q.Bounded)
    (h : stepContinuingFile env p bs = .next q rest) : Advances env resume bytes bs q rest := by
  have hnone := hp.bounded.idle (.inr (.inl hs))
  have hzero := hp.fresh (.inr hs)
  simp only [KeepsData, hs] at hkeeps
  rw [stepContinuingFile] at h
  split at h
  · cases h
  · cases h
  · next info hinfo =>
    split at h
    · cases h
    · next htype =>
      obtain ⟨r, hr, hnext⟩ := LoopStep.after_next h
      cases hnext
      have hoffset := hkeeps ((parseNextFrame_content hinfo).2.1 (not_not.mp htype))
      rw [handleStartOfPartFrame, hnone] at hr
      dsimp only at hr
      split at hr
      · cases hr
      · next fileMeta hfile =>
        split at hr
        · cases hr
        · next t hopen =>
          cases hr
          obtain ⟨-, f, hf, hempty, hopens⟩ := openOutputFile_opens hopen hoffset
          have hidx := openOutputFile_nextEntryIdx hopen
          refine ⟨info.frameSize, rfl, Progress.of_opened hq ?_ (congrArg (Option.map _) hf)
            (.inl ⟨rfl, hempty⟩) (openedEntries_start hfile ?_ rfl) ?_ hopens⟩
          · exact (hidx.trans hzero).le.trans (Nat.zero_le _)
          · exact hidx.trans hzero
          · simp [Settled]

theorem handleLocalHeader_opens {env : ProcessorEnv} {p q : PartProcessor} {header : List UInt8} {n : ℕ}
    (h : handleLocalHeader env p header = .success n q) :
    30 ≤ header.length ∧ n = localHeaderSize header ∧ n ≤ header.length ∧
      ∃ fileMeta t, env.nextFile p.nextEntryIdx = some fileMeta ∧
        openOutputFile env p fileMeta = (none, t) ∧ q = t.setUncompressedOffset 0 := by
  rw [handleLocalHeader] at h
  split_ifs at h with hfixed hlen
  split at h
  · cases h
  · next fileMeta hfile =>
    split at h
    · cases h
    · next t hopen =>
      cases h
      exact ⟨Nat.not_lt.mp hfixed, rfl, Nat.not_lt.mp hlen, fileMeta, t, hfile, hopen, rfl⟩

theorem isLocalHeader_take {bs : List UInt8} (hsig : read bs 0 4 = zipLocalFileHeaderSig)
    (hlen : localHeaderSize bs ≤ bs.length) : IsLocalHeader (bs.take (localHeaderSize bs)) := by
  have hfixed : 30 ≤ localHeaderSize bs := by
    rw [localHeaderSize]
    omega
  have hlength : (bs.take (localHeaderSize bs)).length = localHeaderSize bs := List.length_take_of_le hlen
  have hsplit := List.take_append_drop (localHeaderSize bs) bs
  have hsame : localHeaderSize (bs.take (localHeaderSize bs) ++ bs.drop (localHeaderSize bs)) =
      localHeaderSize (bs.take (localHeaderSize bs)) := localHeaderSize_append (by omega) _
  have hread : read (bs.take (localHeaderSize bs) ++ bs.drop (localHeaderSize bs)) 0 4 =
      read (bs.take (localHeaderSize bs)) 0 4 := read_append_left (by omega) _
  rw [hsplit] at hsame hread
  exact ⟨by omega, hlength.trans hsame, hread.symm.trans hsig⟩

theorem stepLocalHeader_advances {env : ProcessorEnv} {resume : ℕ} {bytes : List UInt8}
    {p q : PartProcessor} {bs rest : List UInt8} (hp : Progress env resume bytes p)
    (hs : p.state = .expectLocalHeader) (hmore : p.nextEntryIdx < env.part.entries.length)
    (hsig : read bs 0 4 = zipLocalFileHeaderSig) (hq : q.Bounded)
    (h : stepLocalHeader env p bs = .next q rest) : Advances env resume bytes bs q rest := by
  have hnone := hp.bounded.idle (.inr (.inr hs))
  have hsettled := hp.closed hnone
  have hgrows (n : ℕ) : bytes <+: bytes ++ bs.take n := List.prefix_append _ _
  rw [stepLocalHeader] at h
  split at h
  · cases h
  · next n _ =>
    cases h
    exact ⟨n, rfl, Progress.of_closed hq hp.next hnone (.inl hs)
      (hsettled.mono (hgrows n) (List.prefix_refl _))⟩
  · cases h
  · next n r hheader =>
    cases h
    obtain ⟨hfixed, rfl, hlen, fileMeta, t, hfile, hopen, rfl⟩ := handleLocalHeader_opens hheader
    obtain ⟨hle, f, hf, hempty, hopens⟩ := openOutputFile_opens hopen (le_refl 0)
    have hidx := openOutputFile_nextEntryIdx hopen
    have hstate : afterLocalHeader (t.setUncompressedOffset 0) = .processingFrames ∨
        afterLocalHeader (t.setUncompressedOffset 0) = .readingSymlink := by
      rw [afterLocalHeader]
      split
      · exact .inr rfl
      · exact .inl rfl
    have hends (target : List UInt8) (htarget : f.symlinkBuffer = some target) :
        EndsAfterHeader (bytes ++ bs.take (localHeaderSize bs)) target := by
      rw [hempty target htarget]
      exact ⟨bytes, bs.take (localHeaderSize bs), (List.append_nil _).symm,
        isLocalHeader_take hsig hlen⟩
    refine ⟨localHeaderSize bs, rfl, Progress.of_opened hq ?_ (congrArg (Option.map _) hf)
      (hstate.imp (⟨·, hempty⟩) (⟨·, hends⟩)) (openedEntries_next (p := p) hfile ?_ (by simp [hs]) ?_)
      (hsettled.mono (hgrows _) hle) hopens⟩
    · exact (congrArg (· + 1) hidx).le.trans hmore
    · exact congrArg (· + 1) hidx
    · rcases hstate with hs' | hs'
      · simp [PartProcessor.enter, hs']
      · simp [PartProcessor.enter, hs']

theorem stepExpectLocalHeader_advances {env : ProcessorEnv} {resume : ℕ} {bytes : List UInt8}
    {p q : PartProcessor} {bs rest : List UInt8} (hp : Progress env resume bytes p)
    (hs : p.state = .expectLocalHeader) (hkeeps : KeepsData env resume p bs) (hq : q.Bounded)
    (h : stepExpectLocalHeader env p bs = .next q rest) : Advances env resume bytes bs q rest := by
  have hnone := hp.bounded.idle (.inr (.inr hs))
  have hsettled := hp.closed hnone
  have hdone : openedEntries env resume (p.enter .done) = openedEntries env resume p :=
    openedEntries_eq resume rfl (by simp [hs]) (by simp [PartProcessor.enter])
  simp only [KeepsData, hs] at hkeeps
  rw [stepExpectLocalHeader] at h
  split at h
  · next hall =>
    cases h
    refine Progress.advances (Progress.of_closed hq hp.next hnone (.inr ⟨rfl, hall⟩) ?_)
    rw [hdone]
    exact hsettled
  · next hmore =>
    split at h
    · cases h
    · cases h
    · next info hinfo =>
      obtain ⟨-, -, hdirectory, hlocal⟩ := parseNextFrame_content hinfo
      split at h
      · cases h
        exact ⟨info.frameSize, rfl, Progress.of_closed hq hp.next hnone (.inl hs)
          (hsettled.mono (List.prefix_append _ _) (List.prefix_refl _))⟩
      · next htype =>
        cases h
        have hall := hkeeps (hdirectory htype)
        refine Progress.advances (Progress.of_closed hq hp.next hnone (.inr ⟨rfl, hall⟩) ?_)
        rw [hdone]
        exact hsettled
      · next htype => exact stepLocalHeader_advances hp hs (Nat.not_le.mp hmore) (hlocal htype) hq h
      · cases h

theorem handleZstdFrame_writes {env : ProcessorEnv} (hzstd : env.zstd.SizesAgree) {p q : PartProcessor}
    {bs : List UInt8} {compressedSize contentSize : ℕ}
    (hsize : env.zstd.findFrameCompressedSize bs = .size compressedSize)
    (hcontent : env.zstd.getFrameContentSize bs = .size contentSize)
    (h : handleZstdFrame env p (bs.take compressedSize) contentSize = (none, q)) :
    p.ops <+: q.ops ∧ ∃ f, p.currentFile = some f ∧
      q.currentFile = some
        { f with uncompressedOffset := (f.uncompressedOffset + contentSize) % 2 ^ 64 } ∧
      WrittenRange env.os q.ops f.filename f.uncompressedOffset (f.uncompressedOffset + contentSize) ∧
      q.nextEntryIdx = p.nextEntryIdx ∧ q.state = p.state := by
  rw [handleZstdFrame] at h
  split at h
  · cases h
  · next f hf =>
    split at h
    · cases h
    · split at h
      · cases h
      · next ops hwrite =>
        cases h
        obtain ⟨hle, hwritten⟩ := doWriteEncoded_written
          (fun data hdata ↦ hzstd maxExtentSize hsize hcontent hdata) hwrite
        refine ⟨hle, f, hf, ?_, hwritten, rfl, rfl⟩
        simp [PartProcessor.setUncompressedOffset, hf]

theorem Opens.write {env : ProcessorEnv} {ops ops' : List FileOp} {fileMeta : FileMetadata}
    {start offset : ℕ} {f : FileContext} (h : Opens env ops fileMeta start f) (hle : ops <+: ops')
    (hwritten : WrittenRange env.os ops' f.filename f.uncompressedOffset offset) {offset' : ℕ}
    (hoffset : offset' ≤ offset) : Opens env ops' fileMeta start { f with uncompressedOffset := offset' } where
  filename := h.filename
  size := h.size
  isSymlink := h.isSymlink
  isDirectory := h.isDirectory
  opened := h.opened.mono hle
  written := by
    intro i hlo hhi
    exact (h.written.mono hle).append hwritten i hlo (lt_of_lt_of_le hhi hoffset)

theorem Opens.move {env : ProcessorEnv} {ops : List FileOp} {fileMeta : FileMetadata} {start offset : ℕ}
    {f : FileContext} (h : Opens env ops fileMeta start f) (hoffset : offset ≤ f.uncompressedOffset) :
    Opens env ops fileMeta start { f with uncompressedOffset := offset } :=
  h.write (List.prefix_refl _) (writtenRange_empty _ _ _ le_rfl) hoffset

/-- A round that leaves the file open and goes on in the same state. -/
theorem Progress.same {env : ProcessorEnv} {resume : ℕ} {bytes bytes' : List UInt8}
    {p q : PartProcessor} (hp : Progress env resume bytes p) (hbytes : bytes <+: bytes')
    (hs : p.state = .processingFrames) (hq : q.Bounded) (hstate : q.state = p.state)
    (hnext : q.nextEntryIdx = p.nextEntryIdx) {f g : FileContext} (hf : p.currentFile = some f)
    (hg : q.currentFile = some g) (hbuffer : g.symlinkBuffer = f.symlinkBuffer) (hle : p.ops <+: q.ops)
    (hopens : ∀ fileMeta start, Opens env p.ops fileMeta start f → Opens env q.ops fileMeta start g) :
    Progress env resume bytes' q := by
  obtain ⟨xs, ⟨fileMeta, start⟩, hxs, hsettled, hopen⟩ := hp.opened f hf
  have hsame := @openedEntries_eq env resume p q hnext (by simp [hs]) (by simp [hstate, hs])
  have hempty (target : List UInt8) (htarget : g.symlinkBuffer = some target) : target = [] := by
    have hread := hp.target f target hf (hbuffer ▸ htarget)
    rwa [if_neg (by simp [hs])] at hread
  exact Progress.of_opened hq (hnext.le.trans hp.next) hg (.inl ⟨hstate.trans hs, hempty⟩)
    (hsame.trans hxs) (hsettled.mono hbytes hle) (hopens fileMeta start hopen)

/-- The rounds that close the file. -/
theorem Progress.closes {env : ProcessorEnv} {resume n : ℕ} {bytes bytes' : List UInt8}
    {p q : PartProcessor} (hp : Progress env resume bytes p) (hbytes : bytes <+: bytes')
    (hs : p.state ≠ .init ∧ p.state ≠ .continuingFile) {state : ProcessorState}
    (hcomplete : ∀ f ∈ p.currentFile, f.Complete)
    (hstate : state = .expectLocalHeader ∨ state = .done ∧ env.part.entries.length ≤ p.nextEntryIdx)
    (hq : q.Bounded) (heq : q = ((closeOutputFile env.os p).consume n).enter state) :
    Progress env resume bytes' q := by
  have hnext : (closeOutputFile env.os p).nextEntryIdx = p.nextEntryIdx := by
    rw [closeOutputFile]
    split <;> rfl
  have hsame : openedEntries env resume q = openedEntries env resume p := by
    refine openedEntries_eq resume (by rw [heq]; exact hnext) hs ?_
    rcases hstate with hs' | ⟨hs', -⟩
    · simp [heq, PartProcessor.enter, hs']
    · simp [heq, PartProcessor.enter, hs']
  refine Progress.of_closed hq ?_ ?_ ?_ ?_
  · rw [heq]
    exact hnext.le.trans hp.next
  · rw [heq]
    exact closeOutputFile_currentFile env.os p
  · rw [heq]
    rcases hstate with hs' | ⟨hs', hall⟩
    · exact .inl hs'
    · exact .inr ⟨hs', hall.trans hnext.ge⟩
  · rw [hsame, heq]
    exact (hp.close hcomplete).mono hbytes (List.prefix_refl _)

theorem stepProcessingFrames_advances {env : ProcessorEnv} (hzstd : env.zstd.SizesAgree) {resume : ℕ}
    {bytes : List UInt8} {p q : PartProcessor} {bs rest : List UInt8}
    (hp : Progress env resume bytes p) (hs : p.state = .processingFrames)
    (hkeeps : KeepsData env resume p bs) (hq : q.Bounded)
    (h : stepProcessingFrames env p bs = .next q rest) : Advances env resume bytes bs q rest := by
  obtain ⟨f, hf⟩ := Option.ne_none_iff_exists'.mp (hp.busy hs)
  have hbusy : p.state ≠ .init ∧ p.state ≠ .continuingFile := by simp [hs]
  have hgrows (n : ℕ) : bytes <+: bytes ++ bs.take n := List.prefix_append _ _
  simp only [KeepsData, hs] at hkeeps
  obtain ⟨hcomplete, hdirectory, hstart⟩ := hkeeps
  rw [stepProcessingFrames] at h
  split at h
  · cases h
  · cases h
  · next info hinfo =>
    have hcloses := closesFile_iff hinfo
    have hcontent := parseNextFrame_content hinfo
    split at h
    · next htype =>
      split at h
      · cases h
      · obtain ⟨r, hr, hnext⟩ := LoopStep.after_next h
        cases hnext
        obtain ⟨hsize, hdeclared⟩ := hcontent.1 htype
        obtain ⟨hle, f', hf', hg, hwritten, hidx, hstate⟩ :=
          handleZstdFrame_writes hzstd hsize hdeclared hr
        obtain rfl := Option.some.inj (hf'.symm.trans hf)
        exact ⟨info.frameSize, rfl, hp.same (hgrows _) hs hq hstate hidx hf hg rfl hle
          fun fileMeta start hopens ↦ hopens.write hle hwritten (Nat.mod_le _ _)⟩
    · cases h
      exact ⟨info.frameSize, rfl, hp.same (hgrows _) hs hq rfl rfl hf hf rfl (List.prefix_refl _)
        fun _ _ hopens ↦ hopens⟩
    · next htype =>
      split at h
      · cases h
      · obtain ⟨r, hr, hnext⟩ := LoopStep.after_next h
        cases hnext
        have hoffset := hstart (hcontent.2.1 htype) f hf
        rw [handleStartOfPartFrame, hf] at hr
        cases hr
        exact ⟨info.frameSize, rfl, hp.same (hgrows _) hs hq rfl rfl hf (congrArg (Option.map _) hf) rfl
          (List.prefix_refl _) fun _ _ hopens ↦ hopens.move hoffset⟩
    · next htype =>
      cases h
      exact ⟨descriptorSize p, rfl, hp.closes (hgrows _) hbusy (hcomplete (hcloses.mpr (.inl htype)))
        (.inl rfl) hq rfl⟩
    · next htype =>
      cases h
      exact Progress.advances (hp.closes (n := 0) (List.prefix_refl _) hbusy
        (hcomplete (hcloses.mpr (.inr (.inl htype)))) (.inl rfl) hq rfl)
    · next htype =>
      cases h
      exact Progress.advances (hp.closes (n := 0) (List.prefix_refl _) hbusy
        (hcomplete (hcloses.mpr (.inr (.inr htype))))
        (.inr ⟨rfl, hdirectory (hcontent.2.2.1 htype)⟩) hq rfl)

/-- A symlink that has been opened and read on. -/
theorem Progress.reads {env : ProcessorEnv} {resume n : ℕ} {bytes piece : List UInt8}
    {p : PartProcessor} (hp : Progress env resume bytes p) (hs : p.state = .readingSymlink)
    {f : FileContext} (hf : p.currentFile = some f) {target : List UInt8}
    (htarget : f.symlinkBuffer = some target)
    (hq : ((p.consume n).setSymlinkTarget f (target ++ piece)).Bounded) :
    Progress env resume (bytes ++ piece) ((p.consume n).setSymlinkTarget f (target ++ piece)) := by
  obtain ⟨xs, ⟨fileMeta, start⟩, hxs, hsettled, hopen⟩ := hp.opened f hf
  have hread := hp.target f target hf htarget
  rw [if_pos hs] at hread
  obtain ⟨before, header, hbytes, hheader⟩ := hread
  have hsame : openedEntries env resume ((p.consume n).setSymlinkTarget f (target ++ piece)) =
      openedEntries env resume p :=
    openedEntries_eq resume rfl (by simp [hs]) (by
      simp [PartProcessor.setSymlinkTarget, PartProcessor.consume, hs])
  refine Progress.of_opened hq hp.next rfl (.inr ⟨hs, fun read hr ↦ ?_⟩) (hsame.trans hxs)
    (hsettled.mono (List.prefix_append _ _) (List.prefix_refl _))
    ⟨hopen.filename, hopen.size, hopen.isSymlink, hopen.isDirectory, hopen.opened, hopen.written⟩
  cases hr
  exact ⟨before, header, by rw [hbytes, List.append_assoc (before ++ header)], hheader⟩

theorem stepReadingSymlink_advances {env : ProcessorEnv} {resume : ℕ} {bytes : List UInt8}
    {p q : PartProcessor} {bs rest : List UInt8} (hp : Progress env resume bytes p)
    (hs : p.state = .readingSymlink) (hq : q.Bounded)
    (h : stepReadingSymlink env p bs = .next q rest) : Advances env resume bytes bs q rest := by
  rw [stepReadingSymlink] at h
  split at h
  · cases h
  · next f hf =>
    split at h
    · cases h
    · next target htarget =>
      obtain ⟨hsize, hsymlink⟩ := hp.bounded.file f hf
      obtain ⟨hlink, hlen⟩ := hsymlink target htarget
      have hread : symlinkBytesToCopy f target bs =
          min bs.length (f.expectedTotalSize - target.length) := rfl
      generalize symlinkBytesToCopy f target bs = n at h hread
      have hbounded : ((p.consume n).setSymlinkTarget f (target ++ bs.take n)).Bounded := by
        refine ⟨fileBounded_some rfl ⟨hsize, fun read hr ↦ ?_⟩, by
          simp [PartProcessor.consume, PartProcessor.setSymlinkTarget, hs]⟩
        cases hr
        refine ⟨hlink, ?_⟩
        rw [List.length_append, List.length_take]
        dsimp only
        omega
      have hnow := hp.reads hs hf htarget hbounded
      rw [afterSymlinkBytes] at h
      split at h
      · next hall =>
        cases h
        refine ⟨n, rfl, hnow.closes (n := 0) (List.prefix_refl _) (by
          simp [PartProcessor.setSymlinkTarget, PartProcessor.consume, hs]) ?_ (.inl rfl) hq rfl⟩
        intro g hg
        obtain rfl := Option.some.inj hg
        refine ⟨fun _ ↦ by simpa using hall, fun hno ↦ ?_⟩
        rw [show f.isSymlink = false from hno] at hlink
        cases hlink
      · cases h
        exact ⟨n, rfl, hnow⟩

/-- A round that leaves out no data keeps what has been opened whole. -/
theorem step_advances {env : ProcessorEnv} (henv : env.Sizes64) (hzstd : env.zstd.SizesAgree)
    {resume : ℕ} {bytes : List UInt8} {p q : PartProcessor} {bs rest : List UInt8}
    (hp : Progress env resume bytes p) (hdone : p.state ≠ .done) (hkeeps : KeepsData env resume p bs)
    (h : step env p bs = .next q rest) : Advances env resume bytes bs q rest := by
  have hq := step_bounded henv hp.bounded h
  rw [step] at h
  split at h
  · next hs => exact stepInit_advances hp hs hq h
  · next hs => exact stepContinuingFile_advances hp hs hkeeps hq h
  · next hs => exact stepExpectLocalHeader_advances hp hs hkeeps hq h
  · next hs => exact stepProcessingFrames_advances hzstd hp hs hkeeps hq h
  · next hs => exact stepReadingSymlink_advances hp hs hq h
  · next hs => exact (hdone hs).elim
  · cases h

end Burst
