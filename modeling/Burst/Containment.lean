import Burst.OutputPaths
import Burst.StickyErrors
import Burst.FullParse
import Burst.Lib.PathResolution

namespace Burst

open LittleEndian Incremental PathResolution

/-- The components of a path; empty ones and `.` lead nowhere else. -/
def components (path : Path) : List (Component Path) :=
  (path.splitOn slash).filterMap fun c ↦
    if c = [] ∨ c = [46] then none else if c = [46, 46] then some .up else some (.name c)

def linkTarget (target : Path) : Target Path where
  absolute := target.head? = some slash
  components := components target

theorem components_append (path rest : Path) :
    components (path ++ slash :: rest) = components path ++ components rest := by
  rw [components, List.splitOn_append_cons_self, List.filterMap_append]
  rfl

/-- The processors that calls lead to. -/
inductive ProcessorEnv.Reaches (env : ProcessorEnv) : PartProcessorState → Prop where
  | create : env.Reaches (partProcessorCreate [])
  | call {s t call e} : env.Reaches s → ProcessorCall.run env s call = some (e, t) → env.Reaches t

/-- The system calls that a processor has made between two calls or, while it works on data, between two
rounds. -/
def ProcessorEnv.Makes (env : ProcessorEnv) (ops : List FileOp) : Prop :=
  ∃ s, env.Reaches s ∧ (ops = s.ops ∨ ∃ data q rest,
    Visits (step env) s.toPartProcessor (s.frameBuffer ++ data) q rest ∧ ops = q.ops)

/-- What every round preserves is preserved by a call with data. -/
theorem partProcessorProcessData_invariant {env : ProcessorEnv} {P : PartProcessor → Prop}
    (hstep : ∀ p bs, P p → P (step env p bs).state) {s t : PartProcessorState} {data : List UInt8}
    {e : Option StreamProcError} (hs : P s.toPartProcessor)
    (h : partProcessorProcessData env s data = some (e, t)) : P t.toPartProcessor := by
  by_cases herror : s.state = .error
  · rw [partProcessorProcessData, herror] at h
    cases h
    exact hs
  by_cases hdone : s.state = .done
  · rw [partProcessorProcessData, hdone] at h
    cases h
    exact hs
  rw [partProcessorProcessData_eq env herror hdone] at h
  cases hloop : mainLoop env (loopRounds (s.frameBuffer ++ data)) s.toPartProcessor
      (s.frameBuffer ++ data) with
  | none => simp [hloop] at h
  | some r =>
    have hend := run_state hstep hs hloop
    cases r with
    | finished p remaining =>
      simp only [hloop, Option.some.injEq, Prod.mk.injEq] at h
      rw [← h.2]
      exact hend
    | stopped e' p =>
      simp only [hloop, Option.some.injEq, Prod.mk.injEq] at h
      rw [← h.2]
      exact hend

theorem partProcessorProcessData_keepsPaths {env : ProcessorEnv} {s t : PartProcessorState}
    {data : List UInt8} {e : Option StreamProcError} (hs : s.toPartProcessor.KeepsPaths env)
    (h : partProcessorProcessData env s data = some (e, t)) : t.toPartProcessor.KeepsPaths env :=
  @partProcessorProcessData_invariant env (·.KeepsPaths env) (fun _ bs hp ↦ step_keepsPaths hp bs) _ _ _ _
    hs h

theorem partProcessorFinalize_keepsPaths {env : ProcessorEnv} {s : PartProcessorState}
    (hs : s.toPartProcessor.KeepsPaths env) :
    (partProcessorFinalize env s).2.toPartProcessor.KeepsPaths env := by
  obtain ⟨hops, hfile⟩ := closeOutputFile_keepsPaths hs
  rw [partProcessorFinalize]
  split
  · exact ⟨hops, hfile⟩
  · exact ⟨hops, hfile⟩

theorem ProcessorEnv.Reaches.keepsPaths {env : ProcessorEnv} {s : PartProcessorState}
    (h : env.Reaches s) : s.toPartProcessor.KeepsPaths env := by
  induction h with
  | create => exact ⟨nofun, nofun⟩
  | @call s t call e _ hcall ih =>
    cases call with
    | data bytes => exact partProcessorProcessData_keepsPaths ih hcall
    | finalize =>
      have hfinal := partProcessorFinalize_keepsPaths ih
      rw [ProcessorCall.run, Option.some.injEq] at hcall
      rw [hcall] at hfinal
      exact hfinal

/-- All system calls of a processor have the paths of entries or of directories in them. -/
theorem ProcessorEnv.Makes.touches {env : ProcessorEnv} {ops : List FileOp} (h : env.Makes ops) :
    ∀ op ∈ ops, env.Touches op := by
  obtain ⟨s, hs, rfl | ⟨data, q, rest, hvisit, rfl⟩⟩ := h
  · exact hs.keepsPaths.ops
  · have hnext {p : PartProcessor} {bs : List UInt8} {q : PartProcessor} {rest : List UInt8}
        (hp : p.KeepsPaths env) (hstep : step env p bs = .next q rest) : q.KeepsPaths env := by
      have hkept := step_keepsPaths hp bs
      rw [hstep] at hkept
      exact hkept
    have hvisited := @Visits.invariant _ _ _ _ (fun p _ ↦ p.KeepsPaths env) _ _ _ _ hvisit
      (fun hp _ hstep ↦ hnext hp hstep) hs.keepsPaths
    exact hvisited.ops

/-- What a system call may do to the symlinks below the output directory, which is at `base`: nothing, or
make or remove the one of its name. -/
inductive Relinks (outputDir : Path) (base : List Path) (links : Links Path) :
    FileOp → Links Path → Prop where
  | keeps (op : FileOp) : Relinks outputDir base links op links
  | symlink {target rest : Path} {parents : List (Component Path)} {name : Path} {dir : List Path} :
      components rest = parents ++ [.name name] →
      Resolves links (fun _ ↦ True) (fun _ ↦ True) base parents dir →
      Relinks outputDir base links (.symlink target (outputDir ++ slash :: rest))
        (Function.update links (dir ++ [name]) (some (linkTarget target)))
  | unlink {rest : Path} {parents : List (Component Path)} {name : Path} {dir : List Path} :
      components rest = parents ++ [.name name] →
      Resolves links (fun _ ↦ True) (fun _ ↦ True) base parents dir →
      Relinks outputDir base links (.unlink (outputDir ++ slash :: rest))
        (Function.update links (dir ++ [name]) none)

/-- The symlinks that there may be after system calls. -/
inductive LinksAfter (outputDir : Path) (base : List Path) : List FileOp → Links Path → Prop where
  | start : LinksAfter outputDir base [] fun _ ↦ none
  | call {ops op links links'} : LinksAfter outputDir base ops links →
      Relinks outputDir base links op links' → LinksAfter outputDir base (ops ++ [op]) links'

/-- Every symlink has been made by a system call. -/
theorem LinksAfter.made {outputDir : Path} {base : List Path} {ops : List FileOp} {links : Links Path}
    (h : LinksAfter outputDir base ops links) {place : List Path} {target : Target Path}
    (hlink : links place = some target) :
    ∃ text path, .symlink text path ∈ ops ∧ target = linkTarget text := by
  induction h generalizing place target with
  | start => cases hlink
  | @call ops op links links' _ hrelinks ih =>
    have hbefore (hsome : links place = some target) :
        ∃ text path, .symlink text path ∈ ops ++ [op] ∧ target = linkTarget text := by
      obtain ⟨text, path, hmem, htarget⟩ := ih hsome
      exact ⟨text, path, List.mem_append_left _ hmem, htarget⟩
    cases hrelinks with
    | keeps => exact hbefore hlink
    | symlink =>
      rw [Function.update_apply] at hlink
      split at hlink
      · obtain rfl := Option.some.inj hlink
        exact ⟨_, _, List.mem_append_right _ (List.mem_singleton.mpr rfl), rfl⟩
      · exact hbefore hlink
    | unlink =>
      rw [Function.update_apply] at hlink
      split at hlink
      · cases hlink
      · exact hbefore hlink

/-- The processors of the parts have made these system calls, in this order. -/
def Extraction.Interleaves (x : Extraction) (history : List (ℕ × FileOp)) : Prop :=
  ∀ p, ∃ ops, (x.env p).Makes ops ∧ (history.filter (·.1 = p)).map Prod.snd <+: ops

theorem Extraction.Interleaves.touches {x : Extraction} {history : List (ℕ × FileOp)}
    (h : x.Interleaves history) {p : ℕ} {op : FileOp} (hmem : (p, op) ∈ history) :
    (x.env p).Touches op := by
  obtain ⟨ops, hmakes, hle⟩ := h p
  refine hmakes.touches op (hle.subset (List.mem_map.mpr ⟨(p, op), ?_, rfl⟩))
  exact List.mem_filter.mpr ⟨hmem, by simp⟩

/-- Nothing that is called `..`. -/
def Extraction.NamesDescend (x : Extraction) : Prop :=
  ∀ fileMeta ∈ x.cdResult.files, .up ∉ components fileMeta.filename

/-- A path that goes on to that of an entry is the output directory, stands before a slash of it or lies
behind it. -/
theorem goesOnWithSlash_cases {outputDir path name : Path}
    (h : GoesOnWithSlash path (outputDir ++ [slash] ++ name)) :
    path = outputDir ∨ GoesOnWithSlash path outputDir ∨
      ∃ rest, path = outputDir ++ slash :: rest ∧ GoesOnWithSlash rest name := by
  obtain ⟨more, hmore⟩ := h
  rw [List.append_assoc, List.singleton_append] at hmore
  rcases List.append_eq_append_iff.mp hmore with ⟨between, hdir, hrest⟩ | ⟨between, hpath, hrest⟩
  · cases between with
    | nil =>
      rw [List.append_nil] at hdir
      exact .inl hdir.symm
    | cons c between =>
      obtain ⟨rfl, -⟩ := List.cons.inj hrest
      exact .inr (.inl ⟨between, hdir.symm⟩)
  · cases between with
    | nil =>
      rw [List.append_nil] at hpath
      exact .inl hpath
    | cons c between =>
      obtain ⟨rfl, hname⟩ := List.cons.inj hrest
      exact .inr (.inr ⟨between, hpath, more, hname.symm⟩)

/-- The path of an entry, or of a directory in it, lies behind the output directory. -/
theorem ProcessorEnv.Touches.behind {env : ProcessorEnv} {op : FileOp} (h : env.Touches op) {path : Path}
    (hpath : op.path? = some path) :
    (∃ mode, op = .mkdir path mode ∧
      (path = [46] ∨ path = env.outputDir ∨ GoesOnWithSlash path env.outputDir)) ∨
    ∃ rest, path = env.outputDir ++ slash :: rest ∧ ∃ fileMeta ∈ env.cdResult.files,
      rest = fileMeta.filename ∨ GoesOnWithSlash rest fileMeta.filename := by
  rcases h path hpath with ⟨fileMeta, hfile, rfl⟩ | ⟨mode, hop, rfl | ⟨fileMeta, hfile, hgoes⟩⟩
  · exact .inr ⟨fileMeta.filename, by simp [filePath], fileMeta, hfile, .inl rfl⟩
  · exact .inl ⟨mode, hop, .inl rfl⟩
  · rcases goesOnWithSlash_cases hgoes with hdir | habove | ⟨rest, hrest, hname⟩
    · exact .inl ⟨mode, hop, .inr (.inl hdir)⟩
    · exact .inl ⟨mode, hop, .inr (.inr habove)⟩
    · exact .inr ⟨rest, hrest, fileMeta, hfile, .inr hname⟩

theorem Extraction.NamesDescend.components {x : Extraction} (h : x.NamesDescend)
    {fileMeta : FileMetadata} (hfile : fileMeta ∈ x.cdResult.files) {rest : Path}
    (hrest : rest = fileMeta.filename ∨ GoesOnWithSlash rest fileMeta.filename) :
    .up ∉ Burst.components rest := by
  have hname := h fileMeta hfile
  rcases hrest with rfl | ⟨more, hmore⟩
  · exact hname
  · rw [← hmore, components_append] at hname
    exact fun hmem ↦ hname (List.mem_append_left _ hmem)

theorem LinksAfter.keeps {outputDir : Path} {base : List Path} {ops : List FileOp} {links : Links Path}
    (h : LinksAfter outputDir base ops links) (more : List FileOp) :
    LinksAfter outputDir base (ops ++ more) links := by
  induction more generalizing ops with
  | nil => rwa [List.append_nil]
  | cons op more ih =>
    have hnext := ih (h.call (.keeps op))
    rwa [List.append_assoc] at hnext

theorem interleaves_solo {x : Extraction} {ops more : List FileOp}
    (h : (x.env 0).Makes (ops ++ more)) : x.Interleaves (ops.map fun op ↦ (0, op)) := by
  intro p
  have hcreate (p : ℕ) : (x.env p).Makes [] := ⟨_, .create, .inl rfl⟩
  by_cases hp : p = 0
  · refine ⟨ops ++ more, hp ▸ h, ?_⟩
    have hall : (ops.map fun op ↦ (0, op)).filter (·.1 = p) = ops.map fun op ↦ (0, op) := by
      rw [List.filter_eq_self]
      simp [hp]
    have hsnd : (ops.map fun op ↦ (0, op)).map Prod.snd = ops := by
      rw [List.map_map]
      exact List.map_id _
    rw [hall, hsnd]
    exact List.prefix_append _ _
  · refine ⟨[], hcreate p, ?_⟩
    have hnone : (ops.map fun op ↦ (0, op)).filter (·.1 = p) = [] := by
      rw [List.filter_eq_nil_iff]
      simp [Ne.symm hp]
    rw [hnone]
    exact List.nil_prefix

/-- Whatever the archive, and in whatever order the processors of its parts make their system calls: the
path of a call is the output directory or a directory above it (or `.`) that is made if it is missing, or
it is behind the output directory the name of an entry or what stands before a slash of one. There it leads
out of the output directory only where a `..` is taken in the output directory itself or a symlink with an
absolute target is followed; it never does where no name of an entry and no target of a symlink made before
has a `..` and no such target is absolute. -/
theorem extraction_staysInside {x : Extraction} {history : List (ℕ × FileOp)} {p : ℕ} {op : FileOp}
    {path : Path} (h : x.Interleaves (history ++ [(p, op)])) (hpath : op.path? = some path)
    (base : List Path) {links : Links Path}
    (hlinks : LinksAfter x.outputDir base (history.map Prod.snd) links) :
    (∃ mode, op = .mkdir path mode ∧
      (path = [46] ∨ path = x.outputDir ∨ GoesOnWithSlash path x.outputDir)) ∨
    ∃ rest, path = x.outputDir ++ slash :: rest ∧
      (∃ fileMeta ∈ x.cdResult.files,
        rest = fileMeta.filename ∨ GoesOnWithSlash rest fileMeta.filename) ∧
      (∀ place, Denotes links (fun dir ↦ dir ≠ base) (fun target ↦ target.absolute = false) base
        (components rest) place → base <+: place) ∧
      (x.NamesDescend →
        (∀ target link, .symlink target link ∈ history.map Prod.snd → (linkTarget target).Descends) →
        ∀ place, Denotes links (fun _ ↦ True) (fun _ ↦ True) base (components rest) place →
          base <+: place) := by
  have htouches := h.touches (List.mem_append_right _ (List.mem_singleton.mpr rfl))
  rcases htouches.behind hpath with hmade | ⟨rest, hrest, fileMeta, hfile, hname⟩
  · exact .inl hmade
  · refine .inr ⟨rest, hrest, ⟨fileMeta, hfile, hname⟩, fun place hplace ↦ ?_,
      fun hnames htargets place hplace ↦ ?_⟩
    · exact hplace.inside (fun _ hdir ↦ hdir) (fun _ htarget ↦ htarget) (List.prefix_refl _)
    · have hdescend (place : List Path) (target : Target Path) (hlink : links place = some target) :
          target.Descends := by
        obtain ⟨text, link, hmem, rfl⟩ := hlinks.made hlink
        exact htargets text link hmem
      have hdown := hplace.descends hdescend (hnames.components hfile hname)
      exact hdown.inside (fun _ hfalse ↦ hfalse.elim) (fun _ htarget ↦ htarget) (List.prefix_refl _)

/-- A symlink `l` to `d` and a file `l/x`, extracted to `out`. -/
def linkedExtraction : Extraction where
  os _ := obligingOs
  zstd := hungryZstd
  cdResult := {
    files := [{ plainFile 108 0 with uncompressedSize := 1, isSymlink := true },
      { plainFile 0 32 with filename := [108, 47, 120] }]
    parts := [⟨[⟨0, 0⟩, ⟨1, 32⟩], none⟩]
    centralDirOffset := 79
    centralDirSize := 96
    isZip64 := false }
  outputDir := [111, 117, 116]
  partSize := burstPartSize

/-- What the processor of the first part does with one chunk of data. -/
def Extraction.firstOps (x : Extraction) (data : List UInt8) : List FileOp :=
  (partProcessorProcessData (x.env 0) (partProcessorCreate []) data).elim [] fun r ↦ r.2.ops

theorem firstOps_makes (x : Extraction) (data : List UInt8) : (x.env 0).Makes (x.firstOps data) := by
  cases hcall : partProcessorProcessData (x.env 0) (partProcessorCreate []) data with
  | none =>
    rw [Extraction.firstOps, hcall]
    exact ⟨_, .create, .inl rfl⟩
  | some r =>
    obtain ⟨e, t⟩ := r
    rw [Extraction.firstOps, hcall]
    exact ⟨t, @ProcessorEnv.Reaches.call _ _ _ (.data data) _ .create hcall, .inl rfl⟩

def linkedBytes : List UInt8 :=
  plainLocalHeader 97 ++ [100] ++ plainLocalHeader 98 ++ plainDescriptor

/-- What is done before the file is opened. -/
def linkedOps : List FileOp :=
  [.mkdir [111, 117, 116] 0o755, .unlink [111, 117, 116, 47, 108]] ++
    [.symlink [100] [111, 117, 116, 47, 108]] ++
    [.mkdir [111, 117, 116] 0o755, .mkdir [111, 117, 116, 47, 108] 0o755]

/-- The file is written through the symlink, below the output directory. -/
theorem linkedFile_staysInside :
    ∃ links : Links Path, links [[111, 117, 116], [108]] = some (linkTarget [100]) ∧
      LinksAfter [111, 117, 116] [[111, 117, 116]] linkedOps links ∧
      ∀ place, Denotes links (fun _ ↦ True) (fun _ ↦ True) [[111, 117, 116]] (components [108, 47, 120])
        place → [[111, 117, 116]] <+: place := by
  have hops : linkedExtraction.firstOps linkedBytes =
      linkedOps ++ [.openFile [111, 117, 116, 47, 108, 47, 120]] ++
        [.ftruncate [111, 117, 116, 47, 108, 47, 120] 0, .close [111, 117, 116, 47, 108, 47, 120]] := by
    decide +kernel
  have hmakes := firstOps_makes linkedExtraction linkedBytes
  rw [hops] at hmakes
  have hname : components [108] = [] ++ [.name [108]] := by decide +kernel
  have hstart : LinksAfter [111, 117, 116] [[111, 117, 116]] [] fun _ ↦ none := .start
  have hmade : LinksAfter [111, 117, 116] [[111, 117, 116]]
      ([.mkdir [111, 117, 116] 0o755, .unlink [111, 117, 116, 47, 108]] ++
        [.symlink [100] [111, 117, 116, 47, 108]])
      (Function.update (fun _ ↦ none) ([[111, 117, 116]] ++ [[108]]) (some (linkTarget [100]))) :=
    (hstart.keeps _).call (.symlink hname .done)
  have hlinks := hmade.keeps [.mkdir [111, 117, 116] 0o755, .mkdir [111, 117, 116, 47, 108] 0o755]
  refine ⟨_, by simp, hlinks, ?_⟩
  have hinside := @extraction_staysInside linkedExtraction (linkedOps.map fun op ↦ (0, op)) 0
    (.openFile [111, 117, 116, 47, 108, 47, 120]) _ (interleaves_solo hmakes) rfl [[111, 117, 116]] _
    hlinks
  rcases hinside with ⟨mode, hmkdir, -⟩ | ⟨rest, hrest, -, -, hdescends⟩
  · cases hmkdir
  · have hsuffix : [47, 108, 47, 120] = slash :: rest := @List.append_cancel_left _ [111, 117, 116] _ _ hrest
    obtain ⟨-, rfl⟩ := List.cons.inj hsuffix
    have hnames : linkedExtraction.NamesDescend := by
      rw [Extraction.NamesDescend]
      decide +kernel
    refine hdescends hnames fun target link hmem ↦ ?_
    have hmade : target = [100] ∧ link = [111, 117, 116, 47, 108] := by
      simpa [linkedOps] using hmem
    rw [hmade.1]
    exact ⟨by decide +kernel, by decide +kernel⟩

/-- Some processor makes the system call at a time when its path leads out of the output directory. -/
def Extraction.Escapes (x : Extraction) (base : List Path) (op : FileOp) : Prop :=
  ∃ history p links rest place, x.Interleaves (history ++ [(p, op)]) ∧
    LinksAfter x.outputDir base (history.map Prod.snd) links ∧
    op.path? = some (x.outputDir ++ slash :: rest) ∧
    Denotes links (fun _ ↦ True) (fun _ ↦ True) base (components rest) place ∧ ¬ base <+: place

/-- The header of an entry in the central directory, of a symlink or a file. -/
def namedCentralHeader (name : List UInt8) (isSymlink : Bool) (size localHeaderOffset : ℕ) :
    List UInt8 :=
  ZipCentralHeader.fixedBytes {
    signature := zipCentralDirHeaderSig
    versionMadeBy := if isSymlink then 3 * 256 + zipVersionZstd else zipVersionZstd
    versionNeeded := zipVersionZstd
    flags := zipFlagDataDescriptor
    compressionMethod := zipMethodZstd
    lastModTime := 0
    lastModDate := 33
    crc32 := 0
    compressedSize := size
    uncompressedSize := size
    filenameLength := name.length
    extraFieldLength := 0
    fileCommentLength := 0
    diskNumberStart := 0
    internalFileAttributes := 0
    externalFileAttributes := if isSymlink then 0o120777 * 2 ^ 16 else 0
    localHeaderOffset := localHeaderOffset } ++ name

/-- The central directory of a file `../x`, a symlink `l` and a file `l/x`. -/
def escapingArchive : List UInt8 :=
  namedCentralHeader [46, 46, 47, 120] false 0 0 ++ namedCentralHeader [108] true 4 47 ++
    namedCentralHeader [108, 47, 120] false 0 82 ++ ZipEndCentralDir.bytes {
      signature := zipEndCentralDirSig
      diskNumber := 0
      diskWithCd := 0
      numEntriesThisDisk := 3
      numEntriesTotal := 3
      centralDirSize := 146
      centralDirOffset := 0
      commentLength := 0 }

def escapingDirectory : CentralDirParseResult where
  files := [{ plainFile 0 0 with filename := [46, 46, 47, 120] },
    { plainFile 108 47 with
      compressedSize := 4, uncompressedSize := 4, unixMode := 0o120777, hasUnixMode := true,
      isSymlink := true },
    { plainFile 0 82 with filename := [108, 47, 120] }]
  parts := [⟨[⟨0, 0⟩, ⟨1, 47⟩, ⟨2, 82⟩], none⟩]
  centralDirOffset := 0
  centralDirSize := 146
  isZip64 := false

/-- The archive is extracted to `out`. -/
def escapingExtraction : Extraction where
  os _ := obligingOs
  zstd := hungryZstd
  cdResult := escapingDirectory
  outputDir := [111, 117, 116]
  partSize := burstPartSize

/-- The link points to `/etc`. -/
def escapingBytes : List UInt8 :=
  plainLocalHeader 97 ++ plainDescriptor ++ plainLocalHeader 98 ++ [47, 101, 116, 99] ++
    plainLocalHeader 99 ++ plainDescriptor

def escapingOps : List FileOp :=
  [.mkdir [111, 117, 116] 0o755, .mkdir [111, 117, 116, 47, 46, 46] 0o755]

/-- What is done before the file behind the link is opened. -/
def linkingOps : List FileOp :=
  escapingOps ++ [.openFile [111, 117, 116, 47, 46, 46, 47, 120],
    .ftruncate [111, 117, 116, 47, 46, 46, 47, 120] 0, .close [111, 117, 116, 47, 46, 46, 47, 120],
    .mkdir [111, 117, 116] 0o755, .unlink [111, 117, 116, 47, 108]] ++
    [.symlink [47, 101, 116, 99] [111, 117, 116, 47, 108]] ++
    [.mkdir [111, 117, 116] 0o755, .mkdir [111, 117, 116, 47, 108] 0o755]

/-- A file `../x` is opened next to the output directory, and a file `l/x` in the directory that the
symlink `l` made before it points to. -/
theorem names_and_links_escape :
    (centralDirParse escapingArchive 168 burstPartSize).toOption = some escapingDirectory ∧
    escapingExtraction.Escapes [[111, 117, 116]] (.openFile [111, 117, 116, 47, 46, 46, 47, 120]) ∧
    escapingExtraction.Escapes [[111, 117, 116]] (.openFile [111, 117, 116, 47, 108, 47, 120]) := by
  have hops : escapingExtraction.firstOps escapingBytes =
      linkingOps ++ [.openFile [111, 117, 116, 47, 108, 47, 120]] ++
        [.ftruncate [111, 117, 116, 47, 108, 47, 120] 0, .close [111, 117, 116, 47, 108, 47, 120]] := by
    decide +kernel
  have hmakes := firstOps_makes escapingExtraction escapingBytes
  rw [hops] at hmakes
  have hstart : LinksAfter [111, 117, 116] [[111, 117, 116]] [] fun _ ↦ none := .start
  refine ⟨by decide +kernel, ?_, ?_⟩
  · have hname : components [46, 46, 47, 120] = [.up, .name [120]] := by decide +kernel
    have hfirst : (escapingExtraction.env 0).Makes
        (escapingOps ++ [.openFile [111, 117, 116, 47, 46, 46, 47, 120]] ++
          (linkingOps.drop 3 ++ [.openFile [111, 117, 116, 47, 108, 47, 120]] ++
            [.ftruncate [111, 117, 116, 47, 108, 47, 120] 0, .close [111, 117, 116, 47, 108, 47, 120]])) :=
      hmakes
    refine ⟨escapingOps.map fun op ↦ (0, op), 0, fun _ ↦ none, [46, 46, 47, 120], [[120]],
      interleaves_solo hfirst, hstart.keeps escapingOps, rfl, ?_, by decide⟩
    rw [hname]
    exact .followed (.up trivial (.name rfl .done))
  · have hname : components [108] = [] ++ [.name [108]] := by decide +kernel
    have hpath : components [108, 47, 120] = [.name [108], .name [120]] := by decide +kernel
    have htarget : linkTarget [47, 101, 116, 99] = ⟨true, [.name [101, 116, 99]]⟩ := by decide +kernel
    have hmade : LinksAfter [111, 117, 116] [[111, 117, 116]]
        (linkingOps.take 7 ++ [.symlink [47, 101, 116, 99] [111, 117, 116, 47, 108]])
        (Function.update (fun _ ↦ none) ([[111, 117, 116]] ++ [[108]])
          (some (linkTarget [47, 101, 116, 99]))) :=
      (hstart.keeps (linkingOps.take 7)).call (.symlink hname .done)
    have hlinks := hmade.keeps [.mkdir [111, 117, 116] 0o755, .mkdir [111, 117, 116, 47, 108] 0o755]
    rw [htarget] at hlinks
    refine ⟨linkingOps.map fun op ↦ (0, op), 0, _, [108, 47, 120], [[101, 116, 99], [120]],
      interleaves_solo hmakes, hlinks, rfl, ?_, by decide⟩
    rw [hpath]
    refine .followed (.link (Function.update_self _ _ _) trivial (.name ?_ (.name ?_ .done)))
    · rfl
    · rfl

end Burst
