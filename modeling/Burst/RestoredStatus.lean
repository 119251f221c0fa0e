import Burst.RoundTrip

namespace Burst

open PathResolution LittleEndian Incremental Interleaving

/-- What a system call that succeeds makes of the status of the file that it acts on. -/
def FileOp.status (fresh : FileStatus) (s : Option FileStatus) : FileOp → Option FileStatus
  | openFile _ => some (s.getD fresh)
  | chmod _ mode => s.map fun s ↦ { s with mode := mode }
  | fchmod _ mode => s.map fun s ↦ { s with mode := mode }
  | chown _ uid gid => s.map (·.changeOwner uid gid)
  | fchown _ uid gid => s.map (·.changeOwner uid gid)
  | lchown _ uid gid => s.map (·.changeOwner uid gid)
  | unlink _ => none
  | symlink _ _ => some fresh
  | _ => s

def statusAfter (fresh : FileStatus) (s : Option FileStatus) (ops : List FileOp) : Option FileStatus :=
  ops.foldl (FileOp.status fresh) s

theorem statusAfter_append (fresh : FileStatus) (s : Option FileStatus) (ops ops' : List FileOp) :
    statusAfter fresh s (ops ++ ops') = statusAfter fresh (statusAfter fresh s ops) ops' :=
  List.foldl_append

theorem FileOp.act_status (fresh : FileStatus) (i : Option Inode) (op : FileOp) :
    (op.act fresh i).map Inode.status = op.status fresh (i.map Inode.status) := by
  cases op <;> cases i <;> rfl

/-- The system call may change a status. -/
def FileOp.setsStatus : FileOp → Bool
  | mkdir _ _ => false
  | encodedWrite _ _ _ _ => false
  | pwrite _ _ _ => false
  | ftruncate _ _ => false
  | close _ => false
  | _ => true

/-- The system call may change the status of what there is at the path. -/
def FileOp.Concerns (path : Path) (op : FileOp) : Bool :=
  op.setsStatus ∧ (op.follows? = some path ∨ op.names? = some path)

theorem FileOp.status_of_not_sets {fresh : FileStatus} {op : FileOp} (h : op.setsStatus = false)
    (s : Option FileStatus) : op.status fresh s = s := by
  cases op with
  | mkdir => rfl
  | encodedWrite => rfl
  | pwrite => rfl
  | ftruncate => rfl
  | close => rfl
  | _ => cases h

theorem inodeAfter_status (fresh : FileStatus) (path : Path) (i : Option Inode) (ops : List FileOp) :
    (inodeAfter fresh path i ops).map Inode.status =
      statusAfter fresh (i.map Inode.status) (ops.filter (FileOp.Concerns path)) := by
  induction ops using List.reverseRecOn with
  | nil => rfl
  | append_singleton ops op ih =>
    rw [inodeAfter_concat, List.filter_append, statusAfter_append, ← ih]
    by_cases hpath : op.follows? = some path ∨ op.names? = some path
    · rw [if_pos hpath, FileOp.act_status]
      cases hsets : op.setsStatus with
      | true =>
        rw [List.filter_cons_of_pos (by simp [FileOp.Concerns, hsets, hpath])]
        rfl
      | false =>
        rw [List.filter_cons_of_neg (by simp [FileOp.Concerns, hsets]), FileOp.status_of_not_sets hsets]
        rfl
    · rw [if_neg hpath, List.filter_cons_of_neg (by simp [FileOp.Concerns, hpath])]
      rfl

/-- What a processor does to a regular file at a path: it opens it, and restores its permissions and its
owner when it closes it. -/
def restoring (path : Path) (archived : FileStatus) : List FileOp :=
  [.openFile path, .fchmod path archived.mode, .fchown path archived.uid archived.gid]

/-- The part of it that has been done while a file is open. -/
def restoringBegun (path : Path) : Option FileContext → List FileOp
  | none => []
  | some f => if f.filename = path then [.openFile path] else []

/-- The permissions and the owner that the archive has for the file. -/
def FileMetadata.status (fileMeta : FileMetadata) : FileStatus :=
  ⟨fileMeta.unixMode % 0o10000, fileMeta.uid, fileMeta.gid⟩

/-- A regular file that the archive lists with its permissions and its owner. -/
structure CentralDirParseResult.Archives (cdResult : CentralDirParseResult) (fileMeta : FileMetadata) :
    Prop where
  listed : fileMeta ∈ cdResult.files
  regular : fileMeta.IsRegular
  mode : fileMeta.hasUnixMode = true
  extra : fileMeta.hasUnixExtra = true

/-- The system works for root, and lets it change the permissions and the owner of a file that is open. -/
structure Os.ServesRoot (os : Os) : Prop where
  isRoot : os.isRoot = true
  fchmod : ∀ done path mode, ∃ n, os.respond done (.fchmod path mode) = .ok n
  fchown : ∀ done path uid gid, ∃ n, os.respond done (.fchown path uid gid) = .ok n

section Processor

variable {env : ProcessorEnv} {fileMeta other : FileMetadata}

/-- The path is that of no other entry. -/
def ProcessorEnv.PathUnique (env : ProcessorEnv) (fileMeta : FileMetadata) : Prop :=
  ∀ other ∈ env.cdResult.files, env.filePath other = env.filePath fileMeta → other = fileMeta

/-- What is done for another entry does not concern a file. -/
theorem effects_concern_nothing {done ops : List FileOp} (hne : env.filePath other ≠ env.filePath fileMeta)
    (hops : ∀ op ∈ ops, op.StemsFrom env [other]) :
    (effects env.os env.zstd done ops).filter (FileOp.Concerns (env.filePath fileMeta)) = [] := by
  rw [List.filter_eq_nil_iff]
  intro op hop hconcerns
  obtain ⟨made, hmade, n, rfl⟩ := mem_effects hop
  obtain ⟨-, hpath⟩ := of_decide_eq_true hconcerns
  rcases ((hops made hmade).completed n).acts with
    ⟨hfollows, hnames⟩ | ⟨e, he, -, hfollows, hnames⟩ | ⟨e, he, -, hnames, hfollows⟩
  · rw [hfollows, hnames] at hpath
    simp at hpath
  · rw [hfollows, hnames, List.mem_singleton.mp he] at hpath
    exact hne (by simpa using hpath)
  · rw [hfollows, hnames, List.mem_singleton.mp he] at hpath
    exact hne (by simpa using hpath)

theorem effect_ok {os : Os} {done : List FileOp} {op : FileOp} {n : ℕ} (zstd : ZstdLib)
    (h : os.respond done op = .ok n) : effect os zstd done op = [op.completed zstd n] := by
  rw [effect, h]

theorem effect_of_not_concerns {os : Os} {zstd : ZstdLib} {done : List FileOp} {op : FileOp} {path : Path}
    (h : ∀ n, (op.completed zstd n).Concerns path = false) :
    (effect os zstd done op).filter (FileOp.Concerns path) = [] := by
  rw [effect]
  cases os.respond done op with
  | error e => rfl
  | ok n => exact List.filter_cons_of_neg (by simp [h n])

/-- Opening an entry concerns the path of a file only when it is the file's own. -/
theorem Opening.concerns (h : env.cdResult.Archives fileMeta) (hunique : env.PathUnique fileMeta)
    (hother : other ∈ env.cdResult.files) {f : FileContext} {done made : List FileOp}
    (hopening : Opening env done other f made) :
    (effects env.os env.zstd done made).filter (FileOp.Concerns (env.filePath fileMeta)) =
      if env.filePath other = env.filePath fileMeta then [.openFile (env.filePath fileMeta)] else [] := by
  split
  · next hpath =>
    obtain rfl := hunique other hother hpath
    cases hopening with
    | directory hdirectory =>
      rw [h.regular.1] at hdirectory
      cases hdirectory
    | symlink _ hlink =>
      rw [h.regular.2] at hlink
      cases hlink
    | regular _ _ hok =>
      rw [effects, effects, effect_ok _ hok, List.append_nil]
      exact List.filter_cons_of_pos (by simp [FileOp.Concerns, FileOp.completed, FileOp.setsStatus,
        FileOp.follows?])
  · next hne => exact effects_concern_nothing hne (hopening.stemsFrom hother (List.mem_singleton.mpr rfl))

/-- Closing the file of an entry restores it. -/
theorem FileContext.IsOf.closeOps_concerns (h : env.cdResult.Archives fileMeta)
    (hunique : env.PathUnique fileMeta) (hos : env.os.ServesRoot) (hother : other ∈ env.cdResult.files)
    {f : FileContext} (hf : f.IsOf env other) (done : List FileOp) :
    (effects env.os env.zstd done (closeOps env.os f)).filter (FileOp.Concerns (env.filePath fileMeta)) =
      if env.filePath other = env.filePath fileMeta then
        (restoring (env.filePath fileMeta) fileMeta.status).drop 1
      else [] := by
  split
  · next hpath =>
    obtain rfl := hunique other hother hpath
    cases hf with
    | directory _ hdirectory =>
      rw [h.regular.1] at hdirectory
      cases hdirectory
    | symlink _ _ _ hlink =>
      rw [h.regular.2] at hlink
      cases hlink
    | regular offset _ hregular =>
      have hmode : (env.context other).hasUnixMode = true := h.mode
      have hextra : (env.context other).hasUnixExtra = true := h.extra
      obtain ⟨n, hfchmod⟩ := hos.fchmod (done ++ [.ftruncate (env.filePath other) other.uncompressedSize])
        (env.filePath other) (other.unixMode % 0o10000)
      obtain ⟨m, hfchown⟩ := hos.fchown (done ++ [.ftruncate (env.filePath other) other.uncompressedSize] ++
        [.fchmod (env.filePath other) (other.unixMode % 0o10000)]) (env.filePath other) other.uid other.gid
      have hops : closeOps env.os { env.context other with fdOpen := true, uncompressedOffset := offset } =
          [.ftruncate (env.filePath other) other.uncompressedSize,
            .fchmod (env.filePath other) (other.unixMode % 0o10000),
            .fchown (env.filePath other) other.uid other.gid, .close (env.filePath other)] := by
        rw [closeOps_regular hregular, restoreFileOps, if_pos hmode, if_pos ⟨hextra, hos.isRoot⟩]
        rfl
      rw [hops, effects, effects, effects, effects, effects, effect_ok _ hfchmod, effect_ok _ hfchown,
        List.filter_append, List.filter_append, List.filter_append, List.append_nil]
      rw [effect_of_not_concerns fun _ ↦ by simp [FileOp.completed, FileOp.Concerns, FileOp.setsStatus],
        effect_of_not_concerns fun _ ↦ by simp [FileOp.completed, FileOp.Concerns, FileOp.setsStatus]]
      simp [FileOp.completed, FileOp.Concerns, FileOp.setsStatus, FileOp.follows?, restoring,
        FileMetadata.status]
  · next hne => exact effects_concern_nothing hne (hf.closeOps_stemsFrom (List.mem_singleton.mpr rfl))

/-- What a processor does and concerns a regular file opens it, or opens and restores it. -/
theorem FileRun.restoring (h : env.cdResult.Archives fileMeta) (hunique : env.PathUnique fileMeta)
    (hos : env.os.ServesRoot) {opened : List FileMetadata} {file : Option FileContext} {ops : List FileOp}
    (hrun : FileRun env opened file ops) :
    ∃ n, (effects env.os env.zstd [] ops).filter (FileOp.Concerns (env.filePath fileMeta)) =
      (List.replicate n (Burst.restoring (env.filePath fileMeta) fileMeta.status)).flatten ++
        restoringBegun (env.filePath fileMeta) file := by
  have hother {file : Option FileContext} {ops : List FileOp} {op : FileOp}
      (hop : ∀ n, (op.completed env.zstd n).Concerns (env.filePath fileMeta) = false)
      (hn : ∃ n, (effects env.os env.zstd [] ops).filter (FileOp.Concerns (env.filePath fileMeta)) =
        (List.replicate n (Burst.restoring (env.filePath fileMeta) fileMeta.status)).flatten ++
          restoringBegun (env.filePath fileMeta) file) :
      ∃ n, (effects env.os env.zstd [] (ops ++ [op])).filter (FileOp.Concerns (env.filePath fileMeta)) =
        (List.replicate n (Burst.restoring (env.filePath fileMeta) fileMeta.status)).flatten ++
          restoringBegun (env.filePath fileMeta) file := by
    obtain ⟨n, hn⟩ := hn
    refine ⟨n, ?_⟩
    rw [effects_append, List.filter_append, hn, effects, effects, List.append_nil,
      effect_of_not_concerns hop, List.append_nil]
  induction hrun with
  | start => exact ⟨0, rfl⟩
  | parent _ _ _ ih => exact hother (fun _ ↦ rfl) ih
  | @opens opened ops other f made _ hlisted hopening ih =>
    obtain ⟨n, hn⟩ := ih
    refine ⟨n, ?_⟩
    rw [effects_append, List.filter_append, hn, List.nil_append, hopening.concerns h hunique hlisted,
      restoringBegun, restoringBegun, hopening.isOf.filename, List.append_nil]
  | moves offset _ ih => exact ih
  | reads target _ _ ih => exact ih
  | encodedWrite frame len offset _ _ ih => exact hother (fun _ ↦ rfl) ih
  | pwrite data offset _ _ ih => exact hother (fun _ ↦ rfl) ih
  | @close opened f ops hrun ih =>
    obtain ⟨n, hn⟩ := ih
    obtain ⟨_, other, -, hlisted, hof⟩ := hrun.current rfl
    rw [effects_append, List.filter_append, hn, hof.closeOps_concerns h hunique hos hlisted, restoringBegun,
      restoringBegun, hof.filename]
    split
    · refine ⟨n + 1, ?_⟩
      rw [List.replicate_succ', List.flatten_append, List.append_nil, List.append_assoc]
      rfl
    · exact ⟨n, by simp⟩

end Processor

theorem clearSetIds_idem (mode : ℕ) : clearSetIds (clearSetIds mode) = clearSetIds mode := by
  have hten : (mode % 0o2000).testBit 3 = mode.testBit 3 := by
    have hbit := Nat.testBit_mod_two_pow mode 10 3
    simpa using hbit
  have heleven : (mode % 0o4000).testBit 3 = mode.testBit 3 := by
    have hbit := Nat.testBit_mod_two_pow mode 11 3
    simpa using hbit
  cases hgroup : mode.testBit 3 with
  | true =>
    have honce : clearSetIds mode = mode % 0o2000 := if_pos hgroup
    rw [honce, clearSetIds, if_pos (hten.trans hgroup), Nat.mod_mod]
  | false =>
    have honce : clearSetIds mode = mode % 0o4000 := if_neg (by rw [hgroup]; decide)
    rw [honce, clearSetIds, if_neg (by rw [heleven, hgroup]; decide), Nat.mod_mod]

theorem clearSetIds_eq_iff (mode : ℕ) : clearSetIds (mode % 0o10000) = mode % 0o10000 ↔
    mode.testBit 11 = false ∧ (mode.testBit 10 = true → mode.testBit 3 = false) := by
  have hgroup : (mode % 0o10000).testBit 3 = mode.testBit 3 := by
    have hbit := Nat.testBit_mod_two_pow mode 12 3
    simpa using hbit
  rw [clearSetIds, hgroup]
  simp only [Nat.testBit_eq_decide_div_mod_eq, decide_eq_true_eq, decide_eq_false_iff_not]
  split
  · omega
  · omega

theorem restoring_precedes (path : Path) (archived : FileStatus) (n : ℕ) :
    Precedes (List.replicate n (restoring path archived)).flatten (· ≠ .openFile path)
      (· = .openFile path) ∧
    Precedes (List.replicate n (restoring path archived)).flatten
      (· = .fchown path archived.uid archived.gid) (· = .fchmod path archived.mode) := by
  constructor
  · apply Precedes.replicate
    intro before op after hsplit hop
    cases before with
    | nil => exact (hop (List.cons.inj hsplit).1.symm).elim
    | cons first before =>
      obtain ⟨rfl, -⟩ := List.cons.inj hsplit
      exact ⟨_, List.mem_cons_self, rfl⟩
  · apply Precedes.replicate
    intro before op after hsplit hop
    rw [hop] at hsplit
    match before, hsplit with
    | [], hsplit => cases (List.cons.inj hsplit).1
    | [_], hsplit => cases (List.cons.inj (List.cons.inj hsplit).2).1
    | _ :: second :: before, hsplit =>
      obtain ⟨rfl, -⟩ := List.cons.inj (List.cons.inj hsplit).2
      exact ⟨_, by simp, rfl⟩

/-- The file has an owner and a group. -/
def FileStatus.Owned (s : FileStatus) : Prop := s.uid ≠ sameId ∧ s.gid ≠ sameId

theorem FileStatus.Owned.changeOwner {s : FileStatus} (h : s.Owned) (uid gid : ℕ) :
    (s.changeOwner uid gid).Owned := by
  constructor
  · simp only [FileStatus.changeOwner]
    split
    · exact h.1
    · assumption
  · simp only [FileStatus.changeOwner]
    split
    · exact h.2
    · assumption

/-- A change of the owner comes to the owner that it names unless that stands for no change. -/
theorem FileStatus.changeOwner_eq_iff {s : FileStatus} (h : s.Owned) {archived : FileStatus}
    (hmode : clearSetIds s.mode = clearSetIds archived.mode) :
    s.changeOwner archived.uid archived.gid = archived ↔
      clearSetIds archived.mode = archived.mode ∧ archived.Owned := by
  obtain ⟨mode, uid, gid⟩ := archived
  simp only [FileStatus.changeOwner, FileStatus.mk.injEq, FileStatus.Owned, hmode]
  have huid : (if uid = sameId then s.uid else uid) = uid ↔ uid ≠ sameId := by
    split
    · next heq =>
      rw [heq]
      exact iff_of_false h.1 (not_not.mpr rfl)
    · next hne => exact iff_of_true rfl hne
  have hgid : (if gid = sameId then s.gid else gid) = gid ↔ gid ≠ sameId := by
    split
    · next heq =>
      rw [heq]
      exact iff_of_false h.2 (not_not.mpr rfl)
    · next hne => exact iff_of_true rfl hne
  rw [huid, hgid]

/-- After some of the system calls that open and restore a file the file is there and has an owner, and
once its permissions have been restored it has them, up to what a change of the owner clears. -/
theorem statusAfter_restoring {path : Path} {archived fresh : FileStatus} (hfresh : fresh.Owned)
    {before : Option FileStatus} (hbefore : ∀ s, before = some s → s.Owned) {ops : List FileOp}
    (hops : ∀ op ∈ ops, op ∈ restoring path archived)
    (hopen : Precedes ops (· ≠ .openFile path) (· = .openFile path)) :
    (ops ≠ [] → ∃ s, statusAfter fresh before ops = some s ∧ s.Owned) ∧
    (.fchmod path archived.mode ∈ ops → ∃ s, statusAfter fresh before ops = some s ∧
      clearSetIds s.mode = clearSetIds archived.mode) := by
  induction ops using List.reverseRecOn with
  | nil => simp
  | append_singleton ops op ih =>
    obtain ⟨howned, hmode⟩ := ih (fun o ho ↦ hops o (List.mem_append_left _ ho)) hopen.of_append
    have hlast := hops op (List.mem_append_right _ (List.mem_singleton.mpr rfl))
    have hnonempty (hne : op ≠ .openFile path) : ops ≠ [] := by
      obtain ⟨o, ho, -⟩ := hopen ops op [] rfl hne
      exact List.ne_nil_of_mem ho
    rw [statusAfter_append]
    simp only [restoring, List.mem_cons, List.not_mem_nil, or_false] at hlast
    rcases hlast with rfl | rfl | rfl
    · have hstatus : statusAfter fresh (statusAfter fresh before ops) [.openFile path] =
          some ((statusAfter fresh before ops).getD fresh) := rfl
      rw [hstatus]
      constructor
      · intro _
        refine ⟨_, rfl, ?_⟩
        by_cases hnil : ops = []
        · rw [hnil]
          cases before with
          | none => exact hfresh
          | some s => exact hbefore s rfl
        · obtain ⟨s, hs, hs'⟩ := howned hnil
          rw [hs]
          exact hs'
      · intro hmem
        obtain ⟨s, hs, hcleared⟩ := hmode (by simpa using hmem)
        exact ⟨s, by rw [hs, Option.getD_some], hcleared⟩
    · obtain ⟨s, hs, hs'⟩ := howned (hnonempty (by simp))
      rw [hs]
      exact ⟨fun _ ↦ ⟨_, rfl, hs'⟩, fun _ ↦ ⟨_, rfl, rfl⟩⟩
    · obtain ⟨s, hs, hs'⟩ := howned (hnonempty (by simp))
      rw [hs]
      refine ⟨fun _ ↦ ⟨_, rfl, hs'.changeOwner _ _⟩, fun hmem ↦ ⟨_, rfl, ?_⟩⟩
      obtain ⟨u, hu, hcleared⟩ := hmode (by simpa using hmem)
      obtain rfl := Option.some.inj (hs.symm.trans hu)
      exact (clearSetIds_idem _).trans hcleared

namespace Extraction

variable {x : Extraction} {chunks : ℕ → List (List UInt8)} {history : List (ℕ × FileOp)}
  {fileMeta : FileMetadata}

/-- What the processor of a part does and concerns a regular file opens and restores it. -/
theorem Completes.restoring (h : x.Completes chunks history) (hos : ∀ p, (x.os p).ServesRoot)
    (hplain : x.NamesPlain) (hfile : x.cdResult.Archives fileMeta) (p : ℕ) :
    ∃ n, (own p history).filter (FileOp.Concerns (x.path fileMeta)) =
      (List.replicate n (Burst.restoring (x.path fileMeta) fileMeta.status)).flatten := by
  by_cases hp : p < x.numParts
  · obtain ⟨t, ht, hown⟩ := h.parts p hp
    obtain ⟨opened, hrun⟩ := extractPart_run ht
    have hunique : (x.env p).PathUnique fileMeta :=
      fun other hother hpath ↦ hplain.eq_of_path hother hfile.listed hpath
    obtain ⟨n, hn⟩ := hrun.restoring hfile hunique (hos p)
    rw [hown]
    exact ⟨n, hn.trans (List.append_nil _)⟩
  · have hnone : own p history = [] := by
      rw [own, List.map_eq_nil_iff, List.filter_eq_nil_iff]
      intro q hq heq
      exact hp (of_decide_eq_true heq ▸ h.issued q hq)
    exact ⟨0, by rw [hnone]; rfl⟩

/-- A file that has been opened ends with the permissions and the owner of the archive, up to what the
change of the owner clears and does not change. -/
theorem Completes.statusAfter (h : x.Completes chunks history) (hos : ∀ p, (x.os p).ServesRoot)
    (hplain : x.NamesPlain) (hfile : x.cdResult.Archives fileMeta)
    (hopened : .openFile (x.path fileMeta) ∈ history.map Prod.snd) {fresh : FileStatus}
    (hfresh : fresh.Owned) {before : Option FileStatus} (hbefore : ∀ s, before = some s → s.Owned) :
    ∃ s : FileStatus, s.Owned ∧ clearSetIds s.mode = clearSetIds fileMeta.status.mode ∧
      Burst.statusAfter fresh before
        ((history.map Prod.snd).filter (FileOp.Concerns (x.path fileMeta))) =
          some (s.changeOwner fileMeta.uid fileMeta.gid) := by
  have hown (p : ℕ) : ∃ n, own p (history.filter fun q ↦ q.2.Concerns (x.path fileMeta)) =
      (List.replicate n (Burst.restoring (x.path fileMeta) fileMeta.status)).flatten := by
    rw [own_filter p (FileOp.Concerns (x.path fileMeta))]
    exact h.restoring hos hplain hfile p
  have hfilter : (history.map Prod.snd).filter (FileOp.Concerns (x.path fileMeta)) =
      (history.filter fun q ↦ q.2.Concerns (x.path fileMeta)).map Prod.snd := by
    rw [List.filter_map]
    rfl
  have hmem : .openFile (x.path fileMeta) ∈
      (history.filter fun q ↦ q.2.Concerns (x.path fileMeta)).map Prod.snd := by
    rw [← hfilter]
    exact List.mem_filter.mpr ⟨hopened, by simp [FileOp.Concerns, FileOp.setsStatus, FileOp.follows?]⟩
  rw [hfilter]
  generalize history.filter (fun q ↦ q.2.Concerns (x.path fileMeta)) = relevant at hown hmem
  have hprecedes : Precedes (relevant.map Prod.snd) (· ≠ .openFile (x.path fileMeta))
      (· = .openFile (x.path fileMeta)) := by
    apply Precedes.of_own
    intro p
    obtain ⟨n, hn⟩ := hown p
    rw [hn]
    exact (restoring_precedes _ _ n).1
  have hrestored : Precedes (relevant.map Prod.snd)
      (· = .fchown (x.path fileMeta) fileMeta.status.uid fileMeta.status.gid)
      (· = .fchmod (x.path fileMeta) fileMeta.status.mode) := by
    apply Precedes.of_own
    intro p
    obtain ⟨n, hn⟩ := hown p
    rw [hn]
    exact (restoring_precedes _ _ n).2
  have hops (op : FileOp) (hop : op ∈ relevant.map Prod.snd) :
      op ∈ Burst.restoring (x.path fileMeta) fileMeta.status := by
    obtain ⟨⟨q, o⟩, hq, rfl⟩ := List.mem_map.mp hop
    obtain ⟨n, hn⟩ := hown q
    obtain ⟨block, hblock, ho⟩ := List.mem_flatten.mp (hn ▸ mem_own.mpr hq)
    rwa [List.eq_of_mem_replicate hblock] at ho
  -- the last of them gives the file back to its owner
  have hsome : relevant ≠ [] := by
    rintro rfl
    cases hmem
  obtain ⟨earlier, ⟨q, last⟩, rfl⟩ := (List.eq_nil_or_concat' relevant).resolve_left hsome
  have hlast : last = .fchown (x.path fileMeta) fileMeta.status.uid fileMeta.status.gid := by
    obtain ⟨n, hn⟩ := hown q
    rw [own_concat] at hn
    cases n with
    | zero => simp at hn
    | succ n =>
      have hends := congrArg List.getLast? hn
      rw [List.replicate_succ', List.flatten_append] at hends
      simpa [Burst.restoring] using hends
  have hmap : (earlier ++ [(q, last)]).map Prod.snd = earlier.map Prod.snd ++ [last] := List.map_append
  rw [hmap] at hprecedes hrestored hops ⊢
  obtain ⟨_, hmode, rfl⟩ := hrestored (earlier.map Prod.snd) last [] rfl hlast
  obtain ⟨howned, hcleared⟩ := statusAfter_restoring hfresh hbefore
    (fun op hop ↦ hops op (List.mem_append_left _ hop)) hprecedes.of_append
  obtain ⟨s, hs, howned⟩ := howned (List.ne_nil_of_mem hmode)
  obtain ⟨u, hu, hcleared⟩ := hcleared hmode
  obtain rfl := Option.some.inj (hs.symm.trans hu)
  refine ⟨s, howned, hcleared, ?_⟩
  rw [statusAfter_append, hs, hlast]
  rfl

end Extraction

/-- Every file has an owner and a group. -/
def FileTree.Owned (t : FileTree) : Prop := ∀ place i, t place = some i → i.status.Owned

/-- When every part has been extracted by root, in whatever order the processors of the parts have made
their system calls, a regular file that has been opened has its permission bits, its owner and its group
back exactly when it was not setuid, and not setgid and executable by its group, and neither its owner nor
its group is the number that stands for no change. -/
theorem extraction_restoresStatus_iff {x : Extraction} {chunks : ℕ → List (List UInt8)}
    {history : List (ℕ × FileOp)} (h : x.Completes chunks history) (hos : ∀ p, (x.os p).ServesRoot)
    (hplain : x.NamesPlain) {fileMeta : FileMetadata} (hfile : x.cdResult.Archives fileMeta)
    (hopened : .openFile (x.path fileMeta) ∈ history.map Prod.snd) {base : List Path} {fresh : FileStatus}
    (hfresh : fresh.Owned) {before : FileTree} (hbefore : before.NoLinkBelow base) (howned : before.Owned)
    {t : FileTree} (ht : TreeAfter x.outputDir base fresh before (history.map Prod.snd) t) :
    (t (placeOf base fileMeta.filename)).map Inode.status = some fileMeta.status ↔
      fileMeta.unixMode.testBit 11 = false ∧
        (fileMeta.unixMode.testBit 10 = true → fileMeta.unixMode.testBit 3 = false) ∧
        fileMeta.uid ≠ sameId ∧ fileMeta.gid ≠ sameId := by
  have hinode := (ht.inode hplain hbefore h.workersComplete.stems).2 fileMeta hfile.listed
  have hstatus : ∀ s, (before (placeOf base fileMeta.filename)).map Inode.status = some s → s.Owned := by
    intro s hs
    obtain ⟨i, hi, rfl⟩ := Option.map_eq_some_iff.mp hs
    exact howned _ i hi
  obtain ⟨s, hs, hcleared, hafter⟩ := h.statusAfter hos hplain hfile hopened hfresh hstatus
  rw [hinode, inodeAfter_status, hafter, Option.some.injEq]
  have hiff := FileStatus.changeOwner_eq_iff hs hcleared
  refine hiff.trans ?_
  have hbits := clearSetIds_eq_iff fileMeta.unixMode
  change clearSetIds (fileMeta.unixMode % 0o10000) = fileMeta.unixMode % 0o10000 ∧
    fileMeta.uid ≠ sameId ∧ fileMeta.gid ≠ sameId ↔ _
  rw [hbits, and_assoc]

/-- A file `a` of 1000:1000 with the content `hi`. -/
def ownedFile (mode : ℕ) : List AddCall :=
  [.file ⟨[104, 105], none, true⟩ (sampleHeader zipFlagDataDescriptor zipMethodZstd) mode 1000 1000]

/-- The archive that the writer makes of calls. -/
def writtenArchive (calls : List AddCall) : List UInt8 :=
  (burstWriterFinalize (addAll rawEnv calls (burstWriterCreate ⟨[], []⟩ 3)).2).2.output.bytes

/-- Its extraction to `out`. -/
def writtenExtraction (os : Os) (calls : List AddCall) : Extraction where
  os _ := os
  zstd := rawZstd
  cdResult := (centralDirParse (writtenArchive calls) (writtenArchive calls).length burstPartSize).toOption.getD
    ⟨[], [], 0, 0, false⟩
  outputDir := [111, 117, 116]
  partSize := burstPartSize

def ownedExtraction (mode : ℕ) : Extraction := writtenExtraction obligingOs (ownedFile mode)

/-- What is done in it. -/
def ownedDone (bits : ℕ) : List FileOp :=
  [.mkdir [111, 117, 116] 0o755, .openFile [111, 117, 116, 47, 97],
    .pwrite [111, 117, 116, 47, 97] [104, 105] 0, .ftruncate [111, 117, 116, 47, 97] 2,
    .fchmod [111, 117, 116, 47, 97] bits,
    .fchown [111, 117, 116, 47, 97] 1000 1000, .close [111, 117, 116, 47, 97]]

theorem obligingOs_servesRoot : obligingOs.ServesRoot where
  isRoot := rfl
  fchmod _ _ _ := ⟨0, rfl⟩
  fchown _ _ _ _ := ⟨0, rfl⟩

theorem ownedExtraction_completes {mode bits : ℕ} (hparts : (ownedExtraction mode).numParts = 1)
    (hdone : ((ownedExtraction mode).extracted (fun _ ↦ [writtenArchive (ownedFile mode)]) 0).map
      (fun t ↦ effects obligingOs rawZstd [] t.ops) = some (ownedDone bits)) :
    (ownedExtraction mode).Completes (fun _ ↦ [writtenArchive (ownedFile mode)])
      ((ownedDone bits).map fun op ↦ (0, op)) := by
  obtain ⟨t, ht, hops⟩ := Option.map_eq_some_iff.mp hdone
  constructor
  · intro p hp
    obtain rfl : p = 0 := by omega
    exact ⟨t, ht, (own_map_self 0 _).trans hops.symm⟩
  · intro q hq
    obtain ⟨op, -, rfl⟩ := List.mem_map.mp hq
    rw [hparts]
    exact Nat.one_pos

/-- What the archive has of the file. -/
def ownedMeta (mode : ℕ) : FileMetadata :=
  { plainFile 97 0 with
    compressedSize := 11, uncompressedSize := 2, crc32 := 3633523372, unixMode := mode
    uid := 1000, gid := 1000, hasUnixMode := true, hasUnixExtra := true }

theorem ownedMeta_archived {mode : ℕ} (hfiles : (ownedExtraction mode).cdResult.files = [ownedMeta mode]) :
    (ownedExtraction mode).cdResult.Archives (ownedMeta mode) ∧ (ownedExtraction mode).NamesPlain := by
  refine ⟨⟨?_, ⟨by rfl, rfl⟩, rfl, rfl⟩, ?_⟩
  · rw [hfiles]
    exact List.mem_singleton_self _
  · have hplain : PlainNames [[97]] := ⟨by decide +kernel, by decide +kernel, by decide +kernel⟩
    rw [Extraction.NamesPlain, hfiles]
    exact hplain

/-- A file of mode 2644 is restored. -/
theorem setgidFile_restored : ∃ history t,
    (ownedExtraction 0o102644).Completes (fun _ ↦ [writtenArchive (ownedFile 0o102644)]) history ∧
      TreeAfter [111, 117, 116] [[111, 117, 116]] ⟨0o644, 0, 0⟩ emptyTree (history.map Prod.snd) t ∧
      (t [[111, 117, 116], [97]]).map Inode.status = some ⟨0o2644, 1000, 1000⟩ := by
  have hcompletes := @ownedExtraction_completes 0o102644 0o2644 (by decide +kernel) (by decide +kernel)
  obtain ⟨hfile, hplain⟩ := @ownedMeta_archived 0o102644 (by decide +kernel)
  obtain ⟨t, ht⟩ : ∃ t, TreeAfter [111, 117, 116] [[111, 117, 116]] ⟨0o644, 0, 0⟩ emptyTree
      (((ownedDone 0o2644).map fun op ↦ (0, op)).map Prod.snd) t :=
    treeAfter_exists hplain (emptyTree_noLink _) hcompletes.workersComplete.stems
  have hiff := extraction_restoresStatus_iff hcompletes (fun _ ↦ obligingOs_servesRoot) hplain hfile
    (by decide +kernel) ⟨by decide, by decide⟩ (emptyTree_noLink [[111, 117, 116]]) (fun _ _ hi ↦ by cases hi) ht
  exact ⟨_, t, hcompletes, ht, hiff.mpr (by decide)⟩

/-- A file of mode 4755 is not setuid any more. -/
theorem setuidFile_losesBit : ∃ history t,
    (ownedExtraction 0o104755).Completes (fun _ ↦ [writtenArchive (ownedFile 0o104755)]) history ∧
      TreeAfter [111, 117, 116] [[111, 117, 116]] ⟨0o644, 0, 0⟩ emptyTree (history.map Prod.snd) t ∧
      (ownedMeta 0o104755).status = ⟨0o4755, 1000, 1000⟩ ∧
      (t [[111, 117, 116], [97]]).map Inode.status = some ⟨0o755, 1000, 1000⟩ := by
  have hcompletes := @ownedExtraction_completes 0o104755 0o4755 (by decide +kernel) (by decide +kernel)
  obtain ⟨hfile, hplain⟩ := @ownedMeta_archived 0o104755 (by decide +kernel)
  have hstems := hcompletes.workersComplete.stems
  obtain ⟨t, ht⟩ : ∃ t, TreeAfter [111, 117, 116] [[111, 117, 116]] ⟨0o644, 0, 0⟩ emptyTree
      (((ownedDone 0o4755).map fun op ↦ (0, op)).map Prod.snd) t :=
    treeAfter_exists hplain (emptyTree_noLink _) hstems
  have hinode := (ht.inode hplain (emptyTree_noLink _) hstems).2 _ hfile.listed
  refine ⟨_, t, hcompletes, ht, by decide +kernel, ?_⟩
  have hplace : placeOf [[111, 117, 116]] (ownedMeta 0o104755).filename = [[111, 117, 116], [97]] := by
    decide +kernel
  rw [hplace] at hinode
  rw [hinode, inodeAfter_status]
  decide +kernel

end Burst
