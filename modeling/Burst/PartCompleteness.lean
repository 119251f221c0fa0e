import Burst.StreamCompleteness
import Burst.ItemFrames

namespace Burst

open LittleEndian Incremental

/-- The processor after chunks in order; `none` unless all calls succeed. -/
def feedAll (env : ProcessorEnv) : PartProcessorState → List (List UInt8) →
    Option PartProcessorState
  | s, [] => some s
  | s, data :: chunks =>
    match partProcessorProcessData env s data with
    | some (none, t) => feedAll env t chunks
    | _ => none

def finalizeAll (env : ProcessorEnv) (s : PartProcessorState) : Option PartProcessorState :=
  match partProcessorFinalize env s with
  | (none, t) => some t
  | (some _, _) => none

/-- A part that is fed in chunks and finalized; `none` unless all calls succeed. -/
def extractPart (env : ProcessorEnv) (chunks : List (List UInt8)) : Option PartProcessorState :=
  (feedAll env (partProcessorCreate []) chunks).bind (finalizeAll env)

/-- The file that goes on in the next part. -/
def ProcessorEnv.followingFile (env : ProcessorEnv) : Option FileMetadata :=
  ProcessorEnv.continuingFile { env with partIndex := env.partIndex + 1 }

/-- The next part goes on with the file. -/
def FileContext.GoesOn (env : ProcessorEnv) (f : FileContext) : Prop :=
  f.isSymlink = false ∧ ∃ fileMeta ∈ env.followingFile, env.filePath fileMeta = f.filename ∧
    fileMeta.uncompressedSize = f.expectedTotalSize ∧ fileMeta.isSymlink = false ∧
      fileMeta.isDirectory = false

instance (env : ProcessorEnv) (f : FileContext) : Decidable (f.GoesOn env) :=
  inferInstanceAs (Decidable (_ ∧ ∃ fileMeta ∈ env.followingFile, _))

/-- The part may end here: no entry is missing, the file that goes on from the part before has been
opened, and the file that is open is complete or goes on in the next part. -/
def MayEnd (env : ProcessorEnv) (p : PartProcessor) : Prop :=
  (p.state = .done ∨ env.part.entries.length ≤ p.nextEntryIdx) ∧
    (env.continuingFile.isSome = true → p.state ≠ .init ∧ p.state ≠ .continuingFile) ∧
    ∀ f ∈ p.currentFile, f.Complete ∨ f.GoesOn env

instance (env : ProcessorEnv) (p : PartProcessor) : Decidable (MayEnd env p) :=
  inferInstanceAs (Decidable (_ ∧ _))

/-- No round of a part leaves out data, and it ends where it may. -/
def KeepsAllData (env : ProcessorEnv) (resume : ℕ) : PartProcessorState → List (List UInt8) → Prop
  | s, [] => MayEnd env s.toPartProcessor
  | s, data :: chunks =>
    (∀ p rest, Visits (step env) s.toPartProcessor (s.frameBuffer ++ data) p rest → rest ≠ [] →
      KeepsData env resume p rest) ∧
    ∀ e t, partProcessorProcessData env s data = some (e, t) → KeepsAllData env resume t chunks

theorem partProcessorCreate_progress (env : ProcessorEnv) (resume : ℕ) :
    Progress env resume [] (partProcessorCreate []).toPartProcessor where
  bounded := ⟨nofun, fun _ ↦ rfl⟩
  next := Nat.zero_le _
  fresh _ := rfl
  busy := nofun
  done := nofun
  target := nofun
  closed _ := by simp [Settled, openedEntries, partProcessorCreate]
  opened := nofun

/-- What has been fed are the bytes that the processor has got beyond and those that are left, until it
is done and passes over them. -/
def FedProgress (env : ProcessorEnv) (resume : ℕ) (fed : List UInt8) (p : PartProcessor)
    (rest : List UInt8) : Prop :=
  ∃ bytes, Progress env resume bytes p ∧ if p.state = .done then bytes <+: fed else fed = bytes ++ rest

theorem step_fedProgress {env : ProcessorEnv} (henv : env.Sizes64) (hzstd : env.zstd.SizesAgree)
    {resume : ℕ} {fed : List UInt8} {p q : PartProcessor} {bs rest : List UInt8}
    (hp : FedProgress env resume fed p bs) (hkeeps : KeepsData env resume p bs)
    (h : step env p bs = .next q rest) : FedProgress env resume fed q rest := by
  obtain ⟨bytes, hprogress, hfed⟩ := hp
  by_cases hdone : p.state = .done
  · simp only [step, hdone] at h
    cases h
    refine ⟨bytes, hprogress, ?_⟩
    rw [if_pos hdone] at hfed ⊢
    exact hfed
  · rw [if_neg hdone] at hfed
    obtain ⟨n, rfl, hq⟩ := step_advances henv hzstd hprogress hdone hkeeps h
    have hsplit : fed = bytes ++ bs.take n ++ bs.drop n := by
      rw [hfed, List.append_assoc, List.take_append_drop]
    refine ⟨bytes ++ bs.take n, hq, ?_⟩
    split
    · exact ⟨bs.drop n, hsplit.symm⟩
    · exact hsplit

/-- A call that leaves out no data and succeeds. -/
theorem partProcessorProcessData_progress {env : ProcessorEnv} (henv : env.Sizes64)
    (hzstd : env.zstd.SizesAgree) {resume : ℕ} {fed : List UInt8} {s t : PartProcessorState}
    {data : List UInt8} (hstate : s.state ≠ .error)
    (hs : FedProgress env resume fed s.toPartProcessor s.frameBuffer)
    (hkeeps : ∀ p rest, Visits (step env) s.toPartProcessor (s.frameBuffer ++ data) p rest → rest ≠ [] →
      KeepsData env resume p rest)
    (h : partProcessorProcessData env s data = some (none, t)) :
    t.state ≠ .error ∧ FedProgress env resume (fed ++ data) t.toPartProcessor t.frameBuffer := by
  obtain ⟨bytes, hprogress, hfed⟩ := hs
  by_cases hdone : s.state = .done
  · rw [partProcessorProcessData, hdone] at h
    cases h
    rw [if_pos hdone] at hfed
    refine ⟨hstate, bytes, hprogress, ?_⟩
    rw [if_pos hdone]
    exact hfed.trans (List.prefix_append _ _)
  rw [if_neg hdone] at hfed
  have hstart : FedProgress env resume (fed ++ data) s.toPartProcessor (s.frameBuffer ++ data) := by
    refine ⟨bytes, hprogress, ?_⟩
    rw [if_neg hdone, hfed, List.append_assoc]
  have hvisited {q : PartProcessor} {rest : List UInt8}
      (hvisit : Visits (step env) s.toPartProcessor (s.frameBuffer ++ data) q rest) :
      FedProgress env resume (fed ++ data) q rest := by
    have hnext {p : PartProcessor} {bs : List UInt8} {q : PartProcessor} {rest : List UInt8}
        (hp : FedProgress env resume (fed ++ data) p bs) (hkeep : KeepsData env resume p bs)
        (hstep : step env p bs = .next q rest) : FedProgress env resume (fed ++ data) q rest :=
      step_fedProgress henv hzstd hp hkeep hstep
    exact hvisit.invariant_meeting hkeeps hnext hstart
  rw [partProcessorProcessData_eq env hstate hdone] at h
  cases hloop : mainLoop env (loopRounds (s.frameBuffer ++ data)) s.toPartProcessor
      (s.frameBuffer ++ data) with
  | none => simp [hloop] at h
  | some r =>
    cases r with
    | stopped e p => simp [hloop] at h
    | finished p remaining =>
      simp only [hloop, Option.some.injEq, Prod.mk.injEq, true_and] at h
      subst h
      refine ⟨mainLoop_finished_state hstate hloop, ?_⟩
      rcases visits_of_finished hloop with hvisit | ⟨q, hvisit, hwait⟩
      · exact hvisited hvisit
      · have hkeep := step_keepsErrors env q remaining
        rw [hwait] at hkeep
        obtain rfl : p = q := hkeep
        exact hvisited hvisit

/-- Calls that leave out no data and all succeed. -/
theorem feedAll_progress {env : ProcessorEnv} (henv : env.Sizes64) (hzstd : env.zstd.SizesAgree)
    {resume : ℕ} {fed : List UInt8} {s t : PartProcessorState} {chunks : List (List UInt8)}
    (hstate : s.state ≠ .error) (hs : FedProgress env resume fed s.toPartProcessor s.frameBuffer)
    (hkeeps : KeepsAllData env resume s chunks) (h : feedAll env s chunks = some t) :
    ∃ bytes, bytes <+: fed ++ chunks.flatten ∧ Progress env resume bytes t.toPartProcessor ∧
      MayEnd env t.toPartProcessor := by
  induction chunks generalizing s fed with
  | nil =>
    cases h
    obtain ⟨bytes, hprogress, hfed⟩ := hs
    refine ⟨bytes, ?_, hprogress, hkeeps⟩
    rw [List.flatten_nil, List.append_nil]
    split at hfed
    · exact hfed
    · exact ⟨_, hfed.symm⟩
  | cons data chunks ih =>
    rw [feedAll] at h
    split at h
    · next u hcall =>
      obtain ⟨hu, hprogress⟩ := partProcessorProcessData_progress henv hzstd hstate hs hkeeps.1 hcall
      obtain ⟨bytes, hbytes, hend⟩ := ih hu hprogress (hkeeps.2 none u hcall) h
      exact ⟨bytes, by rwa [List.flatten_cons, ← List.append_assoc], hend⟩
    · cases h

theorem finalizeAll_eq {env : ProcessorEnv} {s t : PartProcessorState}
    (h : finalizeAll env s = some t) :
    t.toPartProcessor = (closeOutputFile env.os s.toPartProcessor).enter .done := by
  rw [finalizeAll, partProcessorFinalize] at h
  split at h
  · next u hu =>
    split at hu
    · cases hu
    · cases hu
      cases h
      rfl
  · cases h

/-- The part lists the entry: it starts in the part or goes on in it. -/
def ProcessorEnv.Lists (env : ProcessorEnv) (fileMeta : FileMetadata) : Prop :=
  env.continuingFile = some fileMeta ∨
    ∃ i < env.part.entries.length, env.nextFile i = some fileMeta

/-- The symlink has been made of a target of the full length that has been read from the stream. -/
def SymlinkMade (env : ProcessorEnv) (bytes : List UInt8) (ops : List FileOp)
    (fileMeta : FileMetadata) : Prop :=
  ∃ (target : List UInt8) (done rest : List FileOp) (n : ℕ),
    target.length = fileMeta.uncompressedSize ∧ FollowsHeader bytes target ∧
    ops = done ++ .symlink (target.takeWhile (· ≠ 0)) (env.filePath fileMeta) :: rest ∧
    env.os.respond done (.symlink (target.takeWhile (· ≠ 0)) (env.filePath fileMeta)) = .ok n

/-- None of the calls that make symlinks fails. -/
def SymlinksSucceed (os : Os) (ops : List FileOp) : Prop :=
  ∀ done target path rest, ops = done ++ .symlink target path :: rest →
    ∃ n, os.respond done (.symlink target path) = .ok n

theorem Whole.symlinkMade {env : ProcessorEnv} {bytes : List UInt8} {ops : List FileOp}
    {fileMeta : FileMetadata} {start : ℕ} (h : Whole env bytes ops fileMeta start)
    (hlinks : SymlinksSucceed env.os ops) (hlink : fileMeta.isSymlink = true) :
    SymlinkMade env bytes ops fileMeta := by
  obtain ⟨target, hlen, hfollows, hmem⟩ := h.symlink hlink
  obtain ⟨done, rest, hops⟩ := List.append_of_mem hmem
  obtain ⟨n, hok⟩ := hlinks done _ _ rest hops
  exact ⟨target, done, rest, n, hlen, hfollows, hops, hok⟩

/-- Everything that a part lists has been opened, and every symlink has been made. -/
structure PartComplete (env : ProcessorEnv) (bytes : List UInt8) (t : PartProcessorState) : Prop where
  entries : t.nextEntryIdx = env.part.entries.length
  opened : ∀ fileMeta, env.Lists fileMeta → Opened env t.ops fileMeta
  symlinks : ∀ fileMeta, env.Lists fileMeta → fileMeta.isSymlink = true →
    SymlinkMade env bytes t.ops fileMeta

theorem Progress.allOpened {env : ProcessorEnv} {resume : ℕ} {bytes : List UInt8}
    {p : PartProcessor} (hp : Progress env resume bytes p) (hend : MayEnd env p) :
    p.nextEntryIdx = env.part.entries.length := by
  refine le_antisymm hp.next ?_
  rcases hend.1 with hdone | hall
  · exact hp.done hdone
  · exact hall

theorem Progress.lists {env : ProcessorEnv} {resume : ℕ} {bytes : List UInt8}
    {p : PartProcessor} (hp : Progress env resume bytes p) (hend : MayEnd env p) {fileMeta : FileMetadata}
    (h : env.Lists fileMeta) : ∃ start, (fileMeta, start) ∈ openedEntries env resume p := by
  rcases h with hcontinuing | ⟨i, hi, hfile⟩
  · have hstate := hend.2.1 (by rw [hcontinuing]; rfl)
    refine ⟨resume, List.mem_append_left _ ?_⟩
    rw [if_neg (by tauto), hcontinuing]
    exact List.mem_singleton.mpr rfl
  · refine ⟨0, List.mem_append_right _ (List.mem_map.mpr ⟨fileMeta, ?_, rfl⟩)⟩
    rw [hp.allOpened hend]
    exact List.mem_filterMap.mpr ⟨i, List.mem_range.mpr hi, hfile⟩

/-- When the part ends everything that has been opened is whole, but for the file that goes on. -/
theorem Progress.ends {env : ProcessorEnv} {resume : ℕ} {bytes : List UInt8}
    {p : PartProcessor} (hp : Progress env resume bytes p) (hend : MayEnd env p) {x : FileMetadata × ℕ}
    (hx : x ∈ openedEntries env resume p) :
    Opened env (closeOutputFile env.os p).ops x.1 ∧
      (Whole env bytes (closeOutputFile env.os p).ops x.1 x.2 ∨
        ∃ f, p.currentFile = some f ∧ f.GoesOn env ∧ Opens env p.ops x.1 x.2 f) := by
  have hle := closeOutputFile_ops_le env.os p
  cases hfile : p.currentFile with
  | none =>
    obtain ⟨hopened, hwhole⟩ := (hp.closed hfile).mono (List.prefix_refl _) hle x hx
    exact ⟨hopened, .inl hwhole⟩
  | some f =>
    obtain ⟨xs, y, hxs, hsettled, hopens⟩ := hp.opened f hfile
    rcases hend.2.2 f hfile with hcomplete | hgoes
    · have hall := hp.close fun g hg ↦ by
        rw [hfile] at hg
        cases hg
        exact hcomplete
      exact ⟨(hall x hx).1, .inl (hall x hx).2⟩
    · rw [hxs] at hx
      rcases List.mem_append.mp hx with hbefore | hlast
      · obtain ⟨hopened, hwhole⟩ := hsettled.mono (List.prefix_refl _) hle x hbefore
        exact ⟨hopened, .inl hwhole⟩
      · obtain rfl := List.mem_singleton.mp hlast
        exact ⟨hopens.opened.mono hle, .inr ⟨f, rfl, hgoes, hopens⟩⟩

theorem Progress.partComplete {env : ProcessorEnv} {resume : ℕ} {bytes fed : List UInt8}
    {s t : PartProcessorState} (hs : Progress env resume bytes s.toPartProcessor)
    (hbytes : bytes <+: fed) (hend : MayEnd env s.toPartProcessor) (h : finalizeAll env s = some t)
    (hlinks : SymlinksSucceed env.os t.ops) : PartComplete env fed t := by
  have ht := finalizeAll_eq h
  have hops : t.ops = (closeOutputFile env.os s.toPartProcessor).ops := by
    rw [ht]
    rfl
  have hidx : t.nextEntryIdx = s.nextEntryIdx := by
    rw [ht]
    exact closeOutputFile_nextEntryIdx env.os s.toPartProcessor
  refine ⟨hidx.trans (hs.allOpened hend), fun fileMeta hlists ↦ ?_, fun fileMeta hlists hlink ↦ ?_⟩
  · obtain ⟨start, hmem⟩ := hs.lists hend hlists
    rw [hops]
    exact (hs.ends hend hmem).1
  · obtain ⟨start, hmem⟩ := hs.lists hend hlists
    rcases (hs.ends hend hmem).2 with hwhole | ⟨f, -, hgoes, hopens⟩
    · have hall := hwhole.mono hbytes (List.prefix_refl _)
      rw [← hops] at hall
      exact hall.symlinkMade hlinks hlink
    · rw [← hopens.isSymlink, hgoes.1] at hlink
      cases hlink

end Burst
