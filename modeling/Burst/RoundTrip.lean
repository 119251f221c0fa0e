import Burst.FileTree
import Burst.ReaderDeeds

namespace Burst

open Tiling LittleEndian Incremental Interleaving PositionedWrites

/-- Feeding a part and finalizing it without an error extracts it. -/
theorem feed_extracts {env : ProcessorEnv} {chunks : List (List UInt8)} {s t : PartProcessorState}
    (h : feed env s chunks = some (none, t)) : (feedAll env s chunks).bind (finalizeAll env) = some t := by
  induction chunks generalizing s with
  | nil =>
    rw [feed, Option.some.injEq] at h
    rw [feedAll, Option.bind_some, finalizeAll, h]
  | cons chunk chunks ih =>
    rw [feed] at h
    split at h
    · cases h
    · next e u hcall =>
      obtain ⟨⟨e', t'⟩, hrest, hresult⟩ := Option.map_eq_some_iff.mp h
      obtain ⟨hnone, rfl⟩ := Prod.mk.inj hresult
      obtain ⟨rfl, rfl⟩ := Option.or_eq_none_iff.mp hnone
      rw [feedAll, hcall]
      exact ih hrest

/-- Extracting a part in chunks comes to what one loop over its bytes comes to. -/
theorem Extracts.extractPart {env : ProcessorEnv} (hz : env.zstd.Stable) {chunks : List (List UInt8)}
    {deeds : List FileOp} (h : Extracts env (partProcessorCreate []).toPartProcessor chunks.flatten deeds)
    (hcut : NoCutDescriptor env (partProcessorCreate []) chunks) :
    ∃ t, extractPart env chunks = some t ∧ env.deeds t.ops = deeds := by
  obtain ⟨ops, hconcludes, hdeeds⟩ := h
  have hfed := feed_concludes hz hcut (.inl rfl) (by simp [partProcessorCreate])
  have houtcome : feedOutcome env (partProcessorCreate []) chunks = some (none, ops) := hfed.unique hconcludes
  obtain ⟨⟨e, t⟩, hfeed, hresult⟩ := Option.map_eq_some_iff.mp houtcome
  obtain ⟨rfl, rfl⟩ := Prod.mk.inj hresult
  exact ⟨t, feed_extracts hfeed, hdeeds⟩

/-- A part that is fed in one piece is one loop over its bytes. -/
theorem Concludes.extractPart_singleton {env : ProcessorEnv} {bs : List UInt8} {ops : List FileOp}
    (h : Concludes env (partProcessorCreate []).toPartProcessor bs (some (none, ops))) :
    ∃ t, extractPart env [bs] = some t ∧ t.ops = ops := by
  rcases h with ⟨r, ⟨n, q, hrun, rfl⟩, hresult⟩ | ⟨-, hnone⟩
  · rw [conclude_mapState] at hresult
    have hloop := mainLoop_enough hrun
    have hcall := partProcessorProcessData_eq env (s := partProcessorCreate []) (by simp [partProcessorCreate])
      (by simp [partProcessorCreate]) bs
    have hwork : (partProcessorCreate []).frameBuffer ++ bs = bs := rfl
    rw [hwork, hloop] at hcall
    cases q with
    | stopped e p => cases hresult
    | finished p remaining =>
      rw [conclude] at hresult
      obtain ⟨hremaining, hops⟩ := Prod.mk.inj (Option.some.inj hresult)
      have hnil : remaining = [] := by
        by_contra hne
        rw [if_neg hne] at hremaining
        cases hremaining
      rw [hnil] at hcall
      refine ⟨⟨(closeOutputFile env.os p).enter .done, []⟩, ?_, hops.symm⟩
      rw [extractPart, feedAll, hcall]
      rfl
  · cases hnone

theorem extractPart_singleton {env : ProcessorEnv} {bs : List UInt8} {deeds : List FileOp}
    (h : Extracts env (partProcessorCreate []).toPartProcessor bs deeds) :
    ∃ t, extractPart env [bs] = some t ∧ env.deeds t.ops = deeds := by
  obtain ⟨ops, hconcludes, hdeeds⟩ := h
  obtain ⟨t, ht, hops⟩ := hconcludes.extractPart_singleton
  exact ⟨t, ht, hops ▸ hdeeds⟩

/-- Whenever a path has been removed, a symlink has been made there afterwards. -/
def Relinked (done : List FileOp) : Prop :=
  ∀ path, Succeeds done (· = .unlink path) fun op ↦ ∃ t, op = .symlink t path

theorem FileOp.completed_eq_unlink {zstd : ZstdLib} {n : ℕ} {op : FileOp} {path : Path}
    (h : op.completed zstd n = .unlink path) : op = .unlink path := by
  cases op with
  | unlink p => exact h
  | encodedWrite => cases h
  | pwrite => cases h
  | mkdir => cases h
  | chmod => cases h
  | chown => cases h
  | openFile => cases h
  | ftruncate => cases h
  | fchmod => cases h
  | fchown => cases h
  | close => cases h
  | symlink => cases h
  | lchown => cases h

theorem relinked_of_none {os : Os} {zstd : ZstdLib} {done ops : List FileOp}
    (h : ∀ path, .unlink path ∉ ops) : Relinked (effects os zstd done ops) := by
  intro path
  refine .of_none ?_
  rintro op hop rfl
  obtain ⟨made, hmade, n, hcompleted⟩ := mem_effects hop
  rw [FileOp.completed_eq_unlink hcompleted] at hmade
  exact h path hmade

theorem Relinked.append {done ops : List FileOp} (h : Relinked done) (h' : Relinked ops) :
    Relinked (done ++ ops) := fun path ↦ (h path).append (h' path)

theorem closeOps_relinked {os : Os} (hos : os.Obliges) (zstd : ZstdLib) (done : List FileOp)
    (f : FileContext) : Relinked (effects os zstd done (closeOps os f)) := by
  rw [closeOps]
  split
  · next target hlink hbuffer =>
    obtain ⟨n, hmade⟩ := hos.symlink (done ++ [.unlink f.filename]) (target.takeWhile (· ≠ 0)) f.filename
    have hsymlink : effect os zstd (done ++ [.unlink f.filename])
        (.symlink (target.takeWhile (· ≠ 0)) f.filename) =
          [.symlink (target.takeWhile (· ≠ 0)) f.filename] := by
      rw [effect, hmade]
      rfl
    rw [effects_append]
    refine Relinked.append ?_ (relinked_of_none (by simp))
    rw [effects, effects, effects, hsymlink, List.append_nil]
    intro path
    refine .concat (by simp) fun op hop hunlink ↦ ?_
    rw [effect] at hop
    split at hop
    · cases hop
    · rw [List.mem_singleton.mp hop] at hunlink
      obtain rfl := FileOp.unlink.inj hunlink
      exact ⟨_, rfl⟩
  · split
    · exact relinked_of_none (by simp [restoreFileOps])
    · exact relinked_of_none (by simp)

/-- A processor that removes a path makes a symlink there. -/
theorem FileRun.relinked {env : ProcessorEnv} (hos : env.os.Obliges) {opened : List FileMetadata}
    {file : Option FileContext} {ops : List FileOp} (h : FileRun env opened file ops) :
    Relinked (effects env.os env.zstd [] ops) := by
  have hnone {ops made : List FileOp} (ih : Relinked (effects env.os env.zstd [] ops))
      (hmade : ∀ path, .unlink path ∉ made) : Relinked (effects env.os env.zstd [] (ops ++ made)) := by
    rw [effects_append]
    exact ih.append (relinked_of_none hmade)
  induction h with
  | start => exact fun _ ↦ .nil
  | parent _ _ _ ih => exact hnone ih (by simp)
  | opens _ _ hopening ih =>
    refine hnone ih fun path hmem ↦ ?_
    cases hopening with
    | directory =>
      simp [restoreDirectoryOps] at hmem
    | symlink => cases hmem
    | regular => simp at hmem
  | moves _ _ ih => exact ih
  | reads _ _ _ ih => exact ih
  | encodedWrite _ _ _ _ _ ih => exact hnone ih (by simp)
  | pwrite _ _ _ _ ih => exact hnone ih (by simp)
  | close _ ih =>
    rw [effects_append]
    exact ih.append (closeOps_relinked hos _ _ _)

/-- Every part has been extracted to its end, and these of the system calls have succeeded, in this order. -/
structure Extraction.Completes (x : Extraction) (chunks : ℕ → List (List UInt8))
    (history : List (ℕ × FileOp)) : Prop where
  parts : ∀ p < x.numParts, ∃ t, x.extracted chunks p = some t ∧
    own p history = effects (x.os p) x.zstd [] t.ops
  issued : ∀ q ∈ history, q.1 < x.numParts

/-- What an entry is extracted to, unless it is a directory. -/
def AddCall.node? : AddCall → Option Node
  | .file input lfh unixMode uid gid => some (.file (AddCall.content (.file input lfh unixMode uid gid)))
  | .symlink _ target _ _ _ => some (.symlink (target.takeWhile (· ≠ 0)))
  | .directory _ _ _ _ => none

/-- What is known of a history in which an archive has been extracted. -/
structure Restores (path : ℕ → Path) (entries : List (AddCall × FileEntry)) (done : List FileOp)
    (all : List FileOp) : Prop where
  deeds : ∀ op ∈ done, op.isDeed = true → Deed path entries op
  complete : ∀ op ∈ all, op ∈ done
  opensFirst : OpensFirst done
  relinked : Relinked done

theorem FileOp.isDeed_of_edit? {path : Path} {op : FileOp} (h : (op.edit? path).isSome) :
    op.isDeed = true := by
  cases op with
  | pwrite => rfl
  | ftruncate => rfl
  | _ => cases h

section

variable {x : Extraction} {env : WriterEnv} {level : ℤ} {calls : List AddCall} {archive : List UInt8}
  {chunks : ℕ → List (List UInt8)}

/-- Every part of an archive is extracted without an error. -/
theorem Extraction.Knows.extracted (h : x.Knows env level calls archive) (hos : ∀ p, (x.os p).Obliges)
    (hz : x.zstd.Stable) (hchunks : ∀ p < x.numParts, (chunks p).flatten = x.partBytes archive p)
    (hcut : ∀ p < x.numParts, NoCutDescriptor (x.env p) (partProcessorCreate []) (chunks p))
    {segs : ℕ → List Item} {states : ℕ → ReadPos} {outs : ℕ → List FileOp}
    (hreads : ReadsByParts x env level calls segs states outs) {p : ℕ} (hp : p < x.numParts) :
    ∃ t, x.extracted chunks p = some t ∧ (x.env p).deeds t.ops =
      (states p).opening (x.entryPath calls) ++ (outs p ++
        (states (p + 1)).closing (x.entryPath calls) (calls.zip (recordedAll env level 0 calls))) := by
  have hextracts := hreads.extracts h hos hp
  rw [← hchunks p hp] at hextracts
  exact Extracts.extractPart hz hextracts (hcut p hp)

theorem ReadPos.Within.opening_deeds {path : ℕ → Path} {entries : List (AddCall × FileEntry)} {s : ReadPos}
    (h : s.Within entries) : ∀ op ∈ s.opening path, Deed path entries op := by
  intro op hop
  cases s with
  | header => cases hop
  | data i offset =>
    obtain ⟨call, e, hentry, hlink, -⟩ := h
    rw [List.mem_singleton.mp hop]
    exact .opens hentry hlink
  | target => cases hop

theorem ReadPos.Within.closing_deeds {path : ℕ → Path} {entries : List (AddCall × FileEntry)} {s : ReadPos}
    (h : s.Within entries) : ∀ op ∈ s.closing path entries, Deed path entries op := by
  intro op hop
  cases s with
  | header => cases hop
  | data i offset =>
    obtain ⟨call, e, hentry, hlink, -⟩ := h
    rw [closing, hentry] at hop
    rw [List.mem_singleton.mp hop]
    exact .sizes hentry hlink
  | target => cases hop

/-- A processor at work on a part: how the system answers it, and the chunks that it is fed. -/
structure PartWorker where
  part : ℕ
  os : Os
  chunks : List (List UInt8)

def Extraction.workerEnv (x : Extraction) (worker : PartWorker) : ProcessorEnv :=
  { x.env worker.part with os := worker.os }

def Extraction.workerExtracted (x : Extraction) (worker : PartWorker) : Option PartProcessorState :=
  extractPart (x.workerEnv worker) worker.chunks

/-- Every worker has extracted its part to its end, and these of the system calls have succeeded, in this
order. -/
structure Extraction.WorkersComplete (x : Extraction) (workers : List PartWorker)
    (history : List (ℕ × FileOp)) : Prop where
  parts : ∀ k worker, workers[k]? = some worker → ∃ t, x.workerExtracted worker = some t ∧
    own k history = effects worker.os x.zstd [] t.ops
  issued : ∀ q ∈ history, q.1 < workers.length

/-- What has succeeded has been done for the entries of the archive. -/
theorem Extraction.WorkersComplete.stems {workers : List PartWorker} {history : List (ℕ × FileOp)}
    (h : x.WorkersComplete workers history) : ∀ op ∈ history.map Prod.snd, x.Stems op := by
  intro op hop
  obtain ⟨⟨k, op⟩, hmem, rfl⟩ := List.mem_map.mp hop
  obtain ⟨t, ht, hown⟩ := h.parts k _ (List.getElem?_eq_getElem (h.issued _ hmem))
  obtain ⟨opened, hrun⟩ := extractPart_run ht
  exact (hrun.effects_stemFrom op (hown ▸ mem_own.mpr hmem)).stems

/-- A worker extracts its part without an error and comes to what the reader comes to there. -/
structure Extraction.Works (x : Extraction) (calls : List AddCall) (entries : List (AddCall × FileEntry))
    (states : ℕ → ReadPos) (outs : ℕ → List FileOp) (worker : PartWorker) : Prop where
  part_lt : worker.part < x.numParts
  obliges : worker.os.Obliges
  deeds : ∃ t, x.workerExtracted worker = some t ∧ (x.workerEnv worker).deeds t.ops =
    (states worker.part).opening (x.entryPath calls) ++ (outs worker.part ++
      (states (worker.part + 1)).closing (x.entryPath calls) entries)

/-- Workers that leave out no part in which there is something to do come to the whole archive, also when
several have worked on the same part. -/
theorem Extraction.WorkersComplete.restores {workers : List PartWorker} {history : List (ℕ × FileOp)}
    (hdone : x.WorkersComplete workers history) {segs : ℕ → List Item} {states : ℕ → ReadPos}
    {outs : ℕ → List FileOp} (hreads : ReadsByParts x env level calls segs states outs)
    (hworks : ∀ worker ∈ workers, x.Works calls (calls.zip (recordedAll env level 0 calls)) states outs worker)
    (hall : ∀ p < x.numParts, outs p ≠ [] → ∃ worker ∈ workers, worker.part = p) :
    Restores (x.entryPath calls) (calls.zip (recordedAll env level 0 calls)) (history.map Prod.snd)
      (allDeeds env level (x.entryPath calls) 0 0 calls) := by
  have hdeeds {k : ℕ} {worker : PartWorker} (hk : workers[k]? = some worker) :
      (own k history).filter FileOp.isDeed =
        (states worker.part).opening (x.entryPath calls) ++ (outs worker.part ++
          (states (worker.part + 1)).closing (x.entryPath calls) (calls.zip (recordedAll env level 0 calls))) := by
    obtain ⟨t, ht, hops⟩ := (hworks worker (List.mem_of_getElem? hk)).deeds
    obtain ⟨t', ht', hown⟩ := hdone.parts k worker hk
    obtain rfl := Option.some.inj (ht.symm.trans ht')
    rw [hown]
    exact hops
  have hissued {q : ℕ × FileOp} (hq : q ∈ history) : ∃ worker, workers[q.1]? = some worker :=
    ⟨_, List.getElem?_eq_getElem (hdone.issued q hq)⟩
  have hnone {k : ℕ} (hk : workers[k]? = none) : own k history = [] := by
    rw [List.eq_nil_iff_forall_not_mem]
    intro op hop
    obtain ⟨worker, hworker⟩ := hissued (mem_own.mp hop)
    rw [hk] at hworker
    cases hworker
  constructor
  · intro op hop hdeed
    obtain ⟨⟨k, op⟩, hmem, rfl⟩ := List.mem_map.mp hop
    obtain ⟨worker, hworker⟩ := hissued hmem
    have hp := (hworks worker (List.mem_of_getElem? hworker)).part_lt
    have hfilter := List.mem_filter.mpr ⟨mem_own.mpr hmem, hdeed⟩
    rw [hdeeds hworker] at hfilter
    rcases List.mem_append.mp hfilter with hopening | hrest
    · exact (hreads.within hp.le).opening_deeds op hopening
    · rcases List.mem_append.mp hrest with hout | hclosing
      · exact (hreads.reads worker.part hp).deeds op hout
      · exact (hreads.within hp).closing_deeds op hclosing
  · intro op hop
    rw [hreads.deeds] at hop
    obtain ⟨p, hp, hout⟩ := List.mem_flatMap.mp hop
    obtain ⟨worker, hworker, rfl⟩ := hall p (List.mem_range.mp hp) (List.ne_nil_of_mem hout)
    obtain ⟨k, hk⟩ := List.mem_iff_getElem?.mp hworker
    have hfilter : op ∈ (own k history).filter FileOp.isDeed := by
      rw [hdeeds hk]
      exact List.mem_append_right _ (List.mem_append_left _ hout)
    exact List.mem_map.mpr ⟨(k, op), mem_own.mp (List.mem_filter.mp hfilter).1, rfl⟩
  · intro path
    refine .of_own fun k ↦ ?_
    cases hk : workers[k]? with
    | none =>
      rw [hnone hk]
      exact .nil
    | some worker =>
      have hp := (hworks worker (List.mem_of_getElem? hk)).part_lt
      have hopens := (hreads.reads worker.part hp).part_opensFirst path
      rw [← hdeeds hk] at hopens
      exact hopens.of_filter fun op ↦ FileOp.isDeed_of_edit?
  · intro path
    refine .of_own fun k ↦ ?_
    cases hk : workers[k]? with
    | none =>
      rw [hnone hk]
      exact .nil
    | some worker =>
      obtain ⟨t, ht, hown⟩ := hdone.parts k worker hk
      obtain ⟨opened, hrun⟩ := extractPart_run ht
      rw [hown]
      exact hrun.relinked (hworks worker (List.mem_of_getElem? hk)).obliges path

/-- One worker a part. -/
def Extraction.oneWorkerEach (x : Extraction) (chunks : ℕ → List (List UInt8)) : List PartWorker :=
  (List.range x.numParts).map fun p ↦ ⟨p, x.os p, chunks p⟩

theorem Extraction.Completes.workersComplete {history : List (ℕ × FileOp)} (h : x.Completes chunks history) :
    x.WorkersComplete (x.oneWorkerEach chunks) history := by
  constructor
  · intro k worker hk
    rw [Extraction.oneWorkerEach, List.getElem?_map] at hk
    obtain ⟨p, hp, rfl⟩ := Option.map_eq_some_iff.mp hk
    obtain ⟨hlt, hget⟩ := List.getElem?_eq_some_iff.mp hp
    rw [List.getElem_range] at hget
    rw [List.length_range] at hlt
    obtain rfl := hget
    exact h.parts k hlt
  · intro q hq
    rw [Extraction.oneWorkerEach, List.length_map, List.length_range]
    exact h.issued q hq

theorem Extraction.Completes.restores {history : List (ℕ × FileOp)} (hdone : x.Completes chunks history)
    (h : x.Knows env level calls archive) (hos : ∀ p, (x.os p).Obliges)
    (hz : x.zstd.Stable) (hchunks : ∀ p < x.numParts, (chunks p).flatten = x.partBytes archive p)
    (hcut : ∀ p < x.numParts, NoCutDescriptor (x.env p) (partProcessorCreate []) (chunks p)) :
    Restores (x.entryPath calls) (calls.zip (recordedAll env level 0 calls)) (history.map Prod.snd)
      (allDeeds env level (x.entryPath calls) 0 0 calls) := by
  obtain ⟨segs, states, outs, hreads⟩ := h.readsByParts
  refine hdone.workersComplete.restores hreads ?_ ?_
  · intro worker hworker
    obtain ⟨p, hp, rfl⟩ := List.mem_map.mp hworker
    rw [List.mem_range] at hp
    exact ⟨hp, hos p, h.extracted hos hz hchunks hcut hreads hp⟩
  · intro p hp _
    exact ⟨⟨p, x.os p, chunks p⟩, List.mem_map_of_mem (List.mem_range.mpr hp), rfl⟩

end

/-- Different entries have different paths. -/
def PathsDiffer (path : ℕ → Path) (entries : List (AddCall × FileEntry)) : Prop :=
  ∀ {i j a b}, entries[i]? = some a → entries[j]? = some b → path i = path j → i = j

theorem Extraction.Knows.pathsDiffer {x : Extraction} {env : WriterEnv} {level : ℤ} {calls : List AddCall}
    {archive : List UInt8} (h : x.Knows env level calls archive) :
    PathsDiffer (x.entryPath calls) (calls.zip (recordedAll env level 0 calls)) := by
  intro i j a b hi hj hpath
  obtain ⟨hi, -⟩ := List.getElem?_zip_eq_some.mp hi
  obtain ⟨hj, -⟩ := List.getElem?_zip_eq_some.mp hj
  rw [Extraction.entryPath, Extraction.entryPath, hi, hj, List.append_cancel_left_eq] at hpath
  obtain ⟨hlt, -⟩ := List.getElem?_eq_some_iff.mp hi
  refine (List.getElem?_inj (by rwa [List.length_map]) h.names.nodup).mp ?_
  rw [List.getElem?_map, List.getElem?_map, hi, hj]
  exact congrArg some hpath

namespace Restores

variable {path : ℕ → Path} {entries : List (AddCall × FileEntry)} {done all : List FileOp}

/-- Nothing is made at the path of a file but the file. -/
theorem not_replaced (h : Restores path entries done all) (hpaths : PathsDiffer path entries) {i : ℕ}
    {call : AddCall} {e : FileEntry} (hentry : entries[i]? = some (call, e))
    (hlink : call.isSymlink = false) : ∀ op ∈ done, ¬ op.Replaces (path i) := by
  have hsymlink (t : Path) : .symlink t (path i) ∉ done := by
    intro hmem
    have hdeed := h.deeds _ hmem rfl
    generalize hop : FileOp.symlink t (path i) = op at hdeed
    cases hdeed with
    | opens => cases hop
    | writes => cases hop
    | sizes => cases hop
    | @links j other e' hother hislink =>
      obtain ⟨-, hpath⟩ := FileOp.symlink.inj hop
      obtain rfl := hpaths hentry hother hpath
      obtain ⟨rfl, -⟩ := Prod.mk.inj (Option.some.inj (hentry.symm.trans hother))
      rw [hlink] at hislink
      cases hislink
  rintro op hop (rfl | ⟨t, rfl⟩)
  · obtain ⟨before, after, rfl⟩ := List.append_of_mem hop
    obtain ⟨_, hmem, t, rfl⟩ := h.relinked (path i) before _ after rfl rfl
    exact hsymlink t (List.mem_append_right _ (List.mem_cons_of_mem _ hmem))
  · exact hsymlink t hop

theorem edit_fits (h : Restores path entries done all) (hpaths : PathsDiffer path entries) {i : ℕ}
    {call : AddCall} {e : FileEntry} (hentry : entries[i]? = some (call, e)) {op : FileOp} (hop : op ∈ done)
    {edit : Edit UInt8} (hedit : op.edit? (path i) = some edit) : edit.Fits call.content := by
  have hdeed := h.deeds op hop (FileOp.isDeed_of_edit? (by rw [hedit]; rfl))
  have hsame {j : ℕ} {other : AddCall} {e' : FileEntry} (hother : entries[j]? = some (other, e'))
      (hpath : path j = path i) : other = call := by
    obtain rfl := hpaths hother hentry hpath
    exact (Prod.mk.inj (Option.some.inj (hother.symm.trans hentry))).1
  cases hdeed with
  | opens => cases hedit
  | writes hother _ hdata =>
    obtain rfl := hsame hother (FileOp.edit?_pwrite (by rw [hedit]; rfl))
    rw [FileOp.edit?] at hedit
    split at hedit
    · obtain rfl := Option.some.inj hedit
      exact hdata
    · cases hedit
  | sizes hother =>
    obtain rfl := hsame hother (FileOp.edit?_ftruncate (by rw [hedit]; rfl))
    rw [FileOp.edit?] at hedit
    split at hedit
    · obtain rfl := Option.some.inj hedit
      exact rfl
    · cases hedit
  | links => cases hedit

/-- A file has its content in the end. -/
theorem file (h : Restores path entries done all) (hpaths : PathsDiffer path entries) {i : ℕ}
    {call : AddCall} {e : FileEntry} (hentry : entries[i]? = some (call, e)) (hlink : call.isSymlink = false)
    (hsized : .ftruncate (path i) call.content.length ∈ all)
    (hcovered : ∀ k < call.content.length, ∃ data o, .pwrite (path i) data o ∈ all ∧ o ≤ k ∧
      k < o + data.length) {n : Option Node} (hn : ∀ target, n ≠ some (.symlink target)) :
    nodeAfter (path i) n done = some (.file call.content) := by
  have hedits {op : FileOp} {edit : Edit UInt8} (hop : op ∈ all) (hedit : op.edit? (path i) = some edit) :
      edit ∈ done.filterMap (FileOp.edit? (path i)) :=
    List.mem_filterMap.mpr ⟨op, h.complete op hop, hedit⟩
  have hopened : .openFile (path i) ∈ done := by
    obtain ⟨before, after, hsplit⟩ := List.append_of_mem (h.complete _ hsized)
    obtain ⟨_, hmem, rfl⟩ := h.opensFirst (path i) before _ after hsplit (by simp [FileOp.edit?])
    exact hsplit ▸ List.mem_append_left _ hmem
  rw [nodeAfter_opened (h.not_replaced hpaths hentry hlink) (h.opensFirst (path i)) hn hopened]
  congr 2
  apply edits_lead_to
  · intro edit hedit
    obtain ⟨op, hop, hedit⟩ := List.mem_filterMap.mp hedit
    exact h.edit_fits hpaths hentry hop hedit
  · exact hedits hsized (if_pos rfl)
  · intro k hk
    obtain ⟨data, o, hmem, hcovers⟩ := hcovered k hk
    exact ⟨.write o data, hedits hmem (if_pos rfl), hcovers⟩

/-- A symlink is there in the end. -/
theorem symlink (h : Restores path entries done all) (hpaths : PathsDiffer path entries) {i : ℕ}
    {call : AddCall} {e : FileEntry} (hentry : entries[i]? = some (call, e)) (hlink : call.isSymlink = true)
    (hmade : .symlink (call.content.takeWhile (· ≠ 0)) (path i) ∈ all) (n : Option Node) :
    nodeAfter (path i) n done = some (.symlink (call.content.takeWhile (· ≠ 0))) := by
  have hsame {j : ℕ} {other : AddCall} {e' : FileEntry} (hother : entries[j]? = some (other, e'))
      (hpath : path j = path i) : other = call := by
    obtain rfl := hpaths hother hentry hpath
    exact (Prod.mk.inj (Option.some.inj (hother.symm.trans hentry))).1
  apply nodeAfter_linked
  · intro t hmem
    have hdeed := h.deeds _ hmem rfl
    generalize hop : FileOp.symlink t (path i) = op at hdeed
    cases hdeed with
    | opens => cases hop
    | writes => cases hop
    | sizes => cases hop
    | links hother _ =>
      obtain ⟨rfl, hpath⟩ := FileOp.symlink.inj hop
      rw [hsame hother hpath.symm]
  · intro hmem
    have hdeed := h.deeds _ hmem rfl
    generalize hop : FileOp.openFile (path i) = op at hdeed
    cases hdeed with
    | opens hother hregular =>
      have hpath := FileOp.openFile.inj hop
      rw [hsame hother hpath.symm, hlink] at hregular
      cases hregular
    | writes => cases hop
    | sizes => cases hop
    | links => cases hop
  · intro op hop
    cases hedit : op.edit? (path i) with
    | none => rfl
    | some edit =>
      have hsome : (op.edit? (path i)).isSome := by rw [hedit]; rfl
      have hdeed := h.deeds op hop (FileOp.isDeed_of_edit? hsome)
      cases hdeed with
      | opens => cases hedit
      | writes hother hregular =>
        rw [hsame hother (FileOp.edit?_pwrite hsome), hlink] at hregular
        cases hregular
      | sizes hother hregular =>
        rw [hsame hother (FileOp.edit?_ftruncate hsome), hlink] at hregular
        cases hregular
      | links => cases hedit
  · exact h.relinked (path i)
  · exact h.complete _ hmade

end Restores

section

variable {x : Extraction} {env : WriterEnv} {level : ℤ} {calls : List AddCall} {archive : List UInt8}
  {chunks : ℕ → List (List UInt8)}

theorem Extraction.Knows.isSome (h : x.Knows env level calls archive) (hos : ∀ p, (x.os p).Obliges)
    (hz : x.zstd.Stable) (hchunks : ∀ p < x.numParts, (chunks p).flatten = x.partBytes archive p)
    (hcut : ∀ p < x.numParts, NoCutDescriptor (x.env p) (partProcessorCreate []) (chunks p)) :
    ∀ p < x.numParts, (x.extracted chunks p).isSome := by
  intro p hp
  obtain ⟨segs, states, outs, hreads⟩ := h.readsByParts
  obtain ⟨t, ht, -⟩ := h.extracted hos hz hchunks hcut hreads hp
  exact Option.isSome_iff_exists.mpr ⟨t, ht⟩

/-- What there is in the end at the path of an entry that is not a directory. -/
theorem Restores.node {ops : List FileOp} (hrestores : Restores (x.entryPath calls)
      (calls.zip (recordedAll env level 0 calls)) ops (allDeeds env level (x.entryPath calls) 0 0 calls))
    (h : x.Knows env level calls archive) {i : ℕ} {call : AddCall} (hcall : calls[i]? = some call)
    {node : Node} (hnode : call.node? = some node) {before : Option Node}
    (hbefore : ∀ target, before ≠ some (.symlink target)) :
    nodeAfter (x.entryPath calls i) before ops = some node := by
  obtain ⟨hlt, -⟩ := List.getElem?_eq_some_iff.mp hcall
  have hfile : i < (recordedAll env level 0 calls).length := by rwa [recordedAll_length]
  have hentry : (calls.zip (recordedAll env level 0 calls))[i]? =
      some (call, (recordedAll env level 0 calls)[i]) :=
    List.getElem?_zip_eq_some.mpr ⟨hcall, List.getElem?_eq_getElem hfile⟩
  obtain ⟨pos, hacc, hmem⟩ := @allDeeds_mem env level (x.entryPath calls) calls 0 0 i h.accepted call hcall
  rw [Nat.zero_add] at hmem
  have hfit := h.fits call (List.mem_of_getElem? hcall)
  cases call with
  | file input lfh unixMode uid gid =>
    obtain rfl := Option.some.inj hnode
    obtain ⟨hsized, hcovered⟩ := deeds_covers h.bound hacc hfit rfl rfl (x.entryPath calls i)
    refine hrestores.file h.pathsDiffer hentry rfl (hmem _ hsized) (fun k hk ↦ ?_) hbefore
    obtain ⟨data, o, hwrite, hcovers⟩ := hcovered k hk
    exact ⟨data, o, hmem _ hwrite, hcovers⟩
  | symlink lfh target unixMode uid gid =>
    obtain rfl := Option.some.inj hnode
    exact hrestores.symlink h.pathsDiffer hentry rfl (hmem _ (List.mem_singleton.mpr rfl)) before
  | directory => cases hnode

/-- Wherever the output directory is, and whatever files and directories there have been in it: the system
calls lead to a tree in which every file has its content and every symlink its target at the place that the
name of the entry stands for. -/
def Extraction.RestoresTree (x : Extraction) (calls : List AddCall) (ops : List FileOp) : Prop :=
  ∀ base fresh before, FileTree.NoLinkBelow before base →
    (∃ t, TreeAfter x.outputDir base fresh before ops t) ∧
    ∀ t, TreeAfter x.outputDir base fresh before ops t → ∀ call ∈ calls, ∀ node,
      AddCall.node? call = some node → (t (placeOf base call.lfh.filename)).map Inode.node = some node

theorem Extraction.Knows.namesPlain (h : x.Knows env level calls archive) : x.NamesPlain := by
  rw [Extraction.NamesPlain, h.filenames]
  exact h.names

theorem Restores.tree {ops : List FileOp} (hrestores : Restores (x.entryPath calls)
      (calls.zip (recordedAll env level 0 calls)) ops (allDeeds env level (x.entryPath calls) 0 0 calls))
    (h : x.Knows env level calls archive) (hops : ∀ op ∈ ops, x.Stems op) : x.RestoresTree calls ops := by
  intro base fresh before hbefore
  refine ⟨treeAfter_exists h.namesPlain hbefore hops, fun t ht call hmem node hnode ↦ ?_⟩
  obtain ⟨i, hcall⟩ := List.mem_iff_getElem?.mp hmem
  obtain ⟨hlt, -⟩ := List.getElem?_eq_some_iff.mp hcall
  have hfile : i < (recordedAll env level 0 calls).length := by rwa [recordedAll_length]
  obtain ⟨hget, hname⟩ := h.readBack_getElem?
    (List.getElem?_zip_eq_some.mpr ⟨hcall, List.getElem?_eq_getElem hfile⟩)
  have hinode := (ht.inode h.namesPlain hbefore hops).2 _ (List.mem_of_getElem? hget)
  have hpath : x.path (readBack x.partSize (recordedAll env level 0 calls)[i]
      (decodedValues (recordedAll env level 0 calls)[i])) = x.entryPath calls i := by
    rw [Extraction.path, hname, Extraction.entryPath, hcall]
    rfl
  rw [hname, hpath] at hinode
  rw [hinode, inodeAfter_node]
  apply hrestores.node h hcall hnode
  intro target hlink
  have hnone := hbefore (placeOf base call.lfh.filename) (List.prefix_append _ _)
  rw [FileTree.links_some.mpr ⟨target, hlink, rfl⟩] at hnone
  cases hnone

end

/-- Extracting an archive gives back what it has been made of: every part is extracted without an error,
and however the work of the parts has been interleaved, every file ends at its place with its content and
every symlink with its target. -/
theorem extraction_roundTrip {x : Extraction} {env : WriterEnv} {level : ℤ} {calls : List AddCall}
    {archive : List UInt8} {chunks : ℕ → List (List UInt8)} (h : x.Knows env level calls archive)
    (hos : ∀ p, (x.os p).Obliges) (hz : x.zstd.Stable)
    (hchunks : ∀ p < x.numParts, (chunks p).flatten = x.partBytes archive p)
    (hcut : ∀ p < x.numParts, NoCutDescriptor (x.env p) (partProcessorCreate []) (chunks p)) :
    (∀ p < x.numParts, (x.extracted chunks p).isSome) ∧
      ∀ history, x.Completes chunks history → x.RestoresTree calls (history.map Prod.snd) := by
  refine ⟨h.isSome hos hz hchunks hcut, ?_⟩
  intro history hdone
  exact (hdone.restores h hos hz hchunks hcut).tree h hdone.workersComplete.stems

theorem centralDirParse_toOption {buffer : List UInt8} {archiveSize partSize : ℕ}
    {cdResult : CentralDirParseResult}
    (h : (centralDirParse buffer archiveSize partSize).toOption.isSome = true) :
    centralDirParse buffer archiveSize partSize =
      .ok ((centralDirParse buffer archiveSize partSize).toOption.getD cdResult) := by
  generalize centralDirParse buffer archiveSize partSize = parsed at h
  cases parsed with
  | error e => cases h
  | ok cdResult => rfl

/-- In an archive whose entries lie in the first part there is no boundary for an entry to lie across. -/
theorem EntrySpan.Crosses.false_of_onePart {env : WriterEnv} {level : ℤ} {calls : List AddCall} {s : EntrySpan}
    (hs : s ∈ entrySpans 0 (layoutAll env level 0 calls))
    (htotal : total Item.len (bodyItems (layoutAll env level 0 calls)) ≤ burstPartSize) {p : ℕ}
    (hcross : s.Crosses (p * burstPartSize)) : False := by
  obtain ⟨-, hle, -⟩ := entrySpans_le hs
  obtain ⟨hlo, hhi⟩ := hcross
  cases p with
  | zero => omega
  | succ p =>
    rw [Nat.add_one_mul] at hhi
    omega

theorem Extraction.partBytes_of_onePart {x : Extraction} {archive : List UInt8} (h : archive.length ≤ x.partSize) :
    x.partBytes archive 0 = archive := by
  rw [Extraction.partBytes, Nat.zero_mul, List.drop_zero]
  exact List.take_of_length_le h

/-- Workers that extract their parts one after another. -/
theorem Extraction.workersComplete_exists {x : Extraction} {workers : List PartWorker}
    (hall : ∀ worker ∈ workers, (x.workerExtracted worker).isSome) :
    ∃ history, x.WorkersComplete workers history := by
  induction workers using List.reverseRecOn with
  | nil => exact ⟨[], fun k worker hk ↦ (by cases hk), fun q hq ↦ (by cases hq)⟩
  | append_singleton workers last ih =>
    obtain ⟨history, hparts, hissued⟩ := ih fun worker h ↦ hall worker (List.mem_append_left _ h)
    obtain ⟨t, ht⟩ := Option.isSome_iff_exists.mp (hall last (by simp))
    have hlast : ∀ q ∈ (effects last.os x.zstd [] t.ops).map fun op ↦ (workers.length, op),
        q.1 = workers.length := by
      intro q hq
      obtain ⟨op, -, rfl⟩ := List.mem_map.mp hq
      rfl
    refine ⟨history ++ (effects last.os x.zstd [] t.ops).map fun op ↦ (workers.length, op), ?_, ?_⟩
    · intro k worker hk
      rcases Nat.lt_or_ge k workers.length with hlt | hge
      · rw [List.getElem?_append_left hlt] at hk
        obtain ⟨t', ht', hown⟩ := hparts k worker hk
        refine ⟨t', ht', ?_⟩
        rw [own_append, hown, own_eq_nil fun q hq ↦ (hlast q hq).trans_ne (Nat.ne_of_gt hlt), List.append_nil]
      · obtain rfl : k = workers.length := by
          have hk' := (List.getElem?_eq_some_iff.mp hk).1
          rw [List.length_append, List.length_singleton] at hk'
          omega
        rw [List.getElem?_concat_length] at hk
        obtain rfl := Option.some.inj hk
        refine ⟨t, ht, ?_⟩
        rw [own_append, own_map_self, own_eq_nil fun q hq ↦ Nat.ne_of_lt (hissued q hq), List.nil_append]
    · intro q hq
      rw [List.length_append, List.length_singleton]
      rcases List.mem_append.mp hq with hq | hq
      · exact Nat.lt_succ_of_lt (hissued q hq)
      · rw [hlast q hq]
        exact Nat.lt_succ_self _

/-- The parts can be extracted one after another. -/
theorem Extraction.completes_exists {x : Extraction} {chunks : ℕ → List (List UInt8)}
    (hall : ∀ p < x.numParts, (x.extracted chunks p).isSome) : ∃ history, x.Completes chunks history := by
  obtain ⟨history, hparts, hissued⟩ := @workersComplete_exists x (x.oneWorkerEach chunks) (by
    intro worker hworker
    obtain ⟨p, hp, rfl⟩ := List.mem_map.mp hworker
    exact hall p (List.mem_range.mp hp))
  rw [oneWorkerEach, List.length_map, List.length_range] at hissued
  refine ⟨history, ?_, hissued⟩
  intro p hp
  apply hparts p ⟨p, x.os p, chunks p⟩
  rw [oneWorkerEach, List.getElem?_map, List.getElem?_range hp]
  rfl

/-- The file `a`, and the symlink `b` to it. -/
def fileAndLink : List AddCall :=
  [.file ⟨[104, 105], none, true⟩ (sampleHeader zipFlagDataDescriptor zipMethodZstd) 0o100644 0 0,
    .symlink { sampleHeader 0 zipMethodStore with tail := 98 :: buildUnixExtraField 16 0 0 } [97]
      0o120777 0 0]

def fileAndLinkArchive : List UInt8 :=
  (burstWriterFinalize (addAll rawEnv fileAndLink (burstWriterCreate ⟨[], []⟩ 3)).2).2.output.bytes

/-- Its central directory. -/
def fileAndLinkCd : CentralDirParseResult :=
  (centralDirParse fileAndLinkArchive fileAndLinkArchive.length burstPartSize).toOption.getD
    ⟨[], [], 0, 0, false⟩

/-- Its extraction to `out`. -/
def fileAndLinkExtraction : Extraction where
  os _ := obligingOs
  zstd := rawZstd
  cdResult := fileAndLinkCd
  outputDir := [111, 117, 116]
  partSize := burstPartSize

theorem fileAndLinkArchive_length : fileAndLinkArchive.length = 350 := by decide +kernel

theorem fileAndLinkArchive_parses :
    centralDirParse fileAndLinkArchive fileAndLinkArchive.length burstPartSize = .ok fileAndLinkCd := by
  apply centralDirParse_toOption
  decide +kernel

theorem fileAndLinkArchive_knows : fileAndLinkExtraction.Knows rawEnv 3 fileAndLink fileAndLinkArchive := by
  have hlength := fileAndLinkArchive_length
  constructor
  case written =>
    have hadd : (addAll rawEnv fileAndLink (burstWriterCreate ⟨[], []⟩ 3)).1 = some () := by decide +kernel
    have hfin : (burstWriterFinalize (addAll rawEnv fileAndLink (burstWriterCreate ⟨[], []⟩ 3)).2).1 =
      some () := by decide +kernel
    refine ⟨[], (addAll rawEnv fileAndLink (burstWriterCreate ⟨[], []⟩ 3)).2, _, ?_, ?_, rfl⟩
    · rw [← hadd]
    · rw [← hfin]
  case bound => exact rawEnv_framesBounded 3
  case frames => exact rawZstd_framesDecode 3
  case headers =>
    simp only [fileAndLink, List.forall_mem_cons, List.not_mem_nil, false_imp_iff, implies_true, and_true]
    have hfile : (sampleHeader zipFlagDataDescriptor zipMethodZstd).WellFormed :=
      ⟨by decide, by decide, by decide, by decide⟩
    refine ⟨⟨hfile, by decide, ?_⟩, ⟨by decide, by decide, by decide, by decide⟩, by decide, ?_⟩
    · change _ ≤ _
      decide +kernel
    · change _ ≤ _
      decide +kernel
  case kinds =>
    simp only [fileAndLink, List.forall_mem_cons, List.not_mem_nil, false_imp_iff, implies_true, and_true]
    exact ⟨⟨by decide, by decide⟩, ⟨by decide, by decide⟩⟩
  case names => exact ⟨by decide +kernel, by decide +kernel, by decide +kernel⟩
  case entries =>
    have hvalues : ∀ e ∈ recordedAll rawEnv 3 0 fileAndLink,
        (e.localHeaderOffset < 2 ^ 64 ∧ e.compressedSize < 2 ^ 64 ∧ e.uncompressedSize < 2 ^ 64 ∧
          e.crc32 < 2 ^ 32 ∧ e.compressionMethod < 2 ^ 16 ∧ e.uid < 2 ^ 32 ∧ e.gid < 2 ^ 32) ∧
        (e.filename.length < 2 ^ 16 ∧ ∀ b ∈ e.filename, b ≠ 0) ∧
        e.uncompressedSize ≠ 0xFFFFFFFF ∧
          (e.compressedSize = 0xFFFFFFFF → 0xFFFFFFFF < e.uncompressedSize ∧
            e.localHeaderOffset ≤ 0xFFFFFFFF) := by decide +kernel
    intro e he
    obtain ⟨⟨h1, h2, h3, h4, h5, h6, h7⟩, ⟨h8, h9⟩, h10⟩ := hvalues e he
    exact ⟨⟨h1, h2, h3, h4, h5, h6, h7⟩, ⟨h8, h9⟩, h10⟩
  case partSize => exact dvd_rfl
  case partSize_pos => decide
  case size =>
    rw [hlength]
    decide
  case fewParts =>
    rw [hlength]
    decide
  case parsed =>
    refine ⟨0, Nat.zero_le _, ?_⟩
    simp only [List.drop_zero, fileAndLinkExtraction]
    exact fileAndLinkArchive_parses
  case continues =>
    intro s hs p hcross
    exact (hcross.false_of_onePart hs (by decide +kernel)).elim

/-- An empty output directory. -/
def emptyTree : FileTree := fun _ ↦ none

theorem emptyTree_noLink (base : List Path) : emptyTree.NoLinkBelow base := fun _ _ ↦ rfl

theorem fileAndLink_roundTrip : ∃ history t,
    fileAndLinkExtraction.Completes (fun _ ↦ [fileAndLinkArchive.take 50, fileAndLinkArchive.drop 50]) history ∧
      TreeAfter [111, 117, 116] [[111, 117, 116]] ⟨0o644, 0, 0⟩ emptyTree (history.map Prod.snd) t ∧
      (t [[111, 117, 116], [97]]).map Inode.node = some (.file [104, 105]) ∧
      (t [[111, 117, 116], [98]]).map Inode.node = some (.symlink [97]) := by
  have hparts : fileAndLinkExtraction.numParts = 1 := by decide +kernel
  have hbytes : fileAndLinkExtraction.partBytes fileAndLinkArchive 0 = fileAndLinkArchive := by
    apply Extraction.partBytes_of_onePart
    rw [fileAndLinkArchive_length]
    decide
  obtain ⟨hall, htree⟩ := @extraction_roundTrip fileAndLinkExtraction _ _ _ fileAndLinkArchive
    (fun _ ↦ [fileAndLinkArchive.take 50, fileAndLinkArchive.drop 50]) fileAndLinkArchive_knows
    (fun _ ↦ obligingOs_obliges) rawZstd_stable (by
      intro p hp
      obtain rfl : p = 0 := by omega
      rw [hbytes]
      simp) (by
      intro p hp
      obtain rfl : p = 0 := by omega
      exact feedCutsNone_sound (by decide +kernel))
  obtain ⟨history, hdone⟩ := Extraction.completes_exists hall
  obtain ⟨⟨t, ht⟩, hnodes⟩ := htree _ hdone [[111, 117, 116]] ⟨0o644, 0, 0⟩ emptyTree (emptyTree_noLink _)
  refine ⟨history, t, hdone, ht, ?_, ?_⟩
  · exact hnodes t ht _ List.mem_cons_self _ rfl
  · exact hnodes t ht _ (List.mem_cons_of_mem _ List.mem_cons_self) _ rfl

end Burst
