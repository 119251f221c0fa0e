import Burst.RoundTrip

namespace Burst

open Tiling LittleEndian Incremental Interleaving PathResolution

theorem doWriteUnencoded_ops_le (os : Os) (zstd : ZstdLib) (ops : List FileOp) (path : Path)
    (frame : List UInt8) (len offset : ℕ) :
    ops <+: (doWriteUnencoded os zstd ops path frame len offset).2 := by
  rw [doWriteUnencoded]
  split
  · exact List.prefix_refl _
  split
  · exact List.prefix_refl _
  split
  · exact List.prefix_refl _
  · dsimp only
    split
    · exact List.prefix_append _ _
    · exact List.prefix_append _ _

theorem doWriteEncoded_ops_le (os : Os) (zstd : ZstdLib) (ops : List FileOp) (path : Path)
    (frame : List UInt8) (len offset : ℕ) :
    ops <+: (doWriteEncoded os zstd ops path frame len offset).2 := by
  have hfallback : ops <+: (doWriteUnencoded os zstd (ops ++ [.encodedWrite path frame len offset]) path
      frame len offset).2 :=
    (List.prefix_append _ _).trans (doWriteUnencoded_ops_le os zstd _ path frame len offset)
  rw [doWriteEncoded]
  split
  · exact List.prefix_refl _
  split
  · exact doWriteUnencoded_ops_le os zstd ops path frame len offset
  split
  · exact List.prefix_refl _
  · dsimp only
    split
    · exact List.prefix_append _ _
    · exact hfallback
    · exact hfallback
    · exact List.prefix_append _ _

section

variable {env : ProcessorEnv} {p q : PartProcessor} {bs rest : List UInt8}

theorem openOutputFile_ops_le {fileMeta : FileMetadata} (h : openOutputFile env p fileMeta = (none, q)) :
    p.ops <+: q.ops :=
  (openOutputFile_opens h (Nat.le_refl 0)).1

theorem handleStartOfPartFrame_ops_le {offset : ℕ} (h : handleStartOfPartFrame env p offset = (none, q)) :
    p.ops <+: q.ops := by
  rw [handleStartOfPartFrame] at h
  split at h
  · obtain ⟨-, rfl⟩ := Prod.mk.inj h
    exact List.prefix_refl _
  · split at h
    · cases h
    · split at h
      · cases h
      · next hopen =>
        obtain ⟨-, rfl⟩ := Prod.mk.inj h
        have hle := openOutputFile_ops_le hopen
        exact hle

theorem handleZstdFrame_ops_le {frame : List UInt8} {size : ℕ}
    (h : handleZstdFrame env p frame size = (none, q)) : p.ops <+: q.ops := by
  rw [handleZstdFrame] at h
  split at h
  · cases h
  · next f _ =>
    have hle := doWriteEncoded_ops_le env.os env.zstd p.ops f.filename frame size f.uncompressedOffset
    split at h
    · cases h
    · split at h
      · cases h
      · next hwrite =>
        obtain ⟨-, rfl⟩ := Prod.mk.inj h
        rw [hwrite] at hle
        exact hle

theorem stepLocalHeader_ops_le (h : stepLocalHeader env p bs = .next q rest) : p.ops <+: q.ops := by
  rw [stepLocalHeader] at h
  split at h
  · cases h
  · cases h
    exact List.prefix_refl _
  · cases h
  · next hheader =>
    cases h
    rw [handleLocalHeader] at hheader
    split_ifs at hheader
    split at hheader
    · cases hheader
    · split at hheader
      · cases hheader
      · next hopen =>
        obtain ⟨-, rfl⟩ := LocalHeaderResult.success.inj hheader
        have hle := openOutputFile_ops_le hopen
        exact hle

theorem stepProcessingFrames_ops_le (h : stepProcessingFrames env p bs = .next q rest) :
    p.ops <+: q.ops := by
  have hclose := closeOutputFile_ops_le env.os p
  rw [stepProcessingFrames] at h
  split at h
  · cases h
  · cases h
  · split at h
    · split at h
      · cases h
      · obtain ⟨r, hr, hnext⟩ := LoopStep.after_next h
        cases hnext
        have hle := handleZstdFrame_ops_le hr
        exact hle
    · cases h
      exact List.prefix_refl _
    · split at h
      · cases h
      · obtain ⟨r, hr, hnext⟩ := LoopStep.after_next h
        cases hnext
        have hle := handleStartOfPartFrame_ops_le hr
        exact hle
    · cases h
      exact hclose
    · cases h
      exact hclose
    · cases h
      exact hclose

/-- A round makes system calls after those that have been made. -/
theorem step_ops_le (h : step env p bs = .next q rest) : p.ops <+: q.ops := by
  rw [step] at h
  cases hs : p.state with
  | init =>
    simp only [hs, stepInit] at h
    split at h
    · cases h
      exact List.prefix_refl _
    · cases h
      exact List.prefix_refl _
  | continuingFile =>
    simp only [hs, stepContinuingFile] at h
    split at h
    · cases h
    · cases h
    · split at h
      · cases h
      · obtain ⟨r, hr, hnext⟩ := LoopStep.after_next h
        cases hnext
        have hle := handleStartOfPartFrame_ops_le hr
        exact hle
  | expectLocalHeader =>
    simp only [hs, stepExpectLocalHeader] at h
    split at h
    · cases h
      exact List.prefix_refl _
    · split at h
      · cases h
      · cases h
      · split at h
        · cases h
          exact List.prefix_refl _
        · cases h
          exact List.prefix_refl _
        · exact stepLocalHeader_ops_le h
        · cases h
  | processingFrames =>
    simp only [hs] at h
    exact stepProcessingFrames_ops_le h
  | readingSymlink =>
    simp only [hs, stepReadingSymlink] at h
    split at h
    · cases h
    · next f _ =>
      split at h
      · cases h
      · next target _ =>
        have hle (n : ℕ) := closeOutputFile_ops_le env.os
          ((p.consume n).setSymlinkTarget f (target ++ bs.take n))
        rw [afterSymlinkBytes] at h
        split at h
        · cases h
          exact hle _
        · cases h
          exact List.prefix_refl _
  | done =>
    simp only [hs] at h
    cases h
    exact List.prefix_refl _
  | error =>
    simp only [hs] at h
    cases h

theorem visits_ops_le (hvisit : Visits (step env) p bs q rest) : p.ops <+: q.ops := by
  induction hvisit with
  | here => exact List.prefix_refl _
  | later _ hstep _ ih => exact (step_ops_le hstep).trans ih

/-- What has been done on the way to the end of a part has been done by its end. -/
theorem Concludes.visited {ops : List FileOp} (h : Concludes env p bs (some (none, ops)))
    (hvisit : Visits (step env) p bs q rest) : q.ops <+: ops := by
  rcases h with ⟨r, hends, hresult⟩ | ⟨-, hnone⟩
  · obtain ⟨n, r, hrun, rfl⟩ := (hvisit.ends_iff r).mp hends
    rw [conclude_mapState] at hresult
    cases r with
    | stopped e t => cases hresult
    | finished t remaining =>
      obtain ⟨-, rfl⟩ := Prod.mk.inj (Option.some.inj hresult)
      refine List.IsPrefix.trans ?_ (closeOutputFile_ops_le env.os t)
      rcases visits_of_finished hrun with hlater | ⟨u, hlater, hwait⟩
      · exact visits_ops_le hlater
      · have hkeep := step_keepsErrors env u remaining
        rw [hwait] at hkeep
        obtain rfl : t = u := hkeep
        exact visits_ops_le hlater
  · cases hnone

/-- A directory that a run has opened it has made, or has found there. -/
theorem FileRun.mkdir_mem {opened : List FileMetadata} {file : Option FileContext} {ops : List FileOp}
    (h : FileRun env opened file ops) {fileMeta : FileMetadata} (hmem : fileMeta ∈ opened)
    (hdirectory : fileMeta.isDirectory = true) : .mkdir (env.filePath fileMeta) 0o755 ∈ ops := by
  induction h with
  | start => cases hmem
  | parent _ _ _ ih => exact List.mem_append_left _ (ih hmem)
  | opens _ _ hopening ih =>
    rcases List.mem_append.mp hmem with hbefore | hlast
    · exact List.mem_append_left _ (ih hbefore)
    · obtain rfl := List.mem_singleton.mp hlast
      apply List.mem_append_right
      cases hopening with
      | directory => exact List.mem_cons_self
      | symlink hother =>
        rw [hother] at hdirectory
        cases hdirectory
      | regular hother =>
        rw [hother] at hdirectory
        cases hdirectory
  | moves _ _ ih => exact ih hmem
  | reads _ _ _ ih => exact ih hmem
  | encodedWrite _ _ _ _ _ ih => exact List.mem_append_left _ (ih hmem)
  | pwrite _ _ _ _ ih => exact List.mem_append_left _ (ih hmem)
  | close _ ih => exact List.mem_append_left _ (ih hmem)

end

section

variable {penv : ProcessorEnv} {env : WriterEnv} {level : ℤ} {path : ℕ → Path}
  {entries : List (AddCall × FileEntry)} {pos : ℕ} {s s' : ReadPos} {is : List Item} {out : List FileOp}

theorem partRank_mono {i j : ℕ} (h : i ≤ j) (partSize p : ℕ) :
    partRank entries partSize p i ≤ partRank entries partSize p j :=
  List.Sublist.countP_le (List.take_sublist_take_left h)

/-- Reading up to where the part still has entries to come, the processor gets to where the reader is. -/
theorem Reads.visits (hz : FramesDecode env level penv.zstd) (hk : KnowsEntries penv path entries)
    (hos : penv.os.Obliges) (h : Reads env level path entries pos s is out s')
    (hlo : penv.partIndex * penv.partSize ≤ pos)
    (hhi : pos + total Item.len is ≤ (penv.partIndex + 1) * penv.partSize)
    (hlisted : partRank entries penv.partSize penv.partIndex s'.met < penv.part.entries.length)
    {p : PartProcessor} (hp : s.Holds penv path entries p) (hpos : p.position penv = pos)
    (rest : List UInt8) : ∃ q, Visits (step penv) p (itemBytes is ++ rest) q rest ∧
      s'.Holds penv path entries q ∧ q.position penv = pos + total Item.len is := by
  induction h generalizing p with
  | nil => exact ⟨p, .here, hp, hpos⟩
  | @cons pos s t u item is out outs hstep htail ih =>
    have hlen := hstep.len_pos hz hk
    rw [total_cons] at hhi
    have hpart : pos / penv.partSize = penv.partIndex := Nat.div_eq_of_lt_le hlo (by omega)
    have hmet := (Reads.headers (.cons hstep htail)).1
    obtain ⟨q, hvisit, hq, -, hposition⟩ := hstep.simulates hz hk hos hpart (by
      rintro i rfl
      exact (partRank_mono hmet _ _).trans_lt hlisted) hp hpos (itemBytes is ++ rest)
    obtain ⟨r, hlater, hr, hend⟩ := ih (by omega) (by omega) hlisted hq (by rw [hposition, hpos]; rfl)
    rw [itemBytes_cons, List.append_assoc, total_cons, ← Nat.add_assoc]
    exact ⟨r, hvisit.trans hlater, hr, hend⟩

/-- The header of an entry is one of the items that are read from before it to behind it. -/
theorem Reads.split_at_header (h : Reads env level path entries pos s is out s') {i : ℕ}
    {call : AddCall} {e : FileEntry} (hentry : entries[i]? = some (call, e)) (hlo : s.met ≤ i)
    (hhi : i < s'.met) : ∃ before after made, is = before ++ .localHeader call.lfh :: after ∧
      Reads env level path entries pos s before made (.header i) ∧
      pos + total Item.len before = e.localHeaderOffset := by
  induction h with
  | nil => omega
  | @cons pos s t u item is out outs hstep htail ih =>
    have hlater (hmet : t.met ≤ i) : ∃ before after made,
        item :: is = before ++ .localHeader call.lfh :: after ∧
          Reads env level path entries pos s before made (.header i) ∧
          pos + total Item.len before = e.localHeaderOffset := by
      obtain ⟨before, after, made, rfl, hreads, hoffset⟩ := ih hmet hhi
      refine ⟨item :: before, after, _, rfl, .cons hstep hreads, ?_⟩
      rw [total_cons, ← Nat.add_assoc, hoffset]
    cases hstep with
    | padding => exact hlater hlo
    | @header j other e' hother hoffset =>
      rcases Nat.lt_or_ge j i with hbefore | hat
      · apply hlater
        rw [AddCall.opened_met]
        exact hbefore
      · obtain rfl := Nat.le_antisymm hlo hat
        obtain ⟨rfl, rfl⟩ := Prod.mk.inj (Option.some.inj (hother.symm.trans hentry))
        exact ⟨[], is, _, rfl, .nil _ _, hoffset.symm⟩
    | data => exact hlater hlo
    | descriptor => exact hlater hlo
    | target => exact hlater hlo

/-- Where a processor is at an entry the entry has been opened. -/
theorem ReadPos.Holds.opened {fileMeta : FileMetadata} {call : AddCall} {e : FileEntry} {i : ℕ}
    (hk : KnowsEntries penv path entries) (hentry : entries[i]? = some (call, e))
    (hpart : e.localHeaderOffset / penv.partSize = penv.partIndex)
    (hfile : penv.cdResult.files[i]? = some fileMeta) {q : PartProcessor}
    (hq : (call.opened (path i) i).2.Holds penv path entries q) (hfollows : q.Follows penv) :
    ∃ opened, fileMeta ∈ opened ∧ FileRun penv opened q.currentFile q.ops := by
  have hrank := partRank_succ hentry penv.partSize penv.partIndex
  rw [if_pos hpart] at hrank
  obtain ⟨-, hnext⟩ := hk.listed hentry hpart
  have hopened (hidx : q.nextEntryIdx = partRank entries penv.partSize penv.partIndex (i + 1)) :
      fileMeta ∈ openedFiles penv q := by
    rw [openedFiles, openedEntries, List.map_append, List.map_map]
    refine List.mem_append_right _ (List.mem_map.mpr ⟨fileMeta, ?_, rfl⟩)
    refine List.mem_filterMap.mpr ⟨partRank entries penv.partSize penv.partIndex i, ?_, hnext.trans hfile⟩
    rw [List.mem_range, hidx, hrank]
    exact Nat.lt_succ_self _
  have hbusy : q.nextEntryIdx = partRank entries penv.partSize penv.partIndex (i + 1) ∧
      q.state ≠ .done ∧ q.state ≠ .error := by
    have hmet := call.opened_met (path i) i
    generalize (call.opened (path i) i).2 = s at hq hmet
    cases hq with
    | header state closed next =>
      obtain rfl : _ = i + 1 := hmet
      exact ⟨next, by simp [state], by simp [state]⟩
    | left later state opened next =>
      obtain rfl : _ = i + 1 := hmet
      exact ⟨next, by simp [state], by simp [state]⟩
    | data _ _ _ _ _ state opened next =>
      obtain rfl := Nat.succ.inj hmet
      exact ⟨next, by simp [state], by simp [state]⟩
    | target _ _ _ _ state opened next =>
      obtain rfl := Nat.succ.inj hmet
      exact ⟨next, by simp [state], by simp [state]⟩
  obtain ⟨hidx, hdone, herror⟩ := hbusy
  cases hfollows with
  | runs run openings entries fresh busy => exact ⟨_, entries hdone herror ▸ hopened hidx, run⟩
  | failed state => exact (herror state).elim

end

namespace ReadsByParts

variable {x : Extraction} {env : WriterEnv} {level : ℤ} {calls : List AddCall} {archive : List UInt8}
  {segs : ℕ → List Item} {states : ℕ → ReadPos} {outs : ℕ → List FileOp}

/-- The processor of the part in which an entry starts comes by the entry. -/
theorem visits_entry (h : ReadsByParts x env level calls segs states outs)
    (hk : x.Knows env level calls archive) {p : ℕ} (hos : (x.os p).Obliges) (hp : p < x.numParts) {i : ℕ}
    {call : AddCall} {e : FileEntry} (hentry : (calls.zip (recordedAll env level 0 calls))[i]? = some (call, e))
    (hpart : e.localHeaderOffset / x.partSize = p) (tail : List UInt8) : ∃ q rest,
      Visits (step (x.env p)) (partProcessorCreate []).toPartProcessor (itemBytes (segs p) ++ tail) q rest ∧
        (call.opened (x.entryPath calls i) i).2.Holds (x.env p) (x.entryPath calls)
          (calls.zip (recordedAll env level 0 calls)) q := by
  have hpos := hk.partSize_pos
  have hmul := Nat.add_one_mul p x.partSize
  obtain ⟨hlo, hhi⟩ : p * x.partSize ≤ e.localHeaderOffset ∧ e.localHeaderOffset < (p + 1) * x.partSize :=
    ⟨(Nat.le_div_iff_mul_le hpos).mp hpart.ge, (Nat.div_lt_iff_lt_mul hpos).mp (by omega)⟩
  have hbody : e.localHeaderOffset < total Item.len (bodyItems (layoutAll env level 0 calls)) := by
    have hoffset := (recordedAll_offset (List.mem_of_getElem? (List.getElem?_zip_eq_some.mp hentry).2)).2
    rwa [Nat.zero_add] at hoffset
  have hstart := hlo.trans_lt hbody
  have hends := h.ends_eq hp hstart.le
  have hafter : (states p).met ≤ i := by
    by_contra hlt
    have hmet := (h.met_iff hp.le hentry).mp (Nat.lt_of_not_le hlt)
    rw [h.starts_eq hp.le hstart.le] at hmet
    omega
  have hbefore : i < (states (p + 1)).met := by
    rw [h.met_iff hp hentry, h.starts (p + 1) hp]
    omega
  have hreads := h.reads p hp
  rw [Nat.zero_add, h.starts_eq hp.le hstart.le] at hreads
  have hne : itemBytes (segs p) ++ tail ≠ [] := by
    apply List.ne_nil_of_length_pos
    rw [List.length_append, itemBytes_length]
    omega
  have hknows := hk.knowsEntries hp
  obtain ⟨q, before, after, hsegs, hvisit, hq, hposition, -, hrest⟩ :=
    (h.begins hk hp hstart).visits hknows hos hreads hne
  obtain ⟨front, back, made, hsplit, hfront, hoffset⟩ := hrest.split_at_header hentry hafter hbefore
  have htotal := congrArg (total Item.len) hsegs
  rw [hsplit, total_append, total_append, total_cons] at htotal
  have hlisted := (hknows.listed hentry hpart).1
  obtain ⟨r, hlater, hr, -⟩ := Reads.visits hk.frames hknows hos hfront (Nat.le_add_right _ _) (by
    change _ ≤ (p + 1) * x.partSize
    omega) hlisted hq hposition (call.lfh.bytes ++ (itemBytes back ++ tail))
  obtain ⟨t, hheader, ht, -⟩ := hr.header_step hknows hos hentry hpart (itemBytes back ++ tail)
  refine ⟨t, itemBytes back ++ tail, hvisit.trans ?_, ht⟩
  rw [hsplit, itemBytes_append, itemBytes_cons, List.append_assoc, List.append_assoc]
  exact hlater.trans hheader

/-- A directory of the archive is made in the part in which its entry starts. -/
theorem makes_directory (h : ReadsByParts x env level calls segs states outs)
    (hk : x.Knows env level calls archive) {p : ℕ} (hos : (x.os p).Obliges) (hp : p < x.numParts) {i : ℕ}
    {call : AddCall} {e : FileEntry} (hentry : (calls.zip (recordedAll env level 0 calls))[i]? = some (call, e))
    (hdirectory : call.isDirectory = true) (hpart : e.localHeaderOffset / x.partSize = p) {tail : List UInt8}
    {ops : List FileOp} (hconcludes : Concludes (x.env p) (partProcessorCreate []).toPartProcessor
      (itemBytes (segs p) ++ tail) (some (none, ops))) : .mkdir (x.entryPath calls i) 0o755 ∈ ops := by
  obtain ⟨q, rest, hvisit, hq⟩ := h.visits_entry hk hos hp hentry hpart tail
  obtain ⟨fileMeta, hfile, hdescribes, hpath⟩ := (hk.knowsEntries hp).described hentry
  have hfollows : q.Follows (x.env p) := by
    refine @Visits.invariant _ _ _ _ (fun q _ ↦ q.Follows (x.env p)) _ _ _ _ hvisit ?_
      (partProcessorCreate_follows (x.env p))
    intro p bs q rest hp _ hstep
    have hkept := step_follows hp bs
    rwa [hstep] at hkept
  obtain ⟨opened, hopened, hrun⟩ := hq.opened (hk.knowsEntries hp) hentry hpart hfile hfollows
  rw [← hpath]
  exact (hconcludes.visited hvisit).subset
    (hrun.mkdir_mem hopened (hdescribes.isDirectory.trans hdirectory))

end ReadsByParts

/-- Where `mkdir` makes a directory: its last name stands for itself, whatever there is. -/
inductive FileTree.MakesDirectory (outputDir : Path) (base : List Path) (t : FileTree) :
    FileOp → List Path → Prop where
  | mkdir {rest parents name dir mode} : components rest = parents ++ [.name name] →
      Resolves t.links (fun _ ↦ True) (fun _ ↦ True) base parents dir →
      MakesDirectory outputDir base t (.mkdir (outputDir ++ slash :: rest) mode) (dir ++ [name])

/-- One of the system calls has made a directory at a place. None of those of an extraction removes one. -/
def MadeDirectory (outputDir : Path) (base : List Path) (fresh : FileStatus) (before : FileTree)
    (ops : List FileOp) (place : List Path) : Prop :=
  ∃ done op t, done ++ [op] <+: ops ∧ TreeAfter outputDir base fresh before done t ∧
    t.MakesDirectory outputDir base op place

/-- When `mkdir` answers of an entry that it is there, something is there: a directory that has been made, or
a file or a symlink. -/
def Extraction.AnswersTruly (x : Extraction) (chunks : ℕ → List (List UInt8)) (base : List Path)
    (fresh : FileStatus) (before : FileTree) (ops : List FileOp) : Prop :=
  ∀ p < x.numParts, ∀ t, x.extracted chunks p = some t → ∀ made later, ∀ e ∈ x.cdResult.files,
    t.ops = made ++ .mkdir (x.path e) 0o755 :: later →
    (x.os p).respond made (.mkdir (x.path e) 0o755) = .error .eexist →
    ∃ done u place, done <+: ops ∧ TreeAfter x.outputDir base fresh before done u ∧
      u.MakesDirectory x.outputDir base (.mkdir (x.path e) 0o755) place ∧
      (MadeDirectory x.outputDir base fresh before done place ∨ (u place).isSome)

section

variable {x : Extraction} {base : List Path} {fresh : FileStatus} {before : FileTree}

/-- A directory of the archive is made at its place. -/
theorem Extraction.LinksOnlyLinks.makesDirectory_iff (hplain : x.NamesPlain) {t : FileTree}
    (hlinks : x.LinksOnlyLinks base t) {e : FileMetadata} (he : e ∈ x.cdResult.files) {mode : ℕ}
    {place : List Path} :
    t.MakesDirectory x.outputDir base (.mkdir (x.path e) mode) place ↔ place = placeOf base e.filename := by
  have hpath : x.path e = x.outputDir ++ slash :: e.filename := by simp [Extraction.path]
  have hne := PlainNames.placeNames_ne_nil hplain (List.mem_map_of_mem he)
  obtain ⟨parents, name, hsplit⟩ : ∃ parents name, placeNames e.filename = parents ++ [name] :=
    ⟨_, _, (List.dropLast_append_getLast hne).symm⟩
  have hcomponents : components e.filename = parents.map .name ++ [.name name] := by
    rw [PlainNames.components_eq hplain (List.mem_map_of_mem he), hsplit, List.map_append]
    rfl
  have hplace : placeOf base e.filename = base ++ parents ++ [name] := by
    rw [placeOf, hsplit, List.append_assoc]
  constructor
  · intro h
    generalize hop : FileOp.mkdir (x.path e) mode = op at h
    cases h with
    | mkdir hrests hres =>
      obtain ⟨hsame, -⟩ := FileOp.mkdir.inj hop
      rw [hpath, List.append_cancel_left_eq] at hsame
      obtain ⟨-, rfl⟩ := List.cons.inj hsame
      rw [hcomponents] at hrests
      obtain ⟨rfl, hlast⟩ := List.append_inj' hrests rfl
      obtain rfl := Component.name.inj (List.cons.inj hlast).1
      obtain rfl := (hlinks.parent_resolves_iff hplain he hsplit).mp hres
      exact hplace.symm
  · rintro rfl
    rw [hpath, hplace]
    exact .mkdir hcomponents ((hlinks.parent_resolves_iff hplain he hsplit).mpr rfl)

/-- No file and no symlink comes to be where a directory of the archive is. -/
theorem TreeAfter.directory_free (hplain : x.NamesPlain) (hbefore : before.NoLinkBelow base)
    {ops : List FileOp} {t : FileTree} (h : TreeAfter x.outputDir base fresh before ops t)
    (hops : ∀ op ∈ ops, x.Stems op) {e : FileMetadata} (he : e ∈ x.cdResult.files)
    (hdirectory : e.isDirectory = true) (hfree : before (placeOf base e.filename) = none) :
    t (placeOf base e.filename) = none := by
  rw [(h.inode hplain hbefore hops).2 e he, hfree]
  refine List.foldlRecOn ops _ (motive := fun i ↦ i = none) rfl ?_
  rintro i rfl op hop
  split
  · next hpath =>
    obtain ⟨os, hstems⟩ := hops op hop
    have hother {e' : FileMetadata} (he' : e' ∈ x.cdResult.files) (hkind : e'.isDirectory = false)
        (hsame : x.path e' = x.path e) : False := by
      obtain rfl := hplain.eq_of_path he' he hsame
      rw [hkind] at hdirectory
      cases hdirectory
    cases op with
    | openFile path =>
      obtain ⟨e', he', hkind, rfl⟩ := hstems
      rcases hpath with hfollows | hnames
      · exact (hother he' hkind.1 (Option.some.inj hfollows)).elim
      · cases hnames
    | symlink target path =>
      obtain ⟨e', he', hkind, rfl⟩ := hstems
      rcases hpath with hfollows | hnames
      · cases hfollows
      · exact (hother he' hkind.1 (Option.some.inj hnames)).elim
    | _ => rfl
  · rfl

theorem MadeDirectory.mono {ops ops' : List FileOp} {place : List Path}
    (h : MadeDirectory x.outputDir base fresh before ops place) (hle : ops <+: ops') :
    MadeDirectory x.outputDir base fresh before ops' place := by
  obtain ⟨done, op, t, hdone, hmade⟩ := h
  exact ⟨done, op, t, hdone.trans hle, hmade⟩

/-- Below an empty output directory a directory that has been asked for is made. -/
theorem Extraction.Completes.directory {chunks : ℕ → List (List UInt8)} {history : List (ℕ × FileOp)}
    (hdone : x.Completes chunks history) (hplain : x.NamesPlain) (hos : ∀ p, (x.os p).Obliges)
    (hempty : ∀ place, base <+: place → before place = none)
    (htruly : x.AnswersTruly chunks base fresh before (history.map Prod.snd)) {e : FileMetadata}
    (he : e ∈ x.cdResult.files) (hdirectory : e.isDirectory = true) {p : ℕ} (hp : p < x.numParts)
    {t : PartProcessorState} (ht : x.extracted chunks p = some t) (hmkdir : .mkdir (x.path e) 0o755 ∈ t.ops) :
    MadeDirectory x.outputDir base fresh before (history.map Prod.snd) (placeOf base e.filename) := by
  have hbefore : before.NoLinkBelow base := fun place hbelow ↦ FileTree.links_none (hempty place hbelow)
  have hstems := hdone.workersComplete.stems
  have hearlier {done : List FileOp} (hle : done <+: history.map Prod.snd) : ∀ op ∈ done, x.Stems op :=
    fun op hop ↦ hstems op (hle.subset hop)
  obtain ⟨made, later, hsplit⟩ := List.append_of_mem hmkdir
  rcases (hos p).mkdir made (x.path e) 0o755 with ⟨n, hok⟩ | hexist
  · -- the call has succeeded
    have heffect : .mkdir (x.path e) 0o755 ∈ effects (x.os p) x.zstd [] t.ops := by
      rw [hsplit, effects_append, effects, effect, List.nil_append, hok]
      exact List.mem_append_right _ (List.mem_append_left _ List.mem_cons_self)
    obtain ⟨t', ht', hown⟩ := hdone.parts p hp
    obtain rfl := Option.some.inj (ht.symm.trans ht')
    rw [← hown] at heffect
    obtain ⟨done, rest, hhistory⟩ := List.append_of_mem (List.mem_map_of_mem (mem_own.mp heffect))
    have hle : done ++ [.mkdir (x.path e) 0o755] <+: history.map Prod.snd := by
      refine ⟨rest, ?_⟩
      rw [hhistory, List.append_assoc]
      rfl
    have hops := hearlier ((List.prefix_append _ _).trans hle)
    obtain ⟨u, hu⟩ := @treeAfter_exists x hplain base fresh before hbefore done hops
    exact ⟨done, _, u, hle, hu,
      ((hu.inode hplain hbefore hops).1.makesDirectory_iff hplain he).mpr rfl⟩
  · -- something is there, and it is no file
    obtain ⟨done, u, place, hle, hu, hmakes, hthere⟩ := htruly p hp t ht made later e he hsplit hexist
    have hops := hearlier hle
    obtain rfl := ((hu.inode hplain hbefore hops).1.makesDirectory_iff hplain he).mp hmakes
    rcases hthere with hmade | hsome
    · exact hmade.mono hle
    · have hnone := hu.directory_free hplain hbefore hops he hdirectory
        (hempty _ (List.prefix_append _ _))
      rw [hnone] at hsome
      cases hsome

end

end Burst
