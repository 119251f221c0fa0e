import Burst.ArchivedTree

namespace Burst

open Tiling LittleEndian Interleaving PathResolution

/-- However many calls have failed, the finalized archive keeps to the alignment rule and the entries of the others
come back from it, when those that fail are refused for their arguments, no file that has been begun fails to be
read or compressed, and no entry is called like the padding. -/
theorem addEach_survives {env : WriterEnv} {level : ℤ} (hbound : FramesBounded env level)
    (hcrc : ∀ crc data, crc < 2 ^ 32 → env.crc32 crc data < 2 ^ 32) {calls : List AddCall}
    (hfails : ∀ call ∈ calls, call.Rejected ∨ call.ReadsThrough env level)
    (hmade : ∀ call ∈ calls, ¬ call.Rejected → call.WellMade ∧ call.lfh.rawName ≠ paddingLfhFilename)
    {added : List AddCall} (hadded : addedCalls env calls (burstWriterCreate ⟨[], []⟩ level) = added)
    (hnames : PlainNames (added.map fun call ↦ call.lfh.filename)) {w w' : BurstWriter}
    (hend : addEach env calls (burstWriterCreate ⟨[], []⟩ level) = w)
    (hfin : burstWriterFinalize w = (some (), w')) :
    let items := bodyItems (layoutAll env level 0 added)
    w'.output.bytes = itemBytes items ++ centralDirectoryBytes w.files ++
        endRecords w.files (itemBytes items).length (centralDirectoryBytes w.files).length ∧
      KeepsAlignment items w'.output.bytes ∧
      ∀ zstd partSize, ReadableArchive env level added w w'.output.bytes zstd partSize →
        ComeBack zstd (added.map AddCall.expected) w'.output.bytes w.position partSize := by
  intro items
  obtain ⟨_, _, hadd, rfl, hothers, -⟩ := addEach_finalizes hbound (by
    intro call hcall haccepts
    obtain ⟨hwell, -⟩ := hmade call hcall haccepts
    exact ⟨(hfails call hcall).resolve_left haccepts, hwell.wellFormed.signature, hwell.headerFits⟩)
  rw [hend, ← hothers, hadded] at hadd
  have hwell : ∀ call ∈ added, call.WellMade ∧ call.lfh.rawName ≠ paddingLfhFilename := by
    intro call hcall
    rw [← hadded, hothers] at hcall
    obtain ⟨hmem, haccepts⟩ := List.mem_filter.mp hcall
    exact hmade call hmem (by simpa using haccepts)
  refine ⟨(finalized_bytes hadd hfin).2, ?_, ?_⟩
  · exact finalized_keepsAlignment hbound (fun call hcall ↦ (hwell call hcall).1.wellFormed.signature)
      (fun call hcall ↦ (hwell call hcall).1.headerFits) hadd hfin
  · intro zstd partSize hreadable
    exact addAll_comeBack hbound hcrc hadd hfin hwell hnames hreadable

/-- A symlink without a target, which is refused. -/
def emptyLink : AddCall :=
  .symlink (buildSymlinkLocalFileHeader rawEnv 0 [108] [] 0 0) [] 0o120777 0 0

/-- After the symlink has been refused the tree is added, and comes back. -/
theorem emptyLink_survived : ∃ w',
    let w := addEach rawEnv (emptyLink :: largeTreeCalls) (burstWriterCreate ⟨[], []⟩ 3)
    addedCalls rawEnv (emptyLink :: largeTreeCalls) (burstWriterCreate ⟨[], []⟩ 3) = largeTreeCalls ∧
      burstWriterFinalize w = (some (), w') ∧ burstPartSize < w'.output.bytes.length ∧
      KeepsAlignment (bodyItems (layoutAll rawEnv 3 0 largeTreeCalls)) w'.output.bytes ∧
      ComeBack rawZstd (largeTreeCalls.map AddCall.expected) w'.output.bytes w.position burstPartSize := by
  have hcrc : ∀ crc data, crc < 2 ^ 32 → rawEnv.crc32 crc data < 2 ^ 32 :=
    fun _ data hlt ↦ Crc32.crc32_lt hlt data
  obtain ⟨hlisted, hplain⟩ := largeTree_readable.scan largeTree_scan
  have hmade := largeTree_allCalls.wellMade hcrc hlisted largeTree_fits
  have hadmissible : ∀ call ∈ largeTreeCalls, call.Admissible rawEnv 3 := by
    intro call hcall
    obtain ⟨entry, hentry, j, hof⟩ := largeTree_allCalls.mem hcall
    exact hof.admissible (largeTree_fits entry hentry) fun _ ↦ rfl
  have hfilter : ((emptyLink :: largeTreeCalls).filter fun call ↦ ¬ call.Rejected) = largeTreeCalls := by
    rw [List.filter_cons_of_neg (by simp [emptyLink, AddCall.Rejected]), List.filter_eq_self]
    intro call hcall
    exact decide_eq_true (hadmissible call hcall).accepts
  have hothers : ∀ call ∈ emptyLink :: largeTreeCalls, ¬ call.Rejected → call ∈ largeTreeCalls := by
    intro call hcall haccepts
    rcases List.mem_cons.mp hcall with rfl | hcall
    · exact (haccepts rfl).elim
    · exact hcall
  obtain ⟨w, w', hadd, hend, hadded, hfin⟩ := @addEach_finalizes rawEnv 3 (rawEnv_framesBounded 3)
    (emptyLink :: largeTreeCalls) (by
      intro call hcall haccepts
      have hmem := hothers call hcall haccepts
      obtain ⟨hwell, -⟩ := hmade call hmem
      exact ⟨(hadmissible call hmem).readsThrough, hwell.wellFormed.signature, hwell.headerFits⟩)
  rw [hfilter] at hadd hadded
  obtain ⟨-, hlong, hreadable⟩ := largeTree_readableArchive hadd hfin
  obtain ⟨-, haligned, hback⟩ := addEach_survives (rawEnv_framesBounded 3) hcrc (by
      intro call hcall
      by_cases hrejected : call.Rejected
      · exact .inl hrejected
      · exact .inr (hadmissible call (hothers call hcall hrejected)).readsThrough)
    (fun call hcall haccepts ↦ hmade call (hothers call hcall haccepts)) hadded
    (hplain.sublist (largeTree_allCalls.names largeTree_fits)) hend hfin
  refine ⟨w', hadded, hend ▸ hfin, hlong, haligned, ?_⟩
  rw [hend]
  exact hback rawZstd burstPartSize hreadable

/-- A file `a` that fails to be read once its header has been written, and then a file `b`. -/
def unreadableFirst : List AddCall :=
  [.file ⟨[104, 105], some 0, true⟩ (buildLocalFileHeader rawEnv 0 [97] false 0 0) 0o100644 0 0,
    .file ⟨[104, 105, 10], none, true⟩ (buildLocalFileHeader rawEnv 0 [98] false 0 0) 0o100644 0 0]

def unreadableFirstArchive : List UInt8 :=
  (burstWriterFinalize (addEach rawEnv unreadableFirst (burstWriterCreate ⟨[], []⟩ 3))).2.output.bytes

/-- Its extraction to `out`. -/
def unreadableFirstExtraction : Extraction where
  os _ := obligingOs
  zstd := rawZstd
  cdResult := (centralDirParse unreadableFirstArchive unreadableFirstArchive.length burstPartSize).toOption.getD
    ⟨[], [], 0, 0, false⟩
  outputDir := [111, 117, 116]
  partSize := burstPartSize

/-- The header of `a` opens `b`, and the one of `b` ends it: the file gets its length, but no content. -/
theorem unreadableFirst_lost :
    let w := addEach rawEnv unreadableFirst (burstWriterCreate ⟨[], []⟩ 3)
    let added := addedCalls rawEnv unreadableFirst (burstWriterCreate ⟨[], []⟩ 3)
    added = unreadableFirst.drop 1 ∧ (burstWriterFinalize w).1 = some () ∧
      (burstWriterFinalize w).2.output.bytes = unreadableFirstArchive ∧
      ¬ ComeBack rawZstd (added.map AddCall.expected) unreadableFirstArchive w.position burstPartSize := by
  intro w added
  have hadded : added = unreadableFirst.drop 1 := by decide +kernel
  refine ⟨hadded, by decide +kernel, by decide +kernel, ?_⟩
  rw [hadded]
  intro hback
  obtain ⟨cdResult, hparse, hextracts⟩ := hback 0 (Nat.zero_le _)
  rw [List.drop_zero] at hparse
  have hx : (⟨fun _ ↦ obligingOs, rawZstd, cdResult, [111, 117, 116], burstPartSize⟩ : Extraction) =
      unreadableFirstExtraction := by
    rw [unreadableFirstExtraction, hparse]
    rfl
  obtain ⟨-, hdone⟩ := hextracts (fun _ ↦ obligingOs) [111, 117, 116] fun _ ↦ obligingOs_obliges
  rw [hx] at hdone
  -- what the only part comes to
  have hparts : unreadableFirstExtraction.numParts = 1 := by decide +kernel
  obtain ⟨u, hu, heffects⟩ : ∃ u,
      unreadableFirstExtraction.extracted (unreadableFirstExtraction.bodies unreadableFirstArchive) 0 = some u ∧
        effects obligingOs rawZstd [] u.ops = [.mkdir [111, 117, 116] 0o755, .openFile [111, 117, 116, 47, 98],
          .ftruncate [111, 117, 116, 47, 98] 3, .fchmod [111, 117, 116, 47, 98] 0o644,
          .fchown [111, 117, 116, 47, 98] 0 0, .close [111, 117, 116, 47, 98]] := by
    apply Option.map_eq_some_iff.mp
    decide +kernel
  obtain ⟨history, hhistory⟩ : ∃ history, history = (effects obligingOs rawZstd [] u.ops).map fun op ↦ (0, op) :=
    ⟨_, rfl⟩
  have hops : history.map Prod.snd = effects obligingOs rawZstd [] u.ops := by
    rw [hhistory, List.map_map]
    exact List.map_id _
  have hcompletes : unreadableFirstExtraction.Completes
      (unreadableFirstExtraction.bodies unreadableFirstArchive) history := by
    constructor
    · intro p hp
      obtain rfl : p = 0 := by omega
      refine ⟨u, hu, ?_⟩
      rw [hhistory]
      exact own_map_self 0 _
    · intro q hq
      rw [hhistory] at hq
      obtain ⟨op, -, rfl⟩ := List.mem_map.mp hq
      rw [hparts]
      exact Nat.one_pos
  obtain ⟨⟨t, ht⟩, hentries⟩ := hdone history hcompletes [[111, 117, 116]] ⟨0o644, 0, 0⟩ emptyTree fun _ _ ↦ rfl
  have hnode := (hentries t ht _ List.mem_cons_self).node (.file [104, 105, 10]) rfl
  have hplain : unreadableFirstExtraction.NamesPlain :=
    ⟨by decide +kernel, by decide +kernel, by decide +kernel⟩
  obtain ⟨e, he, hname⟩ : ∃ e ∈ unreadableFirstExtraction.cdResult.files, e.filename = [98] := by
    have hfiles : unreadableFirstExtraction.cdResult.files.map FileMetadata.filename = [[98]] := by decide +kernel
    exact List.mem_map.mp (hfiles ▸ List.mem_singleton_self _)
  have hinode := (ht.inode hplain (emptyTree_noLink _) hcompletes.workersComplete.stems).2 e he
  rw [Extraction.path, hname, hops, heffects] at hinode
  change Option.map Inode.node (t (placeOf [[111, 117, 116]] [98])) = _ at hnode
  rw [hinode] at hnode
  revert hnode
  decide +kernel

end Burst
