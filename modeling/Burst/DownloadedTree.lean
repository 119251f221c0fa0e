import Burst.BoundaryDetection
import Burst.Downloader
import Burst.NoPartLost
import Burst.RoundTrip

namespace Burst

open Interleaving Slices Tiling

/-- What `burst_downloader_extract_concurrent` is called with for an archive. -/
def Extraction.concurrent (x : Extraction) (maxConcurrent : ℕ) (segments : List BodyDataSegment) :
    ConcurrentExtraction where
  maxConcurrent := maxConcurrent
  numParts := x.numParts
  partSize := x.partSize
  centralDirOffset := x.cdResult.centralDirOffset
  bodySegments := segments

section

variable {x : Extraction} {env : WriterEnv} {level : ℤ} {calls : List AddCall} {archive : List UInt8}
  {maxConcurrent : ℕ} {segments : List BodyDataSegment}

/-- Segments that go up to the central directory cover what comes after a part that they cover. -/
theorem coveredToEnd_of_holdsTo (maxConcurrent : ℕ)
    (hsegments : ∀ segment ∈ segments, segment.HoldsTo archive x.cdResult.centralDirOffset)
    (hpos : 0 < x.partSize) (hsize : x.cdResult.centralDirOffset + x.partSize < 2 ^ 64) :
    (x.concurrent maxConcurrent segments).CoveredToEnd := by
  rintro q r ⟨-, segment, hmem, hcovers⟩ hqr - hbody
  change r * x.partSize < x.cdResult.centralDirOffset at hbody
  have hbefore : q * x.partSize ≤ r * x.partSize := Nat.mul_le_mul_right x.partSize hqr.le
  have hstart : segment.archiveOffset ≤ partStart x.partSize q := hcovers.1
  rw [partStart_eq (hbefore.trans_lt hbody) (by omega)] at hstart
  refine ⟨?_, segment, hmem, ?_, ?_⟩
  · change partStart x.partSize r < partBodyEnd x.partSize x.cdResult.centralDirOffset r
    rw [partStart_eq hbody (by omega), partBodyEnd_eq hbody hsize, Nat.add_one_mul]
    omega
  · change segment.archiveOffset ≤ partStart x.partSize r
    rw [partStart_eq hbody (by omega)]
    exact hstart.trans hbefore
  · change partBodyEnd x.partSize x.cdResult.centralDirOffset r ≤ segment.archiveEnd
    rw [(hsegments segment hmem).archiveEnd_eq (by omega)]
    exact Nat.min_le_right _ _

/-- Every processor extracts its part, and no part in which there is something to do is left out. -/
def Extraction.WorkersCover (x : Extraction) (env : WriterEnv) (level : ℤ) (calls : List AddCall)
    (workers : List PartWorker) : Prop :=
  ∃ segs states outs, ReadsByParts x env level calls segs states outs ∧
    (∀ worker ∈ workers, x.Works calls (calls.zip (recordedAll env level 0 calls)) states outs worker) ∧
    ∀ p < x.numParts, outs p ≠ [] → ∃ worker ∈ workers, worker.part = p

theorem Extraction.WorkersCover.isSome {workers : List PartWorker}
    (h : x.WorkersCover env level calls workers) :
    ∀ worker ∈ workers, (x.workerExtracted worker).isSome := by
  obtain ⟨segs, states, outs, -, hworks, -⟩ := h
  intro worker hworker
  obtain ⟨t, ht, -⟩ := (hworks worker hworker).deeds
  exact Option.isSome_iff_exists.mpr ⟨t, ht⟩

theorem Extraction.WorkersCover.tree {workers : List PartWorker} (h : x.WorkersCover env level calls workers)
    (hk : x.Knows env level calls archive) {history : List (ℕ × FileOp)}
    (hcomplete : x.WorkersComplete workers history) : x.RestoresTree calls (history.map Prod.snd) := by
  obtain ⟨segs, states, outs, hreads, hworks, hall⟩ := h
  exact (hcomplete.restores hreads hworks hall).tree hk hcomplete.stems

/-- The processor that `process_part_with_body_data` feeds from a segment. -/
def Extraction.segmentWorker (x : Extraction) (os : Os) (p : ℕ) (segment : BodyDataSegment) : PartWorker where
  part := p
  os := os
  chunks := bodyDataChunks x.partSize x.cdResult.centralDirOffset p segment

/-- `burst_downloader_extract_concurrent` returns: at once where there is only one part, and otherwise when the
main thread and the callbacks have brought it there. -/
inductive ConcurrentExtraction.Returns (cfg : ConcurrentExtraction) : ℤ → DownloadCoordinator → Prop where
  | refused : cfg.numParts ≤ 1 → Returns cfg (-1) DownloadCoordinator.init
  | ran {actions s rc} : 1 < cfg.numParts →
      Transition.run (DownloadCoordinator.step cfg) DownloadCoordinator.init actions = some s →
      s.main = .returned rc → Returns cfg rc s

theorem ConcurrentExtraction.Returns.success {cfg : ConcurrentExtraction} {s : DownloadCoordinator}
    (h : cfg.Returns 0 s) : ∃ actions,
      Transition.run (DownloadCoordinator.step cfg) DownloadCoordinator.init actions = some s ∧
        s.main = .returned 0 := by
  cases h with
  | ran _ hrun hreturned => exact ⟨_, hrun, hreturned⟩

/-- The processors of a run: those of the completed downloads, each fed with the bytes of its part in one piece
or in pieces that cut no data descriptor, and those of the parts that come from a segment. -/
structure Extraction.WorkersOf (x : Extraction) (archive : List UInt8) (segments : List BodyDataSegment)
    (s : DownloadCoordinator) (downloads buffered : List PartWorker) : Prop where
  downloaded : downloads.map PartWorker.part = s.downloads.done
  fromSegments : buffered.map PartWorker.part = s.fromSegments
  obliges : ∀ worker ∈ downloads ++ buffered, worker.os.Obliges
  chunks : ∀ worker ∈ downloads, worker.chunks = [x.partBytes archive worker.part] ∨
    worker.chunks.flatten = x.partBytes archive worker.part ∧
      NoCutDescriptor (x.workerEnv worker) (partProcessorCreate []) worker.chunks
  segment : ∀ worker ∈ buffered, ∃ segment,
    findBodySegmentForOffset segments (partStart x.partSize worker.part) = some segment ∧
      worker = x.segmentWorker worker.os worker.part segment

/-- A worker of a run comes to what the reader comes to in its part. -/
theorem Extraction.WorkersOf.works {s : DownloadCoordinator} {downloads buffered : List PartWorker}
    (hworkers : x.WorkersOf archive segments s downloads buffered) (h : x.Knows env level calls archive)
    (hz : x.zstd.Stable)
    (hsegments : ∀ segment ∈ segments, segment.HoldsTo archive x.cdResult.centralDirOffset)
    (hdone : ∀ p ∈ s.downloads.done, p < x.numParts)
    (hcovered : ∀ p ∈ s.fromSegments, p < x.numParts ∧
      (x.concurrent maxConcurrent segments).PartHasFullBodyData p)
    {segs : ℕ → List Item} {states : ℕ → ReadPos} {outs : ℕ → List FileOp}
    (hreads : ReadsByParts x env level calls segs states outs) :
    ∀ worker ∈ downloads ++ buffered,
      x.Works calls (calls.zip (recordedAll env level 0 calls)) states outs worker := by
  intro worker hworker
  have hos := hworkers.obliges worker hworker
  have hk := h.withOs fun _ ↦ worker.os
  have hreads' := hreads.withOs fun _ ↦ worker.os
  rcases List.mem_append.mp hworker with hdownload | hbuffered
  · have hp : worker.part < x.numParts := by
      apply hdone
      rw [← hworkers.downloaded]
      exact List.mem_map_of_mem hdownload
    have hextracts := hreads'.extracts hk (fun _ ↦ hos) hp
    refine ⟨hp, hos, ?_⟩
    rcases hworkers.chunks worker hdownload with hpiece | ⟨hflatten, hcut⟩
    · rw [Extraction.workerExtracted, hpiece]
      exact extractPart_singleton hextracts
    · have hbytes : ({ x with os := fun _ ↦ worker.os } : Extraction).partBytes archive worker.part =
        worker.chunks.flatten := hflatten.symm
      rw [hbytes] at hextracts
      exact Extracts.extractPart hz hextracts hcut
  · have hmem : worker.part ∈ s.fromSegments := by
      rw [← hworkers.fromSegments]
      exact List.mem_map_of_mem hbuffered
    obtain ⟨hp, hfull⟩ := hcovered _ hmem
    have hsize := h.size
    have hoffset := h.body_lt
    have hstart := numPartsFor_start h.partSize_pos hsize.le (by omega) (h.numParts_eq ▸ hp)
    have hbody : worker.part * x.partSize < x.cdResult.centralDirOffset := by
      have hlt : partStart x.partSize worker.part < partBodyEnd x.partSize x.cdResult.centralDirOffset
        worker.part := hfull.1
      rw [partStart_eq hstart (by omega)] at hlt
      exact hlt.trans_le (Nat.min_le_right _ _)
    obtain ⟨segment, hfound, hworker⟩ := hworkers.segment worker hbuffered
    have hchunks : worker.chunks = bodyDataChunks x.partSize x.cdResult.centralDirOffset worker.part segment :=
      congrArg PartWorker.chunks hworker
    rw [← h.centralDirOffset] at hoffset
    rw [bodyDataChunks_eq hsegments h.partSize_pos (by omega) hbody hfound, h.centralDirOffset] at hchunks
    rw [h.centralDirOffset] at hbody
    rw [← hreads.bodyBytes h hp hbody.le] at hchunks
    have hextracts := hreads'.extracts_body hk (fun _ ↦ hos) hp hbody
    refine ⟨hp, hos, ?_⟩
    rw [Extraction.workerExtracted, hchunks]
    exact extractPart_singleton hextracts

/-- The processors of a run that has returned success leave nothing out. -/
theorem Extraction.WorkersOf.covers {s : DownloadCoordinator} {downloads buffered : List PartWorker}
    (hworkers : x.WorkersOf archive segments s downloads buffered) (h : x.Knows env level calls archive)
    (hz : x.zstd.Stable) (hmax : 0 < maxConcurrent)
    (hsegments : ∀ segment ∈ segments, segment.HoldsTo archive x.cdResult.centralDirOffset)
    (hreturns : (x.concurrent maxConcurrent segments).Returns 0 s) :
    x.WorkersCover env level calls (downloads ++ buffered) := by
  obtain ⟨actions, hrun, hreturned⟩ := hreturns.success
  have hsize := h.size
  have hoffset := h.body_lt
  rw [← h.centralDirOffset] at hoffset
  have hcovered := coveredToEnd_of_holdsTo maxConcurrent hsegments h.partSize_pos (by omega)
  have hkeeps := DownloadCoordinator.run_keepsAll hmax hcovered h.numParts_le hrun
  obtain ⟨-, hdone, hcovered, hall⟩ := hkeeps.returned hreturned
  obtain ⟨segs, states, outs, hreads⟩ := h.readsByParts
  refine ⟨segs, states, outs, hreads, hworkers.works h hz hsegments hdone hcovered hreads, ?_⟩
  intro p hp hout
  have hbody := hreads.starts_of_outs h hp hout
  rw [← h.centralDirOffset] at hbody
  have hpart := hall p hp hbody
  have hmem : p ∈ (downloads ++ buffered).map PartWorker.part := by
    rw [List.map_append, hworkers.downloaded, hworkers.fromSegments, List.mem_append]
    split at hpart
    · exact .inr hpart
    · exact .inl hpart
  obtain ⟨worker, hworker, hpart⟩ := List.mem_map.mp hmem
  exact ⟨worker, hworker, hpart⟩

end

/-- Two parts, of which the first is downloaded and the second comes from a segment. -/
theorem ConcurrentExtraction.returns_twoParts {cfg : ConcurrentExtraction} (hmax : 1 < cfg.maxConcurrent)
    (hparts : cfg.numParts = 2) (hfirst : ¬ cfg.PartHasFullBodyData 0) (hsecond : cfg.PartHasFullBodyData 1) :
    ∃ s, cfg.Returns 0 s ∧ s.downloads.done = [0] ∧ s.fromSegments = [1] := by
  obtain ⟨hbody, segment, hmem, hcovers⟩ := id hsecond
  obtain ⟨found, hfound⟩ : ∃ found, findBodySegmentForOffset cfg.bodySegments (cfg.start 1) = some found :=
    findBodySegmentForOffset_of_covers hmem hcovers hbody
  have hdownload : cfg.partsToDownload = 1 := by
    simp [partsToDownload, hparts, List.range_succ, hfirst, hsecond]
  have hsegments : cfg.bodySegments ≠ [] := List.ne_nil_of_mem hmem
  have hnext : DownloadCoordinator.skipBodyParts cfg 2 0 = 0 := by
    simp [DownloadCoordinator.skipBodyParts, hfirst]
  have hlast : DownloadCoordinator.skipBodyParts cfg 1 1 = 2 := by
    simp [DownloadCoordinator.skipBodyParts, hparts, hsecond]
  have hstart : ¬ cfg.bodyEnd 1 ≤ cfg.start 1 := Nat.not_le_of_lt hbody
  have hrun : ∃ s, Transition.run (DownloadCoordinator.step cfg) DownloadCoordinator.init [.mainSection,
      .mainStart true, .mainSection, .finishCallback 0 0, .wake, .bodyPart true, .bodyPart true,
      .bodyPart true] = some s ∧ s.main = .returned 0 ∧ s.downloads.done = [0] ∧ s.fromSegments = [1] := by
    simp [Transition.run, DownloadCoordinator.step, DownloadCoordinator.init,
      DownloadCoordinator.startLoopSection, DownloadCoordinator.waitForDownloads, DownloadCoordinator.afterDownloads, DownloadCoordinator.recordFinish,
      DownloadCoordinator.handOutNext, DownloadCoordinator.notifyIfIdle, DownloadCoordinator.bodyLoopRound,
      WorkPool.enlist, WorkPool.finish, WorkPool.empty, hparts, hmax, hnext, hlast, hfirst, hsecond, hdownload,
      hsegments, hstart, hfound, Nat.zero_lt_of_lt hmax]
  obtain ⟨s, hrun, hreturned, hdone, hfrom⟩ := hrun
  exact ⟨s, .ran (by omega) hrun hreturned, hdone, hfrom⟩

/-- A file that the first part boundary cuts. -/
def largeFile : InputFile := ⟨noise 9000000, none, true⟩

theorem largeFile_framesEnd : framesEnd 46 (frameSizes rawEnv 3 largeFile) = 9131168 := by
  rw [largeFile, rawEnv_frameSizes, noise_length]
  decide +kernel

theorem largeFile_size : fileSize largeFile = 9000000 := (fileSize_eq _ _).trans (noise_length _)

theorem largeFile_data : total Item.len (chunkItems rawEnv 3 46 0 largeFile.chunks) = 9131122 := by
  have htotal := chunkItems_total rawEnv 3 46 0 largeFile.chunks
  have hend := largeFile_framesEnd
  rw [frameSizes] at hend
  omega

theorem largeFile_ending : total Item.len (fileEnding rawEnv 3 46 largeFile) = 0 := by
  rw [fileEnding, largeFile_data, largeFile_size]
  rfl

theorem largeFile_descriptor : (fileDescriptor rawEnv 3 46 largeFile).len = 16 := by
  rw [fileDescriptor, Item.len_descriptor, largeFile_data, largeFile_size]
  rfl

/-- The archive of the large file, and its extraction to `out`. -/
theorem largeFile_knows : ∃ archive cdResult,
    Extraction.Knows ⟨fun _ ↦ obligingOs, rawZstd, cdResult, [111, 117, 116], burstPartSize⟩ rawEnv 3
      (oneFile largeFile) archive ∧ archive.length < 9400000 := by
  obtain ⟨w, w', hadd, hfin⟩ := oneFile_run (noise 9000000)
  obtain ⟨e, hrec, hrange, hname, -, hmarker⟩ := oneFile_recorded largeFile_data (by norm_num)
    largeFile_size (by norm_num)
  obtain ⟨hfiles, hbytes⟩ := finalized_bytes hadd hfin
  have hfiles : w.files = [e] := hfiles.trans hrec
  have hcd := centralHeaderBytes_length_lt e
  have hdirectory : centralDirectoryBytes w.files = centralHeaderBytes e := by
    rw [hfiles, centralDirectoryBytes, List.flatMap_cons, List.flatMap_nil, List.append_nil]
  have hlength : (itemBytes (bodyItems (layoutAll rawEnv 3 0
      (oneFile ⟨noise 9000000, none, true⟩)))).length = 46 + (9131122 + 0 + 16) :=
    oneFile_length largeFile_data largeFile_ending largeFile_descriptor
  have harchive : w'.output.bytes.length = 9131184 + (centralHeaderBytes e).length + 106 := by
    rw [hbytes]
    simp only [List.length_append, endRecords_length, hlength, hdirectory]
  have hmemory : estimatedEntries (centralDirectoryBytes w.files).length * sizeofFileMetadata < 2 ^ 63 := by
    rw [hdirectory, estimatedEntries, sizeofFileMetadata]
    split <;> omega
  obtain ⟨full, hparse⟩ := @finalized_centralDirParse_ok w w' (addAll_tracks hadd) hfin (by omega)
    (by simpa [hfiles] using hrange) (by simpa [hfiles] using hname.decodes) 0 (Nat.zero_le _) burstPartSize
    le_rfl hmemory
  refine ⟨w'.output.bytes, full, ?_, by omega⟩
  constructor
  case written => exact ⟨[], w, w', hadd, hfin, rfl⟩
  case bound => exact rawEnv_framesBounded 3
  case frames => exact rawZstd_framesDecode 3
  case headers =>
    simp only [oneFile, List.mem_singleton, forall_eq]
    exact ⟨⟨by decide, by decide, by decide, by decide⟩, by decide, show 46 + 0 + 68 ≤ 65579 by norm_num⟩
  case kinds =>
    simp only [oneFile, List.mem_singleton, forall_eq]
    exact ⟨by decide, by decide⟩
  case names => exact ⟨by decide +kernel, by decide +kernel, by decide +kernel⟩
  case entries =>
    rw [hrec, List.forall_mem_singleton]
    exact ⟨hrange, hname.decodes, hmarker⟩
  case partSize => exact dvd_rfl
  case partSize_pos => exact show 0 < burstPartSize by norm_num [burstPartSize]
  case size =>
    change _ + burstPartSize < _
    rw [burstPartSize]
    omega
  case fewParts =>
    change _ ≤ _ * burstPartSize
    rw [burstPartSize]
    omega
  case parsed => exact ⟨0, Nat.zero_le _, hparse⟩
  case continues =>
    intro s hs p hcross
    rw [oneFile_spans largeFile_data largeFile_ending largeFile_descriptor] at hs
    obtain rfl := List.mem_singleton.mp hs
    have hend : p * burstPartSize < 46 + (9131122 + 0 + 16) := hcross.2
    have hp : p < 2 := by
      apply Nat.lt_of_mul_lt_mul_right (a := burstPartSize)
      exact hend.trans (by norm_num [burstPartSize])
    have hle := Nat.mul_le_mul_right burstPartSize (Nat.le_of_lt_succ hp)
    apply (Nat.add_le_add_right hle 46).trans_lt
    norm_num [burstPartSize]

theorem oneFile_node (content : List UInt8) : ∃ call ∈ oneFile ⟨content, none, true⟩,
    call.node? = some (.file content) ∧
      placeOf [[111, 117, 116]] call.lfh.filename = [[111, 117, 116], [97]] := by
  refine ⟨_, List.mem_cons_self, ?_, rfl⟩
  exact congrArg (fun data ↦ some (Node.file data)) (Pieces.cut_flatten (by norm_num [zstdChunkSize]) content)

/-- The first part of the archive of the large file is downloaded, the second comes from the tail. -/
theorem largeFile_run : ∃ (x : Extraction) (archive : List UInt8) (segment : BodyDataSegment)
    (s : DownloadCoordinator), x.Knows rawEnv 3 (oneFile largeFile) archive ∧ x.zstd = rawZstd ∧
      x.outputDir = [111, 117, 116] ∧ x.numParts = 2 ∧
      segment.HoldsTo archive x.cdResult.centralDirOffset ∧ (x.concurrent 8 [segment]).Returns 0 s ∧
      s.downloads.done = [0] ∧ s.fromSegments = [1] ∧
      x.WorkersOf archive [segment] s [⟨0, obligingOs, [x.partBytes archive 0]⟩]
        [x.segmentWorker obligingOs 1 segment] := by
  obtain ⟨archive, cdResult, h, hlength⟩ := largeFile_knows
  generalize hx :
    (⟨fun _ ↦ obligingOs, rawZstd, cdResult, [111, 117, 116], burstPartSize⟩ : Extraction) = x at h
  have hpart : x.partSize = burstPartSize := by rw [← hx]
  have hbody : x.cdResult.centralDirOffset = 9131184 := by
    rw [h.centralDirOffset, ← itemBytes_length]
    exact oneFile_length largeFile_data largeFile_ending largeFile_descriptor
  have hbelow := h.body_lt
  rw [← h.centralDirOffset, hbody] at hbelow
  have hparts : x.numParts = 2 := by
    rw [h.numParts_eq, hpart, numPartsFor, burstPartSize, Nat.mod_eq_of_lt (by omega)]
    have hdiv : (archive.length + 8 * 1024 * 1024 - 1) / (8 * 1024 * 1024) = 2 := by omega
    simp only [hdiv]
    rfl
  -- the tail of 8 MiB begins inside the first part
  obtain ⟨start, hstart⟩ : ∃ start, start + burstPartSize = archive.length := by
    refine ⟨archive.length - burstPartSize, Nat.sub_add_cancel ?_⟩
    rw [burstPartSize]
    omega
  rw [burstPartSize] at hstart
  obtain ⟨segment, hsegment⟩ : ∃ segment : BodyDataSegment,
    segment = ⟨archive.drop start, 9131184 - start, start⟩ :=
    ⟨_, rfl⟩
  have hoffset : segment.archiveOffset = start := by rw [hsegment]
  have hholds : segment.HoldsTo archive x.cdResult.centralDirOffset := by
    rw [hsegment, hbody]
    exact ⟨Nat.add_sub_cancel' (show start ≤ 9131184 by omega), rfl⟩
  have hend : segment.archiveEnd = 9131184 := hbody ▸ hholds.archiveEnd_eq (by omega)
  have hpartStart (p : ℕ) (hp : p < 2) : partStart burstPartSize p = p * 8388608 := by
    rw [partStart, burstPartSize, Nat.mod_eq_of_lt (by omega)]
  have hfirst : ¬ (x.concurrent 8 [segment]).PartHasFullBodyData 0 := by
    rintro ⟨-, other, hmem, hcovers, -⟩
    obtain rfl := List.mem_singleton.mp hmem
    rw [hoffset] at hcovers
    change start ≤ partStart x.partSize 0 at hcovers
    rw [hpart, hpartStart 0 (by norm_num)] at hcovers
    omega
  have hbodyEnd : partBodyEnd burstPartSize 9131184 1 = 9131184 := by decide
  have hsecond : (x.concurrent 8 [segment]).PartHasFullBodyData 1 := by
    refine ⟨?_, segment, List.mem_singleton_self _, ?_, ?_⟩
    · change partStart x.partSize 1 < partBodyEnd x.partSize x.cdResult.centralDirOffset 1
      rw [hpart, hbody, hbodyEnd, hpartStart 1 (by norm_num)]
      norm_num
    · change segment.archiveOffset ≤ partStart x.partSize 1
      rw [hpart, hoffset, hpartStart 1 (by norm_num)]
      omega
    · change partBodyEnd x.partSize x.cdResult.centralDirOffset 1 ≤ segment.archiveEnd
      rw [hpart, hbody, hbodyEnd, hend]
  obtain ⟨s, hreturns, hdone, hfrom⟩ := ConcurrentExtraction.returns_twoParts (by norm_num : 1 < 8) hparts
    hfirst hsecond
  refine ⟨x, archive, segment, s, h, by rw [← hx], by rw [← hx], hparts, hholds, hreturns, hdone, hfrom, ?_⟩
  constructor
  case downloaded => rw [hdone]; rfl
  case fromSegments => rw [hfrom]; rfl
  case obliges =>
    intro worker hworker
    rcases List.mem_cons.mp hworker with rfl | hworker
    · exact obligingOs_obliges
    · rw [List.mem_singleton.mp hworker]
      exact obligingOs_obliges
  case chunks =>
    intro worker hworker
    rw [List.mem_singleton.mp hworker]
    exact .inl rfl
  case segment =>
    intro worker hworker
    rw [List.mem_singleton.mp hworker]
    refine ⟨segment, ?_, rfl⟩
    change [segment].find? _ = _
    rw [List.find?_cons_of_pos]
    simp only [decide_eq_true_eq, hend, hoffset]
    change start ≤ partStart x.partSize 1 ∧ partStart x.partSize 1 < 9131184
    rw [hpart, hpartStart 1 (by norm_num)]
    omega

section

variable {x : Extraction} {env : WriterEnv} {level : ℤ} {calls : List AddCall} {archive : List UInt8}
  {maxConcurrent : ℕ} {segments : List BodyDataSegment}

/-- Whatever order the callbacks and the main thread have run in, when `burst_downloader_extract_concurrent`
returns success every processor has extracted its part without an error, and however their system calls have
been interleaved every file ends at its place with its content and every symlink with its target, also where
two have worked on the same part. -/
theorem extractConcurrent_restores (h : x.Knows env level calls archive) (hz : x.zstd.Stable)
    (hmax : 0 < maxConcurrent)
    (hsegments : ∀ segment ∈ segments, segment.HoldsTo archive x.cdResult.centralDirOffset)
    {s : DownloadCoordinator} (hreturns : (x.concurrent maxConcurrent segments).Returns 0 s)
    {downloads buffered : List PartWorker}
    (hworkers : x.WorkersOf archive segments s downloads buffered) :
    (∀ worker ∈ downloads ++ buffered, (x.workerExtracted worker).isSome) ∧
      ∀ history, x.WorkersComplete (downloads ++ buffered) history →
        x.RestoresTree calls (history.map Prod.snd) := by
  have hcovers := hworkers.covers h hz hmax hsegments hreturns
  exact ⟨hcovers.isSome, fun history hcomplete ↦ hcovers.tree h hcomplete⟩

end

theorem largeFile_restores : ∃ (x : Extraction) (archive : List UInt8) (segment : BodyDataSegment)
    (s : DownloadCoordinator) (history : List (ℕ × FileOp)) (t : FileTree),
    x.numParts = 2 ∧ (x.concurrent 8 [segment]).Returns 0 s ∧ s.downloads.done = [0] ∧ s.fromSegments = [1] ∧
      x.WorkersComplete
        [⟨0, obligingOs, [x.partBytes archive 0]⟩, x.segmentWorker obligingOs 1 segment] history ∧
      TreeAfter [111, 117, 116] [[111, 117, 116]] ⟨0o644, 0, 0⟩ emptyTree (history.map Prod.snd) t ∧
      (t [[111, 117, 116], [97]]).map Inode.node = some (.file (noise 9000000)) := by
  obtain ⟨x, archive, segment, s, h, hzstd, houtput, hparts, hholds, hreturns, hdone, hfrom, hworkers⟩ :=
    largeFile_run
  obtain ⟨hall, htree⟩ := extractConcurrent_restores h (hzstd ▸ rawZstd_stable) (by norm_num)
    (List.forall_mem_singleton.mpr hholds) hreturns hworkers
  obtain ⟨history, hcomplete⟩ := Extraction.workersComplete_exists hall
  obtain ⟨⟨t, ht⟩, hnodes⟩ := htree history hcomplete [[111, 117, 116]] ⟨0o644, 0, 0⟩ emptyTree
    (emptyTree_noLink _)
  obtain ⟨call, hcall, hnode, hname⟩ := oneFile_node (noise 9000000)
  have hfile := hnodes t ht call hcall _ hnode
  rw [hname] at hfile
  exact ⟨x, archive, segment, s, history, t, hparts, hreturns, hdone, hfrom, hcomplete, houtput ▸ ht, hfile⟩

section

variable {x : Extraction} {env : WriterEnv} {level : ℤ} {calls : List AddCall} {archive : List UInt8}
  {maxConcurrent : ℕ} {segments : List BodyDataSegment}

/-- The processor that `process_single_part_archive` feeds from the tail buffer. -/
def Extraction.singlePartWorker (x : Extraction) (os : Os) (buffer : List UInt8) : PartWorker where
  part := 0
  os := os
  chunks := singlePartChunks x.cdResult buffer

/-- The only part of an archive that the buffer holds as a whole. -/
theorem Extraction.singlePartWorker_covers (h : x.Knows env level calls archive) (hz : x.zstd.Stable)
    (hfits : archive.length ≤ x.partSize) {os : Os} (hos : os.Obliges) :
    x.WorkersCover env level calls [x.singlePartWorker os archive] := by
  have hoffset := h.body_lt
  obtain ⟨segs, states, outs, hreads⟩ := h.readsByParts
  refine ⟨segs, states, outs, hreads, ?_, ?_⟩
  · intro worker hworker
    rw [List.mem_singleton.mp hworker]
    refine ⟨h.numParts_pos, hos, ?_⟩
    have hk := h.withOs fun _ ↦ os
    have hreads' := hreads.withOs fun _ ↦ os
    by_cases hempty : total Item.len (bodyItems (layoutAll env level 0 calls)) = 0
    · have hchunks : (x.singlePartWorker os archive).chunks = [] := by
        rw [Extraction.singlePartWorker, singlePartChunks, h.centralDirOffset, hempty, Nat.zero_min]
        rfl
      have hextracts := hreads'.extracts_empty hk h.numParts_pos (hempty.le.trans (Nat.zero_le _))
      rw [Extraction.workerExtracted, hchunks]
      exact Extracts.extractPart hz hextracts trivial
    · have hstart : 0 * x.partSize < total Item.len (bodyItems (layoutAll env level 0 calls)) := by omega
      have hbytes := hreads.bodyBytes h h.numParts_pos hstart.le
      rw [Nat.zero_mul, Nat.zero_add, Nat.one_mul, Nat.min_eq_right (by omega)] at hbytes
      have hchunks : (x.singlePartWorker os archive).chunks = [itemBytes (segs 0)] := by
        rw [Extraction.singlePartWorker, singlePartChunks, h.centralDirOffset, Nat.min_eq_left (by omega),
          hbytes]
        dsimp only
        rw [if_pos (Nat.pos_of_ne_zero hempty)]
        rfl
      have hextracts := hreads'.extracts_body hk (fun _ ↦ hos) h.numParts_pos hstart
      rw [Extraction.workerExtracted, hchunks]
      exact extractPart_singleton hextracts
  · intro p hp hout
    have hbody := hreads.starts_of_outs h hp hout
    refine ⟨_, List.mem_singleton_self _, ?_⟩
    cases p with
    | zero => rfl
    | succ p =>
      rw [Nat.add_one_mul] at hbody
      omega

/-- The processors that a plan has come to once the extraction has returned success. -/
def ExtractPlan.Returns (x : Extraction) (archive : List UInt8) (maxConcurrent : ℕ)
    (workers : List PartWorker) : ExtractPlan → Prop
  | .failed => False
  | .hybrid _ _ _ => False
  | .singlePart cdResult tail => x.cdResult = cdResult ∧
      ∃ os : Os, os.Obliges ∧ workers = [x.singlePartWorker os tail]
  | .concurrent cdResult segments => x.cdResult = cdResult ∧ ∃ s downloads buffered,
      (x.concurrent maxConcurrent segments).Returns 0 s ∧
      x.WorkersOf archive segments s downloads buffered ∧ workers = downloads ++ buffered

theorem ExtractPlan.returns_singlePart {os : Os} (hos : os.Obliges) (tail : List UInt8) :
    (ExtractPlan.singlePart x.cdResult tail).Returns x archive maxConcurrent [x.singlePartWorker os tail] :=
  ⟨rfl, os, hos, rfl⟩

theorem ExtractPlan.Returns.covers {workers : List PartWorker} {start : ℕ} {plan : ExtractPlan}
    (hreturns : plan.Returns x archive maxConcurrent workers) (hagrees : plan.Agrees archive start x.partSize)
    (h : x.Knows env level calls archive) (hz : x.zstd.Stable) (hmax : 0 < maxConcurrent)
    (hstart : start = archive.length - burstPartSize)
    (hwhole : archive.length ≤ burstPartSize ∨ 1 < x.numParts) :
    x.WorkersCover env level calls workers := by
  cases plan with
  | failed => cases hreturns
  | hybrid => cases hreturns
  | singlePart cdResult tail =>
    obtain ⟨rfl, os, hos, rfl⟩ := hreturns
    obtain ⟨rfl, hparts, -⟩ := hagrees
    have hlength : archive.length ≤ burstPartSize := hwhole.resolve_right (Nat.not_lt_of_le hparts)
    rw [hstart, Nat.sub_eq_zero_of_le hlength, List.drop_zero]
    exact Extraction.singlePartWorker_covers h hz
      (hlength.trans (Nat.le_of_dvd h.partSize_pos h.partSize)) hos
  | concurrent cdResult segments =>
    obtain ⟨rfl, s, downloads, buffered, hran, hworkers, rfl⟩ := hreturns
    obtain ⟨-, -, hsegments⟩ := hagrees
    exact hworkers.covers h hz hmax hsegments hran

/-- A run of `burst_downloader_extract` that returns success, on the path of a single part that the tail holds
or on that of concurrent parts, has restored the tree of the archive. -/
theorem burstDownloaderExtract_restores (h : x.Knows env level calls archive) (hz : x.zstd.Stable)
    (hmax : 0 < maxConcurrent) (hsize : archive.length < 2 ^ 63)
    (hwhole : archive.length ≤ burstPartSize ∨ 1 < x.numParts) {response : Response}
    (hresponse : response.AnswersTail archive) {fetchRanges : List CdPartRange → Option (List (List UInt8))}
    (hranges : ∀ ranges buffers, fetchRanges ranges = some buffers →
      buffers = ranges.map fun r ↦ slice archive r.start (r.rangeEnd + 1))
    {newMemory : ℕ → List UInt8} (hmemory : ∀ n, (newMemory n).length = n) {workers : List PartWorker}
    (hreturns : (burstDownloaderExtract x.partSize response fetchRanges newMemory).Returns x archive
      maxConcurrent workers) :
    (∀ worker ∈ workers, (x.workerExtracted worker).isSome) ∧
      ∀ history, x.WorkersComplete workers history → x.RestoresTree calls (history.map Prod.snd) := by
  obtain ⟨limits, w, w', hadd, hfin, rfl⟩ := h.written
  have hfiles : w.files = recordedAll env level 0 calls := (finalized_bytes hadd hfin).1
  have he : ∀ e ∈ w.files, e.InRange ∧ e.NameDecodes := by
    intro e hmem
    obtain ⟨hrange, hname, -⟩ := h.entries e (hfiles ▸ hmem)
    exact ⟨hrange, hname⟩
  have hpart : x.partSize < 2 ^ 64 := (Nat.le_add_left _ _).trans_lt h.size
  have htail := tailStart_eq w'.output.bytes.length
  have hfetched := hresponse.fetched (hsize.trans (by norm_num))
  generalize tailStart w'.output.bytes.length = start at htail hfetched
  have hagrees := extractFetched_agrees (addAll_tracks hadd) hfin hsize he h.partSize_pos hpart hfetched htail
    hranges hmemory
  have hcovers := hreturns.covers hagrees h hz hmax htail hwhole
  exact ⟨hcovers.isSome, fun history hcomplete ↦ hcovers.tree h hcomplete⟩

end

/-- What `burst_downloader_extract` makes of it. -/
theorem fileAndLink_plan :
    burstDownloaderExtract fileAndLinkExtraction.partSize (tailResponse fileAndLinkArchive) (fun _ ↦ none)
      (fun n ↦ List.replicate n 0) = .singlePart fileAndLinkExtraction.cdResult fileAndLinkArchive := by
  decide +kernel

theorem fileAndLink_extracted : ∃ history t,
    fileAndLinkExtraction.WorkersComplete
      [fileAndLinkExtraction.singlePartWorker obligingOs fileAndLinkArchive] history ∧
    TreeAfter [111, 117, 116] [[111, 117, 116]] ⟨0o644, 0, 0⟩ emptyTree (history.map Prod.snd) t ∧
    (t [[111, 117, 116], [97]]).map Inode.node = some (.file [104, 105]) ∧
    (t [[111, 117, 116], [98]]).map Inode.node = some (.symlink [97]) := by
  have hfits : fileAndLinkArchive.length ≤ burstPartSize := by
    rw [fileAndLinkArchive_length, burstPartSize]
    norm_num
  have hsize : fileAndLinkArchive.length < 2 ^ 63 := by
    rw [fileAndLinkArchive_length]
    norm_num
  have hreturns : (burstDownloaderExtract fileAndLinkExtraction.partSize (tailResponse fileAndLinkArchive)
      (fun _ ↦ none) (fun n ↦ List.replicate n 0)).Returns fileAndLinkExtraction fileAndLinkArchive 8
        [fileAndLinkExtraction.singlePartWorker obligingOs fileAndLinkArchive] := by
    rw [fileAndLink_plan]
    exact ExtractPlan.returns_singlePart obligingOs_obliges fileAndLinkArchive
  obtain ⟨hall, htree⟩ := burstDownloaderExtract_restores fileAndLinkArchive_knows rawZstd_stable
    (by norm_num) hsize (.inl hfits) (tailResponse_answersTail _) (fun _ _ hbuffers ↦ by cases hbuffers)
    (fun n ↦ List.length_replicate) hreturns
  obtain ⟨history, hcomplete⟩ :=
    Extraction.workersComplete_exists hall
  obtain ⟨⟨t, ht⟩, hnodes⟩ := htree _ hcomplete [[111, 117, 116]] ⟨0o644, 0, 0⟩ emptyTree
    (emptyTree_noLink _)
  refine ⟨history, t, hcomplete, ht, ?_, ?_⟩
  · exact hnodes t ht _ List.mem_cons_self _ rfl
  · exact hnodes t ht _ (List.mem_cons_of_mem _ List.mem_cons_self) _ rfl

end Burst
