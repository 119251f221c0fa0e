import Burst.CdFetchFailFast
import Burst.DownloadFailFast
import Burst.HybridFailFast

namespace Burst

open Transition InFlight

/-- `burst_downloader_fetch_cd_ranges` and `burst_downloader_extract_concurrent` start nothing after an
error in exactly the runs in which no error comes while the start loop still has something to start.
`hybrid_coordinator_run` starts nothing after one as long as it does not return while a callback
assembles the central directory. In these runs all three come to return an error after one. -/
theorem coordinators_failFast (fetch : CdRangeFetch) (fetchActions : List CdFetchAction)
    (extraction : ConcurrentExtraction) (partActions : List DownloadAction)
    (hybrid : HybridDownload) (itemActions : List HybridAction) :
    ((Meets (CdFetchCoordinator.step fetch) (CdFetchCoordinator.StartsNone fetch)
          CdFetchCoordinator.init fetchActions ↔
        Meets (CdFetchCoordinator.step fetch) (CdFetchCoordinator.LeavesLoop fetch)
          CdFetchCoordinator.init fetchActions) ∧
      ∀ s, run (CdFetchCoordinator.step fetch) CdFetchCoordinator.init fetchActions = some s →
        CdFetchCoordinator.EndsInError fetch s) ∧
    ((Meets (DownloadCoordinator.step extraction) (DownloadCoordinator.StartsNone extraction)
          DownloadCoordinator.init partActions ↔
        Meets (DownloadCoordinator.step extraction) (DownloadCoordinator.LeavesLoop extraction)
          DownloadCoordinator.init partActions) ∧
      ∀ s, run (DownloadCoordinator.step extraction) DownloadCoordinator.init partActions =
          some s →
        DownloadCoordinator.EndsInError extraction s) ∧
    (Meets (HybridCoordinator.step hybrid) (HybridCoordinator.KeepsWaiting hybrid)
        (HybridCoordinator.init hybrid) itemActions →
      Meets (HybridCoordinator.step hybrid) (HybridCoordinator.StartsNone hybrid)
        (HybridCoordinator.init hybrid) itemActions ∧
      ∀ s, run (HybridCoordinator.step hybrid) (HybridCoordinator.init hybrid) itemActions =
          some s →
        HybridCoordinator.EndsInError hybrid s) := by
  refine ⟨⟨?_, ?_⟩, ⟨?_, ?_⟩, fun hmeets ↦ ⟨?_, ?_⟩⟩
  · exact CdFetchCoordinator.meets_startsNone_iff _ fetchActions
  · intro s hrun
    exact CdFetchCoordinator.run_endsInError hrun
  · exact DownloadCoordinator.meets_startsNone_iff _ partActions
  · intro s hrun
    exact DownloadCoordinator.run_endsInError hrun
  · exact HybridCoordinator.meets_startsNone hmeets
  · intro s hrun
    exact HybridCoordinator.run_endsInError hmeets hrun

/-- Three ranges, two at a time; the first one fails when the limit is reached. -/
def failedFetchActions : List CdFetchAction :=
  [.mainSection, .mainStart true, .mainSection, .mainStart true, .mainSection, .finishCallback 0 1]

def failedPartActions : List DownloadAction :=
  [.mainSection, .mainStart true, .mainSection, .finishCallback 0 1]

def failedItemActions : List HybridAction :=
  [.mainSection, .mainStart true, .mainSection, .mainStart true, .mainSection,
    .finishCallback (.cdRange 0) 1]

theorem failedRequests_failFast :
    (Meets (CdFetchCoordinator.step ⟨2, 3⟩) (CdFetchCoordinator.StartsNone ⟨2, 3⟩)
        CdFetchCoordinator.init failedFetchActions ∧
      ∃ s, run (CdFetchCoordinator.step ⟨2, 3⟩) CdFetchCoordinator.init failedFetchActions = some s ∧
        CdFetchCoordinator.EndsInError ⟨2, 3⟩ s) ∧
    (Meets (DownloadCoordinator.step rangeSample) (DownloadCoordinator.StartsNone rangeSample)
        DownloadCoordinator.init failedPartActions ∧
      ∃ s, run (DownloadCoordinator.step rangeSample) DownloadCoordinator.init failedPartActions =
        some s ∧ DownloadCoordinator.EndsInError rangeSample s) ∧
    Meets (HybridCoordinator.step (hybridSample 2)) (HybridCoordinator.StartsNone (hybridSample 2))
        (HybridCoordinator.init (hybridSample 2)) failedItemActions ∧
      ∃ s, run (HybridCoordinator.step (hybridSample 2)) (HybridCoordinator.init (hybridSample 2))
        failedItemActions = some s ∧ HybridCoordinator.EndsInError (hybridSample 2) s := by
  obtain ⟨s, hs⟩ : ∃ s, run (CdFetchCoordinator.step ⟨2, 3⟩) CdFetchCoordinator.init
      failedFetchActions = some s := Option.isSome_iff_exists.mp (by decide +kernel)
  obtain ⟨t, ht⟩ : ∃ t, run (DownloadCoordinator.step rangeSample) DownloadCoordinator.init
      failedPartActions = some t := Option.isSome_iff_exists.mp (by decide +kernel)
  obtain ⟨u, hu⟩ : ∃ u, run (HybridCoordinator.step (hybridSample 2))
      (HybridCoordinator.init (hybridSample 2)) failedItemActions = some u :=
    Option.isSome_iff_exists.mp (by decide +kernel)
  obtain ⟨hfetch, hextract, hhybrid⟩ := coordinators_failFast ⟨2, 3⟩ failedFetchActions
    rangeSample failedPartActions (hybridSample 2) failedItemActions
  have hitem := hhybrid (by decide +kernel)
  exact ⟨⟨hfetch.1.mpr (by decide +kernel), s, hs, hfetch.2 s hs⟩,
    ⟨hextract.1.mpr (by decide +kernel), t, ht, hextract.2 t ht⟩, hitem.1, u, hu, hitem.2 u hu⟩

/-- A request fails between two rounds of the start loop, which starts another one; the central
directory turns out to be broken after `hybrid_coordinator_run` has returned success. -/
theorem failedRequest_startsAnother :
    (∃ s, run (CdFetchCoordinator.step ⟨2, 3⟩) CdFetchCoordinator.init
        [.mainSection, .mainStart true, .finishCallback 0 1, .mainSection] = some s ∧
      ¬ Meets (CdFetchCoordinator.step ⟨2, 3⟩) (CdFetchCoordinator.StartsNone ⟨2, 3⟩)
        CdFetchCoordinator.init
        [.mainSection, .mainStart true, .finishCallback 0 1, .mainSection]) ∧
    (∃ s, run (DownloadCoordinator.step rangeSample) DownloadCoordinator.init
        [.mainSection, .mainStart true, .finishCallback 0 1, .mainSection] = some s ∧
      ¬ Meets (DownloadCoordinator.step rangeSample) (DownloadCoordinator.StartsNone rangeSample)
        DownloadCoordinator.init
        [.mainSection, .mainStart true, .finishCallback 0 1, .mainSection]) ∧
    (run (HybridCoordinator.step (hybridSample 1)) (HybridCoordinator.init (hybridSample 1))
        [.mainSection, .mainStart true, .finishCallback (.cdRange 0) 0, .mainSection,
          .assembled none]).map (fun s ↦ (s.cancelRequested, s.main)) =
      some (true, .returned 0) := by
  refine ⟨?_, ?_, ?_⟩
  · obtain ⟨s, hs⟩ : ∃ s, run (CdFetchCoordinator.step ⟨2, 3⟩) CdFetchCoordinator.init
        [.mainSection, .mainStart true, .finishCallback 0 1, .mainSection] = some s :=
      Option.isSome_iff_exists.mp (by decide +kernel)
    refine ⟨s, hs, ?_⟩
    rw [CdFetchCoordinator.meets_startsNone_iff]
    decide +kernel
  · obtain ⟨s, hs⟩ : ∃ s, run (DownloadCoordinator.step rangeSample) DownloadCoordinator.init
        [.mainSection, .mainStart true, .finishCallback 0 1, .mainSection] = some s :=
      Option.isSome_iff_exists.mp (by decide +kernel)
    refine ⟨s, hs, ?_⟩
    rw [DownloadCoordinator.meets_startsNone_iff]
    decide +kernel
  · decide +kernel

end Burst
