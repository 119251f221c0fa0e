import Burst.StreamChunking

namespace Burst

open LittleEndian Incremental

/-- A round that does not stall takes bytes off the buffer or goes down in the order of the states,
in which only taking bytes leads up again. -/
theorem step_consumes_or_descends {env : ProcessorEnv} {p q : PartProcessor} {bs rest : List UInt8}
    (hbs : bs ≠ []) (h : step env p bs = .next q rest) (hstalls : ¬ Stalls env p bs) :
    rest.length < bs.length ∨ rest.length = bs.length ∧ q.state.rank < p.state.rank := by
  have hmeasure := (step_progress hbs h).resolve_left hstalls
  have hp : p.state.rank ≤ 3 := by cases p.state <;> decide
  have hq : q.state.rank ≤ 3 := by cases q.state <;> decide
  rw [loopMeasure, loopMeasure] at hmeasure
  omega

/-- The main loop ends, from any state and on any buffer, exactly when it never gets to a padding
frame whose size wraps around to zero while it expects a local header or processes frames; every
other round takes bytes or goes down in the order of the states. -/
theorem mainLoop_terminates (env : ProcessorEnv) (p : PartProcessor) (bs : List UInt8) :
    ((∃ rounds r, mainLoop env rounds p bs = some r) ↔
      ∀ q rest, Visits (step env) p bs q rest → ¬ Stalls env q rest) ∧
    ∀ q rest t rest', Visits (step env) p bs q rest → rest ≠ [] → ¬ Stalls env q rest →
      step env q rest = .next t rest' →
        rest'.length < rest.length ∨
          rest'.length = rest.length ∧ t.state.rank < q.state.rank := by
  refine ⟨?_, fun q rest t rest' _ hrest hstalls hstep ↦
    step_consumes_or_descends hrest hstep hstalls⟩
  exact ends_iff_never_stuck step_progress Stalls.step_eq p bs

/-- A skippable frame that declares a payload of 4294967288 bytes. -/
def wrappingFrame : List UInt8 := encode 4 burstSkippableMagic ++ encode 4 (2 ^ 32 - 8)

/-- The frame is taken for padding of no bytes, for ever. -/
theorem wrappingFrame_never_ends :
    (∀ rounds, mainLoop twoFilesEnv rounds (partProcessorCreate []).toPartProcessor wrappingFrame =
      none) ∧
      partProcessorProcessData twoFilesEnv (partProcessorCreate []) wrappingFrame = none := by
  have hnever (rounds : ℕ) : mainLoop twoFilesEnv rounds (partProcessorCreate []).toPartProcessor
      wrappingFrame = none := by
    by_contra hends
    obtain ⟨r, hrun⟩ := Option.ne_none_iff_exists'.mp hends
    have hstuck := (ends_iff_never_stuck step_progress Stalls.step_eq
      (partProcessorCreate []).toPartProcessor wrappingFrame).mp ⟨rounds, r, hrun⟩
    refine hstuck ((partProcessorCreate []).toPartProcessor.enter .expectLocalHeader) wrappingFrame
      (.later (by decide) rfl .here) (by decide)
  refine ⟨hnever, ?_⟩
  have hbuffer : (partProcessorCreate []).frameBuffer ++ wrappingFrame = wrappingFrame := rfl
  rw [partProcessorProcessData_eq twoFilesEnv (by decide) (by decide), hbuffer, hnever]

end Burst
