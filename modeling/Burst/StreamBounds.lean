import Burst.CheckedStream

namespace Burst

open LittleEndian Incremental

def initialFrameBufferCapacity : ℕ := 256 * 1024

/-- The processor with the capacity of its frame buffer. -/
structure BufferedProcessor extends PartProcessorState where
  capacity : ℕ
  deriving DecidableEq

def BufferedProcessor.create (ops : List FileOp) : BufferedProcessor where
  toPartProcessorState := partProcessorCreate ops
  capacity := initialFrameBufferCapacity

namespace Checked

/-- The loop that doubles a capacity until it suffices, in at most so many rounds; `none` when it is not
over by then. -/
def growCapacity : ℕ → ℕ → ℕ → Option ℕ
  | 0, _, _ => none
  | rounds + 1, capacity, needed =>
    if capacity < needed then growCapacity rounds (capacity * 2 % 2 ^ 64) needed else some capacity

/-- More rounds than a loop that ends makes. -/
def growthRounds : ℕ := 64

/-- The new data is appended to a frame buffer with something in it. -/
def appendChunk (s : BufferedProcessor) (data : List UInt8) : Option ℕ :=
  if s.frameBuffer = [] then return s.capacity
  else do
    let totalLen := (s.frameBuffer.length + data.length) % 2 ^ 64
    let capacity ←
      if totalLen > s.capacity then growCapacity growthRounds (s.capacity * 2 % 2 ^ 64) totalLen
      else pure s.capacity
    writeChecked capacity s.frameBuffer.length data.length
    return capacity

/-- What is left of the work buffer is moved to the front of the frame buffer, or copied into it. -/
def bufferRemaining (s : BufferedProcessor) (capacity : ℕ) (remaining : List UInt8) : Option ℕ := do
  let capacity ←
    if s.frameBuffer = [] ∧ remaining.length > capacity then
      growCapacity growthRounds capacity remaining.length
    else pure capacity
  writeChecked capacity 0 remaining.length
  return capacity

/-- One call with data: `none` when it leaves a buffer or does not get a large enough one, `some none`
when its main loop does not end. -/
def partProcessorProcessData (env : ProcessorEnv) (s : BufferedProcessor) (data : List UInt8) :
    Option (Option (Option StreamProcError × BufferedProcessor)) :=
  match s.state with
  | .error => return some (s.errorCode, s)
  | .done => return some (none, s)
  | _ => do
    let capacity ← appendChunk s data
    let work := s.frameBuffer ++ data
    match ← runChecked (step env) (loopRounds work) s.toPartProcessor work with
    | none => return none
    | some (.finished p remaining) =>
      let capacity ← bufferRemaining s capacity remaining
      return some (none, ⟨⟨p, remaining⟩, capacity⟩)
    | some (.stopped e p) =>
      return some (some e, ⟨⟨p, if s.frameBuffer = [] then [] else work⟩, capacity⟩)

/-- Chunks in order: `none` when a call leaves a buffer, `some none` when one does not return. -/
def feedChunks (env : ProcessorEnv) : BufferedProcessor → List (List UInt8) →
    Option (Option BufferedProcessor)
  | s, [] => return some s
  | s, data :: chunks => do
    match ← partProcessorProcessData env s data with
    | none => return none
    | some (_, t) => feedChunks env t chunks

end Checked

/-- The capacity of a frame buffer is a power of two. -/
def IsCapacity (capacity : ℕ) : Prop := ∃ k ≤ 63, capacity = 2 ^ k

theorem IsCapacity.le {capacity : ℕ} (h : IsCapacity capacity) : capacity ≤ 2 ^ 63 := by
  obtain ⟨k, hk, rfl⟩ := h
  exact Nat.pow_le_pow_right (by decide) hk

theorem IsCapacity.double {capacity : ℕ} (h : IsCapacity capacity) :
    capacity = 2 ^ 63 ∧ capacity * 2 % 2 ^ 64 = 0 ∨
      capacity < 2 ^ 63 ∧ IsCapacity (capacity * 2 % 2 ^ 64) ∧
        capacity * 2 % 2 ^ 64 = capacity * 2 := by
  obtain ⟨k, hk, rfl⟩ := h
  rcases Nat.lt_or_eq_of_le hk with hlt | rfl
  · have hless : 2 ^ k < 2 ^ 63 := Nat.pow_lt_pow_right (by decide) hlt
    have hmod : 2 ^ k * 2 % 2 ^ 64 = 2 ^ (k + 1) := by
      rw [← pow_succ]
      exact Nat.mod_eq_of_lt (by rw [pow_succ]; omega)
    exact .inr ⟨hless, ⟨k + 1, hlt, hmod⟩, by rw [hmod, pow_succ]⟩
  · exact .inl ⟨rfl, by decide⟩

/-- The loop ends for every size up to the largest power of two that a 64-bit number holds. -/
theorem growCapacity_ends {capacity needed : ℕ} (h : IsCapacity capacity) (hneeded : needed ≤ 2 ^ 63) :
    ∃ c, Checked.growCapacity Checked.growthRounds capacity needed = some c ∧ IsCapacity c ∧
      needed ≤ c := by
  obtain ⟨k, hk, hcapacity⟩ := h
  have hends (rounds : ℕ) (hrounds : 63 - k < rounds) :
      ∃ c, Checked.growCapacity rounds capacity needed = some c ∧ IsCapacity c ∧ needed ≤ c := by
    induction rounds generalizing k capacity with
    | zero => omega
    | succ rounds ih =>
      rw [Checked.growCapacity]
      split
      · next hless =>
        rcases IsCapacity.double ⟨k, hk, hcapacity⟩ with ⟨hmax, -⟩ | ⟨hlt, -, hdouble⟩
        · omega
        · have hk' : k < 63 := by
            by_contra hge
            have hsame : k = 63 := by omega
            rw [hcapacity, hsame] at hlt
            omega
          exact ih (k + 1) (by omega) (by rw [hdouble, hcapacity, pow_succ]) (by omega)
      · next hge => exact ⟨capacity, rfl, ⟨k, hk, hcapacity⟩, Nat.not_lt.mp hge⟩
  exact hends _ (by rw [Checked.growthRounds]; omega)

/-- Beyond that it comes to zero and never ends. -/
theorem growCapacity_never {capacity needed : ℕ} (h : capacity = 0 ∨ IsCapacity capacity)
    (hneeded : 2 ^ 63 < needed) (rounds : ℕ) :
    Checked.growCapacity rounds capacity needed = none := by
  induction rounds generalizing capacity with
  | zero => rfl
  | succ rounds ih =>
    have hle : capacity ≤ 2 ^ 63 := by
      rcases h with rfl | h
      · exact Nat.zero_le _
      · exact h.le
    rw [Checked.growCapacity, if_pos (by omega)]
    apply ih
    rcases h with rfl | h
    · exact .inl rfl
    · rcases h.double with ⟨-, hzero⟩ | ⟨-, hdouble, -⟩
      · exact .inl hzero
      · exact .inr hdouble

/-- What holds of a processor between two calls. -/
structure BufferedProcessor.Sound (s : BufferedProcessor) : Prop where
  capacity : IsCapacity s.capacity
  used : s.frameBuffer.length ≤ s.capacity
  bounded : s.state ≠ .error → s.toPartProcessor.Bounded

theorem BufferedProcessor.create_sound (ops : List FileOp) : (create ops).Sound where
  capacity := ⟨18, by decide, rfl⟩
  used := Nat.zero_le _
  bounded _ := ⟨nofun, fun _ ↦ rfl⟩

theorem appendChunk_sound {s : BufferedProcessor} (hs : s.Sound) {data : List UInt8}
    (hroom : s.frameBuffer ≠ [] → s.frameBuffer.length + data.length ≤ 2 ^ 63) :
    ∃ c, Checked.appendChunk s data = some c ∧ IsCapacity c ∧
      (s.frameBuffer ≠ [] → s.frameBuffer.length + data.length ≤ c) := by
  rw [Checked.appendChunk]
  by_cases hempty : s.frameBuffer = []
  · rw [if_pos hempty]
    exact ⟨s.capacity, rfl, hs.capacity, fun hne ↦ absurd hempty hne⟩
  have hsum := hroom hempty
  have hmod : (s.frameBuffer.length + data.length) % 2 ^ 64 =
      s.frameBuffer.length + data.length := Nat.mod_eq_of_lt (by omega)
  rw [if_neg hempty, hmod]
  dsimp only
  by_cases hgrow : s.frameBuffer.length + data.length > s.capacity
  · rcases hs.capacity.double with ⟨hmax, -⟩ | ⟨-, hdouble, -⟩
    · omega
    · obtain ⟨c, hc, hcapacity, hle⟩ := growCapacity_ends hdouble hsum
      rw [if_pos hgrow, hc]
      simp only [Option.bind_eq_bind, Option.bind_some]
      rw [writeChecked_inside hle]
      exact ⟨c, rfl, hcapacity, fun _ ↦ hle⟩
  · have hle := Nat.not_lt.mp hgrow
    rw [if_neg hgrow]
    simp only [Option.bind_eq_bind, Option.pure_def, Option.bind_some]
    rw [writeChecked_inside hle]
    exact ⟨s.capacity, rfl, hs.capacity, fun _ ↦ hle⟩

/-- A capacity that suffices is not to be had for more. -/
theorem appendChunk_eq_none {s : BufferedProcessor} (hs : s.Sound) {data : List UInt8}
    (hdata : data.length < 2 ^ 63) (hused : s.frameBuffer ≠ [])
    (hroom : 2 ^ 63 < s.frameBuffer.length + data.length) : Checked.appendChunk s data = none := by
  have hle := hs.used.trans hs.capacity.le
  have hmod : (s.frameBuffer.length + data.length) % 2 ^ 64 =
      s.frameBuffer.length + data.length := Nat.mod_eq_of_lt (by omega)
  have hcapacity := hs.capacity.le
  rw [Checked.appendChunk, if_neg hused, hmod]
  dsimp only
  rw [if_pos (by omega), growCapacity_never ?_ hroom]
  · rfl
  · rcases hs.capacity.double with ⟨-, hzero⟩ | ⟨-, hdouble, -⟩
    · exact .inl hzero
    · exact .inr hdouble

theorem bufferRemaining_sound {s : BufferedProcessor} {capacity : ℕ} (hcapacity : IsCapacity capacity)
    {remaining : List UInt8} (hlen : remaining.length ≤ 2 ^ 63)
    (hused : s.frameBuffer ≠ [] → remaining.length ≤ capacity) :
    ∃ c, Checked.bufferRemaining s capacity remaining = some c ∧ IsCapacity c ∧
      remaining.length ≤ c := by
  rw [Checked.bufferRemaining]
  by_cases hgrow : s.frameBuffer = [] ∧ remaining.length > capacity
  · obtain ⟨c, hc, hcapacity', hle⟩ := growCapacity_ends hcapacity hlen
    rw [if_pos hgrow, hc]
    simp only [Option.bind_eq_bind, Option.bind_some]
    rw [writeChecked_inside (by omega)]
    exact ⟨c, rfl, hcapacity', hle⟩
  · have hle : remaining.length ≤ capacity := by
      by_cases hempty : s.frameBuffer = []
      · exact Nat.not_lt.mp fun hmore ↦ hgrow ⟨hempty, hmore⟩
      · exact hused hempty
    rw [if_neg hgrow]
    simp only [Option.bind_eq_bind, Option.pure_def, Option.bind_some]
    rw [writeChecked_inside (by omega)]
    exact ⟨capacity, rfl, hcapacity, hle⟩

/-- The call gets a large enough frame buffer, and no round of its loop overruns a buffer. -/
def StaysInside (env : ProcessorEnv) (s : PartProcessorState) (data : List UInt8) : Prop :=
  s.state ≠ .error → s.state ≠ .done →
    (s.frameBuffer ≠ [] → s.frameBuffer.length + data.length ≤ 2 ^ 63) ∧
    ∀ p rest, Visits (step env) s.toPartProcessor (s.frameBuffer ++ data) p rest → rest ≠ [] →
      ¬ Overruns env p rest

/-- A round does not make the work buffer longer. -/
theorem step_length_le {env : ProcessorEnv} {p q : PartProcessor} {bs rest : List UInt8}
    (hbs : bs ≠ []) (h : step env p bs = .next q rest) : rest.length ≤ bs.length := by
  by_cases hstalls : Stalls env p bs
  · have hsame := (Stalls.step_eq hstalls).2
    rw [h] at hsame
    cases hsame
    exact le_rfl
  · rcases step_consumes_or_descends hbs h hstalls with hless | ⟨hsame, -⟩
    · exact hless.le
    · exact hsame.le

theorem visits_bounded {env : ProcessorEnv} (henv : env.Sizes64) {p q : PartProcessor}
    {bs rest : List UInt8} (hp : p.Bounded) (hvisit : Visits (step env) p bs q rest) :
    q.Bounded ∧ rest.length ≤ bs.length := by
  have hnext {p q : PartProcessor} {work rest : List UInt8}
      (h : p.Bounded ∧ work.length ≤ bs.length) (hne : work ≠ [])
      (hstep : step env p work = .next q rest) : q.Bounded ∧ rest.length ≤ bs.length :=
    ⟨step_bounded henv h.1 hstep, (step_length_le hne hstep).trans h.2⟩
  exact @Visits.invariant _ _ _ _ (fun q rest ↦ q.Bounded ∧ rest.length ≤ bs.length) _ _ _ _ hvisit
    (fun h hne hstep ↦ hnext h hne hstep) ⟨hp, le_rfl⟩

theorem Checked.partProcessorProcessData_running (env : ProcessorEnv) {s : BufferedProcessor}
    (herror : s.state ≠ .error) (hdone : s.state ≠ .done) (data : List UInt8) :
    Checked.partProcessorProcessData env s data = (Checked.appendChunk s data).bind fun capacity ↦
      (runChecked (Checked.step env) (loopRounds (s.frameBuffer ++ data)) s.toPartProcessor
        (s.frameBuffer ++ data)).bind fun
      | none => some none
      | some (.finished p remaining) =>
        (Checked.bufferRemaining s capacity remaining).bind fun capacity ↦
          some (some (none, ⟨⟨p, remaining⟩, capacity⟩))
      | some (.stopped e p) => some (some (some e,
          ⟨⟨p, if s.frameBuffer = [] then [] else s.frameBuffer ++ data⟩, capacity⟩)) := by
  rw [Checked.partProcessorProcessData]
  split
  · next h => exact (herror h).elim
  · next h => exact (hdone h).elim
  · rfl

theorem StaysInside.steps {env : ProcessorEnv} (henv : env.Sizes64) {s : BufferedProcessor}
    (hs : s.Sound) (herror : s.state ≠ .error) (hdone : s.state ≠ .done) {data : List UInt8}
    (h : StaysInside env s.toPartProcessorState data) (n : ℕ) :
    runChecked (Checked.step env) n s.toPartProcessor (s.frameBuffer ++ data) =
      some (mainLoop env n s.toPartProcessor (s.frameBuffer ++ data)) := by
  refine runChecked_eq (fun p rest hvisit hrest ↦ ?_) n
  obtain ⟨hbounded, -⟩ := visits_bounded henv (hs.bounded herror) hvisit
  rw [Checked.step_eq env hbounded hrest, if_neg ((h herror hdone).2 p rest hvisit hrest)]

/-- A call that stays inside its buffers is the call of which nothing is checked. -/
theorem StaysInside.call {env : ProcessorEnv} (henv : env.Sizes64) {s : BufferedProcessor}
    (hs : s.Sound) {data : List UInt8} (hdata : data.length < 2 ^ 63)
    (h : StaysInside env s.toPartProcessorState data) :
    ∃ r, Checked.partProcessorProcessData env s data = some r ∧
      r.map (fun r ↦ (r.1, r.2.toPartProcessorState)) =
        partProcessorProcessData env s.toPartProcessorState data ∧
      ∀ e t, r = some (e, t) → t.Sound := by
  by_cases herror : s.state = .error
  · rw [Checked.partProcessorProcessData, partProcessorProcessData, herror]
    refine ⟨_, rfl, rfl, fun e t ht ↦ ?_⟩
    cases ht
    exact hs
  by_cases hdone : s.state = .done
  · rw [Checked.partProcessorProcessData, partProcessorProcessData, hdone]
    refine ⟨_, rfl, rfl, fun e t ht ↦ ?_⟩
    cases ht
    exact hs
  obtain ⟨c, happend, hcapacity, hroom⟩ := appendChunk_sound hs (h herror hdone).1
  rw [Checked.partProcessorProcessData_running env herror hdone, happend, Option.bind_some,
    h.steps henv hs herror hdone, Option.bind_some, partProcessorProcessData_eq env herror hdone]
  cases hloop : mainLoop env (loopRounds (s.frameBuffer ++ data)) s.toPartProcessor
      (s.frameBuffer ++ data) with
  | none =>
    refine ⟨none, rfl, rfl, fun e t ht ↦ ?_⟩
    cases ht
  | some r =>
    cases r with
    | finished p remaining =>
      have hp : p.Bounded ∧ remaining.length ≤ (s.frameBuffer ++ data).length := by
        rcases visits_of_finished hloop with hvisit | ⟨q, hvisit, hwait⟩
        · exact visits_bounded henv (hs.bounded herror) hvisit
        · have hkeep := step_keepsErrors env q remaining
          rw [hwait] at hkeep
          obtain rfl : p = q := hkeep
          exact visits_bounded henv (hs.bounded herror) hvisit
      obtain ⟨hbounded, hlen⟩ := hp
      rw [List.length_append] at hlen
      have hfits : remaining.length ≤ 2 ^ 63 := by
        by_cases hempty : s.frameBuffer = []
        · rw [hempty, List.length_nil] at hlen
          omega
        · exact hlen.trans ((hroom hempty).trans hcapacity.le)
      obtain ⟨c', hbuffer, hcapacity', hle⟩ :=
        bufferRemaining_sound hcapacity hfits fun hne ↦ hlen.trans (hroom hne)
      dsimp only
      rw [hbuffer, Option.bind_some]
      refine ⟨_, rfl, rfl, fun e t ht ↦ ?_⟩
      cases ht
      exact ⟨hcapacity', hle, fun _ ↦ hbounded⟩
    | stopped e p =>
      refine ⟨_, rfl, rfl, fun e' t ht ↦ ?_⟩
      cases ht
      refine ⟨hcapacity, ?_, fun hne ↦ absurd (mainLoop_stopped_state hloop) hne⟩
      dsimp only
      split
      · exact Nat.zero_le _
      · next hne =>
        rw [List.length_append]
        exact hroom hne

/-- A call that does not stay inside its buffers is caught. -/
theorem Checked.partProcessorProcessData_eq_none {env : ProcessorEnv} (henv : env.Sizes64)
    {s : BufferedProcessor} (hs : s.Sound) {data : List UInt8} (hdata : data.length < 2 ^ 63)
    (h : ¬ StaysInside env s.toPartProcessorState data) :
    Checked.partProcessorProcessData env s data = none := by
  rw [StaysInside] at h
  push Not at h
  obtain ⟨herror, hdone, hviolates⟩ := h
  rw [Checked.partProcessorProcessData_running env herror hdone]
  by_cases hroom : s.frameBuffer ≠ [] → s.frameBuffer.length + data.length ≤ 2 ^ 63
  · obtain ⟨p, rest, hvisit, hrest, hover⟩ := hviolates hroom
    obtain ⟨c, happend, -⟩ := appendChunk_sound hs hroom
    obtain ⟨hbounded, -⟩ := visits_bounded henv (hs.bounded herror) hvisit
    have htrap : Checked.step env p rest = none := by
      rw [Checked.step_eq env hbounded hrest, if_pos hover]
    have hrank : s.state.rank ≤ 3 := by cases s.state <;> decide
    have hrun : runChecked (Checked.step env) (loopRounds (s.frameBuffer ++ data)) s.toPartProcessor
        (s.frameBuffer ++ data) = none := by
      have hsame {p : PartProcessor} {bs : List UInt8} (hp : p.Bounded) (hne : bs ≠ []) :
          Checked.step env p bs = none ∨ Checked.step env p bs = some (Burst.step env p bs) := by
        rw [Checked.step_eq env hp hne]
        split
        · exact .inl rfl
        · exact .inr rfl
      have hrounds : loopMeasure s.toPartProcessor (s.frameBuffer ++ data) <
          loopRounds (s.frameBuffer ++ data) := by
        rw [loopMeasure, loopRounds]
        omega
      exact @runChecked_eq_none _ _ _ _ _ loopMeasure (fun p _ ↦ p.Bounded)
        (fun hp _ hstep ↦ step_bounded henv hp hstep) step_measure (fun hp hne ↦ hsame hp hne)
        _ _ _ _ (hs.bounded herror) hvisit hrest htrap _ hrounds
    rw [happend, Option.bind_some, hrun, Option.bind_none]
  · push Not at hroom
    rw [appendChunk_eq_none hs hdata hroom.1 hroom.2, Option.bind_none]

/-- The processor after chunks in order; `none` when a call does not return. -/
def feedChunks (env : ProcessorEnv) : PartProcessorState → List (List UInt8) →
    Option PartProcessorState
  | s, [] => some s
  | s, data :: chunks =>
    match partProcessorProcessData env s data with
    | none => none
    | some (_, t) => feedChunks env t chunks

/-- Every call on a sequence of chunks stays inside its buffers. -/
def FeedStaysInside (env : ProcessorEnv) : PartProcessorState → List (List UInt8) → Prop
  | _, [] => True
  | s, data :: chunks => StaysInside env s data ∧
    ∀ e t, partProcessorProcessData env s data = some (e, t) → FeedStaysInside env t chunks

theorem FeedStaysInside.feedChunks {env : ProcessorEnv} (henv : env.Sizes64) {s : BufferedProcessor}
    (hs : s.Sound) {chunks : List (List UInt8)} (hchunks : ∀ data ∈ chunks, data.length < 2 ^ 63)
    (h : FeedStaysInside env s.toPartProcessorState chunks) :
    (Checked.feedChunks env s chunks).map (Option.map BufferedProcessor.toPartProcessorState) =
      some (Burst.feedChunks env s.toPartProcessorState chunks) := by
  induction chunks generalizing s with
  | nil => rfl
  | cons data chunks ih =>
    obtain ⟨r, hcall, hsame, hsound⟩ := h.1.call henv hs (hchunks data List.mem_cons_self)
    rw [Checked.feedChunks, Burst.feedChunks, hcall]
    simp only [Option.bind_eq_bind, Option.bind_some]
    cases r with
    | none =>
      rw [← hsame]
      rfl
    | some r =>
      obtain ⟨e, t⟩ := r
      rw [← hsame]
      exact ih (hsound e t rfl) (fun data hmem ↦ hchunks data (List.mem_cons_of_mem _ hmem))
        (h.2 e t.toPartProcessorState hsame.symm)

theorem Checked.feedChunks_eq_none {env : ProcessorEnv} (henv : env.Sizes64) {s : BufferedProcessor}
    (hs : s.Sound) {chunks : List (List UInt8)} (hchunks : ∀ data ∈ chunks, data.length < 2 ^ 63)
    (h : ¬ FeedStaysInside env s.toPartProcessorState chunks) :
    Checked.feedChunks env s chunks = none := by
  induction chunks generalizing s with
  | nil => exact (h trivial).elim
  | cons data chunks ih =>
    have hdata := hchunks data List.mem_cons_self
    rw [Checked.feedChunks]
    by_cases hinside : StaysInside env s.toPartProcessorState data
    · obtain ⟨r, hcall, hsame, hsound⟩ := hinside.call henv hs hdata
      rw [FeedStaysInside] at h
      push Not at h
      obtain ⟨e, t, hreturn, hrest⟩ := h hinside
      obtain ⟨⟨e', u⟩, rfl, heq⟩ := Option.map_eq_some_iff.mp (hsame.trans hreturn)
      obtain ⟨rfl, rfl⟩ := Prod.mk.inj heq
      rw [hcall]
      exact ih (hsound e' u rfl) (fun data hmem ↦ hchunks data (List.mem_cons_of_mem _ hmem)) hrest
    · rw [Checked.partProcessorProcessData_eq_none henv hs hdata hinside]
      rfl

/-- On any chunks a new processor touches no byte outside its work buffer, a symlink buffer or the frame
buffer, and gets a large enough frame buffer, exactly when no call is given more than the largest power
of two of bytes and no round meets the bare header of a frame whose size wraps around or writes to the
buffer of a symlink of `2 ^ 64 - 1` bytes. What it does is then what it does with nothing checked. -/
theorem streamProcessor_staysInside_iff {env : ProcessorEnv} (henv : env.Sizes64) (ops : List FileOp)
    {chunks : List (List UInt8)} (hchunks : ∀ data ∈ chunks, data.length < 2 ^ 63) :
    (Checked.feedChunks env (.create ops) chunks ≠ none ↔
      FeedStaysInside env (partProcessorCreate ops) chunks) ∧
    (FeedStaysInside env (partProcessorCreate ops) chunks →
      (Checked.feedChunks env (.create ops) chunks).map
          (Option.map BufferedProcessor.toPartProcessorState) =
        some (feedChunks env (partProcessorCreate ops) chunks)) := by
  have hsound := BufferedProcessor.create_sound ops
  have hsame (hinside : FeedStaysInside env (partProcessorCreate ops) chunks) :
      (Checked.feedChunks env (.create ops) chunks).map
          (Option.map BufferedProcessor.toPartProcessorState) =
        some (feedChunks env (partProcessorCreate ops) chunks) :=
    hinside.feedChunks henv hsound hchunks
  refine ⟨⟨fun hchecked ↦ ?_, fun hinside hnone ↦ ?_⟩, hsame⟩
  · by_contra houtside
    exact hchecked (Checked.feedChunks_eq_none henv hsound hchunks houtside)
  · have hsome := hsame hinside
    rw [hnone] at hsome
    cases hsome

theorem twoFiles_staysInside :
    (∀ data ∈ [twoFilesBytes.take 40, twoFilesBytes.drop 40], data.length < 2 ^ 63) ∧
      FeedStaysInside twoFilesEnv (partProcessorCreate [])
        [twoFilesBytes.take 40, twoFilesBytes.drop 40] := by
  have hchunks : ∀ data ∈ [twoFilesBytes.take 40, twoFilesBytes.drop 40], data.length < 2 ^ 63 := by
    decide +kernel
  exact ⟨hchunks, (streamProcessor_staysInside_iff (by decide) [] hchunks).1.mp (by decide +kernel)⟩

/-- The one part of an archive of a symlink of which a size of `2 ^ 64 - 1` bytes is declared. -/
def hugeSymlinkEnv : ProcessorEnv where
  os := obligingOs
  zstd := hungryZstd
  cdResult := {
    files := [{ plainFile 97 0 with uncompressedSize := 2 ^ 64 - 1, isSymlink := true }]
    parts := [⟨[⟨0, 0⟩], none⟩]
    centralDirOffset := 94
    centralDirSize := 94
    isZip64 := false }
  outputDir := []
  partIndex := 0
  partSize := burstPartSize

/-- Of a frame of `8 + 4294967295` bytes only the first eight are there, which is taken for all of it;
the first byte of the target of a huge symlink is written to an empty buffer. -/
theorem bareFrame_leaves_buffer :
    Checked.feedChunks twoFilesEnv (.create [])
        [encode 4 burstSkippableMagic ++ encode 4 (2 ^ 32 - 1)] = none ∧
      Checked.feedChunks hugeSymlinkEnv (.create []) [plainLocalHeader 97 ++ [98]] = none := by
  decide +kernel

end Burst
