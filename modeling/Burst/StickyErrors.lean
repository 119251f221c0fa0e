import Burst.StreamChunking

namespace Burst

open LittleEndian Incremental

/-- A call on a part processor. -/
inductive ProcessorCall where
  | data (bytes : List UInt8)
  | finalize
  deriving DecidableEq, Repr

def ProcessorCall.run (env : ProcessorEnv) (s : PartProcessorState) :
    ProcessorCall → Option (Option StreamProcError × PartProcessorState)
  | data bytes => partProcessorProcessData env s bytes
  | finalize => some (partProcessorFinalize env s)

structure CallRecord where
  call : ProcessorCall
  before : PartProcessorState
  error : Option StreamProcError
  after : PartProcessorState
  deriving DecidableEq, Repr

/-- The system calls made during a call. -/
def CallRecord.ops (r : CallRecord) : List FileOp := r.after.ops.drop r.before.ops.length

/-- A sequence of calls; `none` when one of them does not return. -/
def callRecords (env : ProcessorEnv) : PartProcessorState → List ProcessorCall →
    Option (List CallRecord)
  | _, [] => some []
  | s, call :: calls =>
    match call.run env s with
    | none => none
    | some (e, t) => (callRecords env t calls).map fun rs ↦ ⟨call, s, e, t⟩ :: rs

def FileOp.ChangesOutput : FileOp → Bool
  | openFile _ => true
  | encodedWrite _ _ _ _ => true
  | pwrite _ _ _ => true
  | ftruncate _ _ => true
  | symlink _ _ => true
  | _ => false

/-- The call returns an error and leaves the output files alone. -/
def CallRecord.Refuses (r : CallRecord) : Prop :=
  r.error.isSome = true ∧ ∀ op ∈ r.ops, op.ChangesOutput = false

/-- Once a call has returned an error, the later ones refuse to work. -/
def ErrorsStick (rs : List CallRecord) : Prop :=
  rs.Pairwise fun r r' ↦ r.error.isSome = true → r'.Refuses

/-- Closing the file changes it: it is open for writing, or a symlink whose target has been read
in part. -/
def FileContext.Pending (f : FileContext) : Prop :=
  f.fdOpen = true ∨ f.isSymlink = true ∧ f.symlinkBuffer.isSome = true

/-- Finalizing finds bytes left in the buffer and no file to close. -/
def FinalizesIdle (s : PartProcessorState) : Prop :=
  s.frameBuffer ≠ [] ∧ ∀ f ∈ s.currentFile, ¬ f.Pending

instance (r : CallRecord) : Decidable r.Refuses := by
  unfold CallRecord.Refuses
  infer_instance

instance (rs : List CallRecord) : Decidable (ErrorsStick rs) := by
  unfold ErrorsStick
  infer_instance

instance (f : FileContext) : Decidable f.Pending := by
  unfold FileContext.Pending
  infer_instance

instance (s : PartProcessorState) : Decidable (FinalizesIdle s) := by
  unfold FinalizesIdle
  infer_instance

theorem closeOps_pending_iff (os : Os) (f : FileContext) :
    (∃ op ∈ closeOps os f, op.ChangesOutput = true) ↔ f.Pending := by
  rw [closeOps, FileContext.Pending]
  cases hlink : f.isSymlink with
  | true =>
    cases htarget : f.symlinkBuffer with
    | some target => simp [FileOp.ChangesOutput]
    | none => cases hopen : f.fdOpen <;> simp [FileOp.ChangesOutput]
  | false => cases hopen : f.fdOpen <;> simp [FileOp.ChangesOutput]

/-- The system calls made while a file is closed leave the output alone when none is pending. -/
theorem closeOutputFile_idle_iff (os : Os) (p : PartProcessor) :
    (∀ op ∈ (closeOutputFile os p).ops.drop p.ops.length, op.ChangesOutput = false) ↔
      ∀ f ∈ p.currentFile, ¬ f.Pending := by
  rw [closeOutputFile]
  cases hfile : p.currentFile with
  | none => simp
  | some f =>
    have hpending := closeOps_pending_iff os f
    simp only [List.drop_left, Option.mem_def, Option.some.injEq, forall_eq', ← hpending, not_exists,
      not_and, Bool.not_eq_true]

/-- The processor is in the error state, with an error to return. -/
def Failed (s : PartProcessorState) : Prop := s.state = .error ∧ s.errorCode.isSome = true

theorem partProcessorProcessData_failed {env : ProcessorEnv} {s : PartProcessorState}
    (hs : Failed s) (bytes : List UInt8) :
    partProcessorProcessData env s bytes = some (s.errorCode, s) := by
  rw [partProcessorProcessData, hs.1]

/-- Finalizing in the error state refuses exactly when there is nothing to close and bytes are
left over. -/
theorem partProcessorFinalize_refuses_iff (env : ProcessorEnv) (s : PartProcessorState) :
    (CallRecord.mk .finalize s (partProcessorFinalize env s).1 (partProcessorFinalize env s).2).Refuses
      ↔ FinalizesIdle s := by
  have hops : (CallRecord.mk .finalize s (partProcessorFinalize env s).1
      (partProcessorFinalize env s).2).ops =
        (closeOutputFile env.os s.toPartProcessor).ops.drop s.ops.length := by
    rw [CallRecord.ops, partProcessorFinalize_ops]
  have herror : (partProcessorFinalize env s).1.isSome = true ↔ s.frameBuffer ≠ [] := by
    rw [partProcessorFinalize]
    by_cases h : s.frameBuffer = [] <;> simp [h]
  rw [CallRecord.Refuses, hops, closeOutputFile_idle_iff, FinalizesIdle, herror]

theorem partProcessorFinalize_failed {env : ProcessorEnv} {s : PartProcessorState}
    (h : s.frameBuffer ≠ []) : Failed (partProcessorFinalize env s).2 := by
  rw [partProcessorFinalize, if_pos h]
  exact ⟨rfl, rfl⟩

theorem callRecords_cons {env : ProcessorEnv} {s : PartProcessorState} {call : ProcessorCall}
    {calls : List ProcessorCall} {rs : List CallRecord}
    (h : callRecords env s (call :: calls) = some rs) :
    ∃ e t rs', call.run env s = some (e, t) ∧ callRecords env t calls = some rs' ∧
      rs = ⟨call, s, e, t⟩ :: rs' := by
  rw [callRecords] at h
  split at h
  · cases h
  · next e t hrun =>
    obtain ⟨rs', hrs', rfl⟩ := Option.map_eq_some_iff.mp h
    exact ⟨e, t, rs', hrun, hrs', rfl⟩

/-- Every finalizing in the error state finds nothing to do but to report the bytes left over. -/
def FinalizesErrorsIdle (rs : List CallRecord) : Prop :=
  ∀ r ∈ rs, r.before.state = .error → r.call = .finalize → FinalizesIdle r.before

instance (rs : List CallRecord) : Decidable (FinalizesErrorsIdle rs) := by
  unfold FinalizesErrorsIdle
  infer_instance

/-- From the error state on, every call refuses exactly when every finalizing is idle. -/
theorem callRecords_failed {env : ProcessorEnv} {s : PartProcessorState} (hs : Failed s)
    {calls : List ProcessorCall} {rs : List CallRecord} (h : callRecords env s calls = some rs) :
    (∀ r ∈ rs, r.Refuses) ↔ FinalizesErrorsIdle rs := by
  induction calls generalizing s rs with
  | nil =>
    obtain rfl := Option.some.inj h
    simp [FinalizesErrorsIdle]
  | cons call calls ih =>
    obtain ⟨e, t, rs', hrun, hrs', rfl⟩ := callRecords_cons h
    rw [FinalizesErrorsIdle, List.forall_mem_cons, List.forall_mem_cons]
    cases call with
    | data bytes =>
      rw [ProcessorCall.run, partProcessorProcessData_failed hs] at hrun
      obtain ⟨rfl, rfl⟩ := Prod.mk.inj (Option.some.inj hrun)
      have hrefuses : (CallRecord.mk (.data bytes) s s.errorCode s).Refuses :=
        ⟨hs.2, by simp [CallRecord.ops]⟩
      have hrest := ih hs hrs'
      constructor
      · intro hall
        exact ⟨by simp, hrest.mp hall.2⟩
      · intro hidle
        exact ⟨hrefuses, hrest.mpr hidle.2⟩
    | finalize =>
      obtain ⟨rfl, rfl⟩ := Prod.ext_iff.mp (Option.some.inj hrun)
      have hiff := partProcessorFinalize_refuses_iff env s
      constructor
      · intro hall
        have hidle := hiff.mp hall.1
        exact ⟨fun _ _ ↦ hidle, (ih (partProcessorFinalize_failed hidle.1) hrs').mp hall.2⟩
      · intro hall
        have hidle := hall.1 hs.1 rfl
        exact ⟨hiff.mpr hidle, (ih (partProcessorFinalize_failed hidle.1) hrs').mpr hall.2⟩

/-- A call returns an error exactly when it leaves the processor in the error state. -/
theorem ProcessorCall.run_failed {env : ProcessorEnv} {s t : PartProcessorState}
    {call : ProcessorCall} {e : Option StreamProcError} (hs : s.state ≠ .error)
    (h : call.run env s = some (e, t)) :
    if e.isSome then Failed t else t.state ≠ .error := by
  cases call with
  | data bytes =>
    rw [ProcessorCall.run] at h
    by_cases hdone : s.state = .done
    · rw [partProcessorProcessData, hdone] at h
      obtain ⟨rfl, rfl⟩ := Prod.mk.inj (Option.some.inj h)
      exact hs
    · rw [partProcessorProcessData_eq env hs hdone] at h
      split at h
      · cases h
      · next p remaining hloop =>
        obtain ⟨rfl, rfl⟩ := Prod.mk.inj (Option.some.inj h)
        exact mainLoop_finished_state hs hloop
      · next e p hloop =>
        obtain ⟨rfl, rfl⟩ := Prod.mk.inj (Option.some.inj h)
        have hcode := mainLoop_stopped_errorCode hs hloop
        exact ⟨mainLoop_stopped_state hloop, by simp [hcode]⟩
  | finalize =>
    obtain h' : partProcessorFinalize env s = (e, t) := Option.some.inj h
    rw [partProcessorFinalize] at h'
    split at h'
    · obtain ⟨rfl, rfl⟩ := Prod.mk.inj h'
      exact ⟨rfl, rfl⟩
    · obtain ⟨rfl, rfl⟩ := Prod.mk.inj h'
      simp [PartProcessor.enter]

theorem callRecords_errorsStick_iff {env : ProcessorEnv} {s : PartProcessorState}
    (hs : s.state ≠ .error) {calls : List ProcessorCall} {rs : List CallRecord}
    (h : callRecords env s calls = some rs) : ErrorsStick rs ↔ FinalizesErrorsIdle rs := by
  induction calls generalizing s rs with
  | nil =>
    obtain rfl := Option.some.inj h
    simp [ErrorsStick, FinalizesErrorsIdle]
  | cons call calls ih =>
    obtain ⟨e, t, rs', hrun, hrs', rfl⟩ := callRecords_cons h
    have hafter := ProcessorCall.run_failed hs hrun
    have hcons : FinalizesErrorsIdle (⟨call, s, e, t⟩ :: rs') ↔ FinalizesErrorsIdle rs' := by
      simp [FinalizesErrorsIdle, hs]
    rw [ErrorsStick, List.pairwise_cons, hcons]
    cases e with
    | none =>
      have hrest := ih hafter hrs'
      constructor
      · intro hall
        exact hrest.mp hall.2
      · intro hidle
        exact ⟨by simp, hrest.mpr hidle⟩
    | some e =>
      have hrest := callRecords_failed hafter hrs'
      constructor
      · intro hall
        exact hrest.mp fun r hr ↦ hall.1 r hr rfl
      · intro hidle
        have hrefuse := hrest.mpr hidle
        refine ⟨fun r hr _ ↦ hrefuse r hr, ?_⟩
        exact List.pairwise_of_forall_mem_list fun _ _ r hr _ ↦ hrefuse r hr

/-- Over any calls on a new processor, errors stick exactly when no call finalizes the processor in
the error state with a file to close or with no bytes left over. -/
theorem processorCalls_errorsStick_iff (env : ProcessorEnv) (ops : List FileOp)
    (calls : List ProcessorCall) (rs : List CallRecord)
    (h : callRecords env (partProcessorCreate ops) calls = some rs) :
    ErrorsStick rs ↔ FinalizesErrorsIdle rs :=
  callRecords_errorsStick_iff (by simp [partProcessorCreate]) h

/-- Bytes that begin no frame. -/
def foreignBytes : List UInt8 := encode 4 0xDEADBEEF

def refusedCalls : List ProcessorCall :=
  [.data foreignBytes, .data foreignBytes, .data (plainLocalHeader 97)]

def refusedRun : List CallRecord :=
  (callRecords twoFilesEnv (partProcessorCreate []) refusedCalls).getD []

theorem refusedRun_errorsStick :
    callRecords twoFilesEnv (partProcessorCreate []) refusedCalls = some refusedRun ∧
      refusedRun.map CallRecord.error = List.replicate 3 (some .invalidFrame) ∧
      ErrorsStick refusedRun := by
  have hreturns : callRecords twoFilesEnv (partProcessorCreate []) refusedCalls =
      some refusedRun := by
    decide +kernel
  refine ⟨hreturns, by decide +kernel, ?_⟩
  exact (processorCalls_errorsStick_iff _ _ _ _ hreturns).mpr (by decide +kernel)

def forgottenCalls : List ProcessorCall := [.data (plainLocalHeader 97 ++ foreignBytes), .finalize]

def forgottenRun : List CallRecord :=
  (callRecords twoFilesEnv (partProcessorCreate []) forgottenCalls).getD []

/-- A part that breaks off inside its first file: the error is returned once, and finalizing then
gives the file its full size and reports success. -/
theorem finalize_forgets_error :
    callRecords twoFilesEnv (partProcessorCreate []) forgottenCalls = some forgottenRun ∧
      forgottenRun.map CallRecord.error = [some .invalidFrame, none] ∧
      forgottenRun.map (fun r ↦ r.ops.any FileOp.ChangesOutput) = [true, true] ∧
      ¬ ErrorsStick forgottenRun := by
  decide +kernel

end Burst
