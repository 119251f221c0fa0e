import Burst.LayoutAlignment

namespace Burst

open Tiling

/-- The call is refused for its arguments, before anything is written. -/
def AddCall.Rejected : AddCall → Prop
  | .file input lfh _ _ _ => isHeaderOnly lfh = false ∧ input.seekable = false
  | .symlink _ target _ _ _ => target.length = 0
  | .directory lfh _ _ _ => lfh.fields.filenameLength = 0 ∨
      lfh.tail[lfh.fields.filenameLength - 1]? ≠ some 47 ∨ lfh.fields.compressionMethod ≠ zipMethodStore ∨
      lfh.fields.compressedSize ≠ 0 ∨ lfh.fields.uncompressedSize ≠ 0

instance : DecidablePred AddCall.Rejected
  | .file input lfh _ _ _ => inferInstanceAs (Decidable (isHeaderOnly lfh = false ∧ input.seekable = false))
  | .symlink _ target _ _ _ => inferInstanceAs (Decidable (target.length = 0))
  | .directory lfh _ _ _ => inferInstanceAs (Decidable (lfh.fields.filenameLength = 0 ∨
      lfh.tail[lfh.fields.filenameLength - 1]? ≠ some 47 ∨ lfh.fields.compressionMethod ≠ zipMethodStore ∨
      lfh.fields.compressedSize ≠ 0 ∨ lfh.fields.uncompressedSize ≠ 0))

/-- Neither reading nor compressing the file of the call fails. -/
def AddCall.ReadsThrough (env : WriterEnv) (level : ℤ) : AddCall → Prop
  | .file input lfh _ _ _ => isHeaderOnly lfh = false →
      input.readError = none ∧ ∀ chunk ∈ input.chunks, (env.compressChunk level chunk).isSome
  | _ => True

/-- What a call needs to succeed wherever there is room for its header. -/
structure AddCall.Admissible (env : WriterEnv) (level : ℤ) (call : AddCall) : Prop where
  accepts : ¬ call.Rejected
  readsThrough : call.ReadsThrough env level

/-- A caller that goes on after a call that failed. -/
def addEach (env : WriterEnv) : List AddCall → BurstWriter → BurstWriter
  | [], w => w
  | call :: calls, w => addEach env calls (call.run env w).2

theorem addEach_cons (env : WriterEnv) (call : AddCall) (calls : List AddCall) (w : BurstWriter) :
    addEach env (call :: calls) w = addEach env calls (call.run env w).2 := rfl

/-- The calls that succeed when the caller goes on after each that has failed. -/
def addedCalls (env : WriterEnv) : List AddCall → BurstWriter → List AddCall
  | [], _ => []
  | call :: calls, w =>
    let (added, w) := call.run env w
    if added.isSome then call :: addedCalls env calls w else addedCalls env calls w

theorem AddCall.Rejected.run {call : AddCall} (h : call.Rejected) (env : WriterEnv) (w : BurstWriter) :
    call.run env w = (none, w) := by
  cases call with
  | file input lfh unixMode uid gid =>
    rw [AddCall.run, burstWriterAddFile]
    exact congrFun (if_pos h) w
  | symlink lfh target unixMode uid gid =>
    rw [AddCall.run, burstWriterAddSymlink]
    exact congrFun (if_pos h) w
  | directory lfh unixMode uid gid =>
    rw [AddCall.run, burstWriterAddDirectory]
    split
    · rfl
    · next hname =>
      push Not at hname
      rcases h with hzero | hslash | hsizes
      · exact (hname.1 hzero).elim
      · exact (hslash hname.2).elim
      · exact congrFun (if_pos hsizes) w

/-- When every call that fails is refused at once, the others are added as if it had not been made. -/
theorem addEach_eq {env : WriterEnv} {calls : List AddCall} {w w' : BurstWriter}
    (h : addAll env (calls.filter fun call ↦ ¬ call.Rejected) w = (some (), w')) :
    addEach env calls w = w' ∧ addedCalls env calls w = calls.filter fun call ↦ ¬ call.Rejected := by
  induction calls generalizing w with
  | nil =>
    cases h
    exact ⟨rfl, rfl⟩
  | cons call calls ih =>
    rw [addEach_cons, addedCalls]
    by_cases hrejected : call.Rejected
    · rw [List.filter_cons_of_neg (by simpa using hrejected)] at h ⊢
      rw [hrejected.run env w]
      exact ih h
    · rw [List.filter_cons_of_pos (by simpa using hrejected)] at h ⊢
      obtain ⟨_, w₁, hrun, hrest⟩ := WriterM.bind_ok.mp h
      obtain ⟨hend, hadded⟩ := ih hrest
      rw [hrun]
      exact ⟨hend, congrArg (call :: ·) hadded⟩

section

variable {env : WriterEnv} {level : ℤ}

theorem AddCall.admissible_file (hcompress : ∀ chunk, (env.compressChunk level chunk).isSome)
    (content : List UInt8) (lfh : LocalFileHeader) (unixMode uid gid : ℕ) :
    (AddCall.file ⟨content, none, true⟩ lfh unixMode uid gid).Admissible env level := by
  refine ⟨?_, fun _ ↦ ⟨rfl, fun chunk _ ↦ hcompress chunk⟩⟩
  rintro ⟨-, hseek⟩
  cases hseek

theorem AddCall.Admissible.accepted (hbound : FramesBounded env level) {pos : ℕ} {call : AddCall}
    (h : call.Admissible env level) (hsig : call.lfh.fields.signature = zipLocalFileHeaderSig)
    (hfit : call.HeaderFits) (hroom : 44 ≤ spaceUntilBoundary pos) : Accepted env level pos call := by
  obtain ⟨haccepts, hreads⟩ := h
  cases call with
  | file input lfh unixMode uid gid =>
    have haligned := (layoutCall_aligned hbound hsig hfit hroom).2.2
    refine ⟨fun _ ↦ hroom, fun hdata ↦ ?_⟩
    obtain ⟨hread, hcompress⟩ := hreads hdata
    refine ⟨?_, hread, hcompress, haligned⟩
    by_contra hseek
    exact haccepts ⟨hdata, Bool.eq_false_iff.mpr hseek⟩
  | symlink lfh target unixMode uid gid => exact ⟨Nat.pos_of_ne_zero haccepts, fun _ ↦ hroom⟩
  | directory lfh unixMode uid gid =>
    rw [Rejected] at haccepts
    push Not at haccepts
    obtain ⟨hlen, hslash, hmethod, hcompressed, huncompressed⟩ := haccepts
    exact ⟨hlen, hslash, hmethod, hcompressed, huncompressed, fun _ ↦ hroom⟩

theorem allAccepted_of_admissible (hbound : FramesBounded env level) {calls : List AddCall}
    (h : ∀ call ∈ calls, call.Admissible env level)
    (hsig : ∀ call ∈ calls, call.lfh.fields.signature = zipLocalFileHeaderSig)
    (hfit : ∀ call ∈ calls, call.HeaderFits) {pos : ℕ} (hroom : 44 ≤ spaceUntilBoundary pos) :
    AllAccepted env level pos calls := by
  induction calls generalizing pos with
  | nil => trivial
  | cons call calls ih =>
    obtain ⟨hcall, hcalls⟩ := List.forall_mem_cons.mp h
    obtain ⟨hsig, hsigs⟩ := List.forall_mem_cons.mp hsig
    obtain ⟨hfit, hfits⟩ := List.forall_mem_cons.mp hfit
    have hnext := (layoutCall_aligned hbound hsig hfit hroom).2.1
    exact ⟨hcall.accepted hbound hsig hfit hroom, ih hcalls hsigs hfits hnext.1⟩

/-- A run of admissible calls on a new writer succeeds, and so does finalizing after it. -/
theorem addAll_finalizes (hbound : FramesBounded env level)
    {calls : List AddCall} (h : ∀ call ∈ calls, call.Admissible env level)
    (hsig : ∀ call ∈ calls, call.lfh.fields.signature = zipLocalFileHeaderSig)
    (hfit : ∀ call ∈ calls, call.HeaderFits) : ∃ w w',
    addAll env calls (burstWriterCreate ⟨[], []⟩ level) = (some (), w) ∧
      burstWriterFinalize w = (some (), w') := by
  obtain ⟨w, hadd, hw⟩ := addAll_completes
    (show Ready (burstWriterCreate ⟨[], []⟩ level) from ⟨rfl, by simp [burstWriterCreate, writeBufferSize]⟩)
    (allAccepted_of_admissible hbound h hsig hfit
      (show 44 ≤ spaceUntilBoundary 0 by norm_num [spaceUntilBoundary, burstPartSize]))
  obtain ⟨w', hfin, -⟩ := burstWriterFinalize_completes hw
  exact ⟨w, w', hadd, hfin⟩

/-- A caller that goes on after calls that are refused at once ends with the archive of the others. -/
theorem addEach_finalizes (hbound : FramesBounded env level) {calls : List AddCall}
    (h : ∀ call ∈ calls, ¬ call.Rejected → call.ReadsThrough env level ∧
      call.lfh.fields.signature = zipLocalFileHeaderSig ∧ call.HeaderFits) : ∃ w w',
    addAll env (calls.filter fun call ↦ ¬ call.Rejected) (burstWriterCreate ⟨[], []⟩ level) = (some (), w) ∧
      addEach env calls (burstWriterCreate ⟨[], []⟩ level) = w ∧
      addedCalls env calls (burstWriterCreate ⟨[], []⟩ level) = (calls.filter fun call ↦ ¬ call.Rejected) ∧
      burstWriterFinalize w = (some (), w') := by
  have hmem {call : AddCall} (hcall : call ∈ calls.filter fun call ↦ ¬ call.Rejected) :
      call ∈ calls ∧ ¬ call.Rejected := by simpa using hcall
  have hothers {call : AddCall} (hcall : call ∈ calls.filter fun call ↦ ¬ call.Rejected) :=
    h call (hmem hcall).1 (hmem hcall).2
  obtain ⟨w, w', hadd, hfin⟩ := addAll_finalizes hbound
    (fun call hcall ↦ ⟨(hmem hcall).2, (hothers hcall).1⟩) (fun call hcall ↦ (hothers hcall).2.1)
    fun call hcall ↦ (hothers hcall).2.2
  obtain ⟨hend, hadded⟩ := addEach_eq hadd
  exact ⟨w, w', hadd, hend, hadded, hfin⟩

end

end Burst
