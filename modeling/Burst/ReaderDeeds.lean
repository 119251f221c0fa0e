import Burst.ExtractedTree
import Burst.PartResults

namespace Burst

open Tiling LittleEndian Incremental Interleaving PositionedWrites

/-- What may be done to have the entries there. -/
inductive Deed (path : ℕ → Path) (entries : List (AddCall × FileEntry)) : FileOp → Prop where
  | opens {i : ℕ} {call : AddCall} {e : FileEntry} (hentry : entries[i]? = some (call, e))
    (hlink : call.isSymlink = false) : Deed path entries (.openFile (path i))
  | writes {i offset : ℕ} {call : AddCall} {e : FileEntry} {data : List UInt8}
    (hentry : entries[i]? = some (call, e)) (hlink : call.isSymlink = false)
    (hdata : data <+: call.content.drop offset) : Deed path entries (.pwrite (path i) data offset)
  | sizes {i : ℕ} {call : AddCall} {e : FileEntry} (hentry : entries[i]? = some (call, e))
    (hlink : call.isSymlink = false) : Deed path entries (.ftruncate (path i) call.content.length)
  | links {i : ℕ} {call : AddCall} {e : FileEntry} (hentry : entries[i]? = some (call, e))
    (hlink : call.isSymlink = true) :
    Deed path entries (.symlink (call.content.takeWhile (· ≠ 0)) (path i))

section

variable {env : WriterEnv} {level : ℤ} {path : ℕ → Path} {entries : List (AddCall × FileEntry)} {pos : ℕ}
  {s s' : ReadPos} {is : List Item} {out : List FileOp}

theorem ReadStep.deeds {item : Item} (h : ReadStep env level path entries pos s item out s') :
    ∀ op ∈ out, Deed path entries op := by
  intro op hop
  cases h with
  | padding => cases hop
  | @header i call e hentry hpos =>
    cases call with
    | file input lfh unixMode uid gid =>
      have hopens := @Deed.opens path entries i _ e hentry rfl
      rw [AddCall.opened] at hop
      split at hop
      · next hho =>
        have hsizes := @Deed.sizes path entries i _ e hentry rfl
        rw [AddCall.content, if_pos hho] at hsizes
        simp only [List.mem_cons, List.not_mem_nil, or_false] at hop
        rcases hop with rfl | rfl
        · exact hopens
        · exact hsizes
      · rw [List.mem_singleton.mp hop]
        exact hopens
    | symlink => cases hop
    | directory => cases hop
  | data hentry hdata hfits =>
    cases hdata with
    | frame hframe hlen =>
      rw [List.mem_singleton.mp hop]
      exact .writes hentry rfl (hfits _ _ _ rfl)
    | padding => cases hop
    | startOfPart => cases hop
  | descriptor hentry hsize hzip64 =>
    rw [List.mem_singleton.mp hop, ← hsize]
    exact .sizes hentry rfl
  | target hentry =>
    rw [List.mem_singleton.mp hop]
    exact .links hentry rfl

theorem Reads.deeds (h : Reads env level path entries pos s is out s') :
    ∀ op ∈ out, Deed path entries op := by
  induction h with
  | nil => simp
  | cons hstep _ ih =>
    intro op hop
    rcases List.mem_append.mp hop with hfirst | hlater
    · exact hstep.deeds op hfirst
    · exact ih op hlater

/-- The file whose data is being read has been opened. -/
def ReadPos.Opened (path : ℕ → Path) (done : List FileOp) : ReadPos → Prop
  | header _ => True
  | data i _ => .openFile (path i) ∈ done
  | target _ => True

/-- No file is changed that has not been opened. -/
def OpensFirst (ops : List FileOp) : Prop :=
  ∀ path, Precedes ops (fun op ↦ (op.edit? path).isSome) (· = .openFile path)

theorem OpensFirst.nil : OpensFirst [] := fun _ ↦ Precedes.nil

theorem OpensFirst.append {ops : List FileOp} {op : FileOp} (h : OpensFirst ops)
    (hop : ∀ path, (op.edit? path).isSome → .openFile path ∈ ops) : OpensFirst (ops ++ [op]) := by
  intro path
  refine (h path).append_of_mem fun o ho hedit ↦ ?_
  rw [List.mem_singleton.mp ho] at hedit
  exact ⟨_, hop path hedit, rfl⟩

theorem FileOp.edit?_ftruncate {path p : Path} {n : ℕ} (h : ((FileOp.ftruncate p n).edit? path).isSome) :
    p = path := by
  rw [edit?] at h
  split at h
  · next heq => exact heq
  · cases h

theorem FileOp.edit?_pwrite {path p : Path} {data : List UInt8} {offset : ℕ}
    (h : ((FileOp.pwrite p data offset).edit? path).isSome) : p = path := by
  rw [edit?] at h
  split at h
  · next heq => exact heq
  · cases h

theorem ReadStep.opensFirst {item : Item} (h : ReadStep env level path entries pos s item out s')
    {done : List FileOp} (hdone : OpensFirst done) (hs : s.Opened path done) :
    OpensFirst (done ++ out) ∧ s'.Opened path (done ++ out) := by
  cases h with
  | padding =>
    rw [List.append_nil]
    exact ⟨hdone, trivial⟩
  | @header i call e hentry hpos =>
    cases call with
    | file input lfh unixMode uid gid =>
      have hopens : OpensFirst (done ++ [.openFile (path i)]) := hdone.append fun path hedit ↦ by cases hedit
      have hmem : .openFile (path i) ∈ done ++ [.openFile (path i)] :=
        List.mem_append_right _ (List.mem_singleton.mpr rfl)
      rw [AddCall.opened]
      split
      · have hsizes : OpensFirst (done ++ [.openFile (path i)] ++ [.ftruncate (path i) 0]) :=
          hopens.append fun path hedit ↦ by rwa [← FileOp.edit?_ftruncate hedit]
        rw [List.append_assoc] at hsizes
        exact ⟨hsizes, trivial⟩
      · exact ⟨hopens, hmem⟩
    | symlink =>
      rw [AddCall.opened, List.append_nil]
      exact ⟨hdone, trivial⟩
    | directory =>
      rw [AddCall.opened, List.append_nil]
      exact ⟨hdone, trivial⟩
  | @data i offset offset' _ _ _ _ _ _ _ _ hdata hfits =>
    have hopened : FileOp.openFile (path i) ∈ done := hs
    cases hdata with
    | frame hframe hlen =>
      refine ⟨hdone.append fun path hedit ↦ ?_, List.mem_append_left _ hopened⟩
      rwa [← FileOp.edit?_pwrite hedit]
    | padding => exact ⟨(List.append_nil done).symm ▸ hdone, List.mem_append_left _ hopened⟩
    | startOfPart => exact ⟨(List.append_nil done).symm ▸ hdone, List.mem_append_left _ hopened⟩
  | descriptor hentry hsize hzip64 =>
    refine ⟨hdone.append fun path hedit ↦ ?_, trivial⟩
    rw [← FileOp.edit?_ftruncate hedit]
    exact hs
  | target hentry => exact ⟨hdone.append (fun path hedit ↦ by cases hedit), trivial⟩

theorem Reads.opensFirst (h : Reads env level path entries pos s is out s') {done : List FileOp}
    (hdone : OpensFirst done) (hs : s.Opened path done) :
    OpensFirst (done ++ out) ∧ s'.Opened path (done ++ out) := by
  induction h generalizing done with
  | nil =>
    rw [List.append_nil]
    exact ⟨hdone, hs⟩
  | cons hstep _ ih =>
    obtain ⟨hfirst, hopened⟩ := hstep.opensFirst hdone hs
    rw [← List.append_assoc]
    exact ih hfirst hopened

/-- What a part comes to opens every file before it changes it. -/
theorem Reads.part_opensFirst (h : Reads env level path entries pos s is out s') :
    OpensFirst (s.opening path ++ (out ++ s'.closing path entries)) := by
  have hstart : OpensFirst (s.opening path) ∧ s.Opened path (s.opening path) := by
    cases s with
    | header => exact ⟨.nil, trivial⟩
    | data i offset =>
      exact ⟨OpensFirst.nil.append (fun _ hedit ↦ by cases hedit), List.mem_singleton.mpr rfl⟩
    | target => exact ⟨.nil, trivial⟩
  obtain ⟨hopens, hopened⟩ := Reads.opensFirst h hstart.1 hstart.2
  rw [← List.append_assoc]
  cases s' with
  | header =>
    rw [ReadPos.closing, List.append_nil]
    exact hopens
  | target =>
    rw [ReadPos.closing, List.append_nil]
    exact hopens
  | data i offset =>
    rw [ReadPos.closing]
    cases entries[i]? with
    | none =>
      rw [Option.map_none, Option.toList_none, List.append_nil]
      exact hopens
    | some entry =>
      refine hopens.append fun path hedit ↦ ?_
      rw [← FileOp.edit?_ftruncate hedit]
      exact hopened

/-- Every byte of the data that is read is written. -/
theorem DataWalk.covers {offset offset' : ℕ} (h : DataWalk env level pos offset is offset') (p : Path) {k : ℕ}
    (hlo : offset ≤ k) (hhi : k < offset') : ∃ data o, .pwrite p data o ∈ is.flatMap (Item.writes p) ∧
      o ≤ k ∧ k < o + data.length := by
  induction h with
  | nil => omega
  | @cons pos offset next offset' item is hstep htail ih =>
    have hlater (hnext : next ≤ k) : ∃ data o, .pwrite p data o ∈ (item :: is).flatMap (Item.writes p) ∧
        o ≤ k ∧ k < o + data.length := by
      obtain ⟨data, o, hmem, hcovers⟩ := ih hnext hhi
      exact ⟨data, o, by rw [List.flatMap_cons]; exact List.mem_append_right _ hmem, hcovers⟩
    cases hstep with
    | @frame chunk bytes hframe hlen =>
      rcases Nat.lt_or_ge k (offset + chunk.length) with hinside | hbeyond
      · refine ⟨chunk, offset, ?_, hlo, hinside⟩
        rw [List.flatMap_cons]
        exact List.mem_append_left _ (List.mem_singleton.mpr rfl)
      · exact hlater hbeyond
    | padding => exact hlater hlo
    | startOfPart => exact hlater hlo

end

/-- Every byte of a file is written, and it is given its length. -/
theorem deeds_covers {env : WriterEnv} {level : ℤ} (hbound : FramesBounded env level) {pos : ℕ}
    {call : AddCall} (hacc : Accepted env level pos call) (hfit : call.HeaderFits)
    (hlink : call.isSymlink = false) (hdirectory : call.isDirectory = false) (p : Path) :
    .ftruncate p call.content.length ∈ call.deeds env level pos p ∧
      ∀ k < call.content.length, ∃ data o, .pwrite p data o ∈ call.deeds env level pos p ∧
        o ≤ k ∧ k < o + data.length := by
  cases call with
  | file input lfh unixMode uid gid =>
    refine ⟨by simp [AddCall.deeds], fun k hk ↦ ?_⟩
    cases hho : isHeaderOnly lfh with
    | true =>
      rw [AddCall.content, if_pos hho] at hk
      cases hk
    | false =>
      rw [AddCall.content, hho, if_neg Bool.false_ne_true, ← fileSize_eq_length] at hk
      obtain ⟨data, o, hmem, hcovers⟩ :=
        DataWalk.covers (hacc.fileData_walk hbound hho hfit) p (Nat.zero_le k) hk
      exact ⟨data, o, List.mem_cons_of_mem _ (List.mem_append_left _ hmem), hcovers⟩
  | symlink => cases hlink
  | directory => cases hdirectory

/-- What an entry comes to is part of what all of them come to. -/
theorem allDeeds_mem {env : WriterEnv} {level : ℤ} {path : ℕ → Path} {calls : List AddCall}
    {pos i j : ℕ} (hacc : AllAccepted env level pos calls) {call : AddCall} (hcall : calls[j]? = some call) :
    ∃ pos', Accepted env level pos' call ∧
      ∀ op ∈ call.deeds env level pos' (path (i + j)), op ∈ allDeeds env level path pos i calls := by
  induction calls generalizing pos i j with
  | nil => cases hcall
  | cons first calls ih =>
    obtain ⟨hfirst, hrest⟩ := hacc
    cases j with
    | zero =>
      obtain rfl := Option.some.inj hcall
      exact ⟨pos, hfirst, fun op hop ↦ List.mem_append_left _ hop⟩
    | succ j =>
      obtain ⟨pos', haccepted, hmem⟩ := @ih _ (i + 1) j hrest hcall
      refine ⟨pos', haccepted, fun op hop ↦ List.mem_append_right _ (hmem op ?_)⟩
      rwa [Nat.add_right_comm, Nat.add_assoc]

end Burst
