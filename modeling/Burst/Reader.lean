import Burst.FileDataRun
import Burst.HeaderPairing
import Burst.Lib.TileRuns

namespace Burst

open Tiling LittleEndian

/-- What is stored of an entry. -/
def AddCall.content : AddCall → List UInt8
  | .file input lfh _ _ _ => if isHeaderOnly lfh then [] else input.chunks.flatten
  | .symlink _ target _ _ _ => target
  | .directory _ _ _ _ => []

/-- Where a reader of the body is: before the header of an entry, in the data of a file at an offset, or
before the target of a symlink. -/
inductive ReadPos where
  | header (i : ℕ)
  | data (i offset : ℕ)
  | target (i : ℕ)

/-- What is made of the header of an entry, and where the reader is after it. -/
def AddCall.opened (call : AddCall) (path : Path) (i : ℕ) : List FileOp × ReadPos :=
  match call with
  | .file _ lfh _ _ _ =>
    if isHeaderOnly lfh then ([.openFile path, .ftruncate path 0], .header (i + 1))
    else ([.openFile path], .data i 0)
  | .symlink _ _ _ _ _ => ([], .target i)
  | .directory _ _ _ _ => ([], .header (i + 1))

/-- A reader that makes the entries of an archive out of its items: what an item comes to, and where the
reader is after it. -/
inductive ReadStep (env : WriterEnv) (level : ℤ) (path : ℕ → Path) (entries : List (AddCall × FileEntry)) :
    ℕ → ReadPos → Item → List FileOp → ReadPos → Prop where
  | padding {pos i : ℕ} {h : LocalFileHeader} (hw : h.WellFormed) (hname : h.rawName = paddingLfhFilename) :
    ReadStep env level path entries pos (.header i) (.paddingHeader h) [] (.header i)
  | header {pos i : ℕ} {call : AddCall} {e : FileEntry} (hentry : entries[i]? = some (call, e))
    (hpos : e.localHeaderOffset = pos) :
    ReadStep env level path entries pos (.header i) (.localHeader call.lfh) (call.opened (path i) i).1
      (call.opened (path i) i).2
  | data {pos i offset offset' : ℕ} {input : InputFile} {lfh : LocalFileHeader} {unixMode uid gid : ℕ}
    {e : FileEntry} {item : Item} (hentry : entries[i]? = some (.file input lfh unixMode uid gid, e))
    (hstep : DataStep env level pos offset item offset')
    (hfits : ∀ o chunk bytes, item = .frame o chunk bytes →
      chunk <+: (AddCall.content (.file input lfh unixMode uid gid)).drop o) :
    ReadStep env level path entries pos (.data i offset) item (item.writes (path i)) (.data i offset')
  | descriptor {pos i crc32 compressedSize size : ℕ} {useZip64 : Bool} {input : InputFile}
    {lfh : LocalFileHeader} {unixMode uid gid : ℕ} {e : FileEntry}
    (hentry : entries[i]? = some (.file input lfh unixMode uid gid, e))
    (hsize : (AddCall.content (.file input lfh unixMode uid gid)).length = size)
    (hzip64 : useZip64 = e.usedZip64Descriptor) :
    ReadStep env level path entries pos (.data i size) (.descriptor crc32 compressedSize size useZip64)
      [.ftruncate (path i) size] (.header (i + 1))
  | target {pos i : ℕ} {lfh : LocalFileHeader} {target : List UInt8} {unixMode uid gid : ℕ} {e : FileEntry}
    (hentry : entries[i]? = some (.symlink lfh target unixMode uid gid, e)) :
    ReadStep env level path entries pos (.target i) (.target target)
      [.symlink (target.takeWhile (· ≠ 0)) (path i)] (.header (i + 1))

/-- Reading a row of items. -/
abbrev Reads (env : WriterEnv) (level : ℤ) (path : ℕ → Path) (entries : List (AddCall × FileEntry)) :
    ℕ → ReadPos → List Item → List FileOp → ReadPos → Prop :=
  Run Item.len (ReadStep env level path entries)

/-- What an entry comes to as a whole. -/
def AddCall.deeds (env : WriterEnv) (level : ℤ) (call : AddCall) (pos : ℕ) (path : Path) : List FileOp :=
  match call with
  | .file input lfh unixMode uid gid =>
    let l := layoutCall env level pos (.file input lfh unixMode uid gid)
    .openFile path :: ((l.data ++ l.ending).flatMap (Item.writes path) ++
      [.ftruncate path (AddCall.content (.file input lfh unixMode uid gid)).length])
  | .symlink _ target _ _ _ => [.symlink (target.takeWhile (· ≠ 0)) path]
  | .directory _ _ _ _ => []

theorem fileSize_eq_length (input : InputFile) : fileSize input = input.chunks.flatten.length := by
  rw [List.length_flatten]
  rfl

section

variable {env : WriterEnv} {level : ℤ} {path : ℕ → Path} {entries : List (AddCall × FileEntry)}

/-- The data of a file is read to its end. -/
theorem DataWalk.reads {i : ℕ} {input : InputFile} {lfh : LocalFileHeader} {unixMode uid gid : ℕ}
    {e : FileEntry} (hentry : entries[i]? = some (.file input lfh unixMode uid gid, e)) {is : List Item}
    {pos offset offset' : ℕ} (h : DataWalk env level pos offset is offset')
    (hchunks : (AddCall.content (.file input lfh unixMode uid gid)).drop offset = (dataChunks is).flatten) :
    Reads env level path entries pos (.data i offset) is (is.flatMap (Item.writes (path i)))
      (.data i offset') := by
  induction h with
  | nil pos offset => exact .nil pos _
  | @cons pos offset next offset' item is hstep htail ih =>
    rw [List.flatMap_cons]
    refine .cons (.data hentry hstep ?_) (ih ?_)
    · rintro o chunk bytes rfl
      cases hstep with
      | frame hframe hlen =>
        rw [hchunks]
        exact List.prefix_append chunk _
    · cases hstep with
      | frame hframe hlen =>
        rw [← List.drop_drop, hchunks]
        exact List.drop_left' rfl
      | padding => exact hchunks
      | startOfPart => exact hchunks

theorem dataChunks_file (env : WriterEnv) (level : ℤ) (pos : ℕ) (input : InputFile) :
    dataChunks (chunkItems env level pos 0 input.chunks ++ fileEnding env level pos input) =
      input.chunks := by
  rw [dataChunks, List.filterMap_append]
  change dataChunks _ ++ dataChunks _ = _
  rw [(chunkItems_isFileData env level pos 0 input.chunks).2, (fileEnding_isFileData env level pos input).2,
    List.append_nil]

theorem gapItems_reads (pos lfhLen contentSize : ℕ) (dd : Bool) (i : ℕ) :
    Reads env level path entries pos (.header i) (gapItems env pos lfhLen contentSize dd) []
      (.header i) := by
  rcases gapItems_cases env pos lfhLen contentSize dd with hnone | hone
  · rw [hnone]
    exact .nil pos _
  · rw [hone]
    exact Run.one (.padding (paddingHeaderAt_wellFormed _ _ _) (paddingHeaderAt_rawName _ _ _))

/-- The header of an entry after the padding before it. -/
theorem layoutCall_header_reads {pos i : ℕ} {call : AddCall}
    (hentry : entries[i]? = some (call, recordedEntry env level pos call)) :
    Reads env level path entries pos (.header i)
      ((layoutCall env level pos call).gap ++ [.localHeader call.lfh]) (call.opened (path i) i).1
      (call.opened (path i) i).2 := by
  have hgap : Reads env level path entries pos (.header i) (layoutCall env level pos call).gap []
      (.header i) := by
    cases call with
    | file input lfh unixMode uid gid =>
      simp only [layoutCall]
      split <;> exact gapItems_reads pos lfh.len 0 true i
    | symlink lfh target unixMode uid gid => exact gapItems_reads pos lfh.len target.length false i
    | directory lfh unixMode uid gid => exact gapItems_reads pos lfh.len 0 false i
  have hoffset := recordedEntry_localHeaderOffset env level pos call
  exact hgap.append (Run.one (.header hentry hoffset))

theorem layoutCall_dataPos (pos : ℕ) (call : AddCall) :
    pos + total Item.len ((layoutCall env level pos call).gap ++ [.localHeader call.lfh]) =
      (layoutCall env level pos call).dataPos pos := by
  rw [EntryLayout.dataPos, EntryLayout.headerPos, layoutCall_header, total_append, total_cons, total_nil,
    Item.len_localHeader, Nat.add_zero, Nat.add_assoc]

/-- The data of a file with its descriptor. -/
theorem layoutFile_body_reads (hbound : FramesBounded env level) {pos i : ℕ} {input : InputFile}
    {lfh : LocalFileHeader} {unixMode uid gid : ℕ} (hho : isHeaderOnly lfh = false)
    (hacc : Accepted env level pos (.file input lfh unixMode uid gid)) (hfit : lfh.len + 68 ≤ 65579)
    (hentry : entries[i]? = some (.file input lfh unixMode uid gid,
      recordedEntry env level pos (.file input lfh unixMode uid gid))) :
    let l := layoutCall env level pos (.file input lfh unixMode uid gid)
    Reads env level path entries (l.dataPos pos) (.data i 0) l.body
      ((l.data ++ l.ending).flatMap (Item.writes (path i)) ++ [.ftruncate (path i) (fileSize input)])
      (.header (i + 1)) := by
  intro l
  have hchunks : dataChunks (l.data ++ l.ending) = input.chunks := by
    simp only [l, layoutCall, hho, Bool.false_eq_true, if_false]
    exact dataChunks_file env level _ input
  have hwalk : DataWalk env level (l.dataPos pos) 0 (l.data ++ l.ending) (fileSize input) :=
    hacc.fileData_walk hbound hho hfit
  have hcontent : AddCall.content (.file input lfh unixMode uid gid) = input.chunks.flatten := by
    rw [AddCall.content, hho, if_neg Bool.false_ne_true]
  have hdata : Reads env level path entries (l.dataPos pos) (.data i 0) (l.data ++ l.ending)
      ((l.data ++ l.ending).flatMap (Item.writes (path i))) (.data i (fileSize input)) :=
    hwalk.reads hentry (by rw [hchunks, hcontent, List.drop_zero])
  have hsize : (AddCall.content (.file input lfh unixMode uid gid)).length = fileSize input := by
    rw [hcontent]
    exact (fileSize_eq_length input).symm
  have hbody : l.body = l.data ++ l.ending ++ [fileDescriptor env level (l.dataPos pos) input] := by
    simp only [l, layoutCall, hho, Bool.false_eq_true, if_false, EntryLayout.body, EntryLayout.dataPos,
      EntryLayout.headerPos]
  have hzip64 : usesZip64Descriptor
      (total Item.len (chunkItems env level (l.dataPos pos) 0 input.chunks)) (fileSize input) =
        (recordedEntry env level pos (.file input lfh unixMode uid gid)).usedZip64Descriptor := by
    simp only [recordedEntry, hho, Bool.false_eq_true, if_false, completedEntry, l]
  rw [hbody]
  exact hdata.append (Run.one (.descriptor hentry hsize hzip64))

theorem layoutCall_reads (hbound : FramesBounded env level) {pos i : ℕ} {call : AddCall}
    (hacc : Accepted env level pos call) (hfit : call.HeaderFits)
    (hentry : entries[i]? = some (call, recordedEntry env level pos call)) :
    Reads env level path entries pos (.header i) (layoutCall env level pos call).items
      (call.deeds env level pos (path i)) (.header (i + 1)) := by
  have hheader := @layoutCall_header_reads env level path entries pos i call hentry
  have hdataPos := @layoutCall_dataPos env level pos call
  have hitems : (layoutCall env level pos call).items =
      ((layoutCall env level pos call).gap ++ [.localHeader call.lfh]) ++
        (layoutCall env level pos call).body := by
    rw [EntryLayout.items, layoutCall_header, List.append_assoc, List.singleton_append]
  rw [hitems]
  cases call with
  | file input lfh unixMode uid gid =>
    cases hho : isHeaderOnly lfh with
    | true =>
      have hbody : (layoutCall env level pos (.file input lfh unixMode uid gid)).body = [] := by
        simp only [layoutCall, hho, if_true, EntryLayout.body, List.append_nil]
      have hdeeds : AddCall.deeds env level (.file input lfh unixMode uid gid) pos (path i) =
          [.openFile (path i), .ftruncate (path i) 0] := by
        simp only [AddCall.deeds, AddCall.content, layoutCall, hho, if_true]
        rfl
      simp only [AddCall.opened, hho, if_true] at hheader
      rw [hbody, List.append_nil, hdeeds]
      exact hheader
    | false =>
      have hbody := @layoutFile_body_reads env level path entries hbound pos i input lfh unixMode uid gid
        hho hacc hfit hentry
      have hsize : (AddCall.content (.file input lfh unixMode uid gid)).length = fileSize input := by
        simp only [AddCall.content, hho, Bool.false_eq_true, if_false]
        exact (fileSize_eq_length input).symm
      simp only [AddCall.opened, hho, Bool.false_eq_true, if_false] at hheader
      simp only [AddCall.deeds, hsize]
      refine hheader.append ?_
      rw [hdataPos]
      exact hbody
  | symlink lfh target unixMode uid gid =>
    exact hheader.append (Run.one (.target hentry))
  | directory lfh unixMode uid gid =>
    exact hheader.append (.nil _ _)

end

/-- What entries come to one after another. -/
def allDeeds (env : WriterEnv) (level : ℤ) (path : ℕ → Path) : ℕ → ℕ → List AddCall → List FileOp
  | _, _, [] => []
  | pos, i, call :: calls => call.deeds env level pos (path i) ++
      allDeeds env level path (pos + total Item.len (layoutCall env level pos call).items) (i + 1) calls

/-- The body of an archive is read from its first header to its end. -/
theorem layoutAll_reads {env : WriterEnv} {level : ℤ} (hbound : FramesBounded env level)
    {path : ℕ → Path} {entries : List (AddCall × FileEntry)} {calls : List AddCall} {pos i : ℕ}
    (hacc : AllAccepted env level pos calls) (hfit : ∀ call ∈ calls, call.HeaderFits)
    (hentries : entries.drop i = calls.zip (recordedAll env level pos calls)) :
    Reads env level path entries pos (.header i) (bodyItems (layoutAll env level pos calls))
      (allDeeds env level path pos i calls) (.header (i + calls.length)) := by
  induction calls generalizing pos i with
  | nil => exact .nil pos _
  | cons call calls ih =>
    obtain ⟨hcall, hcalls⟩ := hacc
    have hentry : entries[i]? = some (call, recordedEntry env level pos call) := by
      have hget := congrArg (fun xs : List (AddCall × FileEntry) ↦ xs[0]?) hentries
      simpa [recordedAll] using hget
    have hlater : entries.drop (i + 1) = calls.zip (recordedAll env level
        (pos + total Item.len (layoutCall env level pos call).items) calls) := by
      rw [← List.drop_drop, hentries]
      rfl
    have hrest := ih hcalls (fun c hc ↦ hfit c (List.mem_cons_of_mem _ hc)) hlater
    rw [List.length_cons, Nat.add_comm calls.length, ← Nat.add_assoc]
    exact (layoutCall_reads hbound hcall (hfit call List.mem_cons_self) hentry).append hrest

end Burst
