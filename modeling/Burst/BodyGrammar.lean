import Burst.EarlyQueueSound
import Burst.StreamProcessor

namespace Burst

open Tiling LittleEndian

namespace LocalFileHeader

/-- The bytes of the name as a reader finds them. -/
def rawName (h : LocalFileHeader) : List UInt8 := h.tail.take h.fields.filenameLength

theorem WellFormed.reads {h : LocalFileHeader} (hw : h.WellFormed) (rest : List UInt8) :
    read (h.bytes ++ rest) 0 4 = zipLocalFileHeaderSig ∧
      read (h.bytes ++ rest) 26 2 = h.fields.filenameLength ∧
      read (h.bytes ++ rest) 28 2 = h.fields.extraFieldLength := by
  have hname := hw.filenameLength_lt
  have hextra := hw.extraFieldLength_lt
  simp (disch := norm_num) only [bytes, ZipLocalHeader.fixedBytes, List.append_assoc,
    read_encode_append, Nat.reduceSub, read_zero_append]
  exact ⟨by rw [hw.signature]; rfl, Nat.mod_eq_of_lt hname, Nat.mod_eq_of_lt hextra⟩

theorem WellFormed.localHeaderSize {h : LocalFileHeader} (hw : h.WellFormed) (rest : List UInt8) :
    localHeaderSize (h.bytes ++ rest) = h.len := by
  obtain ⟨-, hname, hextra⟩ := hw.reads rest
  rw [Burst.localHeaderSize, hname, hextra, len, hw.tail_length, Nat.add_assoc]

/-- A header is taken for padding by its name alone. -/
theorem WellFormed.isPaddingHeader_iff {h : LocalFileHeader} (hw : h.WellFormed)
    (rest : List UInt8) :
    isPaddingHeader (h.bytes ++ rest) = true ↔ h.rawName = paddingLfhFilename := by
  obtain ⟨-, hname, -⟩ := hw.reads rest
  have hdrop : (h.bytes ++ rest).drop 30 = h.tail ++ rest := by
    rw [bytes, List.append_assoc, List.drop_left' h.fields.fixedBytes_length]
  have htail := hw.tail_length
  rw [isPaddingHeader, hname, hdrop, decide_eq_true_iff, rawName]
  constructor
  · rintro ⟨hlen, hbytes⟩
    rwa [List.take_append_of_le_length (by omega), ← hlen] at hbytes
  · intro hraw
    have hlen : h.fields.filenameLength = paddingLfhFilenameLen := by
      have hlen := congrArg List.length hraw
      rw [List.length_take, paddingLfhFilename_length] at hlen
      omega
    refine ⟨hlen, ?_⟩
    rw [List.take_append_of_le_length (by omega), ← hlen]
    exact hraw

end LocalFileHeader

theorem paddingHeaderAt_rawName (env : WriterEnv) (pos targetSize : ℕ) :
    (paddingHeaderAt env pos targetSize).rawName = paddingLfhFilename :=
  List.take_left' paddingLfhFilename_length

theorem handleLocalHeader_skips_iff {h : LocalFileHeader} (hw : h.WellFormed) (env : ProcessorEnv)
    (p : PartProcessor) (rest : List UInt8) :
    (∃ n, handleLocalHeader env p (h.bytes ++ rest) = .skippedPadding n) ↔
      h.rawName = paddingLfhFilename := by
  have hsize := hw.localHeaderSize rest
  have hlen : (h.bytes ++ rest).length = h.len + rest.length := by
    rw [List.length_append, LocalFileHeader.bytes_length]
  have hmin : 30 ≤ h.len := by
    rw [LocalFileHeader.len]
    omega
  rw [← hw.isPaddingHeader_iff rest, handleLocalHeader, if_neg (by omega), if_neg (by omega)]
  constructor
  · rintro ⟨n, hskip⟩
    by_contra hpad
    rw [if_neg hpad] at hskip
    split at hskip
    · cases hskip
    · split at hskip <;> cases hskip
  · intro hpad
    exact ⟨_, if_pos hpad⟩

def Item.header? : Item → Option LocalFileHeader
  | paddingHeader h => some h
  | localHeader h => some h
  | _ => none

/-- Emitted by `write_padding_lfh`. -/
def Item.IsPaddingHeader : Item → Prop
  | paddingHeader _ => True
  | _ => False

/-- The local headers in a part that are not skipped as padding, with their positions. -/
def metHeaders (partSize p pos : ℕ) (items : List Item) : List (ℕ × LocalFileHeader) :=
  (starts Item.len pos items).filterMap fun i ↦ i.2.header?.bind fun h ↦
    if i.1 / partSize = p ∧ isPaddingHeader h.bytes = false then some (i.1, h) else none

/-- The local headers of the entries that start in a part, with their recorded positions. -/
def userHeaders (partSize p : ℕ) (calls : List AddCall) (files : List FileEntry) :
    List (ℕ × LocalFileHeader) :=
  (calls.zip files).filterMap fun e ↦
    if e.2.localHeaderOffset / partSize = p then some (e.2.localHeaderOffset, e.1.lfh) else none

theorem Item.IsBody.header? {i : Item} (h : i.IsBody) : i.header? = none := by
  cases i with
  | paddingHeader | localHeader => exact h.elim
  | frame | padding | startOfPart | descriptor | target => rfl

theorem gapItems_cases (env : WriterEnv) (pos lfhLen contentSize : ℕ) (dd : Bool) :
    gapItems env pos lfhLen contentSize dd = [] ∨ gapItems env pos lfhLen contentSize dd =
      [.paddingHeader (paddingHeaderAt env pos (spaceUntilBoundary pos))] := by
  unfold gapItems
  split
  · exact .inr rfl
  · exact .inl rfl

theorem layoutCall_gap (env : WriterEnv) (level : ℤ) (pos : ℕ) (call : AddCall) :
    (layoutCall env level pos call).gap = [] ∨ (layoutCall env level pos call).gap =
      [.paddingHeader (paddingHeaderAt env pos (spaceUntilBoundary pos))] := by
  cases call with
  | file =>
    simp only [layoutCall]
    split <;> exact gapItems_cases _ _ _ _ _
  | symlink => exact gapItems_cases _ _ _ _ _
  | directory => exact gapItems_cases _ _ _ _ _

theorem layoutCall_header (env : WriterEnv) (level : ℤ) (pos : ℕ) (call : AddCall) :
    (layoutCall env level pos call).header = call.lfh := by
  cases call with
  | file =>
    simp only [layoutCall]
    split <;> rfl
  | symlink => rfl
  | directory => rfl

section
variable (partSize p : ℕ)

theorem metHeaders_append (pos : ℕ) (is js : List Item) :
    metHeaders partSize p pos (is ++ js) =
      metHeaders partSize p pos is ++ metHeaders partSize p (pos + total Item.len is) js := by
  simp only [metHeaders, starts_append, List.filterMap_append]

theorem metHeaders_body {pos : ℕ} {is : List Item} (h : ∀ i ∈ is, i.IsBody) :
    metHeaders partSize p pos is = [] := by
  rw [metHeaders, List.filterMap_eq_nil_iff]
  rintro ⟨q, i⟩ hmem
  obtain ⟨before, after, rfl, -⟩ := mem_starts.mp hmem
  rw [(h i (by simp)).header?]
  rfl

theorem metHeaders_gap (env : WriterEnv) (level : ℤ) (pos : ℕ) (call : AddCall) :
    metHeaders partSize p pos (layoutCall env level pos call).gap = [] := by
  obtain h | h := layoutCall_gap env level pos call
  · rw [h]
    rfl
  · have hpad := ((paddingHeaderAt_wellFormed env pos (spaceUntilBoundary pos)).isPaddingHeader_iff
      []).mpr (paddingHeaderAt_rawName env pos (spaceUntilBoundary pos))
    rw [List.append_nil] at hpad
    rw [h]
    simp [metHeaders, starts, Item.header?, hpad]

theorem metHeaders_layoutCall (env : WriterEnv) (level : ℤ) (pos : ℕ) {call : AddCall}
    (hw : call.lfh.WellFormed) :
    metHeaders partSize p pos (layoutCall env level pos call).items =
      (userHeaders partSize p [call] [recordedEntry env level pos call]).filter
        fun h ↦ h.2.rawName ≠ paddingLfhFilename := by
  have hbody := layoutCall_body_isBody env level pos call
  have hpad := hw.isPaddingHeader_iff []
  rw [List.append_nil] at hpad
  rw [EntryLayout.items, metHeaders_append, metHeaders_gap, List.nil_append, ← List.singleton_append,
    metHeaders_append, metHeaders_body partSize p hbody, List.append_nil, layoutCall_header]
  have hoffset := recordedEntry_localHeaderOffset env level pos call
  change _ = pos + total Item.len (layoutCall env level pos call).gap at hoffset
  simp only [metHeaders, starts, Item.header?, userHeaders, List.zip_cons_cons, List.zip_nil_right,
    List.filterMap_cons, List.filterMap_nil, Option.bind_some, hoffset]
  by_cases hpart : (pos + total Item.len (layoutCall env level pos call).gap) / partSize = p
  · by_cases hname : call.lfh.rawName = paddingLfhFilename
    · simp [hpart, hname, hpad.mpr hname]
    · have hnot : isPaddingHeader call.lfh.bytes = false :=
        Bool.eq_false_iff.mpr fun h ↦ hname (hpad.mp h)
      simp [hpart, hname, hnot]
  · simp [hpart]

/-- The headers a processor does not skip are those of the entries that are not named like the
padding. -/
theorem metHeaders_layoutAll {env : WriterEnv} {level : ℤ} (pos : ℕ) {calls : List AddCall}
    (hw : ∀ call ∈ calls, call.lfh.WellFormed) :
    metHeaders partSize p pos (bodyItems (layoutAll env level pos calls)) =
      (userHeaders partSize p calls (recordedAll env level pos calls)).filter
        fun h ↦ h.2.rawName ≠ paddingLfhFilename := by
  induction calls generalizing pos with
  | nil => rfl
  | cons call calls ih =>
    obtain ⟨hcall, hcalls⟩ := List.forall_mem_cons.mp hw
    rw [layoutAll, bodyItems, List.flatMap_cons, metHeaders_append, metHeaders_layoutCall _ _ _ _ _ hcall]
    change _ ++ metHeaders partSize p _ (bodyItems _) = _
    rw [ih _ hcalls, recordedAll, ← List.filter_append]
    congr 1
    simp only [userHeaders, List.zip_cons_cons, List.filterMap_cons, List.zip_nil_right,
      List.filterMap_nil]
    split <;> rfl

end

/-- What lies between the header and the descriptor of a file. -/
def Item.IsFileData : Item → Prop
  | frame _ _ _ => True
  | padding _ => True
  | startOfPart _ => True
  | _ => False

/-- The chunks whose frames are among the items. -/
def dataChunks (is : List Item) : List (List UInt8) :=
  is.filterMap fun
    | .frame _ chunk _ => some chunk
    | _ => none

/-- What follows the header of an entry. -/
inductive EntryBody : AddCall → List Item → Prop
  | emptyFile {input lfh unixMode uid gid} (h : isHeaderOnly lfh = true) :
    EntryBody (.file input lfh unixMode uid gid) []
  | file {input lfh unixMode uid gid data crc compressedSize useZip64}
    (h : isHeaderOnly lfh = false) (hdata : ∀ i ∈ data, i.IsFileData)
    (hchunks : dataChunks data = input.chunks) :
    EntryBody (.file input lfh unixMode uid gid)
      (data ++ [.descriptor crc compressedSize (fileSize input) useZip64])
  | symlink {lfh target unixMode uid gid} :
    EntryBody (.symlink lfh target unixMode uid gid) [.target target]
  | directory {lfh unixMode uid gid} : EntryBody (.directory lfh unixMode uid gid) []

/-- At most one padding header, the entry's own header and what follows it. -/
inductive EntryForm (call : AddCall) : List Item → Prop
  | plain {body} (hbody : EntryBody call body) : EntryForm call (.localHeader call.lfh :: body)
  | padded {h body} (hpad : h.rawName = paddingLfhFilename) (hbody : EntryBody call body) :
    EntryForm call (.paddingHeader h :: .localHeader call.lfh :: body)

theorem frameItems_isFileData (pos offset : ℕ) (chunk frame : List UInt8) :
    (∀ i ∈ frameItems pos offset chunk frame, i.IsFileData) ∧
      dataChunks (frameItems pos offset chunk frame) = [chunk] := by
  simp only [frameItems]
  cases (alignmentDecide pos frame.length (decide (chunk.length < zstdChunkSize))).action <;>
    simp [Item.IsFileData, dataChunks]

theorem chunkItems_isFileData (env : WriterEnv) (level : ℤ) (pos offset : ℕ)
    (chunks : List (List UInt8)) :
    (∀ i ∈ chunkItems env level pos offset chunks, i.IsFileData) ∧
      dataChunks (chunkItems env level pos offset chunks) = chunks := by
  induction chunks generalizing pos offset with
  | nil => simp [chunkItems, dataChunks]
  | cons chunk chunks ih =>
    obtain ⟨hdata, hchunks⟩ := frameItems_isFileData pos offset chunk
      (compressedFrame env level chunk)
    obtain ⟨hrest, hrests⟩ := ih (pos + total Item.len (frameItems pos offset chunk
      (compressedFrame env level chunk))) (offset + chunk.length)
    rw [chunkItems]
    refine ⟨fun i hi ↦ ?_, ?_⟩
    · rcases List.mem_append.mp hi with hi | hi
      · exact hdata i hi
      · exact hrest i hi
    · rw [dataChunks, List.filterMap_append]
      change dataChunks _ ++ dataChunks _ = _
      rw [hchunks, hrests, List.singleton_append]

theorem fileEnding_isFileData (env : WriterEnv) (level : ℤ) (pos : ℕ) (input : InputFile) :
    (∀ i ∈ fileEnding env level pos input, i.IsFileData) ∧
      dataChunks (fileEnding env level pos input) = [] := by
  simp only [fileEnding, endingItems]
  split <;> simp [Item.IsFileData, dataChunks]

theorem layoutCall_entryBody (env : WriterEnv) (level : ℤ) (pos : ℕ) (call : AddCall) :
    EntryBody call (layoutCall env level pos call).body := by
  cases call with
  | file input lfh unixMode uid gid =>
    simp only [layoutCall]
    cases hho : isHeaderOnly lfh with
    | true =>
      simp only [if_true, EntryLayout.body, List.append_nil]
      exact .emptyFile hho
    | false =>
      obtain ⟨hdata, hchunks⟩ := chunkItems_isFileData env level
        (pos + total Item.len (gapItems env pos lfh.len 0 true) + lfh.len) 0 input.chunks
      obtain ⟨hending, hnone⟩ := fileEnding_isFileData env level
        (pos + total Item.len (gapItems env pos lfh.len 0 true) + lfh.len) input
      simp only [Bool.false_eq_true, if_false, EntryLayout.body]
      refine .file hho (fun i hi ↦ ?_) ?_
      · rcases List.mem_append.mp hi with hi | hi
        · exact hdata i hi
        · exact hending i hi
      · rw [dataChunks, List.filterMap_append]
        change dataChunks _ ++ dataChunks _ = _
        rw [hchunks, hnone, List.append_nil]
  | symlink => exact .symlink
  | directory => exact .directory

theorem layoutCall_entryForm (env : WriterEnv) (level : ℤ) (pos : ℕ) (call : AddCall) :
    EntryForm call (layoutCall env level pos call).items := by
  have hbody := layoutCall_entryBody env level pos call
  rw [EntryLayout.items, layoutCall_header]
  obtain h | h := layoutCall_gap env level pos call
  · rw [h]
    exact .plain hbody
  · rw [h]
    exact .padded (paddingHeaderAt_rawName _ _ _) hbody

theorem layoutAll_entryForm (env : WriterEnv) (level : ℤ) (pos : ℕ) (calls : List AddCall) :
    List.Forall₂ EntryForm calls ((layoutAll env level pos calls).map EntryLayout.items) := by
  induction calls generalizing pos with
  | nil => exact .nil
  | cons call calls ih => exact .cons (layoutCall_entryForm env level pos call) (ih _)

end Burst
