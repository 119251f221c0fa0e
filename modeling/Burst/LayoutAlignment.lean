import Burst.Finalize

namespace Burst

open Tiling LittleEndian

/-- What may lie on a part boundary. -/
def Item.StartsPart : Item → Prop
  | paddingHeader h => h.fields.signature = zipLocalFileHeaderSig
  | localHeader h => h.fields.signature = zipLocalFileHeaderSig
  | startOfPart _ => True
  | _ => False

/-- The 8 MiB alignment rule for items from a position on. -/
def PartAligned (pos : ℕ) (is : List Item) : Prop :=
  Aligned Item.len burstPartSize Item.StartsPart pos is

/-- A position inside a part with room for a skippable frame before the part ends. -/
def Inside (pos : ℕ) : Prop := 8 ≤ spaceUntilBoundary pos ∧ spaceUntilBoundary pos < burstPartSize

/-- A position inside a part with room for a padding header before the part ends. -/
def Roomy (pos : ℕ) : Prop := 44 ≤ spaceUntilBoundary pos ∧ spaceUntilBoundary pos < burstPartSize

theorem not_straddles_of_space {pos n : ℕ} (h : n ≤ spaceUntilBoundary pos) :
    ¬ Straddles burstPartSize pos n := by
  refine not_straddles_of_le ?_
  rw [spaceUntilBoundary, burstPartSize] at h
  rw [burstPartSize]
  omega

theorem spaceUntilBoundary_of_dvd {pos : ℕ} (h : burstPartSize ∣ pos) :
    spaceUntilBoundary pos = burstPartSize := by
  rw [spaceUntilBoundary, Nat.mod_eq_zero_of_dvd h, Nat.sub_zero]

theorem partAligned_nil (pos : ℕ) : PartAligned pos [] := trivial

theorem partAligned_append {pos : ℕ} {is js : List Item} :
    PartAligned pos (is ++ js) ↔ PartAligned pos is ∧ PartAligned (pos + total Item.len is) js :=
  aligned_append

theorem partAligned_cons {pos : ℕ} {i : Item} {is : List Item}
    (hfit : i.len ≤ spaceUntilBoundary pos) (hstart : burstPartSize ∣ pos → i.StartsPart)
    (hrest : PartAligned (pos + i.len) is) : PartAligned pos (i :: is) :=
  ⟨not_straddles_of_space hfit, hstart, hrest⟩

/-- Away from a boundary any item that fits may come. -/
theorem partAligned_cons_inside {pos : ℕ} {i : Item} {is : List Item}
    (hfit : i.len ≤ spaceUntilBoundary pos) (hin : spaceUntilBoundary pos < burstPartSize)
    (hrest : PartAligned (pos + i.len) is) : PartAligned pos (i :: is) := by
  refine partAligned_cons hfit (fun hdvd ↦ ?_) hrest
  rw [spaceUntilBoundary_of_dvd hdvd] at hin
  exact (Nat.lt_irrefl _ hin).elim

/-- Padding up to the boundary with a Start-of-Part frame there. -/
theorem partAligned_padding {pos offset : ℕ} {is : List Item} (hin : Inside pos)
    (hrest : PartAligned (pos + spaceUntilBoundary pos + 24) is) :
    PartAligned pos (.padding (sub64 (spaceUntilBoundary pos) 8) :: .startOfPart offset :: is) := by
  have hpos : spaceUntilBoundary pos < 2 ^ 64 :=
    (spaceUntilBoundary_le pos).trans_lt (by norm_num [burstPartSize])
  have hlen : (Item.padding (sub64 (spaceUntilBoundary pos) 8)).len = spaceUntilBoundary pos := by
    rw [Item.len_padding, sub64_of_le hin.1 hpos]
    have := hin.1
    omega
  refine partAligned_cons_inside hlen.le hin.2 ?_
  rw [hlen]
  have hspace := spaceUntilBoundary_of_dvd (dvd_add_spaceUntilBoundary pos)
  refine partAligned_cons ?_ (fun _ ↦ trivial) ?_
  · rw [hspace, Item.len_startOfPart]
    norm_num [burstPartSize]
  · rwa [Item.len_startOfPart]

theorem paddingToBoundary_len {pos : ℕ} (hin : Inside pos) :
    (Item.padding (sub64 (spaceUntilBoundary pos) 8)).len = spaceUntilBoundary pos := by
  have hpos : spaceUntilBoundary pos < 2 ^ 64 :=
    (spaceUntilBoundary_le pos).trans_lt (by norm_num [burstPartSize])
  rw [Item.len_padding, sub64_of_le hin.1 hpos]
  have := hin.1
  omega

theorem paddingToBoundary_writable {pos : ℕ} (hin : Inside pos) :
    (Item.padding (sub64 (spaceUntilBoundary pos) 8)).Writable := by
  have hpos := spaceUntilBoundary_le pos
  have hsize : burstPartSize < 2 ^ 63 := by norm_num [burstPartSize]
  rw [Item.Writable, sub64_of_le hin.1 (by omega)]
  omega

/-- The largest frame `ZSTD_compressBound` allows for a chunk. -/
def zstdCompressBound (n : ℕ) : ℕ :=
  n + n / 256 + if n < 128 * 1024 then (128 * 1024 - n) / 2048 else 0

theorem frameItems_aligned {pos : ℕ} (offset : ℕ) (chunk : List UInt8) {frame : List UInt8}
    (hin : Inside pos) (hframe : frame.length ≤ zstdCompressBound zstdChunkSize) :
    PartAligned pos (frameItems pos offset chunk frame) ∧
      Inside (pos + total Item.len (frameItems pos offset chunk frame)) ∧
      ∀ i ∈ frameItems pos offset chunk frame, i.Writable := by
  have hbound : frame.length ≤ 131584 := hframe
  obtain ⟨hlo, hhi⟩ := hin
  simp only [frameItems]
  obtain ⟨ha, hspace⟩ | ⟨ha, -, hspace⟩ | ⟨ha, hn, -⟩ :=
    alignmentDecide_cases pos frame.length (decide (chunk.length < zstdChunkSize))
  · -- the frame fits, with room for a skippable frame or for the data descriptor after it
    have hafter : frame.length + 8 ≤ spaceUntilBoundary pos := by
      rcases hspace with ⟨hexact, hend⟩ | hcomfort
      · rw [if_pos hend] at hexact
        omega
      · split at hcomfort <;> omega
    simp only [ha, List.nil_append, reduceCtorEq, if_false, List.append_nil]
    refine ⟨partAligned_cons_inside (by rw [Item.len_frame]; omega) hhi (partAligned_nil _), ?_,
      by simp [Item.Writable]⟩
    have hroom := spaceUntilBoundary_add (show frame.length < spaceUntilBoundary pos by omega)
    rw [total_cons, total_nil, Item.len_frame, Nat.add_zero, Inside, hroom]
    omega
  · -- the frame ends on the boundary
    simp only [ha, List.nil_append, if_true, List.singleton_append]
    have hnext := spaceUntilBoundary_of_dvd (dvd_add_spaceUntilBoundary pos)
    rw [hspace] at hnext
    refine ⟨partAligned_cons_inside (by rw [Item.len_frame, hspace]) hhi
      (partAligned_cons ?_ (fun _ ↦ trivial) (partAligned_nil _)), ?_, by simp [Item.Writable]⟩
    · rw [Item.len_frame, hnext, Item.len_startOfPart]
      norm_num [burstPartSize]
    · simp only [total_cons, total_nil, Item.len_frame, Item.len_startOfPart, Nat.add_zero, Inside]
      rw [← Nat.add_assoc, ← hspace, spaceUntilBoundary_boundary (by norm_num [burstPartSize])]
      norm_num [burstPartSize]
  · simp only [ha, hn, reduceCtorEq, if_false, List.append_nil, List.cons_append, List.nil_append]
    have hspace : spaceUntilBoundary (pos + spaceUntilBoundary pos + 24) = burstPartSize - 24 :=
      spaceUntilBoundary_boundary (by norm_num [burstPartSize])
    refine ⟨partAligned_padding ⟨hlo, hhi⟩ (partAligned_cons_inside ?_ ?_ (partAligned_nil _)), ?_,
      ?_⟩
    · rw [hspace, Item.len_frame, burstPartSize]
      omega
    · rw [hspace]
      norm_num [burstPartSize]
    · simp only [total_cons, total_nil, paddingToBoundary_len ⟨hlo, hhi⟩, Item.len_startOfPart,
        Item.len_frame, Nat.add_zero, Inside]
      rw [← Nat.add_assoc, spaceUntilBoundary_boundary (by rw [burstPartSize]; omega), burstPartSize]
      omega
    · simpa [Item.Writable] using paddingToBoundary_writable ⟨hlo, hhi⟩

/-- Frames no longer than the compression bound. -/
def FramesBounded (env : WriterEnv) (level : ℤ) : Prop :=
  ∀ chunk frame, chunk.length ≤ zstdChunkSize → env.compressChunk level chunk = some frame →
    frame.length ≤ zstdCompressBound zstdChunkSize

theorem rawEnv_framesBounded (level : ℤ) : FramesBounded rawEnv level := by
  intro chunk frame hchunk hframe
  obtain rfl := Option.some.inj hframe
  rw [ZstdFrame.rawFrame_length]
  have hbound : zstdCompressBound zstdChunkSize = zstdChunkSize + 512 := by decide
  rw [hbound]
  split_ifs <;> omega

theorem FramesBounded.compressedFrame {env : WriterEnv} {level : ℤ} (h : FramesBounded env level)
    {chunk : List UInt8} (hchunk : chunk.length ≤ zstdChunkSize) :
    (compressedFrame env level chunk).length ≤ zstdCompressBound zstdChunkSize := by
  rw [Burst.compressedFrame]
  cases hc : env.compressChunk level chunk with
  | none => simp
  | some frame => exact h chunk frame hchunk hc

theorem InputFile.chunks_length (input : InputFile) :
    ∀ chunk ∈ input.chunks, 0 < chunk.length ∧ chunk.length ≤ zstdChunkSize :=
  fun _ ↦ Pieces.cut_length (by norm_num [zstdChunkSize])

theorem chunkItems_aligned {env : WriterEnv} {level : ℤ} (hbound : FramesBounded env level)
    {pos : ℕ} (offset : ℕ) (chunks : List (List UInt8))
    (hlen : ∀ chunk ∈ chunks, chunk.length ≤ zstdChunkSize) (hin : Inside pos) :
    PartAligned pos (chunkItems env level pos offset chunks) ∧
      Inside (pos + total Item.len (chunkItems env level pos offset chunks)) ∧
      ∀ i ∈ chunkItems env level pos offset chunks, i.Writable := by
  induction chunks generalizing pos offset with
  | nil => exact ⟨partAligned_nil _, hin, by simp [chunkItems]⟩
  | cons chunk chunks ih =>
    obtain ⟨hal, hnext, hw⟩ := frameItems_aligned offset chunk hin
      (hbound.compressedFrame (hlen chunk List.mem_cons_self))
    obtain ⟨hals, hend, hws⟩ := ih (offset + chunk.length)
      (fun c hc ↦ hlen c (List.mem_cons_of_mem _ hc)) hnext
    simp only [chunkItems, total_append]
    refine ⟨partAligned_append.mpr ⟨hal, hals⟩, by rwa [← Nat.add_assoc], fun i hi ↦ ?_⟩
    rcases List.mem_append.mp hi with hi | hi
    · exact hw i hi
    · exact hws i hi

theorem endingItems_aligned {pos descriptorSize : ℕ} (offset : ℕ) (hd : descriptorSize ≤ 24)
    (hin : Inside pos) :
    let items := endingItems pos descriptorSize offset
    PartAligned pos items ∧ spaceUntilBoundary (pos + total Item.len items) < burstPartSize ∧
      descriptorSize + 44 ≤ spaceUntilBoundary (pos + total Item.len items) ∧
      ∀ i ∈ items, i.Writable := by
  intro items
  simp only [items, endingItems]
  split
  · have hspace : spaceUntilBoundary (pos + spaceUntilBoundary pos + 24) = burstPartSize - 24 :=
      spaceUntilBoundary_boundary (by norm_num [burstPartSize])
    simp only [total_cons, total_nil, paddingToBoundary_len hin, Item.len_startOfPart, Nat.add_zero]
    rw [← Nat.add_assoc, hspace]
    refine ⟨partAligned_padding hin (partAligned_nil _), by norm_num [burstPartSize],
      by rw [burstPartSize]; omega, ?_⟩
    simpa [Item.Writable] using paddingToBoundary_writable hin
  · have := hin.2
    exact ⟨partAligned_nil _, by simpa using this, by simp; omega, by simp⟩

/-- The header and the bytes stored right after it leave room for a padding header whose extra
field has a 16-bit length. -/
def AddCall.HeaderFits (call : AddCall) : Prop := call.lfh.len + call.targetLen + 68 ≤ 65579

/-- Before an entry: its padding header, and then room for the header and its content. -/
theorem gapItems_aligned (env : WriterEnv) {pos : ℕ} (lfhLen contentSize : ℕ) (dd : Bool)
    (hroom : 44 ≤ spaceUntilBoundary pos) (hfit : lfhLen + contentSize + 68 ≤ 65579) :
    let gap := gapItems env pos lfhLen contentSize dd
    PartAligned pos gap ∧
      headerSpaceNeeded lfhLen contentSize dd ≤ spaceUntilBoundary (pos + total Item.len gap) := by
  intro gap
  have hneed : headerSpaceNeeded lfhLen contentSize dd ≤ 65579 := by
    rw [headerSpaceNeeded, paddingLfhMinSize]
    split <;> omega
  simp only [gap, gapItems]
  split
  · next hlt =>
    have hlen := paddingHeaderAt_len env pos hroom (by omega)
    refine ⟨partAligned_cons ?_ (fun _ ↦ (paddingHeaderAt_wellFormed _ _ _).signature)
      (partAligned_nil _), ?_⟩
    · rw [Item.len_paddingHeader, hlen]
    · rw [total_cons, total_nil, Item.len_paddingHeader, hlen, Nat.add_zero,
        spaceUntilBoundary_of_dvd (dvd_add_spaceUntilBoundary pos), burstPartSize]
      omega
  · next hge => exact ⟨partAligned_nil _, by simpa using hge⟩

theorem localHeader_aligned {pos : ℕ} {lfh : LocalFileHeader} {body : List Item}
    (hsig : lfh.fields.signature = zipLocalFileHeaderSig) (hroom : lfh.len ≤ spaceUntilBoundary pos)
    (hbody : PartAligned (pos + lfh.len) body) : PartAligned pos (.localHeader lfh :: body) :=
  partAligned_cons (by rwa [Item.len_localHeader]) (fun _ ↦ hsig) (by rwa [Item.len_localHeader])

theorem getDataDescriptorSize_le (c u : ℕ) : getDataDescriptorSize c u ≤ 24 := by
  unfold getDataDescriptorSize
  split <;> omega

theorem fileDescriptor_len (env : WriterEnv) (level : ℤ) (pos : ℕ) (input : InputFile) :
    (fileDescriptor env level pos input).len = getDataDescriptorSize
      (total Item.len (chunkItems env level pos 0 input.chunks)) (fileSize input) := by
  rw [fileDescriptor, Item.len_descriptor, usesZip64Descriptor, getDataDescriptorSize]
  split_ifs <;> simp_all

/-- The data of a file, from inside a part; the room it leaves is enough for a padding header. -/
theorem fileBody_aligned {env : WriterEnv} {level : ℤ} (hbound : FramesBounded env level) {pos : ℕ}
    (input : InputFile) (hin : Inside pos) :
    let data := chunkItems env level pos 0 input.chunks
    let body := data ++ fileEnding env level pos input ++ [fileDescriptor env level pos input]
    PartAligned pos body ∧ Roomy (pos + total Item.len body) ∧
      ∀ i ∈ data ++ fileEnding env level pos input, i.Writable := by
  obtain ⟨hdata, hin', hw⟩ := chunkItems_aligned hbound 0 input.chunks
    (fun c hc ↦ (input.chunks_length c hc).2) hin
  have hlen := fileDescriptor_len env level pos input
  obtain ⟨hending, hlt, hroom, hw'⟩ := endingItems_aligned (fileSize input)
    (getDataDescriptorSize_le (total Item.len (chunkItems env level pos 0 input.chunks))
      (fileSize input)) hin'
  intro data body
  change PartAligned pos data at hdata
  have hpos : pos + total Item.len (data ++ fileEnding env level pos input) =
      pos + total Item.len data + total Item.len (fileEnding env level pos input) := by
    rw [total_append, Nat.add_assoc]
  change PartAligned (pos + total Item.len data) (fileEnding env level pos input) at hending
  change spaceUntilBoundary (pos + total Item.len data +
    total Item.len (fileEnding env level pos input)) < burstPartSize at hlt
  change getDataDescriptorSize (total Item.len data) (fileSize input) + 44 ≤ spaceUntilBoundary
    (pos + total Item.len data + total Item.len (fileEnding env level pos input)) at hroom
  change _ = getDataDescriptorSize (total Item.len data) (fileSize input) at hlen
  refine ⟨partAligned_append.mpr ⟨partAligned_append.mpr ⟨hdata, hending⟩, ?_⟩, ?_, ?_⟩
  · rw [hpos]
    exact partAligned_cons_inside (by rw [hlen]; omega) hlt (partAligned_nil _)
  · rw [total_append, ← Nat.add_assoc, hpos, total_cons, total_nil, Nat.add_zero, hlen, Roomy,
      spaceUntilBoundary_add (by omega)]
    omega
  · intro i hi
    rcases List.mem_append.mp hi with hi | hi
    · exact hw i hi
    · exact hw' i hi

/-- The step of the alignment rule: from room for a padding header a call keeps the rule and
leaves room for a padding header. -/
theorem layoutCall_rule {env : WriterEnv} {level : ℤ} (hbound : FramesBounded env level)
    {pos : ℕ} {call : AddCall} (hfit : call.HeaderFits) (hroom : 44 ≤ spaceUntilBoundary pos) :
    let l := layoutCall env level pos call
    (call.lfh.fields.signature = zipLocalFileHeaderSig → PartAligned pos l.items) ∧
    Roomy (pos + total Item.len l.items) ∧
      ∀ i ∈ l.data ++ l.ending, i.Writable := by
  cases call with
  | file input lfh unixMode uid gid =>
    obtain ⟨hgap, hspace⟩ := gapItems_aligned env lfh.len 0 true hroom hfit
    rw [headerSpaceNeeded, paddingLfhMinSize, if_pos rfl] at hspace
    have hhead := spaceUntilBoundary_add
      (show lfh.len < spaceUntilBoundary (pos + total Item.len (gapItems env pos lfh.len 0 true)) by
        omega)
    have hle := spaceUntilBoundary_le (pos + total Item.len (gapItems env pos lfh.len 0 true))
    have hpos : 0 < lfh.len := by
      rw [LocalFileHeader.len]
      omega
    cases hho : isHeaderOnly lfh with
    | true =>
      simp only [layoutCall, hho, if_true, EntryLayout.items, EntryLayout.body, List.append_nil]
      refine ⟨fun hsig ↦ partAligned_append.mpr ⟨hgap, localHeader_aligned hsig (by omega)
        (partAligned_nil _)⟩, ?_, by simp⟩
      rw [total_append, ← Nat.add_assoc, total_cons, total_nil, Item.len_localHeader, Nat.add_zero,
        Roomy, hhead]
      omega
    | false =>
      obtain ⟨hbody, hend, hw⟩ := fileBody_aligned hbound input
        (show Inside (pos + total Item.len (gapItems env pos lfh.len 0 true) + lfh.len) by
          rw [Inside, hhead]
          omega)
      simp only [layoutCall, hho, Bool.false_eq_true, if_false, EntryLayout.items, EntryLayout.body]
      refine ⟨fun hsig ↦ partAligned_append.mpr ⟨hgap, localHeader_aligned hsig (by omega) hbody⟩, ?_, hw⟩
      rwa [total_append, ← Nat.add_assoc, total_cons, Item.len_localHeader, ← Nat.add_assoc]
  | symlink lfh target unixMode uid gid =>
    obtain ⟨hgap, hspace⟩ := gapItems_aligned env lfh.len target.length false hroom hfit
    rw [headerSpaceNeeded, paddingLfhMinSize, if_neg (by simp)] at hspace
    have hhead := spaceUntilBoundary_add (show lfh.len < spaceUntilBoundary
      (pos + total Item.len (gapItems env pos lfh.len target.length false)) by omega)
    have hle := spaceUntilBoundary_le
      (pos + total Item.len (gapItems env pos lfh.len target.length false))
    have hpos : 0 < lfh.len := by
      rw [LocalFileHeader.len]
      omega
    simp only [layoutCall, EntryLayout.items, EntryLayout.body, List.append_nil]
    refine ⟨fun hsig ↦ partAligned_append.mpr ⟨hgap, localHeader_aligned hsig (by omega)
      (partAligned_cons_inside ?_ ?_ (partAligned_nil _))⟩, ?_, by simp [Item.Writable]⟩
    · rw [Item.len_target, hhead]
      omega
    · rw [hhead]
      omega
    · rw [total_append, ← Nat.add_assoc, total_cons, total_cons, total_nil, Item.len_localHeader,
        Item.len_target, Nat.add_zero, ← Nat.add_assoc, Roomy,
        spaceUntilBoundary_add (by rw [hhead]; omega), hhead]
      omega
  | directory lfh unixMode uid gid =>
    obtain ⟨hgap, hspace⟩ := gapItems_aligned env lfh.len 0 false hroom hfit
    rw [headerSpaceNeeded, paddingLfhMinSize, if_neg (by simp)] at hspace
    have hle := spaceUntilBoundary_le (pos + total Item.len (gapItems env pos lfh.len 0 false))
    have hpos : 0 < lfh.len := by
      rw [LocalFileHeader.len]
      omega
    simp only [layoutCall, EntryLayout.items, EntryLayout.body, List.append_nil]
    refine ⟨fun hsig ↦ partAligned_append.mpr ⟨hgap, localHeader_aligned hsig (by omega)
      (partAligned_nil _)⟩, ?_, by simp⟩
    rw [total_append, ← Nat.add_assoc, total_cons, total_nil, Item.len_localHeader, Nat.add_zero,
      Roomy, spaceUntilBoundary_add (by omega)]
    omega

theorem layoutCall_aligned {env : WriterEnv} {level : ℤ} (hbound : FramesBounded env level)
    {pos : ℕ} {call : AddCall} (hsig : call.lfh.fields.signature = zipLocalFileHeaderSig)
    (hfit : call.HeaderFits) (hroom : 44 ≤ spaceUntilBoundary pos) :
    let l := layoutCall env level pos call
    PartAligned pos l.items ∧ Roomy (pos + total Item.len l.items) ∧
      ∀ i ∈ l.data ++ l.ending, i.Writable := by
  obtain ⟨haligned, hrest⟩ := layoutCall_rule hbound hfit hroom
  exact ⟨haligned hsig, hrest⟩

theorem layoutAll_room {env : WriterEnv} {level : ℤ} (hbound : FramesBounded env level)
    {calls : List AddCall} (hfit : ∀ call ∈ calls, call.HeaderFits) {pos : ℕ}
    (hroom : 44 ≤ spaceUntilBoundary pos) :
    44 ≤ spaceUntilBoundary (pos + total Item.len (bodyItems (layoutAll env level pos calls))) := by
  induction calls generalizing pos with
  | nil => simpa [layoutAll, bodyItems] using hroom
  | cons call calls ih =>
    obtain ⟨-, hnext, -⟩ := layoutCall_rule hbound (hfit call List.mem_cons_self) hroom
    have hend := ih (fun c hc ↦ hfit c (List.mem_cons_of_mem _ hc)) hnext.1
    simp only [layoutAll, bodyItems, List.flatMap_cons, total_append]
    rwa [← Nat.add_assoc]

/-- Every run of calls keeps the alignment rule. -/
theorem layoutAll_aligned {env : WriterEnv} {level : ℤ} (hbound : FramesBounded env level)
    {calls : List AddCall}
    (hsig : ∀ call ∈ calls, call.lfh.fields.signature = zipLocalFileHeaderSig)
    (hfit : ∀ call ∈ calls, call.HeaderFits) {pos : ℕ} (hroom : 44 ≤ spaceUntilBoundary pos) :
    let items := bodyItems (layoutAll env level pos calls)
    PartAligned pos items ∧ 44 ≤ spaceUntilBoundary (pos + total Item.len items) := by
  induction calls generalizing pos with
  | nil => exact ⟨partAligned_nil _, by simpa [layoutAll, bodyItems] using hroom⟩
  | cons call calls ih =>
    obtain ⟨hal, hnext, -⟩ := layoutCall_aligned hbound (hsig call List.mem_cons_self)
      (hfit call List.mem_cons_self) hroom
    obtain ⟨hals, hend⟩ := ih (fun c hc ↦ hsig c (List.mem_cons_of_mem _ hc))
      (fun c hc ↦ hfit c (List.mem_cons_of_mem _ hc)) hnext.1
    simp only [layoutAll, bodyItems, List.flatMap_cons, total_append]
    refine ⟨partAligned_append.mpr ⟨hal, hals⟩, ?_⟩
    rwa [← Nat.add_assoc]

theorem Item.startsPart_bytes {i : Item} (h : i.StartsPart) (rest : List UInt8) :
    encode 4 zipLocalFileHeaderSig <+: i.bytes ++ rest ∨
      ∃ offset, startOfPartBytes offset <+: i.bytes ++ rest := by
  cases i with
  | paddingHeader header =>
    left
    rw [← show header.fields.signature = zipLocalFileHeaderSig from h]
    simp only [Item.bytes, LocalFileHeader.bytes, ZipLocalHeader.fixedBytes, List.append_assoc]
    exact List.prefix_append _ _
  | localHeader header =>
    left
    rw [← show header.fields.signature = zipLocalFileHeaderSig from h]
    simp only [Item.bytes, LocalFileHeader.bytes, ZipLocalHeader.fixedBytes, List.append_assoc]
    exact List.prefix_append _ _
  | startOfPart offset => exact .inr ⟨offset, List.prefix_append _ _⟩
  | frame | padding | descriptor | target => exact h.elim

/-- The bytes of an archive whose calls all succeeded. -/
theorem finalized_bytes {env : WriterEnv} {level : ℤ} {limits : List ℕ} {calls : List AddCall}
    {w w' : BurstWriter}
    (hadd : addAll env calls (burstWriterCreate ⟨[], limits⟩ level) = (some (), w))
    (hfin : burstWriterFinalize w = (some (), w')) :
    let items := bodyItems (layoutAll env level 0 calls)
    w.files = recordedAll env level 0 calls ∧
      w'.output.bytes = itemBytes items ++ centralDirectoryBytes w.files ++
        endRecords w.files (itemBytes items).length (centralDirectoryBytes w.files).length := by
  intro items
  obtain ⟨-, hadded⟩ := addAll_ok hadd
  have hbytes := burstWriterFinalize_ok hfin
  have harchive : w.archive = itemBytes items := by simpa [burstWriterCreate, BurstWriter.archive,
    BurstWriter.position] using hadded.archive
  have hpos : w.position = (itemBytes items).length := by
    rw [hadded.position, itemBytes_length]
    simp [burstWriterCreate, BurstWriter.position, items]
  rw [harchive, hpos] at hbytes
  exact ⟨by simpa [burstWriterCreate, BurstWriter.position] using hadded.files, hbytes⟩

/-- The 8 MiB alignment rule for an archive with a body: a local file header or a Start-of-Part frame lies on
every part boundary inside the body, and nothing in it straddles one. -/
def KeepsAlignment (items : List Item) (archive : List UInt8) : Prop :=
  (∀ k, 0 < k → k * burstPartSize < (itemBytes items).length →
    encode 4 zipLocalFileHeaderSig <+: archive.drop (k * burstPartSize) ∨
      ∃ offset, startOfPartBytes offset <+: archive.drop (k * burstPartSize)) ∧
  ∀ before i after, items = before ++ i :: after →
    ¬ Straddles burstPartSize (itemBytes before).length i.bytes.length

theorem finalized_keepsAlignment {env : WriterEnv} {level : ℤ} {limits : List ℕ}
    {calls : List AddCall} {w w' : BurstWriter} (hbound : FramesBounded env level)
    (hsig : ∀ call ∈ calls, call.lfh.fields.signature = zipLocalFileHeaderSig)
    (hfit : ∀ call ∈ calls, call.HeaderFits)
    (hadd : addAll env calls (burstWriterCreate ⟨[], limits⟩ level) = (some (), w))
    (hfin : burstWriterFinalize w = (some (), w')) :
    KeepsAlignment (bodyItems (layoutAll env level 0 calls)) w'.output.bytes := by
  obtain ⟨-, hbytes⟩ := finalized_bytes hadd hfin
  obtain ⟨haligned, -⟩ := layoutAll_aligned hbound hsig hfit
    (show 44 ≤ spaceUntilBoundary 0 by norm_num [spaceUntilBoundary, burstPartSize])
  refine ⟨fun k hk hlt ↦ ?_, fun before i after he ↦ ?_⟩
  · rw [itemBytes_length] at hlt
    obtain ⟨before, i, after, he, hcut, hstart⟩ :=
      haligned.cut (Nat.zero_le _) (by simpa using hlt)
    rw [Nat.zero_add] at hcut
    have hdrop := drop_itemBytes before i after (centralDirectoryBytes w.files ++
      endRecords w.files (itemBytes (bodyItems (layoutAll env level 0 calls))).length
        (centralDirectoryBytes w.files).length)
    rw [hcut, ← he, ← List.append_assoc, ← hbytes] at hdrop
    rw [hdrop]
    exact Item.startsPart_bytes hstart _
  · have hnot := haligned.not_straddles he
    rw [Nat.zero_add] at hnot
    rwa [itemBytes_length]

/-- The 8 MiB alignment rule of a finalized archive: a local file header or a Start-of-Part frame
lies on every part boundary before the central directory, and nothing straddles one. -/
theorem finalized_part_aligned {env : WriterEnv} {level : ℤ} {limits : List ℕ}
    {calls : List AddCall} {w w' : BurstWriter} (hbound : FramesBounded env level)
    (hsig : ∀ call ∈ calls, call.lfh.fields.signature = zipLocalFileHeaderSig)
    (hfit : ∀ call ∈ calls, call.HeaderFits)
    (hadd : addAll env calls (burstWriterCreate ⟨[], limits⟩ level) = (some (), w))
    (hfin : burstWriterFinalize w = (some (), w')) :
    let items := bodyItems (layoutAll env level 0 calls)
    let centralDirOffset := (itemBytes items).length
    w'.output.bytes = itemBytes items ++ centralDirectoryBytes w.files ++
        endRecords w.files centralDirOffset (centralDirectoryBytes w.files).length ∧
      (∀ k, 0 < k → k * burstPartSize < centralDirOffset →
        encode 4 zipLocalFileHeaderSig <+: w'.output.bytes.drop (k * burstPartSize) ∨
          ∃ offset, startOfPartBytes offset <+: w'.output.bytes.drop (k * burstPartSize)) ∧
      ∀ before i after, items = before ++ i :: after →
        ¬ Straddles burstPartSize (itemBytes before).length i.bytes.length := by
  intro items centralDirOffset
  exact ⟨(finalized_bytes hadd hfin).2, finalized_keepsAlignment hbound hsig hfit hadd hfin⟩

/-- The local file header of a file `a` owned by root. -/
def sampleHeader (flags compressionMethod : ℕ) : LocalFileHeader where
  fields := {
    signature := zipLocalFileHeaderSig
    versionNeeded := zipVersionZstd
    flags := flags
    compressionMethod := compressionMethod
    lastModTime := 0
    lastModDate := 33
    crc32 := 0
    compressedSize := 0
    uncompressedSize := 0
    filenameLength := 1
    extraFieldLength := 15 }
  tail := 97 :: buildUnixExtraField 16 0 0

def sampleCalls : List AddCall :=
  [.file ⟨[98, 99, 100], none, true⟩ (sampleHeader zipFlagDataDescriptor zipMethodZstd) 33188 0 0]

def sampleWriter : BurstWriter := (addAll rawEnv sampleCalls (burstWriterCreate ⟨[], []⟩ 3)).2

end Burst
