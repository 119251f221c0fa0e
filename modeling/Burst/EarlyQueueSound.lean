import Burst.BoundaryDetection
import Burst.EarlyQueue
import Burst.MarkerArchive
import Burst.PartialCentralDir

namespace Burst

open Tiling LittleEndian

/-- The same files of a part with their indices moved up. -/
def PartFiles.shift (k : ℕ) (part : PartFiles) : PartFiles where
  entries := part.entries.map fun e ↦ { e with fileIndex := e.fileIndex + k }
  continuingFile := part.continuingFile.map (· + k)

/-- The metadata of the files of a part, which is what its processor works with. -/
def PartFiles.resolve (files : List FileMetadata) (part : PartFiles) :
    List (Option FileMetadata × ℕ) × Option FileMetadata :=
  (part.entries.map fun e ↦ (files[e.fileIndex]?, e.offsetInPart),
    part.continuingFile.bind fun i ↦ files[i]?)

theorem PartFiles.resolve_shift (before files : List FileMetadata) (part : PartFiles) :
    (part.shift before.length).resolve (before ++ files) = part.resolve files := by
  have hget (i : ℕ) : (before ++ files)[i + before.length]? = files[i]? := by
    rw [List.getElem?_append_right (by omega), Nat.add_sub_cancel]
  simp only [resolve, shift, List.map_map, Function.comp_def, hget, Option.bind_map]

theorem partEntries_append (before files : List FileMetadata) (partSize p : ℕ)
    (hbefore : ∀ f ∈ before, f.partIndex ≠ p) :
    partEntries (before ++ files) partSize p =
      (partEntries files partSize p).map
        fun e ↦ { e with fileIndex := e.fileIndex + before.length } := by
  have hnone : partEntries before partSize p = [] := by
    rw [partEntries, List.filterMap_eq_nil_iff]
    intro f hf
    rw [if_neg (hbefore f.1 (List.fst_mem_of_mem_zipIdx hf))]
  rw [partEntries] at hnone
  rw [partEntries, List.zipIdx_append, List.filterMap_append, hnone, List.nil_append, partEntries,
    Nat.zero_add, List.zipIdx_eq_map_add, List.filterMap_map, List.map_filterMap]
  congr 1
  funext f
  simp only [Function.comp_apply, Nat.add_comm before.length]
  split <;> rfl

theorem partFilesAt_append {before files : List FileMetadata} {partSize p : ℕ}
    (hbefore : ∀ f ∈ before, f.partIndex ≠ p)
    (hpast : ∀ f ∈ before, continuesInto (p * partSize % 2 ^ 64) f = false) :
    partFilesAt (before ++ files) partSize p =
      (partFilesAt files partSize p).shift before.length := by
  have hcontinuing : continuingFile (before ++ files) partSize p =
      (continuingFile files partSize p).map (· + before.length) := by
    by_cases hp : p = 0
    · rw [continuingFile, continuingFile, if_pos hp, if_pos hp, Option.map_none]
    · rw [continuingFile, continuingFile, if_neg hp, if_neg hp, List.findIdx?_append,
        List.findIdx?_eq_none_iff.mpr hpast, Option.none_or]
  have hsort := List.map_insertionSort (fun a b : PartFileEntry ↦ a.offsetInPart ≤ b.offsetInPart)
    (fun a b : PartFileEntry ↦ a.offsetInPart ≤ b.offsetInPart)
    (fun e ↦ { e with fileIndex := e.fileIndex + before.length }) (partEntries files partSize p)
    fun _ _ _ _ ↦ Iff.rfl
  simp only [partFilesAt, PartFiles.shift, hcontinuing, partEntries_append _ _ _ _ hbefore, hsort]

/-- Files in the order of their offsets, each of which seems to end before the next begins. -/
def InOrder (partSize : ℕ) (files : List FileMetadata) : Prop :=
  files.Pairwise fun f g ↦ f.localHeaderOffset < g.localHeaderOffset ∧
    ∀ p, continuesInto (p * partSize) f → p * partSize < g.localHeaderOffset

/-- The safe part is that of a file which begins it, or which follows a file of an earlier part. -/
theorem firstSafePart_cases {partSize s : ℕ} {files : List FileMetadata} {prevPart : Option ℕ}
    (h : firstSafePart partSize prevPart files = some s) :
    ∃ f ∈ files, f.partIndex = s ∧ (f.localHeaderOffset = partStart partSize s ∨
      ∃ q, q < s ∧ (prevPart = some q ∨ ∃ g ∈ files, g.partIndex = q)) := by
  induction files generalizing prevPart with
  | nil => cases h
  | cons f files ih =>
    rw [firstSafePart] at h
    by_cases hstart : f.localHeaderOffset = partStart partSize f.partIndex
    · rw [if_pos hstart] at h
      obtain rfl := Option.some.inj h
      exact ⟨f, List.mem_cons_self, rfl, .inl hstart⟩
    · rw [if_neg hstart] at h
      by_cases hprev : prevPart.any (· < f.partIndex) = true
      · rw [if_pos hprev] at h
        obtain rfl := Option.some.inj h
        cases prevPart with
        | none => simp at hprev
        | some q => exact ⟨f, List.mem_cons_self, rfl, .inr ⟨q, by simpa using hprev, .inl rfl⟩⟩
      · rw [if_neg hprev] at h
        obtain ⟨g, hg, hpart, hcases⟩ := ih h
        refine ⟨g, List.mem_cons_of_mem _ hg, hpart, hcases.imp_right ?_⟩
        rintro ⟨q, hq, hsome | ⟨k, hk, hkq⟩⟩
        · exact ⟨q, hq, .inr ⟨f, List.mem_cons_self, Option.some.inj hsome⟩⟩
        · exact ⟨q, hq, .inr ⟨k, List.mem_cons_of_mem _ hk, hkq⟩⟩

theorem queueParts_mem {partSize initialStart firstSafe lastQueued p : ℕ}
    {files : List FileMetadata}
    (h : p ∈ queueParts partSize initialStart firstSafe lastQueued files) :
    firstSafe ≤ p ∧ partStart partSize p < initialStart ∧ ∃ f ∈ files, f.partIndex = p := by
  induction files generalizing lastQueued with
  | nil => cases h
  | cons f files ih =>
    have hlater {q : ℕ} (h : p ∈ queueParts partSize initialStart firstSafe q files) :
        firstSafe ≤ p ∧ partStart partSize p < initialStart ∧ ∃ g ∈ f :: files, g.partIndex = p := by
      obtain ⟨hsafe, htail, g, hg, hpart⟩ := ih h
      exact ⟨hsafe, htail, g, List.mem_cons_of_mem _ hg, hpart⟩
    rw [queueParts] at h
    split at h
    · next hqueue =>
      split at h
      · exact hlater h
      · next htail =>
        rcases List.mem_cons.mp h with rfl | h
        · exact ⟨hqueue.1, by omega, f, List.mem_cons_self, rfl⟩
        · exact hlater h
    · exact hlater h

/-- The queue ascends when the files do. -/
theorem queueParts_ascending {partSize initialStart firstSafe lastQueued : ℕ}
    {files : List FileMetadata} (hfiles : files.Pairwise fun f g ↦ f.partIndex ≤ g.partIndex)
    (hlast : ∀ f ∈ files, lastQueued ≤ f.partIndex) :
    (queueParts partSize initialStart firstSafe lastQueued files).Pairwise (· < ·) ∧
      ∀ p ∈ queueParts partSize initialStart firstSafe lastQueued files, lastQueued < p := by
  induction files generalizing lastQueued with
  | nil => exact ⟨List.Pairwise.nil, by simp [queueParts]⟩
  | cons f files ih =>
    obtain ⟨hfirst, hrest⟩ := List.pairwise_cons.mp hfiles
    obtain ⟨hge, hges⟩ := List.forall_mem_cons.mp hlast
    obtain ⟨hpair, hgt⟩ := ih hrest hfirst
    rw [queueParts]
    by_cases hqueue : f.partIndex ≥ firstSafe ∧ f.partIndex ≠ lastQueued
    · rw [if_pos hqueue]
      by_cases htail : partStart partSize f.partIndex ≥ initialStart
      · rw [if_pos htail]
        refine ⟨hpair, fun p hp ↦ ?_⟩
        have := hgt p hp
        omega
      · rw [if_neg htail]
        refine ⟨List.pairwise_cons.mpr ⟨hgt, hpair⟩, List.forall_mem_cons.mpr ⟨by omega, ?_⟩⟩
        intro p hp
        have := hgt p hp
        omega
    · rw [if_neg hqueue]
      exact ih hrest hges

/-- So does it before anything is queued, when no part has the index that stands for that. -/
theorem queueParts_ascending_first {partSize initialStart firstSafe : ℕ} {files : List FileMetadata}
    (hfiles : files.Pairwise fun f g ↦ f.partIndex ≤ g.partIndex) :
    (queueParts partSize initialStart firstSafe uint32Max files).Pairwise (· < ·) := by
  induction files with
  | nil => exact List.Pairwise.nil
  | cons f files ih =>
    obtain ⟨hfirst, hrest⟩ := List.pairwise_cons.mp hfiles
    obtain ⟨hpair, hgt⟩ := @queueParts_ascending partSize initialStart firstSafe _ _ hrest hfirst
    rw [queueParts]
    split
    · split
      · exact hpair
      · exact List.pairwise_cons.mpr ⟨hgt, hpair⟩
    · exact ih hrest

/-- A queued part has none of the files before the suffix: they lie in earlier parts and do not
reach into it. -/
theorem buildEarlyPartQueue_sound {before files : List FileMetadata} {partSize initialStart p : ℕ}
    (hpos : 0 < partSize)
    (hparts : ∀ f ∈ before ++ files, f.partIndex = f.localHeaderOffset / partSize)
    (hfit : ∀ f ∈ before ++ files, f.localHeaderOffset < 2 ^ 64)
    (horder : InOrder partSize (before ++ files))
    (hp : p ∈ buildEarlyPartQueue partSize initialStart files) :
    p * partSize < initialStart ∧ (∃ f ∈ files, f.partIndex = p) ∧
      partFilesAt (before ++ files) partSize p =
        (partFilesAt files partSize p).shift before.length := by
  have hstart {q : ℕ} {f : FileMetadata} (hf : f ∈ before ++ files) (hq : q ≤ f.partIndex) :
      partStart partSize q = q * partSize ∧ q * partSize ≤ f.localHeaderOffset := by
    have hle : q * partSize ≤ f.localHeaderOffset := by
      rw [hparts f hf] at hq
      exact (Nat.mul_le_mul_right partSize hq).trans (Nat.div_mul_le_self _ _)
    have hlt := hfit f hf
    exact ⟨Nat.mod_eq_of_lt (by omega), hle⟩
  obtain ⟨-, -, hpairs⟩ := List.pairwise_append.mp horder
  rw [buildEarlyPartQueue] at hp
  cases hfirst : firstSafePart partSize none files with
  | none =>
    rw [hfirst] at hp
    cases hp
  | some s =>
    rw [hfirst, Option.getD_some] at hp
    split at hp
    · cases hp
    · obtain ⟨hsp, htail, g, hg, rfl⟩ := queueParts_mem hp
      have hgmem := List.mem_append_right before hg
      obtain ⟨hgstart, hgle⟩ := hstart hgmem le_rfl
      rw [hgstart] at htail
      refine ⟨htail, ⟨g, hg, rfl⟩, ?_⟩
      obtain ⟨f, hf, rfl, hcases⟩ := firstSafePart_cases hfirst
      have hfmem := List.mem_append_right before hf
      obtain ⟨hfstart, hfle⟩ := hstart hfmem le_rfl
      -- a file of the suffix that starts no later than the safe part does
      obtain ⟨k, hk, hkle, hbefore⟩ : ∃ k ∈ files, k.localHeaderOffset ≤ f.partIndex * partSize ∧
          ∀ e ∈ before, e.localHeaderOffset < f.partIndex * partSize := by
        obtain hboundary | ⟨q, hq, hprev | ⟨k, hk, rfl⟩⟩ := hcases
        · rw [hfstart] at hboundary
          exact ⟨f, hf, hboundary.le, fun e he ↦ hboundary ▸ (hpairs e he f hf).1⟩
        · cases hprev
        · have hlt : k.localHeaderOffset < f.partIndex * partSize := by
            rw [hparts k (List.mem_append_right before hk)] at hq
            exact (Nat.div_lt_iff_lt_mul hpos).mp hq
          exact ⟨k, hk, hlt.le, fun e he ↦ (hpairs e he k hk).1.trans hlt⟩
      have hle := Nat.mul_le_mul_right partSize hsp
      refine partFilesAt_append (fun e he ↦ ?_) fun e he ↦ ?_
      · rw [hparts e (List.mem_append_left _ he)]
        have hlt := (Nat.div_lt_iff_lt_mul hpos).mpr (hbefore e he)
        omega
      · rw [← Bool.not_eq_true]
        intro hcontinues
        rw [show g.partIndex * partSize % 2 ^ 64 = g.partIndex * partSize from hgstart] at hcontinues
        have hlt := (hpairs e he k hk).2 g.partIndex hcontinues
        omega

theorem InOrder.parts_ascend {files : List FileMetadata} {partSize : ℕ}
    (hparts : ∀ f ∈ files, f.partIndex = f.localHeaderOffset / partSize)
    (horder : InOrder partSize files) : files.Pairwise fun f g ↦ f.partIndex ≤ g.partIndex := by
  refine horder.imp_of_mem fun hf hg h ↦ ?_
  rw [hparts _ hf, hparts _ hg]
  exact Nat.div_le_div_right h.1.le

theorem buildEarlyPartQueue_nodup {files : List FileMetadata} {partSize : ℕ}
    (hparts : ∀ f ∈ files, f.partIndex = f.localHeaderOffset / partSize)
    (horder : InOrder partSize files) (initialStart : ℕ) :
    (buildEarlyPartQueue partSize initialStart files).Nodup := by
  rw [buildEarlyPartQueue]
  split
  · exact List.nodup_nil
  · exact (queueParts_ascending_first (horder.parts_ascend hparts)).imp fun h ↦ h.ne

theorem recordedAll_offset {env : WriterEnv} {level : ℤ} {pos : ℕ} {calls : List AddCall}
    {e : FileEntry} (h : e ∈ recordedAll env level pos calls) : pos ≤ e.localHeaderOffset ∧
      e.localHeaderOffset < pos + total Item.len (bodyItems (layoutAll env level pos calls)) := by
  induction calls generalizing pos with
  | nil => cases h
  | cons call calls ih =>
    obtain ⟨hlo, hdata, hend, hlen⟩ := entrySpan_ordered pos (layoutCall env level pos call)
    have hendPos : (entrySpan pos (layoutCall env level pos call)).endPos =
      pos + total Item.len (layoutCall env level pos call).items := rfl
    simp only [layoutAll, bodyItems, List.flatMap_cons, total_append]
    rcases List.mem_cons.mp h with rfl | h
    · rw [recordedEntry_localHeaderOffset]
      omega
    · have hrest := ih h
      simp only [bodyItems] at hrest
      omega

/-- The estimate of where an entry ends reaches over no boundary that the entry does not. -/
theorem continuesInto_endPos {env : WriterEnv} {level : ℤ} {pos k : ℕ} {call : AddCall}
    {m : FileMetadata}
    (hroom : Roomy (pos + total Item.len (layoutCall env level pos call).items))
    (hoffset : m.localHeaderOffset = (recordedEntry env level pos call).localHeaderOffset)
    (hsize : m.compressedSize ≤ (recordedEntry env level pos call).compressedSize)
    (h : continuesInto (k * burstPartSize) m = true) :
    k * burstPartSize < pos + total Item.len (layoutCall env level pos call).items := by
  by_contra! hle
  have hgap := hroom.add_le hle
  obtain ⟨-, hdata, hend, hlen⟩ := entrySpan_ordered pos (layoutCall env level pos call)
  have hendPos : (entrySpan pos (layoutCall env level pos call)).endPos =
    pos + total Item.len (layoutCall env level pos call).items := rfl
  rw [recordedEntry_localHeaderOffset] at hoffset
  rw [recordedEntry_compressedSize] at hsize
  rw [continuesInto, decide_eq_true_iff] at h
  have hmod := Nat.mod_le (m.localHeaderOffset + 30 + m.compressedSize + 16) (2 ^ 64)
  have hspan : (entrySpan pos (layoutCall env level pos call)).dataEnd =
    (entrySpan pos (layoutCall env level pos call)).headerPos +
      (entrySpan pos (layoutCall env level pos call)).lfhLen +
      total Item.len (layoutCall env level pos call).data := rfl
  omega

/-- The files of an archive come in order, whatever they are read back as but for their offsets and
as long as their sizes are not too large. -/
theorem recordedAll_inOrder {env : WriterEnv} {level : ℤ} (hbound : FramesBounded env level)
    {calls : List AddCall}
    (hsig : ∀ call ∈ calls, call.lfh.fields.signature = zipLocalFileHeaderSig)
    (hfit : ∀ call ∈ calls, call.HeaderFits) {pos : ℕ} (hroom : 44 ≤ spaceUntilBoundary pos)
    {partSize : ℕ} (hpart : burstPartSize ∣ partSize) {m : FileEntry → FileMetadata}
    (hm : ∀ e ∈ recordedAll env level pos calls, (m e).localHeaderOffset = e.localHeaderOffset ∧
      (m e).compressedSize ≤ e.compressedSize) :
    InOrder partSize ((recordedAll env level pos calls).map m) := by
  induction calls generalizing pos with
  | nil => exact List.Pairwise.nil
  | cons call calls ih =>
    obtain ⟨-, hnext, -⟩ := layoutCall_aligned hbound (hsig call List.mem_cons_self)
      (hfit call List.mem_cons_self) hroom
    obtain ⟨⟨hoffset, hsize⟩, hms⟩ := List.forall_mem_cons.mp hm
    refine List.pairwise_cons.mpr ⟨?_, ih (fun c hc ↦ hsig c (List.mem_cons_of_mem _ hc))
      (fun c hc ↦ hfit c (List.mem_cons_of_mem _ hc)) hnext.1 hms⟩
    rw [List.forall_mem_map]
    intro e he
    have hlater := (recordedAll_offset he).1
    obtain ⟨-, hdata, hend, hlen⟩ := entrySpan_ordered pos (layoutCall env level pos call)
    have hendPos : (entrySpan pos (layoutCall env level pos call)).endPos =
      pos + total Item.len (layoutCall env level pos call).items := rfl
    rw [(hms e he).1, hoffset]
    refine ⟨?_, fun p hp ↦ ?_⟩
    · rw [recordedEntry_localHeaderOffset]
      omega
    · obtain ⟨c, rfl⟩ := hpart
      have hmul : p * (burstPartSize * c) = p * c * burstPartSize := by
        rw [Nat.mul_comm burstPartSize, Nat.mul_assoc]
      rw [hmul] at hp ⊢
      exact (continuesInto_endPos hnext hoffset hsize hp).trans_le hlater

/-- The files of a part are read back in order, with the parts they lie in. -/
theorem recordedAll_readBack {env : WriterEnv} {level : ℤ} (hbound : FramesBounded env level)
    {calls : List AddCall}
    (hsig : ∀ call ∈ calls, call.lfh.fields.signature = zipLocalFileHeaderSig)
    (hfit : ∀ call ∈ calls, call.HeaderFits) (he : ∀ e ∈ recordedAll env level 0 calls, e.InRange)
    (hdec : ∀ e ∈ recordedAll env level 0 calls, e.OffsetDecodes) {partSize : ℕ}
    (hpart : burstPartSize ∣ partSize) (hpos : 0 < partSize)
    (hcount : total Item.len (bodyItems (layoutAll env level 0 calls)) ≤ 2 ^ 32 * partSize) :
    let files := (recordedAll env level 0 calls).map fun e ↦ readBack partSize e (decodedValues e)
    InOrder partSize files ∧ (∀ f ∈ files, f.partIndex = f.localHeaderOffset / partSize) ∧
      ∀ f ∈ files, f.localHeaderOffset < total Item.len (bodyItems (layoutAll env level 0 calls)) := by
  intro files
  have hoffset {e : FileEntry} (hmem : e ∈ recordedAll env level 0 calls) :
      (readBack partSize e (decodedValues e)).localHeaderOffset = e.localHeaderOffset :=
    (decodedValues_offset_iff (he e hmem)).mpr (hdec e hmem)
  refine ⟨recordedAll_inOrder hbound hsig hfit (by norm_num [spaceUntilBoundary, burstPartSize])
    hpart fun e hmem ↦ ⟨hoffset hmem, decodedValues_compressedSize_le (he e hmem) (hdec e hmem)⟩,
    ?_, ?_⟩
  · simp only [files, List.forall_mem_map]
    intro e hmem
    have hlt := (recordedAll_offset hmem).2
    rw [← hoffset hmem] at hlt
    have hdiv : (decodedValues e).localHeaderOffset / partSize < 2 ^ 32 := by
      rw [Nat.div_lt_iff_lt_mul hpos]
      change (decodedValues e).localHeaderOffset < _ at hlt
      omega
    exact Nat.mod_eq_of_lt hdiv
  · simp only [files, List.forall_mem_map]
    intro e hmem
    have hlt := (recordedAll_offset hmem).2
    rw [hoffset hmem]
    omega

/-- Whatever part of the central directory is known, a part that is queued has all its files there:
the part map of the suffix names the same files for it as that of the whole directory. -/
theorem finalized_earlyQueue {env : WriterEnv} {level : ℤ} {limits : List ℕ}
    {calls : List AddCall} {w w' : BurstWriter} (hbound : FramesBounded env level)
    (hsig : ∀ call ∈ calls, call.lfh.fields.signature = zipLocalFileHeaderSig)
    (hfit : ∀ call ∈ calls, call.HeaderFits)
    (hadd : addAll env calls (burstWriterCreate ⟨[], limits⟩ level) = (some (), w))
    (hfin : burstWriterFinalize w = (some (), w')) (he : ∀ e ∈ w.files, e.InRange)
    (hn : ∀ e ∈ w.files, e.NameDecodes) (hdec : ∀ e ∈ w.files, e.OffsetDecodes) {partSize : ℕ}
    (hpart : burstPartSize ∣ partSize) (hpos : 0 < partSize)
    (hsize : w'.output.bytes.length + partSize < 2 ^ 64)
    (hcount : w'.output.bytes.length ≤ 2 ^ 32 * partSize) {before after : List FileEntry}
    {e : FileEntry} (hfiles : w.files = before ++ e :: after) {tailStart firstCdfhOffset : ℕ}
    (hheader : tailStart + firstCdfhOffset = w.position + (centralDirectoryBytes before).length)
    {bufferStart : ℕ} (hbuffer : bufferStart ≤ w.position) {full suffix : CentralDirParseResult}
    (hfull : centralDirParse (w'.output.bytes.drop bufferStart) w'.output.bytes.length partSize =
      .ok full)
    (hsuffix : centralDirParsePartial (w'.output.bytes.drop tailStart) tailStart w.position
      firstCdfhOffset w'.output.bytes.length partSize true = .ok suffix) :
    let queue := buildEarlyPartQueue partSize tailStart suffix.files
    queue.Nodup ∧ queue.length ≤ maxParts w'.output.bytes.length partSize ∧
      ∀ p ∈ queue, p * partSize < tailStart ∧ ∃ fullPart suffixPart,
        full.parts[p]? = some fullPart ∧ suffix.parts[p]? = some suffixPart ∧
        suffixPart.resolve suffix.files = fullPart.resolve full.files := by
  intro queue
  have htracks := addAll_tracks hadd
  obtain ⟨hrecorded, hbytes⟩ := finalized_bytes hadd hfin
  have hbody : total Item.len (bodyItems (layoutAll env level 0 calls)) <
      w'.output.bytes.length := by
    rw [hbytes, List.length_append, List.length_append, endRecords_length, itemBytes_length]
    omega
  rw [hrecorded] at he hdec
  obtain ⟨horder, hindex, hlt⟩ := recordedAll_readBack hbound hsig hfit he hdec hpart hpos (by omega)
  rw [← hrecorded] at he hdec horder hindex hlt
  have hfullFiles := finalized_centralDirParse_files htracks hfin (by omega) he hn hbuffer hfull
  obtain ⟨hsuffixFiles, hsuffixMap⟩ := finalized_partialParse_ok htracks hfin he hn hfiles hheader
    hsuffix
  have hfullMap := finalized_centralDirParse_parts htracks hfin (by omega) hbuffer hfull
  rw [← hfullFiles] at horder hindex hlt
  have hsplit : full.files =
      before.map (fun e ↦ readBack partSize e (decodedValues e)) ++ suffix.files := by
    rw [hfullFiles, hsuffixFiles, hfiles, List.map_append]
  rw [hsplit] at horder hindex hlt
  have hqueued {p : ℕ} (hp : p ∈ queue) : p * partSize < tailStart ∧
      p < numPartsFor w'.output.bytes.length partSize ∧ partFilesAt full.files partSize p =
        (partFilesAt suffix.files partSize p).shift
          (before.map fun e ↦ readBack partSize e (decodedValues e)).length := by
    obtain ⟨htail, ⟨f, hf, rfl⟩, hsame⟩ := buildEarlyPartQueue_sound hpos hindex
      (fun f hf ↦ by have := hlt f hf; omega) horder hp
    refine ⟨htail, lt_numPartsFor hpos hsize.le ?_, hsplit ▸ hsame⟩
    rw [hindex f (List.mem_append_right _ hf)]
    have hle := Nat.div_mul_le_self f.localHeaderOffset partSize
    have := hlt f (List.mem_append_right _ hf)
    omega
  have hnodup : queue.Nodup := buildEarlyPartQueue_nodup
    (fun f hf ↦ hindex f (List.mem_append_right _ hf)) (List.pairwise_append.mp horder).2.1 tailStart
  refine ⟨hnodup, ?_, fun p hp ↦ ?_⟩
  · have hmax : numPartsFor w'.output.bytes.length partSize =
        maxParts w'.output.bytes.length partSize := by
      have hone : 0 < maxParts w'.output.bytes.length partSize := by
        rw [maxParts, Nat.mod_eq_of_lt (by omega)]
        exact Nat.div_pos (by omega) hpos
      exact if_neg hone.ne'
    rw [← hmax]
    have hsub : queue ⊆ List.range (numPartsFor w'.output.bytes.length partSize) :=
      fun p hp ↦ List.mem_range.mpr (hqueued hp).2.1
    simpa using (List.subperm_of_subset hnodup hsub).length_le
  · obtain ⟨htail, hp', hsame⟩ := hqueued hp
    refine ⟨htail, _, _, buildPartMap_getElem hfullMap hp', buildPartMap_getElem hsuffixMap hp', ?_⟩
    rw [hsame, hsplit, PartFiles.resolve_shift]

/-- The archive of the three entries when their sizes are those of `spreadCalls_recorded`. -/
theorem spreadCalls_run {first second : List UInt8} (hfirst : first.length = 8387708)
    (hsecond : second.length = 9000000) : ∃ w w' a b c,
    addAll rawEnv (spreadCalls first second) (burstWriterCreate ⟨[], []⟩ 3) = (some (), w) ∧
      burstWriterFinalize w = (some (), w') ∧ w.files = [a, b, c] ∧
      (∀ e ∈ w.files, e.InRange ∧ e.NameDecodes ∧ e.OffsetDecodes) ∧
      a.localHeaderOffset = 0 ∧ b.localHeaderOffset = 8388608 ∧ c.localHeaderOffset = 8388655 ∧
      w.position = 17519792 ∧ (centralDirectoryBytes w.files).length < 400000 ∧
      w'.output.bytes.length = 17519792 + (centralDirectoryBytes w.files).length + 106 := by
  obtain ⟨hadmissible, hsig, hfit⟩ := spreadCalls_admissible first second
  obtain ⟨w, w', hadd, hfin⟩ := addAll_finalizes (rawEnv_framesBounded 3) hadmissible hsig hfit
  obtain ⟨a, b, c, h, hrec, hentries, ha, hb, hc, -, htotal⟩ := spreadCalls_recorded hfirst hsecond
  have hfiles : w.files = [a, b, c] := (finalized_bytes hadd hfin).1.trans hrec
  have hlength := finalized_length (addAll_tracks hadd) hfin
  have hposition := addAll_position hadd
  rw [burstEocdCommentSize] at hlength
  have hcd : (centralDirectoryBytes w.files).length < 400000 := by
    have hle := centralDirectoryBytes_length_le w.files
    rw [hfiles] at hle ⊢
    exact hle.trans_lt (by norm_num)
  exact ⟨w, w', a, b, c, hadd, hfin, hfiles, hfiles ▸ hentries, ha, hb, hc, by omega, hcd,
    by omega⟩

/-- The central directory of the three entries, of which the first header is not known, and a tail of 8 MiB. -/
theorem finalized_earlyQueue_sample : ∃ w w' a b c start full suffix,
    addAll rawEnv (spreadCalls (noise 8387708) (noise 9000000)) (burstWriterCreate ⟨[], []⟩ 3) = (some (), w) ∧
    burstWriterFinalize w = (some (), w') ∧ w.files = [a] ++ b :: [c] ∧
    start + burstPartSize = w'.output.bytes.length ∧
    centralDirParse w'.output.bytes w'.output.bytes.length burstPartSize = .ok full ∧
    centralDirParsePartial (w'.output.bytes.drop start) start w.position
      (w.position + (centralDirectoryBytes [a]).length - start) w'.output.bytes.length burstPartSize true =
        .ok suffix ∧
    let queue := buildEarlyPartQueue burstPartSize start suffix.files
    1 ∈ queue ∧ queue.Nodup ∧ queue.length ≤ maxParts w'.output.bytes.length burstPartSize ∧
      ∀ p ∈ queue, p * burstPartSize < start ∧ ∃ fullPart suffixPart,
        full.parts[p]? = some fullPart ∧ suffix.parts[p]? = some suffixPart ∧
        suffixPart.resolve suffix.files = fullPart.resolve full.files := by
  obtain ⟨w, w', a, b, c, hadd, hfin, hfiles, hentries, -, hb, -, hposition, hcd, hlength⟩ :=
    spreadCalls_run (noise_length 8387708) (noise_length 9000000)
  obtain ⟨hadmissible, hsig, hfit⟩ := spreadCalls_admissible (noise 8387708) (noise 9000000)
  have htracks := addAll_tracks hadd
  have hrange : ∀ e ∈ w.files, e.InRange := fun e he ↦ (hentries e he).1
  have hnames : ∀ e ∈ w.files, e.NameDecodes := fun e he ↦ (hentries e he).2.1
  have hdec : ∀ e ∈ w.files, e.OffsetDecodes := fun e he ↦ (hentries e he).2.2
  obtain ⟨start, hstart⟩ : ∃ start, start + burstPartSize = w'.output.bytes.length := by
    refine ⟨w'.output.bytes.length - burstPartSize, Nat.sub_add_cancel ?_⟩
    rw [burstPartSize]
    omega
  have hbelow : start ≤ w.position + (centralDirectoryBytes [a]).length := by
    rw [burstPartSize] at hstart
    omega
  obtain ⟨full, hfull⟩ := finalized_centralDirParse_ok htracks hfin (by omega) hrange hnames (Nat.zero_le _)
    le_rfl (by
      rw [estimatedEntries, sizeofFileMetadata]
      split <;> omega)
  have hdrop : (w'.output.bytes.drop start).drop (w.position + (centralDirectoryBytes [a]).length - start) =
      centralDirectoryBytes [b, c] ++ endRecords w.files w.position (centralDirectoryBytes w.files).length := by
    rw [List.drop_drop, Nat.add_sub_cancel' hbelow]
    exact finalized_drop htracks hfin hfiles
  obtain ⟨suffix, hsuffix, hparsed⟩ := centralDirParsePartial_ok (List.cons_ne_nil b [c])
    (fun e he ↦ hrange e (by rw [hfiles]; exact List.mem_cons_of_mem _ he))
    (fun e he ↦ hnames e (by rw [hfiles]; exact List.mem_cons_of_mem _ he)) hdrop
    (by rw [List.length_drop]; omega) dvd_rfl (by norm_num [burstPartSize]) start w.position
    w'.output.bytes.length true
  have hsize : w'.output.bytes.length + burstPartSize < 2 ^ 64 ∧
      w'.output.bytes.length ≤ 2 ^ 32 * burstPartSize := by
    rw [burstPartSize]
    omega
  have hsound := finalized_earlyQueue (rawEnv_framesBounded 3) hsig hfit hadd hfin hrange hnames hdec dvd_rfl
    (by norm_num [burstPartSize]) hsize.1 hsize.2 (show w.files = [a] ++ b :: [c] from hfiles)
    (Nat.add_sub_cancel' hbelow) (Nat.zero_le _) hfull hsuffix
  rw [List.drop_zero] at hfull
  -- the first known header lies on the boundary of part 1
  have hstartOne : partStart burstPartSize 1 = 8388608 := by decide
  have hmem : b ∈ w.files := by rw [hfiles]; simp
  have hoffset : (readBack burstPartSize b (decodedValues b)).localHeaderOffset = partStart burstPartSize 1 := by
    have hback := (decodedValues_offset_iff (hrange b hmem)).mpr (hdec b hmem)
    rw [hstartOne, ← hb]
    exact hback
  have hindex : (readBack burstPartSize b (decodedValues b)).partIndex = 1 := by
    have hback : (decodedValues b).localHeaderOffset = 8388608 := hstartOne ▸ hoffset
    change (decodedValues b).localHeaderOffset / burstPartSize % 2 ^ 32 = 1
    rw [hback]
    decide
  have hqueue : 1 ∈ buildEarlyPartQueue burstPartSize start suffix.files := by
    have hsafe : firstSafePart burstPartSize none suffix.files = some 1 := by
      rw [hparsed, List.map_cons, firstSafePart, hindex, if_pos hoffset]
    have htail : ¬ partStart burstPartSize 1 ≥ start := by
      rw [hstartOne]
      rw [burstPartSize] at hstart
      omega
    rw [buildEarlyPartQueue, hsafe, Option.getD_some, if_neg (by decide), hparsed, List.map_cons, queueParts,
      hindex, if_pos (by decide), if_neg htail]
    exact List.mem_cons_self
  exact ⟨w, w', a, b, c, start, full, suffix, hadd, hfin, hfiles, hstart, hfull, hsuffix, hqueue, hsound⟩

theorem partIndex_eq_one {offset partSize : ℕ} (hle : partSize ≤ offset)
    (hlt : offset < 2 * partSize) : offset / partSize % 2 ^ 32 = 1 := by
  have hone : offset / partSize = 1 := Nat.div_eq_of_lt_le (by omega) (by omega)
  rw [hone, Nat.one_mod_eq_one.mpr (by norm_num)]

/-- The parts the four files are thought to be in when a part is as long as the large file, but for
its last part of 8 MiB. -/
theorem MarkerEntries.partIndices {a b c d : FileEntry} (h : MarkerEntries a b c d) {partSize : ℕ}
    (hpart : partSize = b.localHeaderOffset / burstPartSize * burstPartSize) :
    [a, b, c, d].map (fun e ↦ (readBack partSize e (decodedValues e)).partIndex) = [0, 1, 0, 1] ∧
      (decodedValues c).localHeaderOffset = 0xFFFFFFFF ∧ partSize ≤ b.localHeaderOffset ∧
      2 ^ 35 < partSize ∧ (decodedValues d).localHeaderOffset = d.localHeaderOffset := by
  obtain ⟨ha, hb, hc, hd⟩ : a.InRange ∧ b.InRange ∧ c.InRange ∧ d.InRange := by
    simpa using h.inRange
  obtain ⟨hdecA, hdecB, hdecD⟩ : a.OffsetDecodes ∧ b.OffsetDecodes ∧ d.OffsetDecodes := by
    simpa using h.decodes
  have hle : partSize ≤ b.localHeaderOffset := hpart ▸ Nat.div_mul_le_self _ _
  have hlt : b.localHeaderOffset < partSize + burstPartSize := by
    rw [hpart, Nat.mul_comm]
    exact Nat.lt_mul_div_succ _ (by norm_num [burstPartSize])
  rw [burstPartSize] at hlt
  have hfirst := h.first
  have hlarge := h.large
  have hafter := h.after
  have hlast := h.last
  have hclose := h.close
  have hmarker := decodedValues_of_marker hc (by omega) (.inl h.marker)
  have hoffA := (decodedValues_offset_iff ha).mpr hdecA
  have hoffB := (decodedValues_offset_iff hb).mpr hdecB
  have hoffD := (decodedValues_offset_iff hd).mpr hdecD
  refine ⟨?_, hmarker, hle, by omega, hoffD⟩
  simp only [List.map_cons, List.map_nil, readBack, hmarker, hoffA, hoffB, hoffD]
  rw [partIndex_eq_one hle (by omega), partIndex_eq_one (show partSize ≤ d.localHeaderOffset by omega)
    (by omega), Nat.div_eq_of_lt (by omega), Nat.div_eq_of_lt (by omega), Nat.zero_mod]

theorem MarkerEntries.queue {a b c d : FileEntry} (h : MarkerEntries a b c d) {partSize : ℕ}
    (hpart : partSize = b.localHeaderOffset / burstPartSize * burstPartSize) {tailStart : ℕ}
    (htail : partSize < tailStart) (hmax : partSize < 2 ^ 64) :
    let m := fun e : FileEntry ↦ readBack partSize e (decodedValues e)
    buildEarlyPartQueue partSize tailStart ([c, d].map m) = [1] ∧
      (partEntries ([a, b, c, d].map m) partSize 1).length = 2 ∧
      (partEntries ([c, d].map m) partSize 1).length = 1 := by
  intro m
  obtain ⟨hindices, hmarker, hle, hlarge, hoffD⟩ := h.partIndices hpart
  obtain ⟨ha, hb, hc, hd⟩ : (m a).partIndex = 0 ∧ (m b).partIndex = 1 ∧ (m c).partIndex = 0 ∧
      (m d).partIndex = 1 := by simpa using hindices
  have hstartC : (m c).localHeaderOffset ≠ partStart partSize 0 := by
    rw [partStart, Nat.zero_mul, Nat.zero_mod, show (m c).localHeaderOffset = _ from hmarker]
    norm_num
  have hstartOne : partStart partSize 1 = partSize := by
    rw [partStart, Nat.one_mul, Nat.mod_eq_of_lt hmax]
  have hstartD : (m d).localHeaderOffset ≠ partStart partSize 1 := by
    rw [hstartOne, show (m d).localHeaderOffset = _ from hoffD]
    have hafter := h.after
    have hlast := h.last
    omega
  have hsafe : firstSafePart partSize none [m c, m d] = some 1 := by
    rw [firstSafePart, hc, if_neg hstartC, Option.any_none, if_neg (by decide), firstSafePart, hd,
      if_neg hstartD]
    rfl
  refine ⟨?_, ?_, ?_⟩
  · rw [List.map_cons, List.map_cons, List.map_nil, buildEarlyPartQueue, hsafe, Option.getD_some,
      if_neg (by decide), queueParts, hc, if_neg (by decide), queueParts, hd, if_pos (by decide),
      hstartOne, if_neg (by omega), queueParts]
  · simp [partEntries, ha, hb, hc, hd]
  · simp [partEntries, hc, hd]

/-- The archive of the four files when their sizes are those of `MarkerEntries`. -/
theorem markerCalls_run {large marker : List UInt8} (hlarge : large.length = 2 ^ 36)
    (hmarker : marker.length = 0xFFFFFFFF) : ∃ w w' a b c d,
    addAll rawEnv (markerCalls large marker) (burstWriterCreate ⟨[], []⟩ 3) = (some (), w) ∧
      burstWriterFinalize w = (some (), w') ∧ w.files = [a, b, c, d] ∧ MarkerEntries a b c d ∧
      d.localHeaderOffset < w.position ∧ w.position < 2 ^ 38 ∧
      w'.output.bytes.length = w.position + (centralDirectoryBytes w.files).length + 106 ∧
      (centralDirectoryBytes w.files).length ≤ 2 ^ 19 := by
  obtain ⟨hadmissible, hsig, hfit⟩ := markerCalls_admissible large marker
  obtain ⟨w, w', hadd, hfin⟩ := addAll_finalizes (rawEnv_framesBounded 3) hadmissible hsig hfit
  obtain ⟨a, b, c, d, hrec, hentries, htotal⟩ := markerCalls_recorded hlarge hmarker
  obtain ⟨hfiles, hbytes⟩ := finalized_bytes hadd hfin
  have htracks := addAll_tracks hadd
  have hlength := finalized_length htracks hfin
  have hposition : w.position =
      total Item.len (bodyItems (layoutAll rawEnv 3 0 (markerCalls large marker))) := by
    have hlen := congrArg List.length hbytes
    rw [List.length_append, List.length_append, endRecords_length, itemBytes_length] at hlen
    rw [burstEocdCommentSize] at hlength
    omega
  have hmem : d ∈ recordedAll rawEnv 3 0 (markerCalls large marker) := by
    rw [hrec]
    simp
  have hoffset := (recordedAll_offset hmem).2
  refine ⟨w, w', a, b, c, d, hadd, hfin, hfiles.trans hrec, hentries, by omega, by omega, hlength, ?_⟩
  rw [hfiles, hrec]
  have hnames := hentries.names
  simp only [List.forall_mem_cons, List.not_mem_nil, false_implies, implies_true, and_true] at hnames
  obtain ⟨ha, hb, hc, hd⟩ := hnames
  have := centralHeaderBytes_length_le ha
  have := centralHeaderBytes_length_le hb
  have := centralHeaderBytes_length_le hc
  have := centralHeaderBytes_length_le hd
  simp only [centralDirectoryBytes_cons, centralDirectoryBytes_nil, List.length_append,
    List.length_nil]
  omega

/-- Behind the large file the offset of the file of 4294967295 bytes is read back wrong, so that
the directory after it seems to be the first entry of its part. -/
theorem finalized_earlyQueue_marker : ∃ w w' before e after partSize firstCdfhOffset full suffix,
    addAll rawEnv (markerCalls (noise (2 ^ 36)) (noise 0xFFFFFFFF))
      (burstWriterCreate ⟨[], []⟩ 3) = (some (), w) ∧
    burstWriterFinalize w = (some (), w') ∧ (∀ e ∈ w.files, e.InRange) ∧
    (∀ e ∈ w.files, e.NameDecodes) ∧ burstPartSize ∣ partSize ∧ 0 < partSize ∧
    w'.output.bytes.length + partSize < 2 ^ 64 ∧ w'.output.bytes.length ≤ 2 ^ 32 * partSize ∧
    w.files = before ++ e :: after ∧
    w.position + firstCdfhOffset = w.position + (centralDirectoryBytes before).length ∧
    centralDirParse (w'.output.bytes.drop w.position) w'.output.bytes.length partSize = .ok full ∧
    centralDirParsePartial (w'.output.bytes.drop w.position) w.position w.position firstCdfhOffset
      w'.output.bytes.length partSize true = .ok suffix ∧
    ∃ p ∈ buildEarlyPartQueue partSize w.position suffix.files, ¬ ∃ fullPart suffixPart,
      full.parts[p]? = some fullPart ∧ suffix.parts[p]? = some suffixPart ∧
      suffixPart.resolve suffix.files = fullPart.resolve full.files := by
  obtain ⟨w, w', a, b, c, d, hadd, hfin, hfiles, hentries, hlast, hposition, hlength, hcd⟩ :=
    markerCalls_run (noise_length (2 ^ 36)) (noise_length 0xFFFFFFFF)
  have htracks := addAll_tracks hadd
  have hrange : ∀ e ∈ w.files, e.InRange := hfiles ▸ hentries.inRange
  have hnames : ∀ e ∈ w.files, e.NameDecodes := hfiles ▸ hentries.names
  obtain ⟨partSize, hpart⟩ : ∃ n, n = b.localHeaderOffset / burstPartSize * burstPartSize :=
    ⟨_, rfl⟩
  obtain ⟨-, -, hle, hlarge, -⟩ := hentries.partIndices hpart
  have hafter := hentries.after
  have hclose := hentries.last
  have hdvd : burstPartSize ∣ partSize := hpart ▸ Nat.dvd_mul_left _ _
  obtain ⟨full, hfull⟩ := finalized_centralDirParse_ok htracks hfin (by omega) hrange hnames le_rfl
    (Nat.le_of_dvd (by omega) hdvd) (by
      rw [estimatedEntries, sizeofFileMetadata]
      split <;> omega)
  have hdrop : (w'.output.bytes.drop w.position).drop (centralDirectoryBytes [a, b]).length =
      centralDirectoryBytes [c, d] ++
        endRecords w.files w.position (centralDirectoryBytes w.files).length := by
    rw [List.drop_drop]
    exact finalized_drop htracks hfin hfiles
  obtain ⟨suffix, hsuffix, hparsed⟩ := centralDirParsePartial_ok (List.cons_ne_nil c [d])
    (fun e he ↦ hentries.inRange e (by simp_all)) (fun e he ↦ hentries.names e (by simp_all)) hdrop
    (by rw [List.length_drop, burstPartSize]; omega) hdvd (by omega) w.position w.position
    w'.output.bytes.length true
  obtain ⟨hqueue, hboth, hone⟩ := hentries.queue hpart (show partSize < w.position by omega) (by omega)
  refine ⟨w, w', [a, b], c, [d], partSize, _, full, suffix, hadd, hfin, hrange, hnames, hdvd,
    by omega, by omega, by omega, hfiles, rfl, hfull, hsuffix, 1, ?_, ?_⟩
  · rw [hparsed, hqueue]
    exact List.mem_singleton_self 1
  · rintro ⟨fullPart, suffixPart, hfullPart, hsuffixPart, hsame⟩
    have hfullFiles := finalized_centralDirParse_files htracks hfin (by omega) hrange hnames le_rfl
      hfull
    have hfullMap := finalized_centralDirParse_parts htracks hfin (by omega) le_rfl hfull
    obtain ⟨-, hsuffixMap⟩ := finalized_partialParse_ok htracks hfin hrange hnames hfiles rfl hsuffix
    have hknown : 1 < numPartsFor w'.output.bytes.length partSize :=
      lt_numPartsFor (by omega) (by omega) (by omega)
    rw [buildPartMap_getElem hfullMap hknown, Option.some.injEq] at hfullPart
    rw [buildPartMap_getElem hsuffixMap hknown, Option.some.injEq] at hsuffixPart
    have hlengths := congrArg (fun r ↦ r.1.length) hsame
    rw [← hfullPart, ← hsuffixPart] at hlengths
    simp only [PartFiles.resolve, partFilesAt, List.length_map, List.length_insertionSort] at hlengths
    rw [hfullFiles, hfiles, hparsed, hboth, hone] at hlengths
    cases hlengths

end Burst
