import Burst.ReaderRefinement

namespace Burst

open LittleEndian Incremental Tiling

/-- A processor reads bytes to their end without an error, and by then has come to some deeds. -/
def Extracts (penv : ProcessorEnv) (p : PartProcessor) (bs : List UInt8) (deeds : List FileOp) : Prop :=
  ∃ ops, Concludes penv p bs (some (none, ops)) ∧ penv.deeds ops = deeds

section

variable {penv : ProcessorEnv} {path : ℕ → Path} {entries : List (AddCall × FileEntry)}

theorem Extracts.of_ends {p q : PartProcessor} {bs : List UInt8}
    (h : Ends (step penv) (settle penv) p bs (.finished q [])) :
    Extracts penv p bs (penv.deeds (closeOutputFile penv.os q).ops) :=
  ⟨_, .inl ⟨_, h, rfl⟩, rfl⟩

theorem Extracts.of_visits {p q : PartProcessor} {bs bs' : List UInt8} {deeds : List FileOp}
    (h : Extracts penv q bs' deeds) (hvisit : Visits (step penv) p bs q bs') :
    Extracts penv p bs deeds := by
  obtain ⟨ops, hconcludes, hdeeds⟩ := h
  rcases hconcludes with ⟨r, hends, hr⟩ | ⟨-, hnone⟩
  · exact ⟨ops, .inl ⟨r, (hvisit.ends_iff r).mpr hends, hr⟩, hdeeds⟩
  · cases hnone

theorem extracts_nil (p : PartProcessor) :
    Extracts penv p [] (penv.deeds (closeOutputFile penv.os p).ops) := by
  have hend : Ends (step penv) (settle penv) p [] (.finished (settle penv p) []) := ends_nil p
  have hops := congrArg Prod.snd (conclude_mapState penv (.finished p []))
  simp only [End.mapState, conclude] at hops
  rw [← hops]
  exact .of_ends hend

/-- Nothing is read once no entry is to come. -/
theorem extracts_exhausted {p : PartProcessor} (hstate : p.state = .expectLocalHeader)
    (hexhausted : penv.part.entries.length ≤ p.nextEntryIdx) (bs : List UInt8) :
    Extracts penv p bs (penv.deeds (closeOutputFile penv.os p).ops) := by
  rw [← closeOutputFile_enter_ops penv.os p .done]
  exact .of_ends ((ends_exhausted hstate hexhausted bs _).mpr rfl)

/-- What becomes of the file that is open when a part ends. -/
def ReadPos.closing (path : ℕ → Path) (entries : List (AddCall × FileEntry)) : ReadPos → List FileOp
  | header _ => []
  | data i _ => (entries[i]?.map fun x ↦ FileOp.ftruncate (path i) x.1.content.length).toList
  | target _ => []

/-- A part ends with its data, between entries or in the data of a file, or with the entries of the
archive; what comes after these is not looked at. -/
inductive PartEnds (penv : ProcessorEnv) (entries : List (AddCall × FileEntry)) :
    ReadPos → List UInt8 → Prop where
  | cut {s : ReadPos} (hs : ∀ i, s ≠ .target i) : PartEnds penv entries s []
  | last {i : ℕ} {tail : List UInt8}
    (hexhausted : penv.part.entries.length ≤ partRank entries penv.partSize penv.partIndex i)
    (hdirectory : 0 < i → encode 4 zipCentralDirHeaderSig <+: tail) :
    PartEnds penv entries (.header i) tail

theorem parseNextFrame_directory (zstd : ZstdLib) {bs : List UInt8}
    (h : encode 4 zipCentralDirHeaderSig <+: bs) :
    parseNextFrame zstd bs = .success ⟨.zipCentralDirectory, 0, 0, 0⟩ := by
  obtain ⟨rest, rfl⟩ := h
  have hread : read (encode 4 zipCentralDirHeaderSig ++ rest) 0 4 = zipCentralDirHeaderSig :=
    read_zero_append _ _ _
  rw [parseNextFrame, if_neg (by simp), hread, if_neg (by decide), if_neg (by decide), if_pos rfl]

/-- Where a part ends the processor is done. -/
theorem ReadPos.Holds.extracts_end (hos : penv.os.Obliges) {s : ReadPos} {p : PartProcessor}
    (hp : s.Holds penv path entries p) {tail : List UInt8} (hends : PartEnds penv entries s tail) :
    Extracts penv p tail (s.done penv p ++ s.closing path entries) := by
  cases hends with
  | cut hs =>
    have hnil := @extracts_nil penv p
    cases hp with
    | header state closed next => rwa [closing, List.append_nil]
    | left later state opened next => rwa [closing, List.append_nil]
    | @data i offset _ call e fileMeta hentry describes isFile atPath inside state opened next =>
      have hclose := hos.closeRegular (describes.isSymlink.trans isFile) p.ops offset
      rw [atPath, describes.uncompressedSize] at hclose
      rw [closing, hentry, Option.map_some, Option.toList_some, done, ← hclose.deeds_eq]
      rwa [closeOutputFile, opened] at hnil
    | target => exact absurd rfl (hs _)
  | last hexhausted hdirectory =>
    rw [closing, List.append_nil]
    cases hp with
    | header state closed next => exact extracts_exhausted state (next ▸ hexhausted) tail
    | left later state opened next =>
      have htail : tail ≠ [] := by
        rintro rfl
        simpa using (hdirectory later).length_le
      have hstep : step penv p tail = .next ((closeOutputFile penv.os p).enter .done) tail := by
        rw [step, state]
        simp only [stepProcessingFrames, parseNextFrame_directory penv.zstd (hdirectory later)]
      have hclosed : ((closeOutputFile penv.os p).enter .done).currentFile = none :=
        closeOutputFile_currentFile penv.os p
      have hend : Ends (step penv) (settle penv) ((closeOutputFile penv.os p).enter .done) tail
          (.finished ((closeOutputFile penv.os p).enter .done) []) := (ends_done rfl tail _).mpr rfl
      have hdone := Extracts.of_ends hend
      rw [closeOutputFile_of_closed hclosed] at hdone
      exact hdone.of_visits (.later htail hstep .here)

/-- An item of the archive is got past where the reader gets past it, unless it is padding after the last
entry of the part. -/
theorem ReadStep.simulates {env : WriterEnv} {level : ℤ} (hz : FramesDecode env level penv.zstd)
    (hk : KnowsEntries penv path entries) (hos : penv.os.Obliges) {pos : ℕ} {s s' : ReadPos} {item : Item}
    {out : List FileOp} (h : ReadStep env level path entries pos s item out s')
    (hpart : pos / penv.partSize = penv.partIndex)
    (hlisted : ∀ i, s = .header i →
      partRank entries penv.partSize penv.partIndex i < penv.part.entries.length)
    {p : PartProcessor} (hp : s.Holds penv path entries p) (hpos : p.position penv = pos)
    (rest : List UInt8) : Simulates penv path entries s s' p item.bytes rest out := by
  cases h with
  | padding hw hname => exact hp.paddingHeader_step (hlisted _ rfl) hw hname rest
  | header hentry hoffset =>
    rw [← hoffset] at hpart
    exact hp.header_step hk hos hentry hpart rest
  | data hentry hstep hfits => exact hp.data_step hz hk hos hentry hstep hfits hpos rest
  | descriptor hentry hsize hzip64 =>
    subst hsize hzip64
    exact hp.descriptor_step hos hentry rest
  | target hentry => exact hp.target_step hos hk hentry rest

theorem ReadStep.len_pos {env : WriterEnv} {level : ℤ} (hz : FramesDecode env level penv.zstd)
    (hk : KnowsEntries penv path entries) {pos : ℕ} {s s' : ReadPos} {item : Item} {out : List FileOp}
    (h : ReadStep env level path entries pos s item out s') : 0 < item.len := by
  cases h with
  | padding hw hname =>
    rw [Item.len_paddingHeader, LocalFileHeader.len]
    omega
  | header hentry hoffset =>
    rw [Item.len_localHeader, LocalFileHeader.len]
    omega
  | data hentry hstep hfits => exact hstep.len_pos hz
  | descriptor hentry hsize hzip64 =>
    rw [Item.len_descriptor]
    split <;> omega
  | target hentry =>
    obtain ⟨-, htarget⟩ := hk.sizes _ (List.mem_of_getElem? hentry)
    exact (htarget rfl).1

/-- After the last entry of a part there is only padding in the part. -/
theorem Reads.exhausted {env : WriterEnv} {level : ℤ} (hz : FramesDecode env level penv.zstd)
    (hk : KnowsEntries penv path entries) {pos : ℕ} {s s' : ReadPos} {is : List Item} {out : List FileOp}
    (h : Reads env level path entries pos s is out s')
    (hlo : penv.partIndex * penv.partSize ≤ pos)
    (hhi : pos + total Item.len is ≤ (penv.partIndex + 1) * penv.partSize) {i : ℕ} (hs : s = .header i)
    (hexhausted : penv.part.entries.length ≤ partRank entries penv.partSize penv.partIndex i) :
    out = [] ∧ s' = .header i ∧
      ∀ item ∈ is, ∃ lfh : LocalFileHeader, lfh.WellFormed ∧ item = .paddingHeader lfh := by
  induction h with
  | nil => exact ⟨rfl, hs, by simp⟩
  | @cons pos s t u item is out outs hstep htail ih =>
    have hlen := hstep.len_pos hz hk
    rw [total_cons] at hhi
    cases hstep with
    | padding hw hname =>
      obtain ⟨hout, hend, hitems⟩ := ih (by omega) (by omega) hs
      exact ⟨hout, hend, List.forall_mem_cons.mpr ⟨⟨_, hw, rfl⟩, hitems⟩⟩
    | header hentry hoffset =>
      obtain rfl := ReadPos.header.inj hs
      have hpart : pos / penv.partSize = penv.partIndex :=
        Nat.div_eq_of_lt_le hlo (by omega)
      have hlisted := (hk.listed hentry (hoffset ▸ hpart)).1
      omega
    | data => cases hs
    | descriptor => cases hs
    | target => cases hs

/-- Reading a stretch of a part, the processor comes to what the reader comes to. -/
theorem Reads.extracts {env : WriterEnv} {level : ℤ} (hz : FramesDecode env level penv.zstd)
    (hk : KnowsEntries penv path entries) (hos : penv.os.Obliges) {pos : ℕ} {s s' : ReadPos}
    {is : List Item} {out : List FileOp} (h : Reads env level path entries pos s is out s')
    (hlo : penv.partIndex * penv.partSize ≤ pos)
    (hhi : pos + total Item.len is ≤ (penv.partIndex + 1) * penv.partSize) {p : PartProcessor}
    (hp : s.Holds penv path entries p) (hpos : p.position penv = pos) {tail : List UInt8}
    (hends : PartEnds penv entries s' tail) :
    Extracts penv p (itemBytes is ++ tail) (s.done penv p ++ (out ++ s'.closing path entries)) := by
  induction h generalizing p with
  | nil => exact hp.extracts_end hos hends
  | @cons pos s t u item is out outs hstep htail ih =>
    have hlen := hstep.len_pos hz hk
    have htotal := hhi
    rw [total_cons] at hhi
    have hpart : pos / penv.partSize = penv.partIndex := Nat.div_eq_of_lt_le hlo (by omega)
    by_cases hexhausted : ∃ i, s = .header i ∧
        penv.part.entries.length ≤ partRank entries penv.partSize penv.partIndex i
    · -- the processor does not look at the padding that is left
      obtain ⟨i, rfl, hrank⟩ := hexhausted
      obtain ⟨hout, rfl, hitems⟩ := Reads.exhausted hz hk (.cons hstep htail) hlo htotal rfl hrank
      obtain ⟨lfh, hw, rfl⟩ := hitems item List.mem_cons_self
      obtain ⟨q, hclose, hstate, hclosed, hnext, hbytes, hops⟩ := hp.closes hw (itemBytes is ++ tail)
      have hrest := extracts_exhausted hstate (hnext ▸ hrank) (lfh.bytes ++ (itemBytes is ++ tail))
      rw [closeOutputFile_of_closed hclosed, hops] at hrest
      rw [hout, itemBytes_cons, List.append_assoc, ReadPos.closing, List.append_nil, List.append_nil]
      exact hrest.of_visits hclose
    · have hlisted (i : ℕ) (hs : s = .header i) :
          partRank entries penv.partSize penv.partIndex i < penv.part.entries.length := by
        by_contra hge
        exact hexhausted ⟨i, hs, Nat.le_of_not_lt hge⟩
      obtain ⟨q, hvisit, hq, hdone, hposition⟩ :=
        hstep.simulates hz hk hos hpart hlisted hp hpos (itemBytes is ++ tail)
      have hrest := ih (by omega) (by omega) hq (by rw [hposition, hpos]; rfl) hends
      rw [hdone, List.append_assoc, ← List.append_assoc out] at hrest
      rw [itemBytes_cons, List.append_assoc]
      exact hrest.of_visits hvisit

/-- What is opened before a part is read on. -/
def ReadPos.opening (path : ℕ → Path) : ReadPos → List FileOp
  | header _ => []
  | data i _ => [.openFile (path i)]
  | target _ => []

/-- The part map has a processor begin a part where the reader is: before its first entry, or in the file
that goes on behind a Start-of-Part frame. -/
inductive PartBegins (penv : ProcessorEnv) (entries : List (AddCall × FileEntry)) :
    ReadPos → List Item → Prop where
  | header {i : ℕ} {is : List Item} (hcontinuing : penv.part.continuingFile = none)
    (hrank : partRank entries penv.partSize penv.partIndex i = 0) : PartBegins penv entries (.header i) is
  | data {i offset : ℕ} {is : List Item} {call : AddCall} {e : FileEntry}
    (hentry : entries[i]? = some (call, e)) (hlink : call.isSymlink = false)
    (hdirectory : call.isDirectory = false) (hinside : offset ≤ call.content.length)
    (hcontinuing : penv.part.continuingFile = some i)
    (hrank : partRank entries penv.partSize penv.partIndex (i + 1) = 0) :
    PartBegins penv entries (.data i offset) (.startOfPart offset :: is)

/-- The first steps of a part that goes on with a file. -/
theorem step_continues (hk : KnowsEntries penv path entries) (hos : penv.os.Obliges) {i offset : ℕ}
    {call : AddCall} {e : FileEntry} (hentry : entries[i]? = some (call, e))
    (hlink : call.isSymlink = false) (hdirectory : call.isDirectory = false)
    (hinside : offset ≤ call.content.length) (hcontinuing : penv.part.continuingFile = some i)
    (hrank : partRank entries penv.partSize penv.partIndex (i + 1) = 0) (rest : List UInt8) :
    ∃ q, Visits (step penv) (partProcessorCreate []).toPartProcessor (startOfPartBytes offset ++ rest) q
        rest ∧ (ReadPos.data i offset).Holds penv path entries q ∧
      penv.deeds q.ops = [.openFile (path i)] ∧ q.bytesProcessed = 24 := by
  obtain ⟨hsize, -⟩ := hk.sizes _ (List.mem_of_getElem? hentry)
  obtain ⟨fileMeta, hfile, hdescribes, hpath⟩ := hk.described hentry
  have hclosed : ((partProcessorCreate []).toPartProcessor.enter .continuingFile).currentFile = none := rfl
  obtain ⟨ops, hopen, hdoes⟩ := hos.openRegular hclosed (hdescribes.isDirectory.trans hdirectory)
    (hdescribes.isSymlink.trans hlink)
  rw [hpath] at hdoes
  have hmeta : penv.continuingFile = some fileMeta := by
    rw [ProcessorEnv.continuingFile, hcontinuing]
    exact hfile
  have hoffset : read (startOfPartBytes offset ++ rest) 9 8 = offset := by
    rw [(startOfPart_reads offset rest).2.2.2]
    exact Nat.mod_eq_of_lt (hinside.trans_lt hsize)
  have hinit : step penv (partProcessorCreate []).toPartProcessor (startOfPartBytes offset ++ rest) =
      .next ((partProcessorCreate []).toPartProcessor.enter .continuingFile)
        (startOfPartBytes offset ++ rest) := by
    change stepInit penv _ _ = _
    rw [stepInit, hcontinuing]
    rfl
  have hstep : step penv ((partProcessorCreate []).toPartProcessor.enter .continuingFile)
      (startOfPartBytes offset ++ rest) = .next
        { (partProcessorCreate []).toPartProcessor with
          currentFile := some { penv.context fileMeta with fdOpen := true, uncompressedOffset := offset }
          bytesProcessed := 24, state := .processingFrames, ops := ops } rest := by
    have hstate : ((partProcessorCreate []).toPartProcessor.enter .continuingFile).state =
        .continuingFile := rfl
    rw [step, hstate]
    simp only [stepContinuingFile, parseNextFrame_startOfPart penv.zstd offset rest, ne_eq, not_true_eq_false,
      if_false, handleStartOfPartFrame, hclosed, hmeta, hopen, hoffset, LoopStep.after]
    rw [List.drop_left' (startOfPartBytes_length offset)]
    rfl
  have hne : startOfPartBytes offset ++ rest ≠ [] := by
    apply List.ne_nil_of_length_pos
    rw [List.length_append, startOfPartBytes_length]
    omega
  exact ⟨_, .later hne hinit (.later hne hstep .here),
    .data hentry hdescribes hlink hpath hinside rfl rfl hrank.symm, hdoes.deeds_eq, rfl⟩

/-- Where a processor begins to read a part: behind the frame of the file that goes on, if there is one. -/
theorem PartBegins.visits (hk : KnowsEntries penv path entries) (hos : penv.os.Obliges)
    {env : WriterEnv} {level : ℤ} {s s' : ReadPos} {is : List Item} {out : List FileOp}
    (hbegins : PartBegins penv entries s is)
    (h : Reads env level path entries (penv.partIndex * penv.partSize) s is out s') {rest : List UInt8}
    (hne : itemBytes is ++ rest ≠ []) : ∃ q before after, is = before ++ after ∧
      Visits (step penv) (partProcessorCreate []).toPartProcessor (itemBytes is ++ rest) q
        (itemBytes after ++ rest) ∧ s.Holds penv path entries q ∧
      q.position penv = penv.partIndex * penv.partSize + total Item.len before ∧
      s.done penv q = s.opening path ∧
      Reads env level path entries (penv.partIndex * penv.partSize + total Item.len before) s after out s' := by
  cases hbegins with
  | @header i _ hcontinuing hrank =>
    have hinit : step penv (partProcessorCreate []).toPartProcessor (itemBytes is ++ rest) =
        .next ((partProcessorCreate []).toPartProcessor.enter .expectLocalHeader) (itemBytes is ++ rest) := by
      change stepInit penv _ _ = _
      rw [stepInit, hcontinuing]
      rfl
    exact ⟨_, [], is, rfl, .later hne hinit .here, .header rfl rfl hrank.symm, rfl, rfl, h⟩
  | @data i offset is call e hentry hlink hdirectory hinside hcontinuing hrank =>
    cases h with
    | cons hstep htail =>
      cases hstep with
      | data hentry' hdata hfits =>
        cases hdata with
        | startOfPart hdvd =>
          obtain ⟨q, hvisit, hq, hdone, hbytes⟩ := step_continues hk hos hentry hlink hdirectory hinside
            hcontinuing hrank (itemBytes is ++ rest)
          refine ⟨q, [.startOfPart offset], is, rfl, ?_, hq, ?_, hdone, ?_⟩
          · rw [itemBytes_cons, List.append_assoc, Item.bytes]
            exact hvisit
          · rw [PartProcessor.position, hbytes, total_cons, Item.len_startOfPart]
            rfl
          · rw [total_cons, total_nil, Nat.add_zero]
            exact htail

/-- A part comes to what the reader comes to in it, with the files opened and closed at its ends. -/
theorem PartBegins.extracts {env : WriterEnv} {level : ℤ} (hz : FramesDecode env level penv.zstd)
    (hk : KnowsEntries penv path entries) (hos : penv.os.Obliges) {s s' : ReadPos} {is : List Item}
    {out : List FileOp} (hbegins : PartBegins penv entries s is)
    (h : Reads env level path entries (penv.partIndex * penv.partSize) s is out s')
    (hhi : total Item.len is ≤ penv.partSize) {tail : List UInt8} (hends : PartEnds penv entries s' tail)
    (hne : itemBytes is ++ tail ≠ []) :
    Extracts penv (partProcessorCreate []).toPartProcessor (itemBytes is ++ tail)
      (s.opening path ++ (out ++ s'.closing path entries)) := by
  have hmul := Nat.add_one_mul penv.partIndex penv.partSize
  obtain ⟨q, before, after, hsplit, hvisit, hq, hposition, hdone, hrest⟩ := hbegins.visits hk hos h hne
  have htotal := congrArg (total Item.len) hsplit
  rw [total_append] at htotal
  have hextracts := Reads.extracts hz hk hos hrest (Nat.le_add_right _ _) (by omega) hq hposition hends
  rw [hdone] at hextracts
  exact hextracts.of_visits hvisit

end

end Burst
