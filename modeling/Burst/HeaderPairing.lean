import Burst.BodyGrammar
import Burst.StreamChunking

namespace Burst

open Tiling LittleEndian

theorem mem_bodyItems_header {env : WriterEnv} {level : ℤ} {pos : ℕ} {calls : List AddCall}
    {i : Item} (hi : i ∈ bodyItems (layoutAll env level pos calls)) {h : LocalFileHeader}
    (hh : i.header? = some h) :
    (i = .paddingHeader h ∧ h.WellFormed ∧ h.rawName = paddingLfhFilename) ∨
      ∃ call ∈ calls, i = .localHeader h ∧ h = call.lfh := by
  induction calls generalizing pos with
  | nil => cases hi
  | cons call calls ih =>
    rw [layoutAll, bodyItems, List.flatMap_cons, List.mem_append] at hi
    cases hi with
    | inr hi =>
      refine (ih hi).imp_right ?_
      rintro ⟨c, hc, heq⟩
      exact ⟨c, List.mem_cons_of_mem _ hc, heq⟩
    | inl hi =>
      rw [EntryLayout.items, layoutCall_header, List.mem_append, List.mem_cons] at hi
      obtain hgap | rfl | hbody := hi
      · left
        obtain hnil | hone := layoutCall_gap env level pos call
        · rw [hnil] at hgap
          cases hgap
        · rw [hone] at hgap
          obtain rfl := List.mem_singleton.mp hgap
          obtain rfl := Option.some.inj hh
          exact ⟨rfl, paddingHeaderAt_wellFormed _ _ _, paddingHeaderAt_rawName _ _ _⟩
      · right
        obtain rfl := Option.some.inj hh
        exact ⟨call, List.mem_cons_self, rfl, rfl⟩
      · rw [(layoutCall_body_isBody env level pos call i hbody).header?] at hh
        cases hh

theorem localHeader_mem_bodyItems {env : WriterEnv} {level : ℤ} {pos : ℕ} {calls : List AddCall}
    {call : AddCall} (h : call ∈ calls) :
    Item.localHeader call.lfh ∈ bodyItems (layoutAll env level pos calls) := by
  induction calls generalizing pos with
  | nil => cases h
  | cons c calls ih =>
    rw [layoutAll, bodyItems, List.flatMap_cons, List.mem_append]
    rcases List.mem_cons.mp h with rfl | h
    · left
      rw [EntryLayout.items, layoutCall_header]
      exact List.mem_append_right _ List.mem_cons_self
    · exact .inr (ih h)

theorem mem_userHeaders {partSize p : ℕ} {calls : List AddCall} {files : List FileEntry}
    {h : ℕ × LocalFileHeader} (hmem : h ∈ userHeaders partSize p calls files) :
    ∃ call ∈ calls, h.2 = call.lfh := by
  obtain ⟨⟨call, e⟩, hzip, heq⟩ := List.mem_filterMap.mp hmem
  split at heq
  · obtain rfl := Option.some.inj heq
    exact ⟨call, (List.of_mem_zip hzip).1, rfl⟩
  · cases heq

/-- The headers that are skipped are those of `write_padding_lfh`, and those that are left in a
part are those of its entries, exactly when no entry is named like the padding. -/
theorem finalized_paddingHeaders {env : WriterEnv} {level : ℤ} {limits : List ℕ}
    {calls : List AddCall} {w w' : BurstWriter} (hw : ∀ call ∈ calls, call.lfh.WellFormed)
    (hadd : addAll env calls (burstWriterCreate ⟨[], limits⟩ level) = (some (), w))
    (hfin : burstWriterFinalize w = (some (), w')) (env' : ProcessorEnv) (p : PartProcessor) :
    let items := bodyItems (layoutAll env level 0 calls)
    w'.output.bytes = itemBytes items ++ centralDirectoryBytes w.files ++
        endRecords w.files (itemBytes items).length (centralDirectoryBytes w.files).length ∧
      (((∀ before i after h, items = before ++ i :: after → i.header? = some h →
          ∀ rest, (∃ n, handleLocalHeader env' p (i.bytes ++ rest) = .skippedPadding n) ↔
            i.IsPaddingHeader) ∧
        ∀ partSize part,
          metHeaders partSize part 0 items = userHeaders partSize part calls w.files) ↔
      ∀ call ∈ calls, call.lfh.rawName ≠ paddingLfhFilename) := by
  intro items
  obtain ⟨hfiles, hbytes⟩ := finalized_bytes hadd hfin
  refine ⟨hbytes, ?_, ?_⟩
  · rintro ⟨hskips, -⟩ call hcall hname
    obtain ⟨before, after, hsplit⟩ := List.append_of_mem
      (show Item.localHeader call.lfh ∈ items from localHeader_mem_bodyItems hcall)
    exact (hskips before _ after _ hsplit rfl []).mp
      ((handleLocalHeader_skips_iff (hw call hcall) env' p []).mpr hname)
  · intro hnames
    refine ⟨fun before i after h hsplit hh rest ↦ ?_, fun partSize part ↦ ?_⟩
    · have hi : i ∈ items := by
        rw [hsplit]
        simp
      obtain ⟨rfl, hwf, hname⟩ | ⟨call, hcall, rfl, rfl⟩ := mem_bodyItems_header hi hh
      · exact iff_of_true ((handleLocalHeader_skips_iff hwf env' p rest).mpr hname) trivial
      · refine iff_of_false (fun hskip ↦ hnames call hcall ?_) id
        exact (handleLocalHeader_skips_iff (hw call hcall) env' p rest).mp hskip
    · rw [metHeaders_layoutAll partSize part 0 hw, hfiles, List.filter_eq_self]
      intro h hmem
      obtain ⟨call, hcall, heq⟩ := mem_userHeaders hmem
      rw [heq]
      simpa using hnames call hcall

theorem fileHeader_wellFormed (name : UInt8) : (fileHeader name).WellFormed := by
  constructor <;> simp [fileHeader, sampleHeader, buildUnixExtraField]

theorem directoryHeader_wellFormed (name : UInt8) : (directoryHeader name).WellFormed := by
  constructor <;> simp [directoryHeader, sampleHeader, buildUnixExtraField]

theorem spreadCalls_wellFormed (first second : List UInt8) :
    (∀ call ∈ spreadCalls first second, call.lfh.WellFormed) ∧
      ∀ call ∈ spreadCalls first second, call.lfh.rawName ≠ paddingLfhFilename := by
  simp only [spreadCalls, List.forall_mem_cons, List.not_mem_nil, false_implies, implies_true, and_true,
    AddCall.lfh]
  refine ⟨⟨fileHeader_wellFormed 97, directoryHeader_wellFormed 98, fileHeader_wellFormed 99⟩, ?_, ?_, ?_⟩ <;>
    decide

/-- An archive with a padding header before the second of its three entries. -/
theorem finalized_paddingHeaders_sample : ∃ w w' h,
    addAll rawEnv (spreadCalls (noise 8387708) (noise 9000000)) (burstWriterCreate ⟨[], []⟩ 3) = (some (), w) ∧
    burstWriterFinalize w = (some (), w') ∧
    let items := bodyItems (layoutAll rawEnv 3 0 (spreadCalls (noise 8387708) (noise 9000000)))
    .paddingHeader h ∈ items ∧
    (∀ before i after h, items = before ++ i :: after → i.header? = some h →
        ∀ rest, (∃ n, handleLocalHeader twoFilesEnv (partProcessorCreate []).toPartProcessor
          (i.bytes ++ rest) = .skippedPadding n) ↔ i.IsPaddingHeader) ∧
      ∀ partSize part, metHeaders partSize part 0 items =
        userHeaders partSize part (spreadCalls (noise 8387708) (noise 9000000)) w.files := by
  obtain ⟨w, w', a, b, c, hadd, hfin, -⟩ := spreadCalls_run (noise_length 8387708) (noise_length 9000000)
  obtain ⟨-, -, -, h, -, -, -, -, -, hpadding, -⟩ :=
    spreadCalls_recorded (noise_length 8387708) (noise_length 9000000)
  obtain ⟨hw, hnames⟩ := spreadCalls_wellFormed (noise 8387708) (noise 9000000)
  obtain ⟨hskips, hmet⟩ :=
    (finalized_paddingHeaders hw hadd hfin twoFilesEnv (partProcessorCreate []).toPartProcessor).2.mpr hnames
  exact ⟨w, w', h, hadd, hfin, hpadding, hskips, hmet⟩

/-- An empty file named like the padding. -/
def paddingNamedCalls : List AddCall :=
  [.file ⟨[], none, true⟩ { sampleHeader 0 zipMethodStore with
    fields := { (sampleHeader 0 zipMethodStore).fields with filenameLength := paddingLfhFilenameLen }
    tail := paddingLfhFilename ++ buildUnixExtraField 16 0 0 } 33188 0 0]

/-- The header of the entry is skipped, and no header of its part is left. -/
theorem paddingName_skipped :
    let w := (addAll rawEnv paddingNamedCalls (burstWriterCreate ⟨[], []⟩ 3)).2
    let w' := (burstWriterFinalize w).2
    let items := bodyItems (layoutAll rawEnv 3 0 paddingNamedCalls)
    (addAll rawEnv paddingNamedCalls (burstWriterCreate ⟨[], []⟩ 3)).1 = some () ∧
      (burstWriterFinalize w).1 = some () ∧
      (∃ h, items = [] ++ .localHeader h :: [] ∧
        ¬ (Item.localHeader h).IsPaddingHeader ∧ ∃ n, handleLocalHeader twoFilesEnv
          (partProcessorCreate []).toPartProcessor w'.output.bytes = .skippedPadding n) ∧
      metHeaders burstPartSize 0 0 items ≠ userHeaders burstPartSize 0 paddingNamedCalls w.files := by
  intro w w' items
  refine ⟨by decide +kernel, by decide +kernel, ⟨_, rfl, id, localHeaderSize w'.output.bytes, ?_⟩,
    by decide +kernel⟩
  rw [handleLocalHeader, if_neg (by decide +kernel), if_neg (by decide +kernel),
    if_pos (by decide +kernel)]

theorem recordedAll_headerAt {env : WriterEnv} {level : ℤ} {pos i : ℕ} {calls : List AddCall}
    {call : AddCall} {e : FileEntry} (hcall : calls[i]? = some call)
    (he : (recordedAll env level pos calls)[i]? = some e) : ∃ before after,
    ((layoutAll env level pos calls).map EntryLayout.items)[i]? =
        some (before ++ .localHeader call.lfh :: after) ∧
      e.localHeaderOffset = pos + total Item.len before +
        total Item.len (((layoutAll env level pos calls).map EntryLayout.items).take i).flatten := by
  induction calls generalizing pos i with
  | nil => cases hcall
  | cons c calls ih =>
    cases i with
    | zero =>
      obtain rfl := Option.some.inj hcall
      obtain rfl := Option.some.inj he
      refine ⟨(layoutCall env level pos c).gap, (layoutCall env level pos c).body, ?_, ?_⟩
      · rw [layoutAll, List.map_cons, List.getElem?_cons_zero, EntryLayout.items, layoutCall_header]
      · exact recordedEntry_localHeaderOffset env level pos c
    | succ i =>
      obtain ⟨before, after, hget, hoffset⟩ := ih hcall he
      refine ⟨before, after, hget, ?_⟩
      rw [layoutAll, List.map_cons, List.take_succ_cons, List.flatten_cons, total_append]
      omega

/-- A header is that of the entry at an index, and lies where the part map has it. -/
structure BelongsTo (calls : List AddCall) (files : List FileEntry) (partSize p : ℕ)
    (h : ℕ × LocalFileHeader) (entry : PartFileEntry) : Prop where
  header : (calls[entry.fileIndex]?).map AddCall.lfh = some h.2
  position : (files[entry.fileIndex]?).map FileEntry.localHeaderOffset = some h.1
  offsetInPart : p * partSize + entry.offsetInPart = h.1

theorem recordedAll_length (env : WriterEnv) (level : ℤ) (pos : ℕ) (calls : List AddCall) :
    (recordedAll env level pos calls).length = calls.length := by
  induction calls generalizing pos with
  | nil => rfl
  | cons call calls ih => rw [recordedAll, List.length_cons, List.length_cons, ih]

theorem recordedAll_ascending (env : WriterEnv) (level : ℤ) (pos : ℕ) (calls : List AddCall) :
    (recordedAll env level pos calls).Pairwise
      fun e f ↦ e.localHeaderOffset < f.localHeaderOffset := by
  induction calls generalizing pos with
  | nil => exact List.Pairwise.nil
  | cons call calls ih =>
    refine List.pairwise_cons.mpr ⟨fun f hf ↦ ?_, ih _⟩
    obtain ⟨-, hdata, hend, hlen⟩ := entrySpan_ordered pos (layoutCall env level pos call)
    have hendPos : (entrySpan pos (layoutCall env level pos call)).endPos =
      pos + total Item.len (layoutCall env level pos call).items := rfl
    have hlater := (recordedAll_offset hf).1
    rw [recordedEntry_localHeaderOffset]
    omega

theorem partEntries_map {files : List FileEntry} {partSize p : ℕ} {m : FileEntry → FileMetadata}
    (hm : ∀ e ∈ files, (m e).localHeaderOffset = e.localHeaderOffset ∧
      (m e).partIndex = e.localHeaderOffset / partSize) :
    partEntries (files.map m) partSize p = files.zipIdx.filterMap fun e ↦
      if e.1.localHeaderOffset / partSize = p then
        some ⟨e.2, e.1.localHeaderOffset % partSize⟩ else none := by
  rw [partEntries, List.zipIdx_map, List.filterMap_map]
  apply List.filterMap_congr
  intro e he
  obtain ⟨hoffset, hpart⟩ := hm e.1 (List.fst_mem_of_mem_zipIdx he)
  simp only [Function.comp_apply, Prod.map_fst, Prod.map_snd, id_eq, hoffset, hpart]

theorem map_filter_decide {α β : Type*} (p : α → Prop) [DecidablePred p] (g : α → β) (l : List α) :
    (l.filter fun x ↦ p x).map g = l.filterMap fun x ↦ if p x then some (g x) else none := by
  rw [← List.filterMap_eq_map', List.filterMap_filter]
  simp only [decide_eq_true_eq]

/-- When all offsets are read back, the entries of a part are those that start there, in order. -/
theorem partFilesAt_entries {calls : List AddCall} {files : List FileEntry}
    (hlen : files.length = calls.length) {partSize p : ℕ} {m : FileEntry → FileMetadata}
    (hasc : files.Pairwise fun e f ↦ e.localHeaderOffset < f.localHeaderOffset)
    (hm : ∀ e ∈ files, (m e).localHeaderOffset = e.localHeaderOffset ∧
      (m e).partIndex = e.localHeaderOffset / partSize) :
    List.Forall₂ (BelongsTo calls files partSize p) (userHeaders partSize p calls files)
      (partFilesAt (files.map m) partSize p).entries := by
  set starting := (calls.zip files).zipIdx.filter
    fun x ↦ x.1.2.localHeaderOffset / partSize = p with hstarting
  have hentries : partEntries (files.map m) partSize p =
      starting.map fun x ↦ ⟨x.2, x.1.2.localHeaderOffset % partSize⟩ := by
    have hfiles : files.zipIdx = (calls.zip files).zipIdx.map (Prod.map Prod.snd id) := by
      rw [← List.zipIdx_map, List.map_snd_zip hlen.le]
    rw [partEntries_map hm, hfiles, List.filterMap_map, hstarting, map_filter_decide]
    rfl
  have hheaders : userHeaders partSize p calls files =
      starting.map fun x ↦ (x.1.2.localHeaderOffset, x.1.1.lfh) := by
    have hzip : calls.zip files = (calls.zip files).zipIdx.map Prod.fst :=
      (List.zipIdx_map_fst 0 _).symm
    rw [userHeaders]
    conv_lhs => rw [hzip]
    rw [List.filterMap_map, hstarting, map_filter_decide]
    rfl
  have hsorted : (partEntries (files.map m) partSize p).Pairwise
      fun a b ↦ a.offsetInPart ≤ b.offsetInPart := by
    rw [partEntries_map hm, List.pairwise_filterMap]
    have hidx : files.zipIdx.Pairwise fun x y ↦ x.1.localHeaderOffset < y.1.localHeaderOffset := by
      have hfst : (files.zipIdx.map Prod.fst).Pairwise
          fun e f ↦ e.localHeaderOffset < f.localHeaderOffset := by
        rwa [List.zipIdx_map_fst]
      rwa [List.pairwise_map] at hfst
    refine hidx.imp fun {x y} hlt a ha b hb ↦ ?_
    split at ha
    · next hx =>
      split at hb
      · next hy =>
        obtain rfl := Option.some.inj ha
        obtain rfl := Option.some.inj hb
        have hdx := Nat.div_add_mod x.1.localHeaderOffset partSize
        have hdy := Nat.div_add_mod y.1.localHeaderOffset partSize
        rw [hx] at hdx
        rw [hy] at hdy
        simp only
        omega
      · cases hb
    · cases ha
  have hsort : (partFilesAt (files.map m) partSize p).entries =
      partEntries (files.map m) partSize p := by
    rw [partFilesAt]
    exact hsorted.insertionSort_eq
  rw [hsort, hheaders, hentries, List.forall₂_map_left_iff, List.forall₂_map_right_iff,
    List.forall₂_same]
  rintro ⟨⟨call, e⟩, i⟩ hx
  obtain ⟨hx, hpart⟩ := List.mem_filter.mp hx
  have hget := List.mem_zipIdx_iff_getElem?.mp hx
  rw [List.getElem?_zip_eq_some] at hget
  refine ⟨by rw [hget.1]; rfl, by rw [hget.2]; rfl, ?_⟩
  have hdiv := Nat.div_add_mod e.localHeaderOffset partSize
  rw [show e.localHeaderOffset / partSize = p by simpa using hpart] at hdiv
  rw [Nat.mul_comm]
  exact hdiv

theorem exists_mem_of_forall₂ {α β : Type*} {R : α → β → Prop} {xs : List α} {ys : List β}
    (h : List.Forall₂ R xs ys) {x : α} (hx : x ∈ xs) : ∃ y ∈ ys, R x y := by
  induction h with
  | nil => cases hx
  | @cons a b xs ys hab _ ih =>
    rcases List.mem_cons.mp hx with rfl | hx
    · exact ⟨b, List.mem_cons_self, hab⟩
    · obtain ⟨y, hy, hxy⟩ := ih hx
      exact ⟨y, List.mem_cons_of_mem _ hy, hxy⟩

/-- An entry whose header the part map pairs with it has its offset read back. -/
theorem offsetDecodes_of_belongs {files : List FileEntry}
    (hasc : files.Pairwise fun e f ↦ e.localHeaderOffset < f.localHeaderOffset)
    {calls : List AddCall} {partSize p : ℕ} {e : FileEntry} (he : e ∈ files)
    (hrange : e.InRange)
    {h : LocalFileHeader} {entry : PartFileEntry}
    (hbelongs : BelongsTo calls files partSize p (e.localHeaderOffset, h) entry)
    (hentry : entry ∈
      (partFilesAt (files.map fun e ↦ readBack partSize e (decodedValues e)) partSize p).entries) :
    e.OffsetDecodes ∧ p < 2 ^ 32 := by
  rw [partFilesAt, List.mem_insertionSort] at hentry
  obtain ⟨f, hget, hpart, hoffset⟩ := mem_partEntries.mp hentry
  have hsame : files[entry.fileIndex]? = some e := by
    have hposition := hbelongs.position
    rw [Option.map_eq_some_iff] at hposition
    obtain ⟨e', hget', hoffset'⟩ := hposition
    have hnodup : (files.map FileEntry.localHeaderOffset).Nodup :=
      List.pairwise_map.mpr (hasc.imp fun hlt ↦ hlt.ne)
    rw [hget', List.inj_on_of_nodup_map hnodup (List.mem_of_getElem? hget') he hoffset']
  rw [List.getElem?_map, hsame] at hget
  obtain rfl := Option.some.inj hget
  have hplace := hbelongs.offsetInPart
  refine ⟨?_, hpart ▸ Nat.mod_lt _ (by norm_num)⟩
  intro hbehind
  by_contra hmarker
  have hdecoded := decodedValues_of_marker hrange hbehind (by omega)
  change (decodedValues e).localHeaderOffset / partSize % 2 ^ 32 = p at hpart
  change _ = (decodedValues e).localHeaderOffset % partSize at hoffset
  have hlt : 0xFFFFFFFF / partSize < 2 ^ 32 := (Nat.div_le_self _ _).trans_lt (by norm_num)
  rw [hdecoded] at hpart hoffset
  rw [Nat.mod_eq_of_lt hlt] at hpart
  have hdiv := Nat.div_add_mod' 0xFFFFFFFF partSize
  rw [hpart, ← hoffset, hplace] at hdiv
  omega

section
variable {env : WriterEnv} {level : ℤ} {limits : List ℕ} {calls : List AddCall}
  {w w' : BurstWriter} (hw : ∀ call ∈ calls, call.lfh.WellFormed)
  (hadd : addAll env calls (burstWriterCreate ⟨[], limits⟩ level) = (some (), w))
  (hfin : burstWriterFinalize w = (some (), w')) (he : ∀ e ∈ w.files, e.InRange)
  (hn : ∀ e ∈ w.files, e.NameDecodes)
  (hnames : ∀ call ∈ calls, call.lfh.rawName ≠ paddingLfhFilename)
include hw hadd hnames

theorem metHeaders_eq_userHeaders (partSize p : ℕ) :
    metHeaders partSize p 0 (bodyItems (layoutAll env level 0 calls)) =
      userHeaders partSize p calls w.files := by
  have hfiles : w.files = recordedAll env level 0 calls := by
    obtain ⟨-, hadded⟩ := addAll_ok hadd
    simpa [burstWriterCreate, BurstWriter.position] using hadded.files
  rw [metHeaders_layoutAll partSize p 0 hw, hfiles, List.filter_eq_self]
  intro h hmem
  obtain ⟨call, hcall, heq⟩ := mem_userHeaders hmem
  rw [heq]
  simpa using hnames call hcall

include hfin he hn

/-- The headers of every part are those the part map has for it exactly when the offsets of all
entries are read back, and their parts have 32-bit indices. -/
theorem finalized_pairs_iff {partSize : ℕ} (hpos : 0 < partSize)
    (hsize : w'.output.bytes.length + partSize < 2 ^ 64) {full : CentralDirParseResult}
    (hfull : centralDirParse w'.output.bytes w'.output.bytes.length partSize = .ok full) :
    (∀ p part, full.parts[p]? = some part →
        List.Forall₂ (BelongsTo calls w.files partSize p)
          (metHeaders partSize p 0 (bodyItems (layoutAll env level 0 calls))) part.entries) ↔
      ∀ e ∈ w.files, e.OffsetDecodes ∧ e.localHeaderOffset / partSize < 2 ^ 32 := by
  have htracks := addAll_tracks hadd
  obtain ⟨hfiles, hbytes⟩ := finalized_bytes hadd hfin
  have hlen : w.files.length = calls.length := by
    rw [hfiles, recordedAll_length]
  have hasc : w.files.Pairwise fun e f ↦ e.localHeaderOffset < f.localHeaderOffset := by
    rw [hfiles]
    exact recordedAll_ascending env level 0 calls
  have hfullFiles := finalized_centralDirParse_files htracks hfin (by omega) he hn
    (Nat.zero_le _) hfull
  have hfullMap := finalized_centralDirParse_parts htracks hfin (by omega) (Nat.zero_le _) hfull
  constructor
  · intro hpairs e hmem
    obtain ⟨i, hi⟩ := List.mem_iff_getElem?.mp hmem
    obtain ⟨call, hcall⟩ : ∃ call, calls[i]? = some call := by
      have hlt := (List.getElem?_eq_some_iff.mp hi).1
      exact ⟨calls[i], List.getElem?_eq_getElem (hlen ▸ hlt)⟩
    have hzip : (call, e) ∈ calls.zip w.files :=
      List.mem_of_getElem? (List.getElem?_zip_eq_some.mpr ⟨hcall, hi⟩)
    have huser : (e.localHeaderOffset, call.lfh) ∈
        userHeaders partSize (e.localHeaderOffset / partSize) calls w.files :=
      List.mem_filterMap.mpr ⟨(call, e), hzip, if_pos rfl⟩
    have hstart : e.localHeaderOffset / partSize * partSize < w'.output.bytes.length := by
      have hoffset := (recordedAll_offset (hfiles ▸ hmem)).2
      have hle := Nat.div_mul_le_self e.localHeaderOffset partSize
      rw [hbytes, List.length_append, List.length_append, endRecords_length, itemBytes_length]
      omega
    have hpairs := hpairs _ _ (buildPartMap_getElem hfullMap (lt_numPartsFor hpos hsize.le hstart))
    rw [metHeaders_eq_userHeaders hw hadd hnames] at hpairs
    obtain ⟨entry, hentry, hbelongs⟩ := exists_mem_of_forall₂ hpairs huser
    exact offsetDecodes_of_belongs hasc hmem (he e hmem) hbelongs (hfullFiles ▸ hentry)
  · intro hdec p part hpart
    obtain ⟨-, rfl⟩ := buildPartMap_some hfullMap hpart
    rw [metHeaders_eq_userHeaders hw hadd hnames, hfullFiles]
    refine partFilesAt_entries hlen hasc fun e hmem ↦ ?_
    have hoffset := (decodedValues_offset_iff (he e hmem)).mpr (hdec e hmem).1
    refine ⟨hoffset, ?_⟩
    change (decodedValues e).localHeaderOffset / partSize % 2 ^ 32 = _
    rw [hoffset, Nat.mod_eq_of_lt (hdec e hmem).2]

/-- The body of a finalized archive is a row of entries in the order of its central directory,
whose headers lie at their recorded offsets; and the headers met in a part are in order those the
part map has for it, exactly when all offsets are read back. -/
theorem finalized_tiling {partSize : ℕ} (hpos : 0 < partSize)
    (hsize : w'.output.bytes.length + partSize < 2 ^ 64) {full : CentralDirParseResult}
    (hfull : centralDirParse w'.output.bytes w'.output.bytes.length partSize = .ok full) :
    ∃ entries : List (List Item), List.Forall₂ EntryForm calls entries ∧
      w'.output.bytes = itemBytes entries.flatten ++ centralDirectoryBytes w.files ++
        endRecords w.files w.position (centralDirectoryBytes w.files).length ∧
      (∀ i call e, calls[i]? = some call → w.files[i]? = some e → ∃ before after,
        entries[i]? = some (before ++ .localHeader call.lfh :: after) ∧
        e.localHeaderOffset = (itemBytes (entries.take i).flatten).length +
          (itemBytes before).length) ∧
      ((∀ p part, full.parts[p]? = some part →
          List.Forall₂ (BelongsTo calls w.files partSize p) (metHeaders partSize p 0 entries.flatten)
            part.entries) ↔
        ∀ e ∈ w.files, e.OffsetDecodes ∧ e.localHeaderOffset / partSize < 2 ^ 32) := by
  obtain ⟨hfiles, hbytes⟩ := finalized_bytes hadd hfin
  have hflatten : ((layoutAll env level 0 calls).map EntryLayout.items).flatten =
      bodyItems (layoutAll env level 0 calls) := by
    rw [bodyItems, List.flatMap_def]
  have hposition : (itemBytes (bodyItems (layoutAll env level 0 calls))).length = w.position := by
    have hlength := finalized_length (addAll_tracks hadd) hfin
    rw [hbytes, List.length_append, List.length_append, endRecords_length,
      burstEocdCommentSize] at hlength
    omega
  refine ⟨(layoutAll env level 0 calls).map EntryLayout.items, layoutAll_entryForm env level 0 calls,
    ?_, ?_, ?_⟩
  · rw [hflatten, ← hposition]
    exact hbytes
  · intro i call e hcall hentry
    obtain ⟨before, after, hget, hoffset⟩ := recordedAll_headerAt hcall (hfiles ▸ hentry)
    refine ⟨before, after, hget, ?_⟩
    rw [hoffset, itemBytes_length, itemBytes_length]
    omega
  · rw [hflatten]
    exact finalized_pairs_iff hw hadd hfin he hn hnames hpos hsize hfull

end

/-- Three entries, of which the second and the third begin in part 1. -/
theorem finalized_tiling_sample : ∃ w w' full,
    addAll rawEnv (spreadCalls (noise 8387708) (noise 9000000)) (burstWriterCreate ⟨[], []⟩ 3) = (some (), w) ∧
    burstWriterFinalize w = (some (), w') ∧
    centralDirParse w'.output.bytes w'.output.bytes.length burstPartSize = .ok full ∧
    ∃ entries : List (List Item),
      List.Forall₂ EntryForm (spreadCalls (noise 8387708) (noise 9000000)) entries ∧
      w'.output.bytes = itemBytes entries.flatten ++ centralDirectoryBytes w.files ++
        endRecords w.files w.position (centralDirectoryBytes w.files).length ∧
      (∀ i call e, (spreadCalls (noise 8387708) (noise 9000000))[i]? = some call → w.files[i]? = some e →
        ∃ before after, entries[i]? = some (before ++ .localHeader call.lfh :: after) ∧
          e.localHeaderOffset = (itemBytes (entries.take i).flatten).length + (itemBytes before).length) ∧
      ∀ p part, full.parts[p]? = some part →
        List.Forall₂ (BelongsTo (spreadCalls (noise 8387708) (noise 9000000)) w.files burstPartSize p)
          (metHeaders burstPartSize p 0 entries.flatten) part.entries := by
  obtain ⟨w, w', a, b, c, hadd, hfin, hfiles, hentries, ha, hb, hc, hposition, hcd, hlength⟩ :=
    spreadCalls_run (noise_length 8387708) (noise_length 9000000)
  obtain ⟨hw, hplain⟩ := spreadCalls_wellFormed (noise 8387708) (noise 9000000)
  have hrange : ∀ e ∈ w.files, e.InRange := fun e he ↦ (hentries e he).1
  have hnames : ∀ e ∈ w.files, e.NameDecodes := fun e he ↦ (hentries e he).2.1
  have hdec : ∀ e ∈ w.files, e.OffsetDecodes ∧ e.localHeaderOffset / burstPartSize < 2 ^ 32 := by
    intro e he
    refine ⟨(hentries e he).2.2, (Nat.div_le_self _ _).trans_lt ?_⟩
    rw [hfiles] at he
    simp only [List.mem_cons, List.not_mem_nil, or_false] at he
    rcases he with rfl | rfl | rfl <;> omega
  obtain ⟨full, hfull⟩ := finalized_centralDirParse_ok (addAll_tracks hadd) hfin (by omega) hrange hnames
    (Nat.zero_le _) le_rfl (by
      rw [estimatedEntries, sizeofFileMetadata]
      split <;> omega)
  rw [List.drop_zero] at hfull
  obtain ⟨entries, hforms, hbytes, hplaces, hpairs⟩ := finalized_tiling hw hadd hfin hrange hnames hplain
    (by norm_num [burstPartSize]) (by rw [burstPartSize]; omega) hfull
  exact ⟨w, w', full, hadd, hfin, hfull, entries, hforms, hbytes, hplaces, hpairs.mpr hdec⟩

theorem markerCalls_wellFormed (large marker : List UInt8) :
    (∀ call ∈ markerCalls large marker, call.lfh.WellFormed) ∧
      ∀ call ∈ markerCalls large marker, call.lfh.rawName ≠ paddingLfhFilename := by
  simp only [markerCalls, List.forall_mem_cons, List.not_mem_nil, false_implies, implies_true,
    and_true, AddCall.lfh]
  refine ⟨⟨fileHeader_wellFormed 97, directoryHeader_wellFormed 98, fileHeader_wellFormed 99,
    directoryHeader_wellFormed 100⟩, ?_, ?_, ?_, ?_⟩ <;> decide

/-- The entry of 4294967295 bytes behind the large file is not among those of its part. -/
theorem finalized_tiling_marker : ∃ w w' full,
    addAll rawEnv (markerCalls (noise (2 ^ 36)) (noise 0xFFFFFFFF))
      (burstWriterCreate ⟨[], []⟩ 3) = (some (), w) ∧
    burstWriterFinalize w = (some (), w') ∧
    (∀ call ∈ markerCalls (noise (2 ^ 36)) (noise 0xFFFFFFFF),
      call.lfh.rawName ≠ paddingLfhFilename) ∧
    centralDirParse w'.output.bytes w'.output.bytes.length burstPartSize = .ok full ∧
    ¬ ∀ p part, full.parts[p]? = some part →
      List.Forall₂ (BelongsTo (markerCalls (noise (2 ^ 36)) (noise 0xFFFFFFFF)) w.files
          burstPartSize p)
        (metHeaders burstPartSize p 0 (bodyItems (layoutAll rawEnv 3 0
          (markerCalls (noise (2 ^ 36)) (noise 0xFFFFFFFF))))) part.entries := by
  obtain ⟨w, w', a, b, c, d, hadd, hfin, hfiles, hentries, -, hposition, hlength, hcd⟩ :=
    markerCalls_run (noise_length (2 ^ 36)) (noise_length 0xFFFFFFFF)
  obtain ⟨hw, hplain⟩ := markerCalls_wellFormed (noise (2 ^ 36)) (noise 0xFFFFFFFF)
  have hrange : ∀ e ∈ w.files, e.InRange := hfiles ▸ hentries.inRange
  have hnames : ∀ e ∈ w.files, e.NameDecodes := hfiles ▸ hentries.names
  obtain ⟨full, hfull⟩ := finalized_centralDirParse_ok (addAll_tracks hadd) hfin (by omega) hrange
    hnames (Nat.zero_le _) le_rfl (by
      rw [estimatedEntries, sizeofFileMetadata]
      split <;> omega)
  refine ⟨w, w', full, hadd, hfin, hplain, hfull, fun hpairs ↦ ?_⟩
  have hdec := (finalized_pairs_iff hw hadd hfin hrange hnames hplain (by norm_num [burstPartSize])
    (by rw [burstPartSize]; omega) hfull).mp hpairs
  have hlarge := hentries.large
  have hafter := hentries.after
  exact ((hdec c (by rw [hfiles]; simp)).1 (by omega)).1 hentries.marker

end Burst
