import Burst.Lib.Slices
import Burst.PartReading

namespace Burst

open Tiling LittleEndian Incremental Slices

/-- The entries do not end on a boundary, nor shortly before one. -/
theorem layoutAll_roomy {env : WriterEnv} {level : ℤ} (hbound : FramesBounded env level)
    {calls : List AddCall} (hfit : ∀ call ∈ calls, call.HeaderFits) {pos : ℕ}
    (hroom : 44 ≤ spaceUntilBoundary pos) (hne : calls ≠ []) :
    Roomy (pos + total Item.len (bodyItems (layoutAll env level pos calls))) := by
  induction calls generalizing pos with
  | nil => exact absurd rfl hne
  | cons call calls ih =>
    obtain ⟨-, hnext, -⟩ := layoutCall_rule hbound (hfit call List.mem_cons_self) hroom
    simp only [layoutAll, bodyItems, List.flatMap_cons, total_append]
    rw [← Nat.add_assoc]
    by_cases hcalls : calls = []
    · rw [hcalls]
      simpa [layoutAll] using hnext
    · exact ih (fun c hc ↦ hfit c (List.mem_cons_of_mem _ hc)) hnext.1 hcalls

theorem entrySpans_le {pos : ℕ} {ls : List EntryLayout} {s : EntrySpan} (h : s ∈ entrySpans pos ls) :
    s.dataEnd ≤ s.endPos ∧ s.endPos ≤ pos + total Item.len (bodyItems ls) ∧ 30 ≤ s.lfhLen := by
  induction ls generalizing pos with
  | nil => cases h
  | cons l ls ih =>
    simp only [bodyItems, List.flatMap_cons, total_append]
    rcases List.mem_cons.mp h with rfl | hlater
    · obtain ⟨-, -, hend, hlen⟩ := entrySpan_ordered pos l
      exact ⟨hend, by rw [← Nat.add_assoc]; exact Nat.le_add_right _ _, hlen⟩
    · obtain ⟨hend, hle, hlen⟩ := ih hlater
      rw [← Nat.add_assoc]
      exact ⟨hend, hle, hlen⟩

/-- The last entry ends where the body does. -/
theorem entrySpans_getLast {pos : ℕ} {ls : List EntryLayout} {s : EntrySpan}
    (h : (entrySpans pos ls).getLast? = some s) : s.endPos = pos + total Item.len (bodyItems ls) := by
  induction ls generalizing pos with
  | nil => cases h
  | cons l ls ih =>
    rw [bodyItems, List.flatMap_cons, total_append, ← Nat.add_assoc]
    cases ls with
    | nil =>
      obtain rfl := Option.some.inj h
      rfl
    | cons next ls =>
      apply ih
      rwa [entrySpans, entrySpans, List.getLast?_cons_cons] at h

theorem centralDirectoryBytes_signature {files : List FileEntry} (hne : files ≠ []) :
    encode 4 zipCentralDirHeaderSig <+: centralDirectoryBytes files := by
  cases files with
  | nil => exact absurd rfl hne
  | cons e files =>
    simp only [centralDirectoryBytes, List.flatMap_cons, centralHeaderBytes, ZipCentralHeader.fixedBytes,
      List.append_assoc]
    exact List.prefix_append _ _

/-- The bytes of a part. -/
def Extraction.partBytes (x : Extraction) (archive : List UInt8) (p : ℕ) : List UInt8 :=
  (archive.drop (p * x.partSize)).take x.partSize

namespace Extraction.Knows

variable {x : Extraction} {env : WriterEnv} {level : ℤ} {calls : List AddCall} {archive : List UInt8}

/-- A part lists as many entries as start in it. -/
theorem entries_length (h : x.Knows env level calls archive) {p : ℕ} (hp : p < x.numParts) :
    (x.env p).part.entries.length =
      partRank (calls.zip (recordedAll env level 0 calls)) x.partSize p calls.length := by
  have hlength := (partFilesAt_entries (recordedAll_length env level 0 calls)
    (recordedAll_ascending env level 0 calls)
    (fun e he ↦ ⟨(h.restores he).1.localHeaderOffset, (h.restores he).2⟩) :
      List.Forall₂ (BelongsTo calls (recordedAll env level 0 calls) x.partSize p) _ _).length_eq
  rw [← h.files] at hlength
  rw [h.part_eq hp, ← hlength, userHeaders, List.length_filterMap_eq_countP, partRank,
    List.take_of_length_le (by rw [List.length_zip]; exact Nat.min_le_left _ _)]
  apply List.countP_congr
  intro entry _
  split <;> simp_all

/-- No file goes on into a part behind the last entry. -/
theorem continuingFile_none (h : x.Knows env level calls archive) {p : ℕ} (hp : p < x.numParts)
    (hend : total Item.len (bodyItems (layoutAll env level 0 calls)) ≤ p * x.partSize) :
    (x.env p).part.continuingFile = none := by
  rw [h.part_eq hp]
  rcases Nat.eq_zero_or_pos p with rfl | hpos
  · rfl
  have hsize := h.size
  have hbody := h.body_lt
  have hinside := numPartsFor_start h.partSize_pos h.size.le (by omega) (h.numParts_eq ▸ hp)
  rw [partFilesAt_continuingFile _ hpos (by omega), List.findIdx?_eq_none_iff]
  intro fileMeta hmem
  obtain ⟨i, hi⟩ := List.mem_iff_getElem?.mp hmem
  obtain ⟨s, hs, hlocates⟩ := forall₂_getElem? h.locates hi
  obtain ⟨hdata, hle, hlen⟩ := entrySpans_le (List.mem_of_getElem? hs)
  have hne : calls ≠ [] := by
    rintro rfl
    cases hs
  obtain ⟨unit, hunit⟩ := h.partSize
  have hboundary : p * x.partSize = p * unit * burstPartSize := by
    rw [hunit]
    ring
  have hroomy := (layoutAll_roomy h.bound h.fits
    (show 44 ≤ spaceUntilBoundary 0 by norm_num [spaceUntilBoundary, burstPartSize]) hne).add_le
    (k := p * unit) (by rw [← hboundary, Nat.zero_add]; exact hend)
  rw [← Bool.not_eq_true, continuesInto_iff hlocates hlen (by omega)]
  omega

end Extraction.Knows

namespace ReadsByParts

variable {x : Extraction} {env : WriterEnv} {level : ℤ} {calls : List AddCall} {archive : List UInt8}
  {segs : ℕ → List Item} {states : ℕ → ReadPos} {outs : ℕ → List FileOp}

/-- Nothing is left to read behind the last entry. -/
theorem after_body (h : ReadsByParts x env level calls segs states outs)
    (hk : x.Knows env level calls archive) {p : ℕ} (hp : p ≤ x.numParts)
    (hend : total Item.len (bodyItems (layoutAll env level 0 calls)) ≤ p * x.partSize) :
    bodyItems (layoutAll env level 0 calls) = (List.range p).flatMap segs ∧
      states p = .header calls.length ∧ (List.range' p (x.numParts - p)).flatMap outs = [] := by
  have hsplit := h.body_split hp
  have hcut := h.starts p hp
  rw [Nat.min_eq_right hend] at hcut
  have hrest := Run.compose h.reads hp le_rfl
  cases hlater : (List.range' p (x.numParts - p)).flatMap segs with
  | nil =>
    rw [hlater] at hrest hsplit
    rw [List.append_nil] at hsplit
    cases houts : (List.range' p (x.numParts - p)).flatMap outs with
    | nil =>
      rw [houts] at hrest
      refine ⟨hsplit, ?_, rfl⟩
      rw [← h.last]
      generalize states p = s, states x.numParts = t at hrest
      cases hrest
      rfl
    | cons =>
      rw [houts] at hrest
      cases hrest
  | cons item later =>
    -- an item behind the body would take up room
    have htotal := congrArg (total Item.len) hsplit
    rw [total_append, hcut, hlater, total_cons] at htotal
    have hpos := h.len_pos hk item (by rw [hsplit, hlater]; simp)
    omega

/-- What there is of a part behind the body. -/
theorem at_end (h : ReadsByParts x env level calls segs states outs)
    (hk : x.Knows env level calls archive) {p : ℕ} (hp : p < x.numParts)
    (hend : total Item.len (bodyItems (layoutAll env level 0 calls)) ≤ p * x.partSize) :
    states p = .header calls.length ∧ states (p + 1) = .header calls.length ∧ outs p = [] := by
  obtain ⟨-, hstate, houts⟩ := h.after_body hk hp.le hend
  obtain ⟨-, hstate', -⟩ := h.after_body hk hp
    (hend.trans (Nat.mul_le_mul_right x.partSize (Nat.le_succ p)))
  refine ⟨hstate, hstate', ?_⟩
  apply List.flatMap_eq_nil_iff.mp houts
  rw [List.mem_range'_1]
  omega

/-- The bytes of the body that lie in a part. -/
theorem bodyBytes (h : ReadsByParts x env level calls segs states outs)
    (hk : x.Knows env level calls archive) {p : ℕ} (hp : p < x.numParts)
    (hstart : p * x.partSize ≤ total Item.len (bodyItems (layoutAll env level 0 calls))) :
    itemBytes (segs p) = slice archive (p * x.partSize)
      (min ((p + 1) * x.partSize) (total Item.len (bodyItems (layoutAll env level 0 calls)))) := by
  have hcut := h.starts_eq hp.le hstart
  have hnext := h.ends_eq hp hstart
  have hsplit := h.body_split hp
  rw [List.range_succ, List.flatMap_append, List.flatMap_singleton] at hsplit
  have hbytes := hk.bytes
  rw [hsplit, itemBytes_append, itemBytes_append, List.append_assoc, List.append_assoc] at hbytes
  have hlength : (itemBytes (segs p)).length = min ((p + 1) * x.partSize)
      (total Item.len (bodyItems (layoutAll env level 0 calls))) - p * x.partSize := by
    rw [itemBytes_length]
    omega
  rw [slice, hbytes, List.drop_left' (by rw [itemBytes_length, hcut]), List.take_left' hlength]

/-- The bytes of a part that ends in the body. -/
theorem inner_bytes (h : ReadsByParts x env level calls segs states outs)
    (hk : x.Knows env level calls archive) {p : ℕ} (hp : p + 1 ≤ x.numParts)
    (hend : (p + 1) * x.partSize ≤ total Item.len (bodyItems (layoutAll env level 0 calls))) :
    x.partBytes archive p = itemBytes (segs p) := by
  have hmul := Nat.add_one_mul p x.partSize
  rw [h.bodyBytes hk hp (by omega), Nat.min_eq_left hend, hmul, slice, Nat.add_sub_cancel_left]
  rfl

/-- The bytes of the part that the body ends in. -/
theorem last_bytes (h : ReadsByParts x env level calls segs states outs)
    (hk : x.Knows env level calls archive) {p : ℕ} (hp : p + 1 ≤ x.numParts)
    (hstart : p * x.partSize ≤ total Item.len (bodyItems (layoutAll env level 0 calls)))
    (hend : total Item.len (bodyItems (layoutAll env level 0 calls)) ≤ (p + 1) * x.partSize) :
    x.partBytes archive p = itemBytes (segs p) ++
      (centralDirectoryBytes (recordedAll env level 0 calls) ++
        endRecords (recordedAll env level 0 calls)
          (total Item.len (bodyItems (layoutAll env level 0 calls)))
          (centralDirectoryBytes (recordedAll env level 0 calls)).length).take
        ((p + 1) * x.partSize - total Item.len (bodyItems (layoutAll env level 0 calls))) := by
  have hmul := Nat.add_one_mul p x.partSize
  have hcut := h.starts_eq (p := p) (by omega) hstart
  obtain ⟨hbody, -, -⟩ := h.after_body hk hp hend
  rw [List.range_succ, List.flatMap_append, List.flatMap_singleton] at hbody
  have htotal := congrArg (total Item.len) hbody
  rw [total_append, hcut] at htotal
  have hbytes := hk.bytes
  generalize centralDirectoryBytes (recordedAll env level 0 calls) ++
        endRecords (recordedAll env level 0 calls)
          (total Item.len (bodyItems (layoutAll env level 0 calls)))
          (centralDirectoryBytes (recordedAll env level 0 calls)).length = directory at hbytes ⊢
  rw [Extraction.partBytes, hbytes]
  conv_lhs => rw [hbody]
  rw [itemBytes_append, List.append_assoc, List.drop_left' (by rw [itemBytes_length, hcut]),
    List.take_append, itemBytes_length]
  congr 1
  · apply List.take_of_length_le
    rw [itemBytes_length]
    omega
  · congr 1
    omega

/-- How a part ends in which the reader has been. -/
theorem ends (h : ReadsByParts x env level calls segs states outs)
    (hk : x.Knows env level calls archive) {p : ℕ} (hp : p < x.numParts)
    (hstart : p * x.partSize ≤ total Item.len (bodyItems (layoutAll env level 0 calls))) :
    ∃ tail, x.partBytes archive p = itemBytes (segs p) ++ tail ∧
      PartEnds (x.env p) (calls.zip (recordedAll env level 0 calls)) (states (p + 1)) tail := by
  rcases Nat.lt_or_ge ((p + 1) * x.partSize)
    (total Item.len (bodyItems (layoutAll env level 0 calls))) with hinner | hlast
  · have hbody := hk.body_lt
    have hnext : p + 1 < x.numParts := by
      rw [hk.numParts_eq]
      exact lt_numPartsFor hk.partSize_pos hk.size.le (by omega)
    refine ⟨[], by rw [h.inner_bytes hk hp hinner.le, List.append_nil], .cut ?_⟩
    intro i hi
    have hbegins := h.begins hk hnext hinner
    rw [hi] at hbegins
    cases hbegins
  · obtain ⟨-, hstate, -⟩ := h.after_body hk hp hlast
    refine ⟨_, h.last_bytes hk hp hstart hlast, ?_⟩
    rw [hstate]
    refine .last (hk.entries_length hp).le fun hne ↦ ?_
    have hcalls : calls ≠ [] := List.ne_nil_of_length_pos hne
    have hfiles : recordedAll env level 0 calls ≠ [] :=
      List.ne_nil_of_length_pos (by rwa [recordedAll_length])
    obtain ⟨unit, hunit⟩ := hk.partSize
    have hroomy := (layoutAll_roomy hk.bound hk.fits
      (show 44 ≤ spaceUntilBoundary 0 by norm_num [spaceUntilBoundary, burstPartSize]) hcalls).add_le
      (k := (p + 1) * unit) (by
        rw [Nat.zero_add, Nat.mul_assoc, Nat.mul_comm unit, ← hunit]
        exact hlast)
    rw [Nat.zero_add, Nat.mul_assoc, Nat.mul_comm unit, ← hunit] at hroomy
    refine List.prefix_take_iff.mpr ⟨(centralDirectoryBytes_signature hfiles).trans
      (List.prefix_append _ _), ?_⟩
    rw [encode_length]
    omega

/-- Every part of an archive is extracted without an error, and comes to what the reader comes to. -/
theorem extracts (h : ReadsByParts x env level calls segs states outs)
    (hk : x.Knows env level calls archive) (hos : ∀ p, (x.os p).Obliges) {p : ℕ} (hp : p < x.numParts) :
    Extracts (x.env p) (partProcessorCreate []).toPartProcessor (x.partBytes archive p)
      ((states p).opening (x.entryPath calls) ++ (outs p ++
        (states (p + 1)).closing (x.entryPath calls) (calls.zip (recordedAll env level 0 calls)))) := by
  have hbody := hk.body_lt
  have hinside := numPartsFor_start hk.partSize_pos hk.size.le (by omega) (hk.numParts_eq ▸ hp)
  have hne : x.partBytes archive p ≠ [] := by
    apply List.ne_nil_of_length_pos
    rw [Extraction.partBytes, List.length_take, List.length_drop]
    have hpos := hk.partSize_pos
    omega
  by_cases hstart : p = 0 ∨ p * x.partSize < total Item.len (bodyItems (layoutAll env level 0 calls))
  · have hbegins : PartBegins (x.env p) (calls.zip (recordedAll env level 0 calls)) (states p)
        (segs p) := by
      rcases hstart with rfl | hstart
      · exact h.begins_first hk
      · exact h.begins hk hp hstart
    have hle : p * x.partSize ≤ total Item.len (bodyItems (layoutAll env level 0 calls)) := by
      rcases hstart with rfl | hstart
      · rw [Nat.zero_mul]
        exact Nat.zero_le _
      · exact hstart.le
    obtain ⟨tail, hbytes, hends⟩ := h.ends hk hp hle
    have hnext := h.ends_eq hp hle
    rw [Nat.add_one_mul] at hnext
    have hreads := h.reads p hp
    rw [Nat.zero_add, h.starts_eq hp.le hle] at hreads
    rw [hbytes] at hne ⊢
    exact hbegins.extracts hk.frames (hk.knowsEntries hp) (hos p) hreads (by
      change _ ≤ x.partSize
      omega) hends hne
  · -- nothing of the body lies in the part
    obtain ⟨-, hend⟩ := not_or.mp hstart
    have hend := Nat.le_of_not_lt hend
    obtain ⟨hstate, hstate', hout⟩ := h.at_end hk hp hend
    have hrank := h.partRank_met hp.le
    rw [hstate, ReadPos.met, ← hk.entries_length hp] at hrank
    have hinit : step (x.env p) (partProcessorCreate []).toPartProcessor (x.partBytes archive p) =
        .next ((partProcessorCreate []).toPartProcessor.enter .expectLocalHeader)
          (x.partBytes archive p) := by
      change stepInit (x.env p) _ _ = _
      rw [stepInit, hk.continuingFile_none hp hend]
      rfl
    have hrest := @extracts_exhausted (x.env p)
      ((partProcessorCreate []).toPartProcessor.enter .expectLocalHeader) rfl hrank.le
      (x.partBytes archive p)
    rw [hstate, hstate', hout]
    exact hrest.of_visits (.later hne hinit .here)

/-- What the reader comes to in a part does not need the bytes behind the body. -/
theorem extracts_body (h : ReadsByParts x env level calls segs states outs)
    (hk : x.Knows env level calls archive) (hos : ∀ p, (x.os p).Obliges) {p : ℕ} (hp : p < x.numParts)
    (hstart : p * x.partSize < total Item.len (bodyItems (layoutAll env level 0 calls))) :
    Extracts (x.env p) (partProcessorCreate []).toPartProcessor (itemBytes (segs p))
      ((states p).opening (x.entryPath calls) ++ (outs p ++
        (states (p + 1)).closing (x.entryPath calls) (calls.zip (recordedAll env level 0 calls)))) := by
  obtain ⟨tail, -, hends⟩ := h.ends hk hp hstart.le
  have hcut : PartEnds (x.env p) (calls.zip (recordedAll env level 0 calls)) (states (p + 1)) [] := by
    generalize states (p + 1) = s at hends
    cases hends with
    | cut hs => exact .cut hs
    | last => exact .cut nofun
  have hnext := h.ends_eq hp hstart.le
  have hpos := hk.partSize_pos
  rw [Nat.add_one_mul] at hnext
  have hreads := h.reads p hp
  rw [Nat.zero_add, h.starts_eq hp.le hstart.le] at hreads
  have hne : itemBytes (segs p) ++ [] ≠ [] := by
    apply List.ne_nil_of_length_pos
    rw [List.append_nil, itemBytes_length]
    omega
  have hextracts := (h.begins hk hp hstart).extracts hk.frames (hk.knowsEntries hp) (hos p) hreads (by
    change _ ≤ x.partSize
    omega) hcut hne
  rwa [List.append_nil] at hextracts

/-- A part without body data comes to nothing. -/
theorem extracts_empty (h : ReadsByParts x env level calls segs states outs)
    (hk : x.Knows env level calls archive) {p : ℕ} (hp : p < x.numParts)
    (hend : total Item.len (bodyItems (layoutAll env level 0 calls)) ≤ p * x.partSize) :
    Extracts (x.env p) (partProcessorCreate []).toPartProcessor []
      ((states p).opening (x.entryPath calls) ++ (outs p ++
        (states (p + 1)).closing (x.entryPath calls) (calls.zip (recordedAll env level 0 calls)))) := by
  obtain ⟨hstate, hstate', hout⟩ := h.at_end hk hp hend
  rw [hstate, hstate', hout]
  exact extracts_nil _

/-- A part with something to do has body data. -/
theorem starts_of_outs (h : ReadsByParts x env level calls segs states outs)
    (hk : x.Knows env level calls archive) {p : ℕ} (hp : p < x.numParts) (hout : outs p ≠ []) :
    p * x.partSize < total Item.len (bodyItems (layoutAll env level 0 calls)) := by
  by_contra hend
  obtain ⟨-, -, hnil⟩ := h.at_end hk hp (Nat.le_of_not_lt hend)
  exact hout hnil

end ReadsByParts

end Burst
