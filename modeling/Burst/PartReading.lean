import Burst.ArchiveReading

namespace Burst

open Tiling LittleEndian Incremental

section

variable {env : WriterEnv} {level : ℤ} {path : ℕ → Path} {entries : List (AddCall × FileEntry)} {pos : ℕ}
  {s s' : ReadPos} {is : List Item} {out : List FileOp}

theorem Reads.of_localHeader {lfh : LocalFileHeader}
    (h : Reads env level path entries pos s (.localHeader lfh :: is) out s') : ∃ i, s = .header i := by
  cases h with
  | cons hstep _ =>
    cases hstep with
    | header => exact ⟨_, rfl⟩
    | data _ hdata => cases hdata

theorem Reads.of_startOfPart {offset : ℕ}
    (h : Reads env level path entries pos s (.startOfPart offset :: is) out s') :
    ∃ i call e, entries[i]? = some (call, e) ∧ call.isSymlink = false ∧ call.isDirectory = false ∧
      s = .data i offset := by
  cases h with
  | cons hstep _ =>
    cases hstep with
    | data hentry hdata =>
      cases hdata with
      | startOfPart => exact ⟨_, _, _, hentry, rfl, rfl, rfl⟩

/-- The data that is read is that of a file, and the reader has not got beyond what the file holds. -/
def ReadPos.Within (entries : List (AddCall × FileEntry)) : ReadPos → Prop
  | header _ => True
  | data i offset => ∃ call e, entries[i]? = some (call, e) ∧ call.isSymlink = false ∧
      offset ≤ call.content.length
  | target _ => True

theorem Reads.within (h : Reads env level path entries pos s is out s') (hs : s.Within entries) :
    s'.Within entries := by
  refine @Run.invariant _ _ _ _ _ _ _ _ _ _ (fun _ t ↦ t.Within entries) ?_ h hs
  intro pos s item out t hs hstep
  cases hstep with
  | padding => trivial
  | @header i call e hentry hpos =>
    cases call with
    | file input lfh unixMode uid gid =>
      rw [AddCall.opened]
      split
      · trivial
      · exact ⟨_, _, hentry, rfl, Nat.zero_le _⟩
    | symlink => trivial
    | directory => trivial
  | data hentry hdata hfits =>
    obtain ⟨call, e, hget, hlink, hinside⟩ := hs
    obtain ⟨rfl, rfl⟩ := Prod.mk.inj (Option.some.inj (hentry.symm.trans hget))
    exact ⟨_, _, hentry, rfl, hdata.offset_le_length hfits hinside⟩
  | descriptor => trivial
  | target => trivial

end

theorem le_numPartsFor {archiveSize partSize : ℕ} (hpart : 0 < partSize)
    (hsize : archiveSize + partSize ≤ 2 ^ 64) : archiveSize ≤ numPartsFor archiveSize partSize * partSize := by
  have hdiv := Nat.div_add_mod (archiveSize + partSize - 1) partSize
  have hmod := Nat.mod_lt (archiveSize + partSize - 1) hpart
  rw [Nat.mul_comm] at hdiv
  rw [numPartsFor, Nat.mod_eq_of_lt (by omega)]
  split
  · next hzero =>
    rw [hzero] at hdiv
    omega
  · omega

theorem numPartsFor_start {archiveSize partSize p : ℕ} (hpart : 0 < partSize)
    (hsize : archiveSize + partSize ≤ 2 ^ 64) (hne : 0 < archiveSize)
    (hp : p < numPartsFor archiveSize partSize) : p * partSize < archiveSize := by
  rw [numPartsFor, Nat.mod_eq_of_lt (by omega)] at hp
  split at hp
  · obtain rfl : p = 0 := by omega
    omega
  · have hle : (p + 1) * partSize ≤ archiveSize + partSize - 1 := by
      rw [← Nat.le_div_iff_mul_le hpart]
      exact hp
    rw [Nat.add_one_mul] at hle
    omega

/-- The body of an archive read part by part. -/
structure ReadsByParts (x : Extraction) (env : WriterEnv) (level : ℤ) (calls : List AddCall)
    (segs : ℕ → List Item) (states : ℕ → ReadPos) (outs : ℕ → List FileOp) : Prop where
  body : bodyItems (layoutAll env level 0 calls) = (List.range x.numParts).flatMap segs
  starts : ∀ p ≤ x.numParts, total Item.len ((List.range p).flatMap segs) =
    min (p * x.partSize) (total Item.len (bodyItems (layoutAll env level 0 calls)))
  first : states 0 = .header 0
  last : states x.numParts = .header calls.length
  reads : ∀ p < x.numParts, Reads env level (x.entryPath calls) (calls.zip (recordedAll env level 0 calls))
    (0 + total Item.len ((List.range p).flatMap segs)) (states p) (segs p) (outs p) (states (p + 1))
  deeds : allDeeds env level (x.entryPath calls) 0 0 calls = (List.range x.numParts).flatMap outs

namespace Extraction.Knows

variable {x : Extraction} {env : WriterEnv} {level : ℤ} {calls : List AddCall} {archive : List UInt8}

theorem body_lt (h : x.Knows env level calls archive) :
    total Item.len (bodyItems (layoutAll env level 0 calls)) + 106 ≤ archive.length := by
  have hlength := congrArg List.length h.bytes
  rw [List.length_append, List.length_append, itemBytes_length, endRecords_length] at hlength
  omega

/-- The central directory begins where the body ends. -/
theorem centralDirOffset (h : x.Knows env level calls archive) :
    x.cdResult.centralDirOffset = total Item.len (bodyItems (layoutAll env level 0 calls)) := by
  obtain ⟨limits, w, w', hadd, hfin, rfl⟩ := h.written
  obtain ⟨start, hstart, hparse⟩ := h.parsed
  have hposition := addAll_position hadd
  have hsize := h.size
  rw [finalized_centralDirParse (addAll_tracks hadd) hfin (by omega) (hposition ▸ hstart)] at hparse
  rw [centralDirParseFromCdBuffer_offset hparse, hposition]

theorem numParts_pos (h : x.Knows env level calls archive) : 0 < x.numParts := by
  rw [h.numParts_eq, numPartsFor]
  split
  · exact Nat.one_pos
  · next hne => exact Nat.pos_of_ne_zero hne

theorem numParts_le (h : x.Knows env level calls archive) : x.numParts ≤ 2 ^ 32 := by
  have hsize := h.size
  have hfew := h.fewParts
  have hpart := h.partSize_pos
  have hle : (archive.length + x.partSize - 1) / x.partSize ≤ 2 ^ 32 := by
    rw [Nat.div_le_iff_le_mul_add_pred hpart, Nat.mul_comm]
    omega
  rw [h.numParts_eq, numPartsFor, Nat.mod_eq_of_lt (by omega)]
  split
  · norm_num
  · exact hle

theorem readsByParts (h : x.Knows env level calls archive) :
    ∃ segs states outs, ReadsByParts x env level calls segs states outs := by
  have hroom : 44 ≤ spaceUntilBoundary 0 := by norm_num [spaceUntilBoundary, burstPartSize]
  obtain ⟨haligned, -⟩ := layoutAll_aligned h.bound h.signature h.fits hroom
  obtain ⟨unit, hunit⟩ := h.partSize
  have hpositive := h.numParts_pos
  obtain ⟨last, hlast⟩ : ∃ last, x.numParts = last + 1 := ⟨x.numParts - 1, by omega⟩
  obtain ⟨segs, hsegs, hstarts⟩ := Aligned.segments (m := unit) haligned last
  rw [← Nat.mul_comm burstPartSize, ← hunit] at hstarts
  have hall : Reads env level (x.entryPath calls) (calls.zip (recordedAll env level 0 calls)) 0 (.header 0)
      (bodyItems (layoutAll env level 0 calls)) (allDeeds env level (x.entryPath calls) 0 0 calls)
      (.header (0 + calls.length)) :=
    layoutAll_reads h.bound h.accepted h.fits (List.drop_zero)
  rw [hsegs] at hall
  obtain ⟨states, outs, hfirst, hend, hdeeds, hreads⟩ := Run.segments hall
  rw [Nat.zero_add] at hend
  rw [← hlast] at hsegs hend hdeeds hreads
  refine ⟨segs, states, outs, hsegs, ?_, hfirst, hend, hreads, hdeeds⟩
  intro p hp
  rcases Nat.lt_or_ge last p with hbeyond | hinside
  · obtain rfl : p = x.numParts := by omega
    have hle := le_numPartsFor h.partSize_pos h.size.le
    rw [← h.numParts_eq] at hle
    have hbody := h.body_lt
    rw [← hsegs]
    omega
  · exact hstarts p hinside

/-- The central directory has the entries where they lie. -/
theorem locates (h : x.Knows env level calls archive) :
    List.Forall₂ FileMetadata.Locates x.cdResult.files (entrySpans 0 (layoutAll env level 0 calls)) := by
  rw [h.files]
  apply recordedAll_locates x.partSize (fun e he ↦ (h.entries e he).1)
  intro e he
  obtain ⟨-, -, hsize, hcompressed⟩ := h.entries e he
  refine ⟨fun hmarker ↦ hsize hmarker.1, fun hmarker ↦ ?_⟩
  have := (hcompressed hmarker.1).2
  omega

theorem span_of_entry (h : x.Knows env level calls archive) {i : ℕ} {call : AddCall} {e : FileEntry}
    (hentry : (calls.zip (recordedAll env level 0 calls))[i]? = some (call, e)) :
    ∃ s, (entrySpans 0 (layoutAll env level 0 calls))[i]? = some s ∧ e.localHeaderOffset = s.headerPos := by
  obtain ⟨-, he⟩ := List.getElem?_zip_eq_some.mp hentry
  have hmeta : x.cdResult.files[i]? = some (readBack x.partSize e (decodedValues e)) := by
    rw [h.files, List.getElem?_map, he, Option.map_some]
  obtain ⟨s, hs, hlocate⟩ := forall₂_getElem? h.locates hmeta
  refine ⟨s, hs, ?_⟩
  exact (h.restores (List.mem_of_getElem? he)).1.localHeaderOffset.symm.trans hlocate.localHeaderOffset

theorem entry_of_span (h : x.Knows env level calls archive) {i : ℕ} {s : EntrySpan}
    (hs : (entrySpans 0 (layoutAll env level 0 calls))[i]? = some s) :
    ∃ call e, (calls.zip (recordedAll env level 0 calls))[i]? = some (call, e) ∧
      e.localHeaderOffset = s.headerPos := by
  have hlen := h.locates.length_eq
  rw [h.files, List.length_map, recordedAll_length] at hlen
  obtain ⟨hlt, -⟩ := List.getElem?_eq_some_iff.mp hs
  have hcall : i < calls.length := by omega
  have hfile : i < (recordedAll env level 0 calls).length := by rwa [recordedAll_length]
  have hentry : (calls.zip (recordedAll env level 0 calls))[i]? =
      some (calls[i], (recordedAll env level 0 calls)[i]) :=
    List.getElem?_zip_eq_some.mpr ⟨List.getElem?_eq_getElem hcall, List.getElem?_eq_getElem hfile⟩
  obtain ⟨t, ht, hoffset⟩ := h.span_of_entry hentry
  obtain rfl := Option.some.inj (hs.symm.trans ht)
  exact ⟨_, _, hentry, hoffset⟩

end Extraction.Knows

/-- Entries lie one behind the other. -/
theorem entrySpans_pairwise (pos : ℕ) (ls : List EntryLayout) :
    (entrySpans pos ls).Pairwise fun s t ↦ s.endPos ≤ t.headerPos := by
  induction ls generalizing pos with
  | nil => exact .nil
  | cons l ls ih => exact .cons (fun t ht ↦ entrySpans_ge ht) (ih _)

namespace ReadsByParts

variable {x : Extraction} {env : WriterEnv} {level : ℤ} {calls : List AddCall} {archive : List UInt8}
  {segs : ℕ → List Item} {states : ℕ → ReadPos} {outs : ℕ → List FileOp}

/-- The headers that have been met before a part lie before it, and all others behind where it starts. -/
theorem met_iff (h : ReadsByParts x env level calls segs states outs) {p : ℕ} (hp : p ≤ x.numParts)
    {j : ℕ} {call : AddCall} {e : FileEntry}
    (hentry : (calls.zip (recordedAll env level 0 calls))[j]? = some (call, e)) :
    j < (states p).met ↔ e.localHeaderOffset < total Item.len ((List.range p).flatMap segs) := by
  have hbefore := Reads.headers (Run.compose h.reads (Nat.zero_le p) hp)
  have hafter := Reads.headers (Run.compose h.reads hp le_rfl)
  rw [Nat.sub_zero, ← List.range_eq_range', h.first, List.range_zero, List.flatMap_nil, total_nil] at hbefore
  rw [h.last] at hafter
  have hlt : j < calls.length := by
    obtain ⟨hlt, -⟩ := List.getElem?_eq_some_iff.mp (List.getElem?_zip_eq_some.mp hentry).1
    exact hlt
  constructor
  · intro hmet
    have := (hbefore.2 (Nat.zero_le j) hmet hentry).2
    omega
  · intro hoffset
    by_contra hge
    have := (hafter.2 (Nat.le_of_not_lt hge) hlt hentry).1
    omega

/-- No entry that has been met before a part starts in it. -/
theorem partRank_met (h : ReadsByParts x env level calls segs states outs) {p : ℕ}
    (hp : p ≤ x.numParts) :
    partRank (calls.zip (recordedAll env level 0 calls)) x.partSize p (states p).met = 0 := by
  rw [partRank, List.countP_eq_zero]
  rintro ⟨call, e⟩ hmem hpart
  obtain ⟨j, hj⟩ := List.mem_iff_getElem?.mp hmem
  have hmet : j < (states p).met := by
    obtain ⟨hlt, -⟩ := List.getElem?_eq_some_iff.mp hj
    rw [List.length_take] at hlt
    omega
  rw [List.getElem?_take_of_lt hmet] at hj
  have hoffset := (h.met_iff hp hj).mp hmet
  rw [h.starts p hp] at hoffset
  have hlt : e.localHeaderOffset / x.partSize < p := Nat.div_lt_of_lt_mul (by rw [Nat.mul_comm]; omega)
  simp only [decide_eq_true_eq] at hpart
  omega

theorem within (h : ReadsByParts x env level calls segs states outs) {p : ℕ} (hp : p ≤ x.numParts) :
    (states p).Within (calls.zip (recordedAll env level 0 calls)) :=
  Reads.within (Run.compose h.reads (Nat.zero_le p) hp) (by rw [h.first]; trivial)

/-- Every item takes up room. -/
theorem len_pos (h : ReadsByParts x env level calls segs states outs)
    (hk : x.Knows env level calls archive) :
    ∀ item ∈ bodyItems (layoutAll env level 0 calls), 0 < item.len := by
  have hentries := hk.knowsEntries hk.numParts_pos
  have hall := Run.compose h.reads (Nat.zero_le x.numParts) le_rfl
  rw [Nat.sub_zero, ← List.range_eq_range', ← h.body] at hall
  intro item hitem
  obtain ⟨before, after, hsplit⟩ := List.append_of_mem hitem
  rw [hsplit] at hall
  obtain ⟨t, left, right, -, -, hright⟩ := Run.split hall
  cases hright with
  | cons hstep _ => exact hstep.len_pos hk.frames hentries

theorem withOs (h : ReadsByParts x env level calls segs states outs) (os : ℕ → Os) :
    ReadsByParts { x with os := os } env level calls segs states outs :=
  ⟨h.body, h.starts, h.first, h.last, h.reads, h.deeds⟩

/-- Where a part begins in the body. -/
theorem starts_eq (h : ReadsByParts x env level calls segs states outs) {p : ℕ} (hp : p ≤ x.numParts)
    (hstart : p * x.partSize ≤ total Item.len (bodyItems (layoutAll env level 0 calls))) :
    total Item.len ((List.range p).flatMap segs) = p * x.partSize := by
  rw [h.starts p hp, Nat.min_eq_left hstart]

/-- Where a part ends in the body. -/
theorem ends_eq (h : ReadsByParts x env level calls segs states outs) {p : ℕ} (hp : p < x.numParts)
    (hstart : p * x.partSize ≤ total Item.len (bodyItems (layoutAll env level 0 calls))) :
    p * x.partSize + total Item.len (segs p) =
      min ((p + 1) * x.partSize) (total Item.len (bodyItems (layoutAll env level 0 calls))) := by
  have hnext := h.starts (p + 1) hp
  rwa [List.range_succ, List.flatMap_append, List.flatMap_singleton, total_append, h.starts_eq hp.le hstart]
    at hnext

theorem body_split (h : ReadsByParts x env level calls segs states outs) {p : ℕ} (hp : p ≤ x.numParts) :
    bodyItems (layoutAll env level 0 calls) =
      (List.range p).flatMap segs ++ (List.range' p (x.numParts - p)).flatMap segs := by
  have happend := @List.range'_append_1 0 p (x.numParts - p)
  rw [Nat.zero_add, Nat.add_sub_cancel' hp] at happend
  rw [h.body, ← List.flatMap_append, List.range_eq_range', List.range_eq_range', happend]

/-- A part that starts in the body has an item, and the items from there on are read from there. -/
theorem segs_cons (h : ReadsByParts x env level calls segs states outs)
    (hk : x.Knows env level calls archive) {p : ℕ} (hp : p < x.numParts)
    (hstart : p * x.partSize < total Item.len (bodyItems (layoutAll env level 0 calls)))
    {before after : List Item} {item : Item}
    (hbody : bodyItems (layoutAll env level 0 calls) = before ++ item :: after)
    (hbefore : total Item.len before = p * x.partSize) : ∃ later, segs p = item :: later := by
  have hsplit := h.body_split hp.le
  have hcut := h.starts_eq hp.le hstart.le
  have hrest := split_unique (hbody.symm.trans hsplit) (hsplit ▸ h.len_pos hk) (hbefore.trans hcut.symm)
  have hrange : List.range' p (x.numParts - p) = p :: List.range' (p + 1) (x.numParts - p - 1) := by
    obtain ⟨n, hn⟩ : ∃ n, x.numParts - p = n + 1 := ⟨x.numParts - p - 1, by omega⟩
    rw [hn, List.range'_succ, Nat.add_sub_cancel]
  rw [hrange, List.flatMap_cons] at hrest
  cases hsegs : segs p with
  | nil =>
    -- a part that starts in the body does not end where it starts
    have hnext := h.ends_eq hp hstart.le
    rw [hsegs, total_nil, Nat.add_one_mul] at hnext
    have hpos := hk.partSize_pos
    omega
  | cons first later =>
    rw [hsegs, List.cons_append] at hrest
    obtain ⟨rfl, -⟩ := List.cons.inj hrest
    exact ⟨later, rfl⟩

theorem begins_first (h : ReadsByParts x env level calls segs states outs)
    (hk : x.Knows env level calls archive) :
    PartBegins (x.env 0) (calls.zip (recordedAll env level 0 calls)) (states 0) (segs 0) := by
  rw [h.first]
  refine .header ?_ ?_
  · rw [hk.part_eq hk.numParts_pos]
    rfl
  · rw [partRank, List.take_zero]
    rfl

/-- A part that starts in the body begins where the reader is. -/
theorem begins (h : ReadsByParts x env level calls segs states outs)
    (hk : x.Knows env level calls archive) {p : ℕ} (hp : p < x.numParts)
    (hstart : p * x.partSize < total Item.len (bodyItems (layoutAll env level 0 calls))) :
    PartBegins (x.env p) (calls.zip (recordedAll env level 0 calls)) (states p) (segs p) := by
  rcases Nat.eq_zero_or_pos p with rfl | hpos
  · exact h.begins_first hk
  obtain ⟨unit, hunit⟩ := hk.partSize
  have hboundary : p * x.partSize = p * unit * burstPartSize := by
    rw [hunit]
    ring
  have hbody := hk.body_lt
  have hsize := hk.size
  have houtcome := layoutAll_boundaryOutcome hk.bound hk.signature hk.fits (k := p * unit)
    (show 44 ≤ spaceUntilBoundary 0 by norm_num [spaceUntilBoundary, burstPartSize])
    (by rw [← hboundary]; exact Nat.mul_pos hpos hk.partSize_pos) (by rw [← hboundary]; omega)
    hk.locates (by omega)
  rw [← hboundary] at houtcome
  have hcontinuing : (x.env p).part.continuingFile =
      x.cdResult.files.findIdx? (continuesInto (p * x.partSize)) := by
    rw [hk.part_eq hp]
    exact partFilesAt_continuingFile _ hpos (by omega)
  have hcut := h.starts_eq hp.le hstart.le
  have hrank := h.partRank_met hp.le
  have hreads := h.reads p hp
  obtain ⟨hat, hnone, -⟩ | ⟨i, s, hi, hcross, hat, -, hfind⟩ := houtcome
  · obtain ⟨before, lfh, after, hitems, -, hbefore⟩ := hat
    obtain ⟨later, hsegs⟩ := h.segs_cons hk hp hstart hitems (by rwa [Nat.zero_add] at hbefore)
    rw [hsegs] at hreads ⊢
    obtain ⟨j, hj⟩ := hreads.of_localHeader
    rw [hj] at hrank ⊢
    exact .header (hcontinuing.trans hnone) hrank
  · obtain ⟨before, offset, after, hitems, hbefore⟩ := hat
    obtain ⟨later, hsegs⟩ := h.segs_cons hk hp hstart hitems (by rwa [Nat.zero_add] at hbefore)
    rw [hsegs] at hreads ⊢
    obtain ⟨j, call, e, hentry, hlink, hdirectory, hj⟩ := hreads.of_startOfPart
    -- the entry that goes on is the one whose data is read
    have hij : i = j := by
      have hmet {k : ℕ} {call : AddCall} {e : FileEntry}
          (hk : (calls.zip (recordedAll env level 0 calls))[k]? = some (call, e)) :=
        h.met_iff hp.le hk
      rw [hj, hcut] at hmet
      obtain ⟨_, e', hentry', hoffset'⟩ := hk.entry_of_span hi
      obtain ⟨t, ht, hoffset⟩ := hk.span_of_entry hentry
      have hle : i < j + 1 := (hmet hentry').mpr (hoffset' ▸ hcross.1)
      have hmetj := (hmet hentry).mp (Nat.lt_succ_self j)
      by_contra hne
      obtain ⟨hilt, rfl⟩ := List.getElem?_eq_some_iff.mp hi
      obtain ⟨hjlt, rfl⟩ := List.getElem?_eq_some_iff.mp ht
      have hordered := List.pairwise_iff_getElem.mp (entrySpans_pairwise 0 (layoutAll env level 0 calls))
        i j hilt hjlt (by omega)
      have hend := hcross.2
      omega
    subst hij
    have hwithin := h.within hp.le
    rw [hj] at hrank hwithin ⊢
    obtain ⟨_, _, hget, -, hinside⟩ := hwithin
    obtain ⟨rfl, rfl⟩ := Prod.mk.inj (Option.some.inj (hentry.symm.trans hget))
    rw [if_pos (hk.continues s (List.mem_of_getElem? hi) p hcross)] at hfind
    exact .data hentry hlink hdirectory hinside (hcontinuing.trans hfind) hrank

end ReadsByParts

end Burst
