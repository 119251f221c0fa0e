import Burst.LayoutAlignment
import Burst.PartMap
import Mathlib.Data.List.Forall2

namespace Burst

open Tiling LittleEndian

/-- Where an entry's local header starts and how long it is, where the chunk loop ends and where
the entry ends. -/
structure EntrySpan where
  headerPos : ℕ
  lfhLen : ℕ
  dataEnd : ℕ
  endPos : ℕ

def entrySpan (pos : ℕ) (l : EntryLayout) : EntrySpan where
  headerPos := l.headerPos pos
  lfhLen := l.header.len
  dataEnd := l.dataPos pos + total Item.len l.data
  endPos := pos + total Item.len l.items

def entrySpans : ℕ → List EntryLayout → List EntrySpan
  | _, [] => []
  | pos, l :: ls => entrySpan pos l :: entrySpans (pos + total Item.len l.items) ls

/-- A boundary lies after the header of an entry and before its end. -/
def EntrySpan.Crosses (s : EntrySpan) (boundary : ℕ) : Prop :=
  s.headerPos < boundary ∧ boundary < s.endPos

/-- Metadata with the offset and the size the writer records for an entry. -/
structure FileMetadata.Locates (m : FileMetadata) (s : EntrySpan) : Prop where
  localHeaderOffset : m.localHeaderOffset = s.headerPos
  compressedSize : s.headerPos + s.lfhLen + m.compressedSize = s.dataEnd

theorem recordedEntry_localHeaderOffset (env : WriterEnv) (level : ℤ) (pos : ℕ) (call : AddCall) :
    (recordedEntry env level pos call).localHeaderOffset =
      (entrySpan pos (layoutCall env level pos call)).headerPos := by
  cases call with
  | file input lfh unixMode uid gid =>
    simp only [recordedEntry]
    split <;> rfl
  | symlink => rfl
  | directory => rfl

theorem recordedEntry_compressedSize (env : WriterEnv) (level : ℤ) (pos : ℕ) (call : AddCall) :
    (recordedEntry env level pos call).compressedSize =
      total Item.len (layoutCall env level pos call).data := by
  cases call with
  | file input lfh unixMode uid gid =>
    simp only [recordedEntry]
    split
    · next hho => simp [layoutCall, hho, populateEntryMetadata, allocateFileEntry]
    · next hho =>
      simp only [completedEntry, layoutCall, hho, EntryLayout.dataPos, EntryLayout.headerPos]
      rfl
  | symlink => simp [recordedEntry, layoutCall]
  | directory => simp [recordedEntry, layoutCall]

/-- An item that may follow the header of an entry. -/
def Item.IsBody : Item → Prop
  | paddingHeader _ => False
  | localHeader _ => False
  | _ => True

theorem frameItems_isBody (pos offset : ℕ) (chunk frame : List UInt8) :
    ∀ i ∈ frameItems pos offset chunk frame, i.IsBody := by
  intro i hi
  simp only [frameItems, List.mem_append, List.mem_singleton] at hi
  obtain (hi | rfl) | hi := hi
  · split at hi
    · obtain rfl := List.mem_singleton.mp hi
      trivial
    · simp only [List.mem_cons, List.not_mem_nil, or_false] at hi
      obtain rfl | rfl := hi <;> trivial
    · simp at hi
  · trivial
  · split at hi
    · obtain rfl := List.mem_singleton.mp hi
      trivial
    · simp at hi

theorem chunkItems_isBody (env : WriterEnv) (level : ℤ) (pos offset : ℕ)
    (chunks : List (List UInt8)) : ∀ i ∈ chunkItems env level pos offset chunks, i.IsBody := by
  induction chunks generalizing pos offset with
  | nil => simp [chunkItems]
  | cons chunk chunks ih =>
    intro i hi
    rcases List.mem_append.mp hi with hi | hi
    · exact frameItems_isBody _ _ _ _ i hi
    · exact ih _ _ i hi

theorem layoutCall_body_isBody (env : WriterEnv) (level : ℤ) (pos : ℕ) (call : AddCall) :
    ∀ i ∈ (layoutCall env level pos call).body, i.IsBody := by
  cases call with
  | file input lfh unixMode uid gid =>
    intro i hi
    simp only [layoutCall] at hi
    split at hi
    · simp [EntryLayout.body] at hi
    · simp only [EntryLayout.body, List.mem_append, List.mem_singleton] at hi
      obtain (hi | hi) | rfl := hi
      · exact chunkItems_isBody _ _ _ _ _ i hi
      · simp only [fileEnding, endingItems] at hi
        split at hi
        · simp only [List.mem_cons, List.not_mem_nil, or_false] at hi
          obtain rfl | rfl := hi <;> trivial
        · simp at hi
      · trivial
  | symlink =>
    intro i hi
    obtain rfl : i = Item.target _ := by simpa [layoutCall, EntryLayout.body] using hi
    trivial
  | directory => simp [layoutCall, EntryLayout.body]

theorem layoutCall_gap_length (env : WriterEnv) (level : ℤ) (pos : ℕ) (call : AddCall) :
    (layoutCall env level pos call).gap.length ≤ 1 := by
  have hgap (lfhLen contentSize : ℕ) (dd : Bool) :
      (gapItems env pos lfhLen contentSize dd).length ≤ 1 := by
    unfold gapItems
    split <;> simp
  cases call with
  | file =>
    simp only [layoutCall]
    split <;> exact hgap _ _ _
  | symlink => exact hgap _ _ _
  | directory => exact hgap _ _ _

/-- A local file header lies at a position of a row of items. -/
def HeaderAt (pos : ℕ) (is : List Item) (p : ℕ) : Prop :=
  ∃ before header after, is = before ++ .localHeader header :: after ∧
    header.fields.signature = zipLocalFileHeaderSig ∧ pos + total Item.len before = p

def StartOfPartAt (pos : ℕ) (is : List Item) (p : ℕ) : Prop :=
  ∃ before offset after, is = before ++ .startOfPart offset :: after ∧
    pos + total Item.len before = p

theorem Item.StartsPart.startOfPart {i : Item} (h : i.StartsPart) (hbody : i.IsBody) :
    ∃ offset, i = .startOfPart offset := by
  cases i with
  | startOfPart offset => exact ⟨offset, rfl⟩
  | paddingHeader | localHeader => exact hbody.elim
  | frame | padding | descriptor | target => exact h.elim

/-- A boundary inside one entry's items is the start of its header or of a Start-of-Part frame
after it. -/
theorem layoutCall_boundary {env : WriterEnv} {level : ℤ} {pos k : ℕ} {call : AddCall}
    (hal : PartAligned pos (layoutCall env level pos call).items) (hlo : pos < k * burstPartSize)
    (hhi : k * burstPartSize < pos + total Item.len (layoutCall env level pos call).items) :
    let s := entrySpan pos (layoutCall env level pos call)
    (s.headerPos = k * burstPartSize ∧
      HeaderAt pos (layoutCall env level pos call).items (k * burstPartSize)) ∨
    (s.headerPos + s.lfhLen ≤ k * burstPartSize ∧
      StartOfPartAt pos (layoutCall env level pos call).items (k * burstPartSize)) := by
  intro s
  have hgap := layoutCall_gap_length env level pos call
  have hbody := layoutCall_body_isBody env level pos call
  set l := layoutCall env level pos call
  obtain ⟨before, i, after, he, hcut, hstart⟩ := hal.cut hlo.le hhi
  have hsplit := he
  rw [EntryLayout.items, List.append_eq_append_iff] at hsplit
  obtain ⟨as, hbefore, hrest⟩ | ⟨as, hgapEq, hrest⟩ := hsplit
  · cases as with
    | nil =>
      rw [List.nil_append, List.cons.injEq] at hrest
      obtain ⟨rfl, -⟩ := hrest
      refine .inl ⟨?_, before, l.header, after, he, hstart, hcut⟩
      rw [← hcut, hbefore, List.append_nil]
      rfl
    | cons a as =>
      rw [List.cons_append, List.cons.injEq] at hrest
      obtain ⟨rfl, hrest⟩ := hrest
      obtain ⟨offset, rfl⟩ := hstart.startOfPart (hbody i (by rw [hrest]; simp))
      refine .inr ⟨?_, before, offset, after, he, hcut⟩
      rw [← hcut, hbefore, total_append, total_cons, Item.len_localHeader]
      change pos + total Item.len l.gap + l.header.len ≤ _
      omega
  · cases as with
    | nil =>
      rw [List.nil_append, List.cons.injEq] at hrest
      obtain ⟨rfl, -⟩ := hrest
      refine .inl ⟨?_, before, l.header, after, he, hstart, hcut⟩
      rw [← hcut, show before = l.gap by simpa using hgapEq.symm]
      rfl
    | cons a as =>
      have hnil : before = [] := by
        rw [hgapEq, List.length_append, List.length_cons] at hgap
        exact List.eq_nil_of_length_eq_zero (by omega)
      rw [hnil, total_nil] at hcut
      omega

theorem HeaderAt.append {pos p : ℕ} {is : List Item} (h : HeaderAt pos is p) (js : List Item) :
    HeaderAt pos (is ++ js) p := by
  obtain ⟨before, header, after, rfl, hsig, hpos⟩ := h
  exact ⟨before, header, after ++ js, by simp, hsig, hpos⟩

theorem HeaderAt.prepend {pos p : ℕ} {is js : List Item}
    (h : HeaderAt (pos + total Item.len is) js p) : HeaderAt pos (is ++ js) p := by
  obtain ⟨before, header, after, rfl, hsig, hpos⟩ := h
  exact ⟨is ++ before, header, after, by simp, hsig, by rw [total_append, ← Nat.add_assoc, hpos]⟩

theorem StartOfPartAt.append {pos p : ℕ} {is : List Item} (h : StartOfPartAt pos is p)
    (js : List Item) : StartOfPartAt pos (is ++ js) p := by
  obtain ⟨before, offset, after, rfl, hpos⟩ := h
  exact ⟨before, offset, after ++ js, by simp, hpos⟩

theorem StartOfPartAt.prepend {pos p : ℕ} {is js : List Item}
    (h : StartOfPartAt (pos + total Item.len is) js p) : StartOfPartAt pos (is ++ js) p := by
  obtain ⟨before, offset, after, rfl, hpos⟩ := h
  exact ⟨is ++ before, offset, after, by simp, by rw [total_append, ← Nat.add_assoc, hpos]⟩

theorem entrySpan_ordered (pos : ℕ) (l : EntryLayout) :
    let s := entrySpan pos l
    pos ≤ s.headerPos ∧ s.headerPos + s.lfhLen ≤ s.dataEnd ∧ s.dataEnd ≤ s.endPos ∧
      30 ≤ s.lfhLen := by
  simp only [entrySpan, EntryLayout.headerPos, EntryLayout.dataPos, EntryLayout.items,
    EntryLayout.body, total_append, total_cons, Item.len_localHeader, LocalFileHeader.len]
  omega

theorem entrySpans_ge {pos : ℕ} {ls : List EntryLayout} {s : EntrySpan}
    (h : s ∈ entrySpans pos ls) : pos ≤ s.headerPos := by
  induction ls generalizing pos with
  | nil => simp [entrySpans] at h
  | cons l ls ih =>
    rcases List.mem_cons.mp h with rfl | h
    · exact (entrySpan_ordered pos l).1
    · exact (Nat.le_add_right _ _).trans (ih h)

/-- The estimate counts 46 bytes around the data in place of the header. -/
theorem continuesInto_iff {m : FileMetadata} {s : EntrySpan} (hm : m.Locates s) (hl : 30 ≤ s.lfhLen)
    (hrange : s.dataEnd + 16 < 2 ^ 64) (p : ℕ) :
    continuesInto p m = true ↔ s.headerPos < p ∧ p + s.lfhLen < s.dataEnd + 46 := by
  have hend := hm.compressedSize
  rw [continuesInto, decide_eq_true_iff, hm.localHeaderOffset, Nat.mod_eq_of_lt (by omega)]
  omega

theorem findIdx?_continuesInto_of_le {ms : List FileMetadata} {spans : List EntrySpan} {p : ℕ}
    (hms : List.Forall₂ FileMetadata.Locates ms spans) (h : ∀ s ∈ spans, p ≤ s.headerPos) :
    ms.findIdx? (continuesInto p) = none := by
  rw [List.findIdx?_eq_none_iff]
  intro m hm
  induction hms with
  | nil => simp at hm
  | @cons m' s ms spans hloc _ ih =>
    rcases List.mem_cons.mp hm with rfl | hm
    · have := h s List.mem_cons_self
      rw [continuesInto, decide_eq_false_iff_not, hloc.localHeaderOffset]
      omega
    · exact ih (fun t ht ↦ h t (List.mem_cons_of_mem _ ht)) hm

/-- What lies on a boundary and what the part map makes of it: a header that no estimate reaches
over, or a Start-of-Part frame inside one entry. -/
def BoundaryOutcome (pos : ℕ) (is : List Item) (spans : List EntrySpan) (ms : List FileMetadata)
    (p : ℕ) : Prop :=
  (HeaderAt pos is p ∧ ms.findIdx? (continuesInto p) = none ∧ ∀ s ∈ spans, ¬ s.Crosses p) ∨
  ∃ i s, spans[i]? = some s ∧ s.Crosses p ∧ StartOfPartAt pos is p ∧
    (∀ j t, spans[j]? = some t → t.Crosses p → j = i) ∧
    ms.findIdx? (continuesInto p) = if p + s.lfhLen < s.dataEnd + 46 then some i else none

theorem boundaryOutcome_of_lt {env : WriterEnv} {level : ℤ} {pos k : ℕ} {call : AddCall}
    {ls : List EntryLayout} {m : FileMetadata} {ms : List FileMetadata}
    (hal : PartAligned pos (layoutCall env level pos call).items) (hlo : pos < k * burstPartSize)
    (hhi : k * burstPartSize < pos + total Item.len (layoutCall env level pos call).items)
    (hm : m.Locates (entrySpan pos (layoutCall env level pos call)))
    (hms : List.Forall₂ FileMetadata.Locates ms
      (entrySpans (pos + total Item.len (layoutCall env level pos call).items) ls))
    (hrange : pos + total Item.len (layoutCall env level pos call).items + 16 < 2 ^ 64) :
    BoundaryOutcome pos ((layoutCall env level pos call).items ++ bodyItems ls)
      (entrySpan pos (layoutCall env level pos call) ::
        entrySpans (pos + total Item.len (layoutCall env level pos call).items) ls)
      (m :: ms) (k * burstPartSize) := by
  have hcases := layoutCall_boundary hal hlo hhi
  obtain ⟨-, hdata, hend, hl⟩ := entrySpan_ordered pos (layoutCall env level pos call)
  have hendPos : (entrySpan pos (layoutCall env level pos call)).endPos =
    pos + total Item.len (layoutCall env level pos call).items := rfl
  set s := entrySpan pos (layoutCall env level pos call)
  have hlater : ∀ t ∈ entrySpans (pos + total Item.len (layoutCall env level pos call).items) ls,
      k * burstPartSize ≤ t.headerPos := fun t ht ↦ hhi.le.trans (entrySpans_ge ht)
  have hnone := findIdx?_continuesInto_of_le hms hlater
  have hfirst := continuesInto_iff hm hl (by omega) (k * burstPartSize)
  obtain ⟨hheader, hat⟩ | ⟨hafter, hat⟩ := hcases
  · refine .inl ⟨hat.append _, ?_, fun t ht ↦ ?_⟩
    · rw [List.findIdx?_cons, if_neg (by rw [hfirst]; omega), hnone]
      rfl
    · rcases List.mem_cons.mp ht with rfl | ht
      · exact fun hc ↦ absurd hc.1 (by omega)
      · exact fun hc ↦ absurd hc.1 (by have := hlater t ht; omega)
  · refine .inr ⟨0, s, rfl, ⟨by omega, by omega⟩, hat.append _, fun j t hj hc ↦ ?_, ?_⟩
    · cases j with
      | zero => rfl
      | succ j =>
        have := hlater t (List.mem_of_getElem? (by simpa using hj))
        exact absurd hc.1 (by omega)
    · rw [List.findIdx?_cons, hnone]
      by_cases hcov : k * burstPartSize + s.lfhLen < s.dataEnd + 46
      · rw [if_pos (by rw [hfirst]; omega), if_pos hcov]
      · rw [if_neg (by rw [hfirst]; omega), if_neg hcov]
        rfl

theorem BoundaryOutcome.cons {pos p : ℕ} {l : EntryLayout} {ls : List EntryLayout}
    {m : FileMetadata} {ms : List FileMetadata} (hpast : continuesInto p m = false)
    (hend : pos + total Item.len l.items ≤ p)
    (h : BoundaryOutcome (pos + total Item.len l.items) (bodyItems ls)
      (entrySpans (pos + total Item.len l.items) ls) ms p) :
    BoundaryOutcome pos (l.items ++ bodyItems ls)
      (entrySpan pos l :: entrySpans (pos + total Item.len l.items) ls) (m :: ms) p := by
  have hcross : ¬ (entrySpan pos l).Crosses p := fun hc ↦ absurd hc.2 (by
    change ¬ p < pos + total Item.len l.items
    omega)
  have hskip : (m :: ms).findIdx? (continuesInto p) = (ms.findIdx? (continuesInto p)).map (· + 1) := by
    rw [List.findIdx?_cons, if_neg (by simp [hpast])]
  obtain ⟨hat, hnone, hno⟩ | ⟨i, s, hi, hc, hat, huniq, hfind⟩ := h
  · refine .inl ⟨hat.prepend, by rw [hskip, hnone]; rfl, fun t ht ↦ ?_⟩
    rcases List.mem_cons.mp ht with rfl | ht
    · exact hcross
    · exact hno t ht
  · refine .inr ⟨i + 1, s, by simpa using hi, hc, hat.prepend, fun j t hj ht ↦ ?_, ?_⟩
    · cases j with
      | zero =>
        obtain rfl : entrySpan pos l = t := by simpa using hj
        exact (hcross ht).elim
      | succ j => rw [huniq j t (by simpa using hj) ht]
    · rw [hskip, hfind]
      split <;> rfl

/-- An entry ends at least 44 bytes before the next boundary. -/
theorem Roomy.add_le {pos k : ℕ} (h : Roomy pos) (hle : pos ≤ k * burstPartSize) :
    pos + 44 ≤ k * burstPartSize := by
  obtain ⟨hspace, hinside⟩ := h
  rw [spaceUntilBoundary] at hspace hinside
  have hmod := Nat.div_add_mod pos burstPartSize
  have hk : pos / burstPartSize < k := by
    rw [Nat.div_lt_iff_lt_mul (by norm_num [burstPartSize])]
    refine lt_of_le_of_ne hle fun heq ↦ ?_
    rw [heq, Nat.mul_mod_left] at hinside
    omega
  have hmul := Nat.mul_le_mul_right burstPartSize (Nat.succ_le_of_lt hk)
  rw [Nat.succ_mul, Nat.mul_comm (pos / burstPartSize)] at hmul
  omega

/-- Every boundary before the end of the entries has one of the two outcomes. -/
theorem layoutAll_boundaryOutcome {env : WriterEnv} {level : ℤ} (hbound : FramesBounded env level)
    {calls : List AddCall}
    (hsig : ∀ call ∈ calls, call.lfh.fields.signature = zipLocalFileHeaderSig)
    (hfit : ∀ call ∈ calls, call.HeaderFits) {pos k : ℕ} {ms : List FileMetadata}
    (hroom : 44 ≤ spaceUntilBoundary pos) (hlo : pos < k * burstPartSize)
    (hhi : k * burstPartSize < pos + total Item.len (bodyItems (layoutAll env level pos calls)))
    (hms : List.Forall₂ FileMetadata.Locates ms (entrySpans pos (layoutAll env level pos calls)))
    (hrange : pos + total Item.len (bodyItems (layoutAll env level pos calls)) + 16 < 2 ^ 64) :
    BoundaryOutcome pos (bodyItems (layoutAll env level pos calls))
      (entrySpans pos (layoutAll env level pos calls)) ms (k * burstPartSize) := by
  induction calls generalizing pos ms with
  | nil => simp [layoutAll, bodyItems] at hhi; omega
  | cons call calls ih =>
    obtain ⟨hal, hnext, -⟩ := layoutCall_aligned hbound (hsig call List.mem_cons_self)
      (hfit call List.mem_cons_self) hroom
    simp only [layoutAll, entrySpans, bodyItems, List.flatMap_cons, total_append] at hms hhi hrange ⊢
    cases hms with
    | @cons m _ ms _ hm hms =>
      by_cases hin : k * burstPartSize < pos + total Item.len (layoutCall env level pos call).items
      · exact boundaryOutcome_of_lt hal hlo hin hm hms (by omega)
      · obtain ⟨-, hdata, hend, hl⟩ := entrySpan_ordered pos (layoutCall env level pos call)
        have hendPos : (entrySpan pos (layoutCall env level pos call)).endPos =
          pos + total Item.len (layoutCall env level pos call).items := rfl
        set e := pos + total Item.len (layoutCall env level pos call).items
        have hgap : e + 44 ≤ k * burstPartSize := hnext.add_le (by omega)
        have hpast : continuesInto (k * burstPartSize) m = false := by
          rw [← Bool.not_eq_true, continuesInto_iff hm hl (by omega)]
          omega
        have hhi' : k * burstPartSize <
            e + total Item.len (bodyItems (layoutAll env level e calls)) := by
          simp only [bodyItems]
          omega
        have hrange' : e + total Item.len (bodyItems (layoutAll env level e calls)) + 16 <
            2 ^ 64 := by
          simp only [bodyItems]
          omega
        exact BoundaryOutcome.cons hpast (by omega) (ih
          (fun c hc ↦ hsig c (List.mem_cons_of_mem _ hc))
          (fun c hc ↦ hfit c (List.mem_cons_of_mem _ hc)) hnext.1 (by omega) hhi' hms hrange')

end Burst
