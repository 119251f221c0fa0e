import Burst.EocdSoundness
import Burst.Lib.PrefixFree

namespace Burst

open LittleEndian

/-- A central directory header with the variable-length fields it declares. -/
def IsCentralHeader (bs : List UInt8) : Prop :=
  46 ≤ bs.length ∧ (parseCentralHeader bs).signature = zipCentralDirHeaderSig ∧
    bs.length = 46 + variableLen (parseCentralHeader bs)

theorem parseCentralHeader_append {bs : List UInt8} (h : 46 ≤ bs.length) (rest : List UInt8) :
    parseCentralHeader (bs ++ rest) = parseCentralHeader bs := by
  have hread (off w : ℕ) (hin : off + w ≤ 46) : read (bs ++ rest) off w = read bs off w :=
    read_append_left (hin.trans h) rest
  simp only [parseCentralHeader, hread 0 4 (by norm_num), hread 4 2 (by norm_num),
    hread 6 2 (by norm_num), hread 8 2 (by norm_num), hread 10 2 (by norm_num),
    hread 12 2 (by norm_num), hread 14 2 (by norm_num), hread 16 4 (by norm_num),
    hread 20 4 (by norm_num), hread 24 4 (by norm_num), hread 28 2 (by norm_num),
    hread 30 2 (by norm_num), hread 32 2 (by norm_num), hread 34 2 (by norm_num),
    hread 36 2 (by norm_num), hread 38 4 (by norm_num), hread 42 4 (by norm_num)]

theorem isCentralHeader_prefixFree : PrefixFree IsCentralHeader := by
  apply PrefixFree.of_length fun bs ↦ 46 + variableLen (parseCentralHeader bs)
  rintro bs rest ⟨hlen, -, hsize⟩
  rw [parseCentralHeader_append hlen, hsize]

/-- The metadata of the entry a header describes. -/
def headerMetadata (partSize : ℕ) (bs : List UInt8) : FileMetadata :=
  parseFileMetadata partSize (parseCentralHeader bs) (bs.drop 46)

/-- Bytes that are too few for a header, or do not begin with its signature. -/
def NoHeader (bs : List UInt8) : Prop :=
  bs.length < 46 ∨ (parseCentralHeader bs).signature ≠ zipCentralDirHeaderSig

/-- Headers at the start of a directory, up to where none begins. -/
structure SplitsInto (cd : List UInt8) (headers : List (List UInt8)) (rest : List UInt8) : Prop where
  wellFormed : ∀ bs ∈ headers, IsCentralHeader bs
  bytes : cd = headers.flatten ++ rest
  stops : NoHeader rest

theorem parseFileMetadata_append {partSize : ℕ} {bs : List UInt8} (h : IsCentralHeader bs)
    (rest : List UInt8) :
    parseFileMetadata partSize (parseCentralHeader bs) ((bs ++ rest).drop 46) =
      headerMetadata partSize bs := by
  obtain ⟨hlen, -, hsize⟩ := h
  have hfields : variableLen (parseCentralHeader bs) = (bs.drop 46).length := by
    rw [List.length_drop]
    omega
  have hsum : (parseCentralHeader bs).filenameLength + (parseCentralHeader bs).extraFieldLength ≤
      (bs.drop 46).length := by
    rw [← hfields, variableLen]
    omega
  have hname : ((bs ++ rest).drop 46).take (parseCentralHeader bs).filenameLength =
      (bs.drop 46).take (parseCentralHeader bs).filenameLength := by
    rw [List.drop_append_of_le_length hlen, List.take_append_of_le_length (by omega)]
  have hextra : (((bs ++ rest).drop 46).drop (parseCentralHeader bs).filenameLength).take
      (parseCentralHeader bs).extraFieldLength =
        ((bs.drop 46).drop (parseCentralHeader bs).filenameLength).take
          (parseCentralHeader bs).extraFieldLength := by
    rw [List.drop_append_of_le_length hlen, List.drop_append_of_le_length (by omega),
      List.take_append_of_le_length (by rw [List.length_drop]; omega)]
  simp only [headerMetadata, parseFileMetadata, hname, hextra]

theorem IsCentralHeader.header_append {bs : List UInt8} (h : IsCentralHeader bs)
    (rest : List UInt8) : ¬ NoHeader (bs ++ rest) := by
  rintro (hshort | hsig)
  · have hlen := h.1
    rw [List.length_append] at hshort
    omega
  · rw [parseCentralHeader_append h.1] at hsig
    exact hsig h.2.1

theorem SplitsInto.of_noHeader {cd rest : List UInt8} {headers : List (List UInt8)}
    (h : NoHeader cd) : SplitsInto cd headers rest ↔ headers = [] ∧ rest = cd := by
  constructor
  · intro hsplit
    cases headers with
    | nil => exact ⟨rfl, hsplit.bytes.symm⟩
    | cons bs headers =>
      have hbytes := hsplit.bytes
      rw [List.flatten_cons, List.append_assoc] at hbytes
      rw [hbytes] at h
      exact ((hsplit.wellFormed bs List.mem_cons_self).header_append _ h).elim
  · rintro ⟨rfl, rfl⟩
    exact ⟨by simp, rfl, h⟩

theorem SplitsInto.cons_iff {bs cd rest : List UInt8} {headers : List (List UInt8)}
    (h : IsCentralHeader bs) :
    SplitsInto (bs ++ cd) headers rest ↔ ∃ headers', headers = bs :: headers' ∧
      SplitsInto cd headers' rest := by
  constructor
  · intro hsplit
    cases headers with
    | nil => exact (h.header_append cd (hsplit.bytes ▸ hsplit.stops)).elim
    | cons bs' headers =>
      have hbytes := hsplit.bytes
      rw [List.flatten_cons, List.append_assoc] at hbytes
      obtain rfl := isCentralHeader_prefixFree h (hsplit.wellFormed bs' List.mem_cons_self) hbytes
      exact ⟨headers, rfl, fun b hb ↦ hsplit.wellFormed b (List.mem_cons_of_mem bs hb),
        List.append_cancel_left hbytes, hsplit.stops⟩
  · rintro ⟨headers, rfl, hsplit⟩
    refine ⟨List.forall_mem_cons.mpr ⟨h, hsplit.wellFormed⟩, ?_, hsplit.stops⟩
    rw [List.flatten_cons, List.append_assoc, ← hsplit.bytes]

/-- The first header is cut by the end of the directory. -/
def CutHeader (cd : List UInt8) : Prop :=
  ¬ NoHeader cd ∧ cd.length < 46 + variableLen (parseCentralHeader cd)

theorem CutHeader.not_splits {cd rest : List UInt8} {headers : List (List UInt8)}
    (h : CutHeader cd) : ¬ SplitsInto cd headers rest := by
  intro hsplit
  cases headers with
  | nil => exact h.1 (hsplit.bytes ▸ hsplit.stops)
  | cons bs headers =>
    obtain ⟨hlen, hsig, hsize⟩ := hsplit.wellFormed bs List.mem_cons_self
    have hbytes := hsplit.bytes
    rw [List.flatten_cons, List.append_assoc] at hbytes
    have hcut := h.2
    rw [hbytes, parseCentralHeader_append hlen, List.length_append] at hcut
    omega

/-- No header begins the bytes, or one does and is cut, or one does and is whole. -/
theorem directory_cases (cd : List UInt8) :
    NoHeader cd ∨ CutHeader cd ∨ ∃ bs rest, IsCentralHeader bs ∧ cd = bs ++ rest := by
  by_cases hno : NoHeader cd
  · exact .inl hno
  by_cases hcut : cd.length < 46 + variableLen (parseCentralHeader cd)
  · exact .inr (.inl ⟨hno, hcut⟩)
  right
  right
  obtain ⟨hlen, hsig⟩ := not_or.mp hno
  let size := 46 + variableLen (parseCentralHeader cd)
  have hsize : (cd.take size).length = size := by
    rw [List.length_take]
    omega
  have hparse : parseCentralHeader (cd.take size) = parseCentralHeader cd := by
    have happ := parseCentralHeader_append (show 46 ≤ (cd.take size).length by omega) (cd.drop size)
    rwa [List.take_append_drop, eq_comm] at happ
  refine ⟨cd.take size, cd.drop size, ⟨by omega, ?_, ?_⟩, (List.take_append_drop _ _).symm⟩
  · rw [hparse]
    exact not_not.mp hsig
  · rw [hparse, hsize]

/-- A round of the loop on bytes that begin with no header. -/
theorem parseEntries_noHeader (partSize n : ℕ) (first : Bool) {cd : List UInt8} (h : NoHeader cd)
    (files : List FileMetadata) :
    parseEntries partSize (n + 1) first cd = .ok files ↔
      files = [] ∧ (first = true → cd = []) := by
  rw [parseEntries]
  by_cases hnil : cd = []
  · simp [hnil, eq_comm]
  · have hlen := List.length_pos_of_ne_nil hnil
    rw [if_neg (by omega)]
    rcases h with hshort | hsig
    · rw [if_pos hshort]
      cases first <;> simp [hnil, eq_comm]
    · dsimp only
      rw [if_pos hsig]
      by_cases hshort : cd.length < 46
      · rw [if_pos hshort]
        cases first <;> simp [hnil, eq_comm]
      · rw [if_neg hshort]
        cases first <;> simp [hnil, eq_comm]

/-- A round of the loop on bytes that begin with a header. -/
theorem parseEntries_header (partSize n : ℕ) (first : Bool) {bs : List UInt8}
    (h : IsCentralHeader bs) (rest : List UInt8) :
    parseEntries partSize (n + 1) first (bs ++ rest) =
      (parseEntries partSize n false rest).map fun files ↦ headerMetadata partSize bs :: files := by
  have hlen := h.1
  have hsize := h.2.2
  have hmeta : parseFileMetadata partSize (parseCentralHeader bs) ((bs ++ rest).drop 46) =
      headerMetadata partSize bs := parseFileMetadata_append h rest
  have hlength : (bs ++ rest).length = bs.length + rest.length := List.length_append
  rw [parseEntries, if_neg (by omega), if_neg (by omega)]
  simp only [parseCentralHeader_append hlen, hmeta]
  rw [if_neg (not_not.mpr h.2.1), if_neg (by omega), ← hsize, List.drop_left' rfl]
  cases parseEntries partSize n false rest <;> rfl

theorem parseEntries_cutHeader (partSize n : ℕ) (first : Bool) {cd : List UInt8}
    (h : CutHeader cd) : parseEntries partSize (n + 1) first cd = .error .truncated := by
  obtain ⟨hlen, hsig⟩ := not_or.mp h.1
  have hcut := h.2
  rw [parseEntries, if_neg (by omega), if_neg hlen]
  dsimp only
  rw [if_neg hsig, if_pos (by omega)]

/-- The loop, when it is allowed a round for every 46 bytes: it reads the headers up to where none
begins. -/
theorem parseEntries_ok_iff (partSize : ℕ) {n : ℕ} {cd : List UInt8} (first : Bool)
    (hfirst : first = true → 0 < n) (hn : cd.length < 46 * (n + 1)) (files : List FileMetadata) :
    parseEntries partSize n first cd = .ok files ↔
      ∃ headers rest, SplitsInto cd headers rest ∧ files = headers.map (headerMetadata partSize) ∧
        (first = true → headers = [] → cd = []) := by
  induction n generalizing cd first files with
  | zero =>
    have hno : NoHeader cd := .inl (by omega)
    have hfalse : first = false := by
      cases first with
      | false => rfl
      | true => exact absurd (hfirst rfl) (by omega)
    simp only [parseEntries, SplitsInto.of_noHeader hno, hfalse]
    constructor
    · intro h
      exact ⟨[], cd, ⟨rfl, rfl⟩, (Except.ok.inj h).symm, by simp⟩
    · rintro ⟨_, _, ⟨rfl, rfl⟩, rfl, -⟩
      rfl
  | succ n ih =>
    rcases directory_cases cd with hno | hcut | ⟨bs, rest, hheader, rfl⟩
    · rw [parseEntries_noHeader partSize n first hno]
      simp only [SplitsInto.of_noHeader hno]
      constructor
      · rintro ⟨rfl, hnil⟩
        exact ⟨[], cd, ⟨rfl, rfl⟩, rfl, fun h _ ↦ hnil h⟩
      · rintro ⟨_, _, ⟨rfl, rfl⟩, rfl, hnil⟩
        exact ⟨rfl, fun h ↦ hnil h rfl⟩
    · rw [parseEntries_cutHeader partSize n first hcut]
      refine ⟨by rintro ⟨⟩, ?_⟩
      rintro ⟨headers, rest, hsplit, -, -⟩
      exact (hcut.not_splits hsplit).elim
    · have hlen := hheader.1
      rw [List.length_append] at hn
      have hrest := fun files ↦ @ih rest false (by simp) (by omega) files
      simp only [parseEntries_header partSize n first hheader rest, SplitsInto.cons_iff hheader]
      constructor
      · intro h
        cases htail : parseEntries partSize n false rest with
        | error e =>
          rw [htail] at h
          cases h
        | ok files' =>
          rw [htail] at h
          obtain rfl := Except.ok.inj h
          obtain ⟨headers, rest', hsplit, rfl, -⟩ := (hrest files').mp htail
          exact ⟨bs :: headers, rest', ⟨headers, rfl, hsplit⟩, rfl, by simp⟩
      · rintro ⟨_, rest', ⟨headers, rfl, hsplit⟩, rfl, -⟩
        rw [(hrest _).mpr ⟨headers, rest', hsplit, rfl, by simp⟩]
        rfl

/-- The bytes are a concatenation of headers, all of which are listed in order, as many as the end
record counts. -/
def ListsDirectory (partSize : ℕ) (cd : List UInt8) (files : List FileMetadata) (numEntries : ℕ) :
    Prop :=
  ∃ headers : List (List UInt8), (∀ bs ∈ headers, IsCentralHeader bs) ∧ cd = headers.flatten ∧
    files = headers.map (headerMetadata partSize) ∧ headers.length = numEntries

/-- Headers are followed by bytes of the directory among which none begins. -/
def LosesBytes (cd : List UInt8) : Prop :=
  ∃ headers rest, SplitsInto cd headers rest ∧ headers ≠ [] ∧ rest ≠ []

/-- What the parse checks before it reads the directory, and when it allocates. -/
structure ParseRoom (cdBuffer : List UInt8) (cdSize archiveSize partSize : ℕ) : Prop where
  buffer : cdBuffer ≠ []
  inside : cdSize ≤ cdBuffer.length
  files : estimatedEntries cdSize * sizeofFileMetadata < 2 ^ 63
  parts : numPartsFor archiveSize partSize * sizeofPartFiles < 2 ^ 63

/-- A directory the parse may be given: no bytes are lost after its headers, and if it is headers
throughout they are as many as the end record counts. -/
def CompleteDirectory (cd : List UInt8) (numEntries : ℕ) : Prop :=
  ¬ LosesBytes cd ∧
    ∀ headers : List (List UInt8), (∀ bs ∈ headers, IsCentralHeader bs) → cd = headers.flatten →
      headers.length = numEntries

theorem SplitsInto.of_flatten {headers : List (List UInt8)}
    (h : ∀ bs ∈ headers, IsCentralHeader bs) : SplitsInto headers.flatten headers [] :=
  ⟨h, (List.append_nil _).symm, .inl (by simp)⟩

theorem parseCentralDirectory_ok_iff {cdBuffer : List UInt8} {cdSize partSize : ℕ}
    (hsize : cdSize < 2 ^ 64) (hinside : cdSize ≤ cdBuffer.length)
    (hroom : estimatedEntries cdSize * sizeofFileMetadata < 2 ^ 63) (cdOffset : ℕ)
    (files : List FileMetadata) :
    parseCentralDirectory cdBuffer cdOffset cdOffset (estimatedEntries cdSize) cdSize partSize =
        .ok files ↔
      ∃ headers rest, SplitsInto (cdBuffer.take cdSize) headers rest ∧
        files = headers.map (headerMetadata partSize) ∧
        (headers = [] → cdBuffer.take cdSize = []) := by
  have hlen : (cdBuffer.take cdSize).length = cdSize := List.length_take_of_le hinside
  have hrounds : 0 < estimatedEntries cdSize ∧ cdSize < 46 * (estimatedEntries cdSize + 1) := by
    rw [estimatedEntries]
    split <;> omega
  rw [parseCentralDirectory, if_neg (by omega), Nat.sub_self, Nat.zero_add,
    Nat.mod_eq_of_lt hsize, if_neg (by omega), if_neg (by omega), List.drop_zero,
    parseEntries_ok_iff partSize true (fun _ ↦ hrounds.1) (by omega)]
  simp

/-- The parse succeeds with the headers up to where none begins, if there is one or the directory
is empty. -/
theorem centralDirParseFromCdBuffer_ok_iff {cdBuffer : List UInt8} {cdSize : ℕ}
    (hsize : cdSize < 2 ^ 64) (cdOffset archiveSize partSize : ℕ) (isZip64 : Bool)
    (files : List FileMetadata) :
    (∃ result, centralDirParseFromCdBuffer cdBuffer cdOffset cdSize archiveSize partSize isZip64 =
        .ok result ∧ result.files = files) ↔
      ParseRoom cdBuffer cdSize archiveSize partSize ∧
        ∃ headers rest, SplitsInto (cdBuffer.take cdSize) headers rest ∧
          files = headers.map (headerMetadata partSize) ∧
          (headers = [] → cdBuffer.take cdSize = []) := by
  rw [centralDirParseFromCdBuffer]
  by_cases hempty : cdBuffer.length = 0
  · rw [if_pos hempty]
    exact ⟨(by rintro ⟨_, heq, -⟩; cases heq), fun h ↦ (h.1.buffer (List.length_eq_zero_iff.mp hempty)).elim⟩
  rw [if_neg hempty]
  by_cases hshort : cdBuffer.length < cdSize
  · rw [if_pos hshort]
    exact ⟨(by rintro ⟨_, heq, -⟩; cases heq), fun h ↦ (Nat.not_le.mpr hshort h.1.inside).elim⟩
  rw [if_neg hshort]
  by_cases hfiles : 2 ^ 63 ≤ estimatedEntries cdSize * sizeofFileMetadata
  · rw [parseCentralDirectory, if_neg (by omega), Nat.sub_self, Nat.zero_add,
      Nat.mod_eq_of_lt hsize, if_neg hshort, if_pos hfiles]
    exact ⟨(by rintro ⟨_, heq, -⟩; cases heq), fun h ↦ (Nat.not_lt.mpr hfiles h.1.files).elim⟩
  have hparse := fun files ↦ @parseCentralDirectory_ok_iff cdBuffer cdSize partSize hsize
    (Nat.not_lt.mp hshort) (Nat.not_le.mp hfiles) cdOffset files
  by_cases hparts : 2 ^ 63 ≤ numPartsFor archiveSize partSize * sizeofPartFiles
  · refine ⟨?_, fun h ↦ (Nat.not_lt.mpr hparts h.1.parts).elim⟩
    cases parseCentralDirectory cdBuffer cdOffset cdOffset (estimatedEntries cdSize) cdSize partSize
    with
    | error e =>
      rintro ⟨_, heq, -⟩
      cases heq
    | ok files' =>
      simp only [buildPartMap, if_pos hparts]
      rintro ⟨_, heq, -⟩
      cases heq
  have hroom : ParseRoom cdBuffer cdSize archiveSize partSize :=
    ⟨fun h ↦ hempty (by rw [h]; rfl), Nat.not_lt.mp hshort, Nat.not_le.mp hfiles,
      Nat.not_le.mp hparts⟩
  rw [← hparse files, and_iff_right hroom]
  cases parseCentralDirectory cdBuffer cdOffset cdOffset (estimatedEntries cdSize) cdSize partSize
  with
  | error e =>
    constructor
    · rintro ⟨_, heq, -⟩
      cases heq
    · intro heq
      cases heq
  | ok files' =>
    simp only [buildPartMap, if_neg hparts]
    constructor
    · rintro ⟨result, hresult, rfl⟩
      obtain rfl := Except.ok.inj hresult
      rfl
    · intro h
      obtain rfl := Except.ok.inj h
      exact ⟨_, rfl, rfl⟩

/-- Whether a parse that succeeds lists the directory, for a directory of its buffer. -/
theorem listsDirectory_iff {cdBuffer : List UInt8} {cdSize : ℕ} (hsize : cdSize < 2 ^ 64)
    (cdOffset archiveSize partSize numEntries : ℕ) (isZip64 : Bool) :
    (∀ result, centralDirParseFromCdBuffer cdBuffer cdOffset cdSize archiveSize partSize isZip64 =
        .ok result → ListsDirectory partSize (cdBuffer.take cdSize) result.files numEntries) ↔
      (ParseRoom cdBuffer cdSize archiveSize partSize →
        CompleteDirectory (cdBuffer.take cdSize) numEntries) := by
  have hok := fun files ↦ @centralDirParseFromCdBuffer_ok_iff cdBuffer cdSize hsize cdOffset
    archiveSize partSize isZip64 files
  constructor
  · intro hlists hroom
    constructor
    · rintro ⟨headers, rest, hsplit, hheaders, hrest⟩
      obtain ⟨result, hresult, hfiles⟩ := (hok (headers.map (headerMetadata partSize))).mpr
        ⟨hroom, headers, rest, hsplit, rfl, fun h ↦ (hheaders h).elim⟩
      obtain ⟨headers', hall, hbytes, hmap, -⟩ := hlists result hresult
      have hlen : headers.length = headers'.length := by
        have hmaps := congrArg List.length (hfiles.symm.trans hmap)
        rwa [List.length_map, List.length_map] at hmaps
      have heq : headers.flatten ++ rest = headers'.flatten ++ [] := by
        rw [← hsplit.bytes, List.append_nil, hbytes]
      exact hrest (isCentralHeader_prefixFree.split_unique hsplit.wellFormed hall hlen heq).2
    · intro headers hall hbytes
      obtain ⟨result, hresult, hfiles⟩ := (hok (headers.map (headerMetadata partSize))).mpr
        ⟨hroom, headers, [], hbytes ▸ SplitsInto.of_flatten hall, rfl,
          fun hnil ↦ by rw [hbytes, hnil]; rfl⟩
      obtain ⟨headers', -, -, hmap, hcount⟩ := hlists result hresult
      have hmaps := congrArg List.length (hfiles.symm.trans hmap)
      rw [List.length_map, List.length_map] at hmaps
      exact hmaps.trans hcount
  · intro hcomplete result hresult
    obtain ⟨hroom, headers, rest, hsplit, hmap, hnil⟩ := (hok result.files).mp ⟨result, hresult, rfl⟩
    obtain ⟨hloses, hcount⟩ := hcomplete hroom
    have hrest : rest = [] := by
      by_contra hne
      have hheaders : headers = [] := by
        by_contra hsome
        exact hloses ⟨headers, rest, hsplit, hsome, hne⟩
      have hbytes := hsplit.bytes
      rw [hnil hheaders, hheaders, List.flatten_nil, List.nil_append] at hbytes
      exact hne hbytes.symm
    have hbytes := hsplit.bytes
    rw [hrest, List.append_nil] at hbytes
    exact ⟨headers, hsplit.wellFormed, hbytes, hmap, hcount headers hsplit.wellFormed hbytes⟩

/-- The end records lead to a directory: a ZIP64 record is in the buffer, and the directory passes
the checks. -/
def LocatesDirectory (buffer : List UInt8) (archiveSize : ℕ) (p : EocdPosition) : Prop :=
  (p.isZip64 = true → Zip64RecordRead buffer archiveSize p) ∧
    (locatedRecord buffer archiveSize p).PassesChecks archiveSize

/-- The search succeeds with the extent of the record it locates. -/
theorem centralDirParseEocdOnly_locates {buffer : List UInt8} {archiveSize : ℕ}
    (hbuffer : buffer.length < 2 ^ 63) (hsize : buffer.length ≤ archiveSize)
    (harchive : archiveSize < 2 ^ 64) {p : EocdPosition} (hfind : findEocd buffer = .ok p) :
    (∀ loc, centralDirParseEocdOnly buffer archiveSize = .ok loc →
      LocatesDirectory buffer archiveSize p ∧
        loc.centralDirOffset = (locatedRecord buffer archiveSize p).cdOffset ∧
        loc.centralDirSize = (locatedRecord buffer archiveSize p).cdSize) ∧
      (LocatesDirectory buffer archiveSize p →
        ∃ loc, centralDirParseEocdOnly buffer archiveSize = .ok loc) := by
  have hp := findEocd_found hfind
  cases hzip64 : p.isZip64 with
  | false =>
    have hok := @centralDirParseEocdOnly_ok_iff buffer archiveSize p hfind
      (locatedRecord buffer archiveSize p) none (centralDirExtent_standard hzip64 hp)
    constructor
    · intro loc hloc
      obtain ⟨hpasses, rfl⟩ := (hok loc).mp hloc
      exact ⟨⟨by simp [hzip64], hpasses⟩, rfl, rfl⟩
    · rintro ⟨-, hpasses⟩
      exact ⟨_, (hok _).mpr ⟨hpasses, rfl⟩⟩
  | true =>
    have hextent := centralDirExtent_zip64 hbuffer hsize harchive hzip64 hp
    by_cases hread : Zip64RecordRead buffer archiveSize p
    · rw [if_pos hread] at hextent
      have hok := centralDirParseEocdOnly_ok_iff hfind hextent
      constructor
      · intro loc hloc
        obtain ⟨hpasses, rfl⟩ := (hok loc).mp hloc
        exact ⟨⟨fun _ ↦ hread, hpasses⟩, rfl, rfl⟩
      · rintro ⟨-, hpasses⟩
        exact ⟨_, (hok _).mpr ⟨hpasses, rfl⟩⟩
    · rw [if_neg hread] at hextent
      obtain ⟨e, he⟩ := hextent
      obtain ⟨e', hfails⟩ := centralDirParseEocdOnly_error hfind he
      refine ⟨fun loc hloc ↦ ?_, fun h ↦ (hread (h.1 hzip64)).elim⟩
      rw [hfails] at hloc
      cases hloc

/-- What the buffer holds from where the record says that the directory begins. -/
def directoryBuffer (buffer : List UInt8) (archiveSize : ℕ) (record : EndRecord) : List UInt8 :=
  buffer.drop (record.cdOffset - (archiveSize - buffer.length))

/-- A parse of the end of an archive that succeeds lists the directory its end record gives. -/
def ListsArchive (buffer : List UInt8) (archiveSize partSize : ℕ) : Prop :=
  ∀ result, centralDirParse buffer archiveSize partSize = .ok result →
    ∃ p, findEocd buffer = .ok p ∧
      let record := locatedRecord buffer archiveSize p
      ListsDirectory partSize ((directoryBuffer buffer archiveSize record).take record.cdSize)
        result.files record.numEntries

/-- The directory the end record gives is complete, if the parse gets to read it. -/
def CompleteArchive (buffer : List UInt8) (archiveSize partSize : ℕ) : Prop :=
  ∀ p, findEocd buffer = .ok p → LocatesDirectory buffer archiveSize p →
    let record := locatedRecord buffer archiveSize p
    archiveSize - buffer.length ≤ record.cdOffset →
      ParseRoom (directoryBuffer buffer archiveSize record) record.cdSize archiveSize partSize →
        CompleteDirectory ((directoryBuffer buffer archiveSize record).take record.cdSize)
          record.numEntries

theorem locatedRecord_cdSize_lt (buffer : List UInt8) (archiveSize : ℕ) (p : EocdPosition) :
    (locatedRecord buffer archiveSize p).cdSize < 2 ^ 64 := by
  rw [locatedRecord]
  split
  · exact read_lt _ _ 8
  · exact (read_lt _ _ 4).trans (by norm_num)

theorem listsArchive_iff {buffer : List UInt8} {archiveSize : ℕ}
    (hbuffer : buffer.length < 2 ^ 63) (hsize : buffer.length ≤ archiveSize)
    (harchive : archiveSize < 2 ^ 64) (partSize : ℕ) :
    ListsArchive buffer archiveSize partSize ↔ CompleteArchive buffer archiveSize partSize := by
  constructor
  · intro hlists p hfind hlocates record hstart
    obtain ⟨hloc, hlocated⟩ := centralDirParseEocdOnly_locates hbuffer hsize harchive hfind
    obtain ⟨loc, hok⟩ := hlocated hlocates
    obtain ⟨-, hoffset, hextent⟩ := hloc loc hok
    apply (listsDirectory_iff (locatedRecord_cdSize_lt buffer archiveSize p) loc.centralDirOffset
      archiveSize partSize _ loc.isZip64).mp
    intro result hresult
    have hparse : centralDirParse buffer archiveSize partSize = .ok result := by
      have hinside : ¬ loc.centralDirOffset < archiveSize - buffer.length := by
        rw [hoffset]
        exact Nat.not_lt.mpr hstart
      have hbuffer : directoryBuffer buffer archiveSize record =
          buffer.drop (loc.centralDirOffset - (archiveSize - buffer.length)) := by
        rw [hoffset]
        rfl
      rw [hbuffer] at hresult
      rw [centralDirParse, hok]
      simp only [sub64_length hsize harchive, if_neg hinside, hextent]
      exact hresult
    obtain ⟨q, hq, hdirectory⟩ := hlists result hparse
    obtain rfl := Except.ok.inj (hfind.symm.trans hq)
    exact hdirectory
  · intro hcomplete result hresult
    rw [centralDirParse] at hresult
    split at hresult
    · cases hresult
    · next loc hok =>
      cases hfind : findEocd buffer with
      | error e =>
        rw [centralDirParseEocdOnly, hfind] at hok
        split at hok <;> cases hok
      | ok p =>
        obtain ⟨hlocates, hoffset, hextent⟩ :=
          (centralDirParseEocdOnly_locates hbuffer hsize harchive hfind).1 loc hok
        rw [sub64_length hsize harchive] at hresult
        split_ifs at hresult with hstart
        rw [hoffset] at hstart hresult
        rw [hextent] at hresult
        exact ⟨p, rfl, (listsDirectory_iff (locatedRecord_cdSize_lt buffer archiveSize p) _ _ _ _
          _).mpr (hcomplete p hfind hlocates (Nat.not_lt.mp hstart)) result hresult⟩

/-- A full parse that succeeds lists the directory exactly when the directory it reads is complete:
well-formed headers are not followed by bytes that are too few for a header or do not begin with its
signature, and a directory of headers only has as many as the end record counts. -/
theorem fullParse_lists_iff (archiveSize partSize : ℕ) :
    (∀ (cdBuffer : List UInt8) (cdOffset cdSize numEntries : ℕ) (isZip64 : Bool), cdSize < 2 ^ 64 →
      ((∀ result, centralDirParseFromCdBuffer cdBuffer cdOffset cdSize archiveSize partSize isZip64 =
        .ok result → ListsDirectory partSize (cdBuffer.take cdSize) result.files numEntries) ↔
          (ParseRoom cdBuffer cdSize archiveSize partSize →
            CompleteDirectory (cdBuffer.take cdSize) numEntries))) ∧
    ∀ buffer : List UInt8, buffer.length < 2 ^ 63 → buffer.length ≤ archiveSize →
      archiveSize < 2 ^ 64 →
        (ListsArchive buffer archiveSize partSize ↔ CompleteArchive buffer archiveSize partSize) := by
  constructor
  · intro cdBuffer cdOffset cdSize numEntries isZip64 hsize
    exact listsDirectory_iff hsize cdOffset archiveSize partSize numEntries isZip64
  · intro buffer hbuffer hsize harchive
    exact listsArchive_iff hbuffer hsize harchive partSize

/-- Headers are all there is to find in a concatenation of headers. -/
theorem SplitsInto.eq_of_flatten {headers headers' : List (List UInt8)} {rest : List UInt8}
    (hall : ∀ bs ∈ headers, IsCentralHeader bs) (h : SplitsInto headers.flatten headers' rest) :
    headers' = headers ∧ rest = [] := by
  induction headers generalizing headers' with
  | nil =>
    have hno : NoHeader ([] : List UInt8) := .inl (by simp)
    exact (SplitsInto.of_noHeader hno).mp h
  | cons bs headers ih =>
    obtain ⟨tail, rfl, htail⟩ :=
      (SplitsInto.cons_iff (hall bs List.mem_cons_self)).mp (List.flatten_cons ▸ h)
    obtain ⟨rfl, hrest⟩ := ih (fun b hb ↦ hall b (List.mem_cons_of_mem bs hb)) htail
    exact ⟨rfl, hrest⟩

theorem completeDirectory_flatten {headers : List (List UInt8)}
    (hall : ∀ bs ∈ headers, IsCentralHeader bs) :
    CompleteDirectory headers.flatten headers.length := by
  constructor
  · rintro ⟨headers', rest, hsplit, -, hrest⟩
    exact hrest (hsplit.eq_of_flatten hall).2
  · intro headers' hall' hbytes
    have hsplit := SplitsInto.of_flatten hall'
    rw [← hbytes] at hsplit
    rw [(hsplit.eq_of_flatten hall).1]

/-- A header for an empty file with a name of one byte. -/
def plainCentralHeader (name : UInt8) : List UInt8 :=
  ZipCentralHeader.fixedBytes {
    signature := zipCentralDirHeaderSig
    versionMadeBy := zipVersionZstd
    versionNeeded := zipVersionZstd
    flags := zipFlagDataDescriptor
    compressionMethod := zipMethodZstd
    lastModTime := 0
    lastModDate := 33
    crc32 := 0
    compressedSize := 0
    uncompressedSize := 0
    filenameLength := 1
    extraFieldLength := 0
    fileCommentLength := 0
    diskNumberStart := 0
    internalFileAttributes := 0
    externalFileAttributes := 0
    localHeaderOffset := 0 } ++ [name]

/-- A directory of 94 bytes at the start of an archive, with an end record that counts two
entries. -/
def directoryArchive (cd : List UInt8) : List UInt8 :=
  cd ++ ZipEndCentralDir.bytes {
    signature := zipEndCentralDirSig
    diskNumber := 0
    diskWithCd := 0
    numEntriesThisDisk := 2
    numEntriesTotal := 2
    centralDirSize := 94
    centralDirOffset := 0
    commentLength := 0 }

def twoHeaders : List (List UInt8) := [plainCentralHeader 97, plainCentralHeader 98]

instance (bs : List UInt8) : Decidable (IsCentralHeader bs) := by
  unfold IsCentralHeader
  infer_instance

theorem twoHeaders_listed :
    ListsArchive (directoryArchive twoHeaders.flatten) 116 burstPartSize ∧
      (centralDirParse (directoryArchive twoHeaders.flatten) 116 burstPartSize).toOption.map
        (fun result ↦ result.files.map FileMetadata.filename) = some [[97], [98]] := by
  refine ⟨?_, by decide +kernel⟩
  have hlists := (fullParse_lists_iff 116 burstPartSize).2 (directoryArchive twoHeaders.flatten)
    (by decide) (by decide) (by decide)
  apply hlists.mpr
  intro p hfind _ record _ _
  have hp : findEocd (directoryArchive twoHeaders.flatten) = .ok ⟨94, false, 0⟩ := by decide +kernel
  obtain rfl := Except.ok.inj (hp.symm.trans hfind)
  have hcd : (directoryBuffer (directoryArchive twoHeaders.flatten) 116 record).take record.cdSize =
      twoHeaders.flatten := by
    decide +kernel
  have hcount : record.numEntries = twoHeaders.length := by decide +kernel
  rw [hcd, hcount]
  exact completeDirectory_flatten (by decide +kernel)

/-- The directory with the signature of its second header damaged. -/
def damagedDirectory : List UInt8 := plainCentralHeader 97 ++ 0 :: (plainCentralHeader 98).drop 1

/-- A damaged header in the middle of the directory ends it: the parse succeeds with the entries
before. -/
theorem damagedDirectory_not_listed :
    (centralDirParse (directoryArchive damagedDirectory) 116 burstPartSize).toOption.map
      (fun result ↦ result.files.map FileMetadata.filename) = some [[97]] ∧
    ¬ ListsArchive (directoryArchive damagedDirectory) 116 burstPartSize ∧
    ¬ ∀ result, centralDirParseFromCdBuffer damagedDirectory 0 94 116 burstPartSize false =
      .ok result → ListsDirectory burstPartSize (damagedDirectory.take 94) result.files 2 := by
  have harchive : (centralDirParse (directoryArchive damagedDirectory) 116 burstPartSize).toOption.map
      (fun result ↦ result.files.map FileMetadata.filename) = some [[97]] := by
    decide +kernel
  have hbuffer : (centralDirParseFromCdBuffer damagedDirectory 0 94 116 burstPartSize
      false).toOption.map (fun result ↦ result.files.map FileMetadata.filename) = some [[97]] := by
    decide +kernel
  refine ⟨harchive, fun hlists ↦ ?_, fun hlists ↦ ?_⟩
  · cases hparse : centralDirParse (directoryArchive damagedDirectory) 116 burstPartSize with
    | error e =>
      rw [hparse] at harchive
      cases harchive
    | ok result =>
      rw [hparse] at harchive
      obtain ⟨p, hfind, headers, -, -, hmap, hcount⟩ := hlists result hparse
      have hp : findEocd (directoryArchive damagedDirectory) = .ok ⟨94, false, 0⟩ := by
        decide +kernel
      obtain rfl := Except.ok.inj (hp.symm.trans hfind)
      have htwo : (locatedRecord (directoryArchive damagedDirectory) 116
          ⟨94, false, 0⟩).numEntries = 2 := by
        decide +kernel
      have hnames : result.files.map FileMetadata.filename = [[97]] := Option.some.inj harchive
      have hlen := congrArg List.length hnames
      rw [hmap, List.length_map, List.length_map, hcount, htwo] at hlen
      cases hlen
  · cases hparse : centralDirParseFromCdBuffer damagedDirectory 0 94 116 burstPartSize false with
    | error e =>
      rw [hparse] at hbuffer
      cases hbuffer
    | ok result =>
      rw [hparse] at hbuffer
      obtain ⟨headers, -, -, hmap, hcount⟩ := hlists result hparse
      have hnames : result.files.map FileMetadata.filename = [[97]] := Option.some.inj hbuffer
      have hlen := congrArg List.length hnames
      rw [hmap, List.length_map, List.length_map, hcount] at hlen
      cases hlen

end Burst
