import Burst.TailParse

namespace Burst

open LittleEndian

/-- Where the headers of a central directory at an offset start. -/
def headerStarts : ℕ → List FileEntry → List ℕ
  | _, [] => []
  | cdfhOffset, e :: files => cdfhOffset :: headerStarts (cdfhOffset + (centralHeaderBytes e).length) files

@[simp] theorem centralDirectoryBytes_nil : centralDirectoryBytes [] = [] := rfl

@[simp] theorem centralDirectoryBytes_cons (e : FileEntry) (files : List FileEntry) :
    centralDirectoryBytes (e :: files) = centralHeaderBytes e ++ centralDirectoryBytes files := rfl

@[simp] theorem centralDirectoryBytes_append (files files' : List FileEntry) :
    centralDirectoryBytes (files ++ files') =
      centralDirectoryBytes files ++ centralDirectoryBytes files' := List.flatMap_append

theorem headerStarts_append (cdfhOffset : ℕ) (files files' : List FileEntry) :
    headerStarts cdfhOffset (files ++ files') = headerStarts cdfhOffset files ++
      headerStarts (cdfhOffset + (centralDirectoryBytes files).length) files' := by
  induction files generalizing cdfhOffset with
  | nil => rfl
  | cons e files ih =>
    rw [List.cons_append, headerStarts, headerStarts, ih, centralDirectoryBytes_cons,
      List.length_append, ← Nat.add_assoc, List.cons_append]

theorem headerStarts_length (cdfhOffset : ℕ) (files : List FileEntry) :
    (headerStarts cdfhOffset files).length = files.length := by
  induction files generalizing cdfhOffset with
  | nil => rfl
  | cons e files ih => rw [headerStarts, List.length_cons, List.length_cons, ih]

theorem headerStarts_ge {cdfhOffset p : ℕ} {files : List FileEntry}
    (h : p ∈ headerStarts cdfhOffset files) : cdfhOffset ≤ p := by
  induction files generalizing cdfhOffset with
  | nil => cases h
  | cons e files ih =>
    rcases List.mem_cons.mp h with rfl | h
    · exact le_rfl
    · have := ih h
      omega

/-- The predicted length of a header is the length it is written with. -/
theorem calculateCdfhSize_eq {e : FileEntry} (hn : e.NameDecodes) :
    calculateCdfhSize e = (centralHeaderBytes e).length := by
  have hextra : (centralExtraField e).length = 15 + if needZip64 e then
      4 + (if e.uncompressedSize > 0xFFFFFFFF then 8 else 0) +
        (if e.compressedSize > 0xFFFFFFFF then 8 else 0) +
        if e.localHeaderOffset > 0xFFFFFFFF then 8 else 0 else 0 := by
    have hvalue (v : ℕ) : (zip64Value v).length = if v > 0xFFFFFFFF then 8 else 0 := by
      rw [zip64Value]
      split <;> simp
    rw [centralExtraField_eq, List.length_append, buildUnixExtraField_length]
    by_cases hneed : needZip64 e = true
    · rw [if_pos hneed, if_pos hneed, buildZip64ExtraField_of_need hneed]
      simp only [List.length_append, encode_length, hvalue]
      omega
    · rw [if_neg hneed, if_neg hneed, List.length_nil]
  rw [centralHeaderBytes, List.length_append, List.length_append,
    ZipCentralHeader.fixedBytes_length, hextra, Nat.mod_eq_of_lt hn.lt, List.take_length,
    calculateCdfhSize, Nat.add_assoc]

theorem centralHeaderBytes_length_le {e : FileEntry} (hn : e.NameDecodes) :
    (centralHeaderBytes e).length ≤ 2 ^ 17 := by
  have hlt := hn.lt
  rw [← calculateCdfhSize_eq hn, calculateCdfhSize]
  split <;> (try split) <;> (try split) <;> (try split) <;> omega

/-- The search for the first header in the tail ends at the first one that starts there. -/
theorem findFirstCdfhFrom_cases {files : List FileEntry} (hn : ∀ e ∈ files, e.NameDecodes)
    (tailStart cdfhOffset : ℕ) :
    (findFirstCdfhFrom tailStart cdfhOffset files = burstEocdNoCdfhInTail ∧
      ∀ p ∈ headerStarts cdfhOffset files, p < tailStart) ∨
      ∃ before e after, files = before ++ e :: after ∧
        (∀ p ∈ headerStarts cdfhOffset before, p < tailStart) ∧
        tailStart ≤ cdfhOffset + (centralDirectoryBytes before).length ∧
        findFirstCdfhFrom tailStart cdfhOffset files =
          (cdfhOffset + (centralDirectoryBytes before).length - tailStart) % 2 ^ 32 := by
  induction files generalizing cdfhOffset with
  | nil => exact .inl ⟨rfl, by simp [headerStarts]⟩
  | cons e files ih =>
    rw [findFirstCdfhFrom]
    by_cases hge : cdfhOffset ≥ tailStart
    · right
      refine ⟨[], e, files, rfl, by simp [headerStarts], ?_, ?_⟩
      · simpa using hge
      · rw [if_pos hge]
        simp
    · rw [if_neg hge, calculateCdfhSize_eq (hn e List.mem_cons_self)]
      have hcons {ps : List ℕ} (hps : ∀ p ∈ ps, p < tailStart) :
          ∀ p ∈ cdfhOffset :: ps, p < tailStart := List.forall_mem_cons.mpr ⟨by omega, hps⟩
      obtain ⟨h, hlt⟩ | ⟨before, e', after, rfl, hlt, hle, heq⟩ :=
        ih (fun x hx ↦ hn x (List.mem_cons_of_mem _ hx)) (cdfhOffset + (centralHeaderBytes e).length)
      · exact .inl ⟨h, hcons hlt⟩
      · right
        refine ⟨e :: before, e', after, rfl, hcons hlt, ?_, ?_⟩
        · rw [centralDirectoryBytes_cons, List.length_append]
          omega
        · rw [heq, centralDirectoryBytes_cons, List.length_append, Nat.add_assoc]

theorem parseEntries_endRecords (files : List FileEntry) (start size partSize n : ℕ) :
    parseEntries partSize n false (endRecords files start size) = .ok [] := by
  cases n with
  | zero => rfl
  | succ n =>
    have hsig : (parseCentralHeader (endRecords files start size)).signature ≠
        zipCentralDirHeaderSig := by
      rw [parseCentralHeader, (endRecords_read files start size).eocd64Signature]
      exact show zipZip64EndCentralDirSig ≠ zipCentralDirHeaderSig by decide
    have hlen := endRecords_length files start size
    rw [parseEntries, if_neg (by omega), if_neg (by omega)]
    dsimp only
    rw [if_pos hsig]
    rfl

section
variable {es : List FileEntry} {cdBuffer rest : List UInt8} {cdSize partSize : ℕ}
  (he : ∀ e ∈ es, e.InRange) (hn : ∀ e ∈ es, e.NameDecodes)
  (hcd : cdBuffer.take cdSize = centralDirectoryBytes es ++ rest)
  (hrest : ∀ n, parseEntries partSize n false rest = .ok []) (hfirst : rest = [] ∨ es ≠ [])
include he hn hcd hrest hfirst

theorem parseCentralDirectory_ok (hlen : cdSize ≤ cdBuffer.length) (cdOffset : ℕ) :
    parseCentralDirectory cdBuffer cdOffset cdOffset (estimatedEntries cdSize) cdSize partSize =
      if 2 ^ 63 ≤ estimatedEntries cdSize * sizeofFileMetadata then .error .memory
      else .ok (es.map fun e ↦ readBack partSize e (decodedValues e)) := by
  have hcount : es.length ≤ estimatedEntries cdSize := by
    have hbytes := centralDirectoryBytes_length_ge es
    have htake := congrArg List.length hcd
    rw [List.length_take, List.length_append] at htake
    have hdiv : es.length ≤ cdSize / 46 := by
      rw [Nat.le_div_iff_mul_le (by norm_num)]
      omega
    rw [estimatedEntries]
    split <;> omega
  have hfit : ¬ (cdOffset - cdOffset + cdSize) % 2 ^ 64 > cdBuffer.length := by
    have := Nat.mod_le (cdOffset - cdOffset + cdSize) (2 ^ 64)
    omega
  rw [parseCentralDirectory, if_neg (lt_irrefl _), if_neg hfit, Nat.sub_self, List.drop_zero, hcd,
    centralDirectoryBytes, parseEntries_append he hn hrest hcount fun _ ↦ hfirst]

theorem centralDirParseFromCdBuffer_ok (hpos : 0 < cdBuffer.length)
    (hlen : cdSize ≤ cdBuffer.length)
    (hmemory : estimatedEntries cdSize * sizeofFileMetadata < 2 ^ 63)
    (hpart : burstPartSize ≤ partSize) (cdOffset archiveSize : ℕ) (isZip64 : Bool) : ∃ parts,
      buildPartMap (es.map fun e ↦ readBack partSize e (decodedValues e)) archiveSize partSize =
        .ok parts ∧
      centralDirParseFromCdBuffer cdBuffer cdOffset cdSize archiveSize partSize isZip64 =
        .ok ⟨es.map fun e ↦ readBack partSize e (decodedValues e), parts, cdOffset, cdSize,
          isZip64⟩ := by
  obtain ⟨parts, hmap⟩ := buildPartMap_total
    (es.map fun e ↦ readBack partSize e (decodedValues e)) archiveSize hpart
  refine ⟨parts, hmap, ?_⟩
  rw [centralDirParseFromCdBuffer, if_neg (by omega), if_neg (by omega),
    parseCentralDirectory_ok he hn hcd hrest hfirst hlen, if_neg (by omega)]
  dsimp only
  rw [hmap]

theorem centralDirParseFromCdBuffer_files {cdOffset archiveSize : ℕ} {isZip64 : Bool}
    {result : CentralDirParseResult}
    (h : centralDirParseFromCdBuffer cdBuffer cdOffset cdSize archiveSize partSize isZip64 =
      .ok result) : result.files = es.map fun e ↦ readBack partSize e (decodedValues e) := by
  rw [centralDirParseFromCdBuffer] at h
  by_cases hpos : cdBuffer.length = 0
  · rw [if_pos hpos] at h
    cases h
  · by_cases hlen : cdBuffer.length < cdSize
    · rw [if_neg hpos, if_pos hlen] at h
      cases h
    · rw [if_neg hpos, if_neg hlen, parseCentralDirectory_ok he hn hcd hrest hfirst (by omega)] at h
      split at h
      · cases h
      · next files hfiles =>
        split at hfiles
        · cases hfiles
        · obtain rfl := Except.ok.inj hfiles
          split at h
          · cases h
          · rw [← Except.ok.inj h]

end

theorem centralDirParseFromCdBuffer_parts {cdBuffer : List UInt8}
    {cdOffset cdSize archiveSize partSize : ℕ} {isZip64 : Bool} {result : CentralDirParseResult}
    (h : centralDirParseFromCdBuffer cdBuffer cdOffset cdSize archiveSize partSize isZip64 =
      .ok result) : buildPartMap result.files archiveSize partSize = .ok result.parts := by
  rw [centralDirParseFromCdBuffer] at h
  split at h
  · cases h
  · split at h
    · cases h
    · split at h
      · cases h
      · split at h
        · cases h
        · next hmap =>
          rw [← Except.ok.inj h]
          exact hmap

theorem centralDirParseFromCdBuffer_offset {cdBuffer : List UInt8} {cdOffset cdSize archiveSize partSize : ℕ}
    {isZip64 : Bool} {result : CentralDirParseResult}
    (h : centralDirParseFromCdBuffer cdBuffer cdOffset cdSize archiveSize partSize isZip64 = .ok result) :
    result.centralDirOffset = cdOffset := by
  rw [centralDirParseFromCdBuffer] at h
  split at h
  · cases h
  · split at h
    · cases h
    · split at h
      · cases h
      · split at h
        · cases h
        · rw [← Except.ok.inj h]

/-- What the end records of a finalized archive say, read from a buffer that holds them. -/
theorem finalized_eocdOnly {w w' : BurstWriter} (htracks : w.Tracks)
    (hfin : burstWriterFinalize w = (some (), w')) (hsize : w'.output.bytes.length < 2 ^ 64)
    {tailStart : ℕ} (htail : tailStart + 106 ≤ w'.output.bytes.length) :
    centralDirParseEocdOnly (w'.output.bytes.drop tailStart) w'.output.bytes.length =
      .ok ⟨w.position, (centralDirectoryBytes w.files).length, some w.files.length, true,
        findFirstCdfhInTail w.files w.position w'.output.bytes.length % 2 ^ 24⟩ := by
  have hbytes := burstWriterFinalize_ok hfin
  have hlength := finalized_length htracks hfin
  have hcount := centralDirectoryBytes_length_ge w.files
  rw [burstEocdCommentSize] at hlength
  have hbody : (w.archive ++ centralDirectoryBytes w.files).length =
      w.position + (centralDirectoryBytes w.files).length := by
    rw [List.length_append, ← htracks]
  have hparse := centralDirParseEocdOnly_suffix ((w.archive ++ centralDirectoryBytes w.files).drop tailStart)
    w.files hlength hsize (by rw [List.length_drop]; omega) (by omega)
  rwa [← List.drop_append_of_le_length (by omega), ← hbytes,
    show w.position + (centralDirectoryBytes w.files).length + 56 + 20 + 22 + burstEocdCommentSize =
      w'.output.bytes.length from (finalized_length htracks hfin).symm] at hparse

/-- Parsing a finalized archive from a buffer that holds its central directory. -/
theorem finalized_centralDirParse {w w' : BurstWriter} (htracks : w.Tracks)
    (hfin : burstWriterFinalize w = (some (), w')) (hsize : w'.output.bytes.length < 2 ^ 64)
    {tailStart : ℕ} (htail : tailStart ≤ w.position) (partSize : ℕ) :
    let cd := centralDirectoryBytes w.files
    centralDirParse (w'.output.bytes.drop tailStart) w'.output.bytes.length partSize =
      centralDirParseFromCdBuffer (cd ++ endRecords w.files w.position cd.length) w.position
        cd.length w'.output.bytes.length partSize true := by
  intro cd
  have hbytes : w'.output.bytes = w.archive ++ (cd ++ endRecords w.files w.position cd.length) := by
    rw [← List.append_assoc]
    exact burstWriterFinalize_ok hfin
  have hlength : w'.output.bytes.length = w.position + (cd.length + 106) := by
    rw [hbytes, List.length_append, List.length_append, endRecords_length, ← htracks]
  have hparse := finalized_eocdOnly htracks hfin hsize
    (show tailStart + 106 ≤ w'.output.bytes.length by omega)
  have hdrop : (w'.output.bytes.drop tailStart).length = w'.output.bytes.length - tailStart :=
    List.length_drop
  have hstart : sub64 w'.output.bytes.length (w'.output.bytes.drop tailStart).length =
      tailStart := by
    rw [sub64_of_le (by omega) hsize]
    omega
  rw [centralDirParse, hparse]
  dsimp only
  rw [hstart, if_neg (by omega), List.drop_drop,
    show tailStart + (w.position - tailStart) = w.position by omega]
  congr 1
  rw [hbytes, List.drop_left' htracks.symm]

theorem finalized_centralDirParse_files {w w' : BurstWriter} (htracks : w.Tracks)
    (hfin : burstWriterFinalize w = (some (), w')) (hsize : w'.output.bytes.length < 2 ^ 64)
    (he : ∀ e ∈ w.files, e.InRange) (hn : ∀ e ∈ w.files, e.NameDecodes) {tailStart : ℕ}
    (htail : tailStart ≤ w.position) {partSize : ℕ} {result : CentralDirParseResult}
    (h : centralDirParse (w'.output.bytes.drop tailStart) w'.output.bytes.length partSize =
      .ok result) :
    result.files = w.files.map fun e ↦ readBack partSize e (decodedValues e) := by
  rw [finalized_centralDirParse htracks hfin hsize htail] at h
  exact centralDirParseFromCdBuffer_files he hn
    (by rw [List.take_left' rfl, List.append_nil]) (fun n ↦ parseEntries_nil partSize n false)
    (.inl rfl) h

theorem finalized_centralDirParse_parts {w w' : BurstWriter} (htracks : w.Tracks)
    (hfin : burstWriterFinalize w = (some (), w')) (hsize : w'.output.bytes.length < 2 ^ 64)
    {tailStart : ℕ} (htail : tailStart ≤ w.position) {partSize : ℕ} {result : CentralDirParseResult}
    (h : centralDirParse (w'.output.bytes.drop tailStart) w'.output.bytes.length partSize =
      .ok result) : buildPartMap result.files w'.output.bytes.length partSize = .ok result.parts := by
  rw [finalized_centralDirParse htracks hfin hsize htail] at h
  exact centralDirParseFromCdBuffer_parts h

/-- A finalized archive parses when the array for its entries can be allocated. -/
theorem finalized_centralDirParse_ok {w w' : BurstWriter} (htracks : w.Tracks)
    (hfin : burstWriterFinalize w = (some (), w')) (hsize : w'.output.bytes.length < 2 ^ 64)
    (he : ∀ e ∈ w.files, e.InRange) (hn : ∀ e ∈ w.files, e.NameDecodes) {tailStart : ℕ}
    (htail : tailStart ≤ w.position) {partSize : ℕ} (hpart : burstPartSize ≤ partSize)
    (hmemory : estimatedEntries (centralDirectoryBytes w.files).length * sizeofFileMetadata <
      2 ^ 63) : ∃ full,
    centralDirParse (w'.output.bytes.drop tailStart) w'.output.bytes.length partSize = .ok full := by
  have hrecords := endRecords_length w.files w.position (centralDirectoryBytes w.files).length
  obtain ⟨parts, -, hok⟩ := @centralDirParseFromCdBuffer_ok w.files
    (centralDirectoryBytes w.files ++
      endRecords w.files w.position (centralDirectoryBytes w.files).length) []
    (centralDirectoryBytes w.files).length partSize he hn
    (by rw [List.take_left' rfl, List.append_nil]) (fun n ↦ parseEntries_nil partSize n false)
    (.inl rfl) (by rw [List.length_append]; omega) (by rw [List.length_append]; omega) hmemory hpart
    w.position w'.output.bytes.length true
  rw [finalized_centralDirParse htracks hfin hsize htail]
  exact ⟨_, hok⟩

/-- The offset in the comment, unless it is one of its two special values, is where in the last
8 MiB the first header that starts there lies. -/
theorem firstCdfhOffset_located {files : List FileEntry} (hn : ∀ e ∈ files, e.NameDecodes)
    {start archiveSize : ℕ}
    (hsize : archiveSize = start + (centralDirectoryBytes files).length + 106)
    (hzero : findFirstCdfhInTail files start archiveSize % 2 ^ 24 ≠ 0)
    (hnone : findFirstCdfhInTail files start archiveSize % 2 ^ 24 ≠ burstEocdNoCdfhInTail) :
    burstPartSize < archiveSize ∧ ∃ before e after, files = before ++ e :: after ∧
      (∀ p ∈ headerStarts start before, p < archiveSize - burstPartSize) ∧
      archiveSize - burstPartSize + findFirstCdfhInTail files start archiveSize % 2 ^ 24 =
        start + (centralDirectoryBytes before).length := by
  unfold findFirstCdfhInTail at hzero hnone ⊢
  by_cases hsmall : archiveSize ≤ burstPartSize
  · rw [if_pos hsmall] at hzero
    exact (hzero rfl).elim
  · by_cases hinside : start ≥ archiveSize - burstPartSize
    · rw [if_neg hsmall, if_pos hinside] at hzero
      exact (hzero rfl).elim
    · rw [if_neg hsmall, if_neg hinside] at hnone ⊢
      obtain ⟨h, -⟩ | ⟨before, e, after, rfl, hlt, hle, heq⟩ :=
        findFirstCdfhFrom_cases hn (archiveSize - burstPartSize) start
      · rw [h] at hnone
        exact (hnone rfl).elim
      · refine ⟨by omega, before, e, after, rfl, hlt, ?_⟩
        rw [centralDirectoryBytes_append, List.length_append] at hsize
        have hpart : burstPartSize = 2 ^ 23 := by norm_num [burstPartSize]
        rw [hpart] at hsmall hinside hle heq ⊢
        rw [heq, Nat.mod_eq_of_lt (show _ < 2 ^ 32 by omega), Nat.mod_eq_of_lt (by omega)]
        omega

theorem centralDirParsePartial_ok {es : List FileEntry} (hes : es ≠ []) (he : ∀ e ∈ es, e.InRange)
    (hn : ∀ e ∈ es, e.NameDecodes) {buffer : List UInt8} {firstCdfhOffset : ℕ}
    {files : List FileEntry} {start size : ℕ} (hdrop : buffer.drop firstCdfhOffset =
      centralDirectoryBytes es ++ endRecords files start size)
    (hsmall : buffer.length ≤ burstPartSize) {partSize : ℕ} (hpart : burstPartSize ∣ partSize)
    (hpos : 0 < partSize) (bufferStart cdOffset archiveSize : ℕ) (isZip64 : Bool) :
    ∃ result, centralDirParsePartial buffer bufferStart cdOffset firstCdfhOffset archiveSize partSize
        isZip64 = .ok result ∧
      result.files = es.map fun e ↦ readBack partSize e (decodedValues e) := by
  have hle : burstPartSize ≤ partSize := Nat.le_of_dvd hpos hpart
  have hlen := congrArg List.length hdrop
  rw [List.length_drop, List.length_append, endRecords_length] at hlen
  have hall : (buffer.drop firstCdfhOffset).take (buffer.length - firstCdfhOffset) =
      centralDirectoryBytes es ++ endRecords files start size := by
    rw [List.take_of_length_le (by rw [List.length_drop]), hdrop]
  have hestimate : estimatedEntries (buffer.length - firstCdfhOffset) ≤ burstPartSize := by
    have hdiv := Nat.div_le_self (buffer.length - firstCdfhOffset) 46
    have hone : 1 ≤ burstPartSize := by norm_num [burstPartSize]
    rw [estimatedEntries]
    split <;> omega
  have hmemory : estimatedEntries (buffer.length - firstCdfhOffset) * sizeofFileMetadata < 2 ^ 63 := by
    rw [burstPartSize] at hestimate
    rw [sizeofFileMetadata]
    omega
  obtain ⟨parts, -, hok⟩ := centralDirParseFromCdBuffer_ok he hn hall
    (fun n ↦ parseEntries_endRecords files start size partSize n) (.inr hes)
    (by rw [List.length_drop]; omega) (by rw [List.length_drop]) hmemory hle
    ((bufferStart + firstCdfhOffset) % 2 ^ 64) archiveSize isZip64
  refine ⟨⟨es.map fun e ↦ readBack partSize e (decodedValues e), parts, cdOffset,
    buffer.length - firstCdfhOffset, isZip64⟩, ?_, rfl⟩
  rw [centralDirParsePartial, if_neg (by omega), if_neg (by have := Nat.mod_eq_zero_of_dvd hpart; omega),
    if_neg (by omega), hok]

theorem filter_headerStarts {before files : List FileEntry} {start tailStart : ℕ}
    (hlt : ∀ p ∈ headerStarts start before, p < tailStart)
    (hle : tailStart ≤ start + (centralDirectoryBytes before).length)
    (m : FileEntry → FileMetadata) :
    (((headerStarts start (before ++ files)).zip ((before ++ files).map m)).filter
      fun f ↦ tailStart ≤ f.1).map Prod.snd = files.map m := by
  have hbefore : ((headerStarts start before).zip (before.map m)).filter
      (fun f ↦ decide (tailStart ≤ f.1)) = [] := by
    rw [List.filter_eq_nil_iff]
    intro f hf
    have := hlt _ (List.of_mem_zip hf).1
    simpa using this
  have hafter : ((headerStarts (start + (centralDirectoryBytes before).length) files).zip
      (files.map m)).filter (fun f ↦ decide (tailStart ≤ f.1)) =
        (headerStarts (start + (centralDirectoryBytes before).length) files).zip (files.map m) := by
    rw [List.filter_eq_self]
    intro f hf
    have := headerStarts_ge (List.of_mem_zip hf).1
    simp only [decide_eq_true_eq]
    omega
  rw [headerStarts_append, List.map_append, List.zip_append (by rw [headerStarts_length, List.length_map]),
    List.filter_append, hbefore, hafter, List.nil_append, List.map_snd_zip]
  rw [headerStarts_length, List.length_map]

/-- The bytes of a finalized archive from one of its central headers on. -/
theorem finalized_drop {w w' : BurstWriter} (htracks : w.Tracks)
    (hfin : burstWriterFinalize w = (some (), w')) {before files : List FileEntry}
    (hfiles : w.files = before ++ files) :
    w'.output.bytes.drop (w.position + (centralDirectoryBytes before).length) =
      centralDirectoryBytes files ++
        endRecords w.files w.position (centralDirectoryBytes w.files).length := by
  have hbytes := burstWriterFinalize_ok hfin
  generalize endRecords w.files w.position (centralDirectoryBytes w.files).length = records at hbytes ⊢
  have hcd : centralDirectoryBytes w.files =
      centralDirectoryBytes before ++ centralDirectoryBytes files := by
    rw [hfiles, centralDirectoryBytes_append]
  rw [hbytes, hcd, ← List.append_assoc, List.append_assoc _ _ records,
    List.drop_left' (by rw [List.length_append, ← htracks])]

/-- Where the comment names a header in the tail, the entries from there on are read. -/
theorem finalized_partialParse_exists {w w' : BurstWriter} (htracks : w.Tracks)
    (hfin : burstWriterFinalize w = (some (), w')) (he : ∀ e ∈ w.files, e.InRange)
    (hn : ∀ e ∈ w.files, e.NameDecodes) {partSize : ℕ} (hpart : burstPartSize ∣ partSize) (hpos : 0 < partSize)
    {tailStart firstCdfhOffset : ℕ} (htail : tailStart = w'.output.bytes.length - burstPartSize)
    (hfirst : firstCdfhOffset = read w'.output.bytes (w'.output.bytes.length - 3) 3)
    (hzero : firstCdfhOffset ≠ 0) (hnone : firstCdfhOffset ≠ burstEocdNoCdfhInTail) :
    ∃ before e after, w.files = before ++ e :: after ∧
      (∀ p ∈ headerStarts w.position before, p < tailStart) ∧
      tailStart + firstCdfhOffset = w.position + (centralDirectoryBytes before).length ∧
      ∃ result, centralDirParsePartial (w'.output.bytes.drop tailStart) tailStart w.position firstCdfhOffset
          w'.output.bytes.length partSize true = .ok result ∧
        result.files = (e :: after).map fun e ↦ readBack partSize e (decodedValues e) := by
  have hlength := finalized_length htracks hfin
  have hoffset : firstCdfhOffset = findFirstCdfhInTail w.files w.position w'.output.bytes.length % 2 ^ 24 :=
    hfirst.trans (finalized_firstCdfhOffset htracks hfin)
  obtain ⟨hbig, before, e, after, hfiles, hlt, heq⟩ :=
    firstCdfhOffset_located hn hlength (hoffset ▸ hzero) (hoffset ▸ hnone)
  rw [← hoffset, ← htail] at heq
  rw [← htail] at hlt
  have hdrop : (w'.output.bytes.drop tailStart).drop firstCdfhOffset = centralDirectoryBytes (e :: after) ++
      endRecords w.files w.position (centralDirectoryBytes w.files).length := by
    rw [List.drop_drop, heq]
    exact finalized_drop htracks hfin hfiles
  have hsub : ∀ x ∈ e :: after, x ∈ w.files := by
    intro x hx
    rw [hfiles]
    exact List.mem_append_right _ hx
  obtain ⟨result, hok, hresult⟩ := centralDirParsePartial_ok (List.cons_ne_nil e after)
    (fun x hx ↦ he x (hsub x hx)) (fun x hx ↦ hn x (hsub x hx)) hdrop
    (by rw [List.length_drop]; omega) hpart hpos tailStart w.position w'.output.bytes.length true
  exact ⟨before, e, after, hfiles, hlt, heq, result, hok, hresult⟩

/-- The sizes that finalizing predicts are those it writes, the offset in the comment is that of
the first header in the tail, and the entries from there on are read as in the whole directory. -/
theorem finalized_partialParse {w w' : BurstWriter} (htracks : w.Tracks)
    (hfin : burstWriterFinalize w = (some (), w')) (hsize : w'.output.bytes.length < 2 ^ 64)
    (he : ∀ e ∈ w.files, e.InRange) (hn : ∀ e ∈ w.files, e.NameDecodes) {partSize : ℕ}
    (hpart : burstPartSize ∣ partSize) (hpos : 0 < partSize) :
    let archive := w'.output.bytes
    let tailStart := archive.length - burstPartSize
    let firstCdfhOffset := read archive (archive.length - 3) 3
    (∀ e ∈ w.files, calculateCdfhSize e = (centralHeaderBytes e).length) ∧
      archive.length = w.position + (centralDirectoryBytes w.files).length + 56 + 20 + 22 +
        burstEocdCommentSize ∧
      (firstCdfhOffset ≠ 0 → firstCdfhOffset ≠ burstEocdNoCdfhInTail →
        (∃ before e after, w.files = before ++ e :: after ∧
          (∀ p ∈ headerStarts w.position before, p < tailStart) ∧
          tailStart + firstCdfhOffset = w.position + (centralDirectoryBytes before).length) ∧
        ∃ result, centralDirParsePartial (archive.drop tailStart) tailStart w.position
            firstCdfhOffset archive.length partSize true = .ok result ∧
          ∀ full, centralDirParse archive archive.length partSize = .ok full →
            result.files = (((headerStarts w.position w.files).zip full.files).filter
              fun f ↦ tailStart ≤ f.1).map Prod.snd) := by
  intro archive tailStart firstCdfhOffset
  have hlength := finalized_length htracks hfin
  refine ⟨fun e h ↦ calculateCdfhSize_eq (hn e h), hlength, fun hzero hnone ↦ ?_⟩
  obtain ⟨before, e, after, hfiles, hlt, heq, result, hok, hresult⟩ :=
    finalized_partialParse_exists htracks hfin he hn hpart hpos rfl rfl hzero hnone
  refine ⟨⟨before, e, after, hfiles, hlt, heq⟩, ?_⟩
  refine ⟨result, hok, fun full hfull ↦ ?_⟩
  have hfull := finalized_centralDirParse_files htracks hfin hsize he hn (Nat.zero_le w.position)
    hfull
  rw [hresult, hfull, hfiles]
  exact (filter_headerStarts hlt (heq ▸ Nat.le_add_right tailStart firstCdfhOffset) _).symm

theorem centralDirParsePartial_inv {buffer : List UInt8}
    {bufferStart cdOffset firstCdfhOffset archiveSize partSize : ℕ} {isZip64 : Bool}
    {result : CentralDirParseResult}
    (h : centralDirParsePartial buffer bufferStart cdOffset firstCdfhOffset archiveSize partSize
      isZip64 = .ok result) : firstCdfhOffset < buffer.length ∧
    ∃ r, centralDirParseFromCdBuffer (buffer.drop firstCdfhOffset)
        ((bufferStart + firstCdfhOffset) % 2 ^ 64) (buffer.length - firstCdfhOffset) archiveSize
        partSize isZip64 = .ok r ∧ result.files = r.files ∧ result.parts = r.parts := by
  rw [centralDirParsePartial] at h
  split at h
  · cases h
  · split at h
    · cases h
    · split at h
      · cases h
      · split at h
        · cases h
        · next hlt _ r hr =>
          rw [← Except.ok.inj h]
          exact ⟨by omega, r, hr, rfl, rfl⟩

/-- What a partial parse that begins at a header of a finalized archive makes of it. -/
theorem finalized_partialParse_ok {w w' : BurstWriter} (htracks : w.Tracks)
    (hfin : burstWriterFinalize w = (some (), w')) (he : ∀ e ∈ w.files, e.InRange)
    (hn : ∀ e ∈ w.files, e.NameDecodes) {before after : List FileEntry} {e : FileEntry}
    (hfiles : w.files = before ++ e :: after) {tailStart firstCdfhOffset : ℕ}
    (hheader : tailStart + firstCdfhOffset = w.position + (centralDirectoryBytes before).length)
    {cdOffset partSize : ℕ} {result : CentralDirParseResult}
    (h : centralDirParsePartial (w'.output.bytes.drop tailStart) tailStart cdOffset firstCdfhOffset
      w'.output.bytes.length partSize true = .ok result) :
    result.files = (e :: after).map (fun e ↦ readBack partSize e (decodedValues e)) ∧
      buildPartMap result.files w'.output.bytes.length partSize = .ok result.parts := by
  obtain ⟨-, r, hr, hrfiles, hrparts⟩ := centralDirParsePartial_inv h
  rw [hrfiles, hrparts]
  refine ⟨?_, centralDirParseFromCdBuffer_parts hr⟩
  have hsub : ∀ x ∈ e :: after, x ∈ w.files := by
    intro x hx
    rw [hfiles]
    exact List.mem_append_right _ hx
  refine centralDirParseFromCdBuffer_files (fun x hx ↦ he x (hsub x hx))
    (fun x hx ↦ hn x (hsub x hx)) ?_ (fun n ↦ parseEntries_endRecords w.files w.position
      (centralDirectoryBytes w.files).length partSize n) (.inr (List.cons_ne_nil e after)) hr
  rw [List.take_of_length_le (by rw [List.length_drop]), List.drop_drop, hheader,
    finalized_drop htracks hfin hfiles]

/-- A writer that holds many records of one small file. -/
def manyEntries (n : ℕ) : BurstWriter := writerOf (List.replicate n (sampleEntry 12 3))

theorem manyEntries_length {n : ℕ} {w' : BurstWriter}
    (hfin : burstWriterFinalize (manyEntries n) = (some (), w')) :
    w'.output.bytes.length = n * 62 + 106 := by
  have hone : (centralHeaderBytes (sampleEntry 12 3)).length = 62 := by decide
  have hlength := finalized_length (show (manyEntries n).Tracks from rfl) hfin
  have hcd : (centralDirectoryBytes (manyEntries n).files).length = n * 62 := by
    rw [centralDirectoryBytes, Tiling.length_flatMap, Tiling.total]
    simp [manyEntries, writerOf, hone]
  rw [hlength, hcd, show (manyEntries n).position = 0 from rfl, burstEocdCommentSize]
  omega

theorem manyEntries_inRange {n : ℕ} : (∀ e ∈ (manyEntries n).files, e.InRange) ∧
    ∀ e ∈ (manyEntries n).files, e.NameDecodes := by
  have hrange : (sampleEntry 12 3).InRange := by constructor <;> decide +kernel
  have hname : (sampleEntry 12 3).NameDecodes := ⟨by decide, by simp [sampleEntry]⟩
  refine ⟨fun e he ↦ ?_, fun e he ↦ ?_⟩
  · rw [List.eq_of_mem_replicate he]
    exact hrange
  · rw [List.eq_of_mem_replicate he]
    exact hname

theorem mem_headerStarts_replicate {e : FileEntry} {start n k : ℕ} (hk : k < n) :
    start + k * (centralHeaderBytes e).length ∈ headerStarts start (List.replicate n e) := by
  induction n generalizing start k with
  | zero => omega
  | succ n ih =>
    rw [List.replicate_succ, headerStarts, List.mem_cons]
    cases k with
    | zero => simp
    | succ k =>
      right
      have hmem := @ih (start + (centralHeaderBytes e).length) k (by omega)
      rw [Nat.succ_mul, Nat.add_comm (k * _), ← Nat.add_assoc]
      exact hmem

/-- In the central directory of 200000 records the last 8 MiB begin inside a header. -/
theorem manyEntries_firstCdfhOffset {w' : BurstWriter}
    (hfin : burstWriterFinalize (manyEntries 200000) = (some (), w')) :
    read w'.output.bytes (w'.output.bytes.length - 3) 3 ≠ 0 ∧
      read w'.output.bytes (w'.output.bytes.length - 3) 3 ≠ burstEocdNoCdfhInTail := by
  have hone : (centralHeaderBytes (sampleEntry 12 3)).length = 62 := by decide
  rw [finalized_firstCdfhOffset (show (manyEntries 200000).Tracks from rfl) hfin, manyEntries_length hfin]
  have htail : 200000 * 62 + 106 - burstPartSize = 4011498 := by norm_num [burstPartSize]
  have hpos : (manyEntries 200000).position = 0 := rfl
  rw [findFirstCdfhInTail, hpos, htail, if_neg (by norm_num [burstPartSize]),
    if_neg (by norm_num)]
  obtain ⟨-, hlt⟩ | ⟨before, e, after, hfiles, hlt, hle, heq⟩ :=
    findFirstCdfhFrom_cases manyEntries_inRange.2 4011498 0
  · have hlast := hlt _ (mem_headerStarts_replicate (show 199999 < 200000 by norm_num))
    rw [hone] at hlast
    omega
  · obtain ⟨k, rfl⟩ : ∃ k, before = List.replicate k (sampleEntry 12 3) := by
      refine ⟨before.length, List.eq_replicate_iff.mpr ⟨rfl, fun x hx ↦ ?_⟩⟩
      have hmem : x ∈ (manyEntries 200000).files := by
        rw [hfiles]
        exact List.mem_append_left _ hx
      exact List.eq_of_mem_replicate hmem
    have hk : (centralDirectoryBytes (List.replicate k (sampleEntry 12 3))).length = k * 62 := by
      rw [centralDirectoryBytes, Tiling.length_flatMap, Tiling.total]
      simp [hone]
    rw [hk] at hle heq
    have hlast := hlt _ (mem_headerStarts_replicate (show k - 1 < k by omega))
    rw [hone] at hlast
    obtain rfl : k = 64702 := by omega
    rw [heq]
    decide

theorem finalized_partialParse_sample : ∃ w',
    burstWriterFinalize (manyEntries 200000) = (some (), w') ∧
    let archive := w'.output.bytes
    let files := (manyEntries 200000).files
    let tailStart := archive.length - burstPartSize
    let firstCdfhOffset := read archive (archive.length - 3) 3
    (∃ before e after, files = before ++ e :: after ∧
        (∀ p ∈ headerStarts 0 before, p < tailStart) ∧
        tailStart + firstCdfhOffset = 0 + (centralDirectoryBytes before).length) ∧
      ∃ result, centralDirParsePartial (archive.drop tailStart) tailStart 0 firstCdfhOffset
          archive.length burstPartSize true = .ok result ∧
        ∀ full, centralDirParse archive archive.length burstPartSize = .ok full →
          result.files = (((headerStarts 0 files).zip full.files).filter
            fun f ↦ tailStart ≤ f.1).map Prod.snd := by
  obtain ⟨w', hfin, -⟩ := burstWriterFinalize_completes
    (show Ready (manyEntries 200000) from ⟨rfl, by decide⟩)
  obtain ⟨hzero, hnone⟩ := manyEntries_firstCdfhOffset hfin
  obtain ⟨hrange, hnames⟩ := @manyEntries_inRange 200000
  have hsize : w'.output.bytes.length < 2 ^ 64 := by
    rw [manyEntries_length hfin]
    norm_num
  exact ⟨w', hfin, (finalized_partialParse (show (manyEntries 200000).Tracks from rfl) hfin hsize hrange
    hnames dvd_rfl
    (by norm_num [burstPartSize])).2.2 hzero hnone⟩

end Burst
