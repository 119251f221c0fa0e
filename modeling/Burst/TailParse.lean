import Burst.CentralDirParse
import Burst.SizeLaw

namespace Burst

open LittleEndian Tiling

theorem findEocdFrom_eq {buffer : List UInt8} {p n : ℕ} (hp : p ≤ n)
    (hsig : read buffer p 4 = zipEndCentralDirSig)
    (hno : ∀ i, p < i → i ≤ n → read buffer i 4 ≠ zipEndCentralDirSig) :
    findEocdFrom buffer n = some p := by
  induction n with
  | zero =>
    obtain rfl : p = 0 := by omega
    rw [findEocdFrom, if_pos hsig]
  | succ n ih =>
    rw [findEocdFrom]
    rcases hp.lt_or_eq with hlt | rfl
    · rw [if_neg (hno _ hlt le_rfl)]
      apply ih (by omega)
      intro i hi hn
      exact hno i hi (by omega)
    · rw [if_pos hsig]

/-- The end record and the comment that `write_end_central_directory` writes. -/
def endOfArchive (files : List FileEntry) (start size : ℕ) : List UInt8 :=
  ZipEndCentralDir.bytes {
    signature := zipEndCentralDirSig
    diskNumber := 0
    diskWithCd := 0
    numEntriesThisDisk := if files.length > 0xFFFE then 0xFFFF else files.length
    numEntriesTotal := if files.length > 0xFFFE then 0xFFFF else files.length
    centralDirSize := if size > 0xFFFFFFFE then 0xFFFFFFFF else size
    centralDirOffset := if start > 0xFFFFFFFE then 0xFFFFFFFF else start
    commentLength := burstEocdCommentSize } ++
  buildBurstEocdComment (findFirstCdfhInTail files start
    (start + size + 56 + 20 + 22 + burstEocdCommentSize))

theorem endOfArchive_length (files : List FileEntry) (start size : ℕ) :
    (endOfArchive files start size).length = 30 := by
  simp [endOfArchive, buildBurstEocdComment]

theorem endOfArchive_eq (files : List FileEntry) (start size : ℕ) : ∃ n rest,
    endOfArchive files start size =
      [80, 75, 5, 6, 0, 0, 0, 0] ++ (encode 2 n ++ (encode 2 n ++ rest)) := by
  have hsig : encode 4 zipEndCentralDirSig = [80, 75, 5, 6] := by decide
  have hzero : encode 2 0 = [0, 0] := by decide
  generalize hn : (if files.length > 0xFFFE then 0xFFFF else files.length) = n
  simp only [endOfArchive, ZipEndCentralDir.bytes, hsig, hzero, hn, List.append_assoc,
    List.cons_append, List.nil_append]
  exact ⟨n, _, rfl⟩

/-- No field of the end record or the comment looks like its signature: the first seven bytes
after its start differ from the lowest byte, and the two counts of entries are equal. -/
theorem endOfArchive_no_signature (files : List FileEntry) (start size : ℕ) {i : ℕ} (hi : 0 < i)
    (hle : i ≤ 8) : read (endOfArchive files start size) i 4 ≠ zipEndCentralDirSig := by
  obtain ⟨n, rest, heq⟩ := endOfArchive_eq files start size
  intro hsig
  rw [heq] at hsig
  rcases hle.lt_or_eq with hlt | rfl
  · have hlow := read_mod ([80, 75, 5, 6, 0, 0, 0, 0] ++ (encode 2 n ++ (encode 2 n ++ rest))) i 3
    rw [hsig, read_append_left (show i + 1 ≤ [80, 75, 5, 6, 0, 0, 0, 0].length by simp; omega)]
      at hlow
    have hne : ∀ j < 8, 0 < j →
        zipEndCentralDirSig % 256 ≠ read [80, 75, 5, 6, 0, 0, 0, 0] j 1 := by decide
    exact hne i hlt hi hlow
  · rw [read_append_right (by simp)] at hsig
    have hlow : read (encode 2 n ++ (encode 2 n ++ rest)) 0 4 =
        n % 2 ^ 16 + 2 ^ 16 * (n % 2 ^ 16) := by
      rw [← List.append_assoc, read_append_left (by simp)]
      simp [LittleEndian.read, encode, decode]
      omega
    simp only [List.length_cons, List.length_nil, Nat.reduceAdd, Nat.sub_self] at hsig
    rw [hlow, zipEndCentralDirSig] at hsig
    omega

theorem endRecords_eq (files : List FileEntry) (start size : ℕ) : ∃ records : List UInt8,
    records.length = 76 ∧
      endRecords files start size = records ++ endOfArchive files start size := by
  refine ⟨(endRecords files start size).take 76, ?_, ?_⟩
  · rw [List.length_take, endRecords_length]
    norm_num
  · have hdrop : (endRecords files start size).drop 76 = endOfArchive files start size := by
      rw [endRecords, endOfArchive, List.append_assoc _ _ (buildBurstEocdComment _),
        List.drop_left' (by simp)]
    rw [← hdrop, List.take_append_drop]

/-- The fields of the end records that are read back. -/
structure EndRecordsRead (records : List UInt8) (files : List FileEntry) (start size : ℕ) : Prop where
  eocd64Signature : read records 0 4 = zipZip64EndCentralDirSig
  numEntries : read records 32 8 = files.length % 2 ^ 64
  centralDirSize : read records 40 8 = size % 2 ^ 64
  centralDirOffset : read records 48 8 = start % 2 ^ 64
  locatorSignature : read records 56 4 = zipZip64EndCentralDirLocatorSig
  eocd64Offset : read records 64 8 = (start + size) % 2 ^ 64
  signature : read records 76 4 = zipEndCentralDirSig
  commentLength : read records 96 2 = burstEocdCommentSize
  commentMagic : read records 98 4 = burstEocdCommentMagic
  commentVersion : read records 102 1 = burstEocdCommentVersion
  firstCdfhOffset : read records 103 3 = findFirstCdfhInTail files start
    (start + size + 56 + 20 + 22 + burstEocdCommentSize) % 2 ^ 24

theorem endRecords_read (files : List FileEntry) (start size : ℕ) :
    EndRecordsRead (endRecords files start size) files start size := by
  constructor <;> simp (disch := norm_num) only [endRecords, Zip64EndCentralDir.bytes,
    Zip64EndCentralDirLocator.bytes, ZipEndCentralDir.bytes, buildBurstEocdComment,
    List.append_assoc, read_encode_append, Nat.reduceSub, read_zero_append, read_zero_encode] <;> rfl

theorem findEocd_suffix (pre : List UInt8) (files : List FileEntry) (start size : ℕ) :
    findEocd (pre ++ endRecords files start size) =
      .ok ⟨pre.length + 76, true, pre.length + 56⟩ := by
  have hrec := endRecords_read files start size
  have hlen : (pre ++ endRecords files start size).length = pre.length + 106 := by
    rw [List.length_append, endRecords_length]
  have hfind : findEocdFrom (pre ++ endRecords files start size) (pre.length + 84) =
      some (pre.length + 76) := by
    apply findEocdFrom_eq (by omega)
    · rw [read_after, hrec.signature]
    · intro i hi hle
      obtain ⟨records, hrecords, heq⟩ := endRecords_eq files start size
      obtain ⟨j, rfl⟩ : ∃ j, i = (pre ++ records).length + j :=
        ⟨i - (pre.length + 76), by rw [List.length_append]; omega⟩
      rw [List.length_append] at hi hle
      rw [heq, ← List.append_assoc, read_after]
      exact endOfArchive_no_signature files start size (by omega) (by omega)
  rw [findEocd, if_neg (by omega), hlen, show pre.length + 106 - 22 = pre.length + 84 by omega, hfind]
  dsimp only
  rw [show pre.length + 76 - 20 = pre.length + 56 by omega, read_after, hrec.locatorSignature,
    if_pos ⟨by omega, rfl⟩]

/-- Every suffix that holds the end records is read back as what was written. -/
theorem centralDirParseEocdOnly_suffix (pre : List UInt8) (files : List FileEntry)
    {start size archiveSize : ℕ} (hsize : archiveSize = start + size + 106)
    (hlt : archiveSize < 2 ^ 64) (hpre : pre.length ≤ start + size)
    (hcount : files.length < 2 ^ 64) :
    centralDirParseEocdOnly (pre ++ endRecords files start size) archiveSize =
      .ok ⟨start, size, some files.length, true, findFirstCdfhInTail files start
        (start + size + 56 + 20 + 22 + burstEocdCommentSize) % 2 ^ 24⟩ := by
  have hrec := endRecords_read files start size
  have hlen : (pre ++ endRecords files start size).length = pre.length + 106 := by
    rw [List.length_append, endRecords_length]
  have hstart : sub64 archiveSize (pre.length + 106) = start + size - pre.length := by
    rw [sub64_of_le (by omega) hlt]
    omega
  have hextent : centralDirExtent (pre ++ endRecords files start size) archiveSize
      ⟨pre.length + 76, true, pre.length + 56⟩ = .ok (start, size, some files.length) := by
    rw [centralDirExtent, if_pos rfl]
    dsimp only
    have hoff := hrec.eocd64Offset
    rw [Nat.mod_eq_of_lt (by omega)] at hoff
    rw [hlen, if_neg (by omega), Nat.add_assoc, read_after, hoff, hstart, if_neg (by omega),
      show start + size - (start + size - pre.length) = pre.length + 0 by omega, parseZip64Eocd,
      hlen, if_neg (by rw [Nat.mod_eq_of_lt] <;> omega), read_after, if_neg (by simp [hrec.eocd64Signature])]
    have hsize := hrec.centralDirSize
    have hoffset := hrec.centralDirOffset
    have hentries := hrec.numEntries
    rw [Nat.mod_eq_of_lt (by omega)] at hsize hoffset hentries
    simp only [Nat.add_assoc, read_after, Nat.zero_add, hsize, hoffset, hentries]
  have hcomment : parseBurstEocdComment (pre ++ endRecords files start size) (pre.length + 76) =
      findFirstCdfhInTail files start
        (start + size + 56 + 20 + 22 + burstEocdCommentSize) % 2 ^ 24 := by
    rw [parseBurstEocdComment, hlen]
    simp only [Nat.add_assoc, read_after, Nat.reduceAdd, hrec.commentLength, hrec.commentMagic,
      hrec.commentVersion]
    rw [if_pos ⟨le_rfl, by norm_num [burstEocdCommentSize], trivial, trivial⟩]
    have hoffset := hrec.firstCdfhOffset
    simpa only [Nat.add_assoc, Nat.reduceAdd] using hoffset
  rw [centralDirParseEocdOnly, hlen, if_neg (by omega), findEocd_suffix]
  dsimp only
  rw [hextent]
  dsimp only
  rw [if_neg (by omega), if_neg (by rw [Nat.mod_eq_of_lt] <;> omega), hcomment]

theorem addAll_tracks {env : WriterEnv} {level : ℤ} {limits : List ℕ} {calls : List AddCall}
    {w : BurstWriter} (h : addAll env calls (burstWriterCreate ⟨[], limits⟩ level) = (some (), w)) :
    w.Tracks :=
  (addAll_ok h).2.tracks (burstWriterCreate_tracks limits level)

/-- Where a writer is once everything has been added. -/
theorem addAll_position {env : WriterEnv} {level : ℤ} {calls : List AddCall} {limits : List ℕ} {w : BurstWriter}
    (h : addAll env calls (burstWriterCreate ⟨[], limits⟩ level) = (some (), w)) :
    w.position = total Item.len (bodyItems (layoutAll env level 0 calls)) := by
  obtain ⟨-, hadded⟩ := addAll_ok h
  rw [hadded.position]
  simp [burstWriterCreate, BurstWriter.position]

theorem centralHeaderBytes_length_ge (e : FileEntry) : 46 ≤ (centralHeaderBytes e).length := by
  simp only [centralHeaderBytes, List.length_append, ZipCentralHeader.fixedBytes_length]
  omega

theorem centralDirectoryBytes_length_ge (files : List FileEntry) :
    46 * files.length ≤ (centralDirectoryBytes files).length := by
  induction files with
  | nil => simp
  | cons e files ih =>
    have he := centralHeaderBytes_length_ge e
    rw [centralDirectoryBytes, List.flatMap_cons, List.length_append, List.length_cons]
    rw [centralDirectoryBytes] at ih
    omega

theorem finalized_length {w w' : BurstWriter} (htracks : w.Tracks)
    (hfin : burstWriterFinalize w = (some (), w')) : w'.output.bytes.length =
      w.position + (centralDirectoryBytes w.files).length + 56 + 20 + 22 + burstEocdCommentSize := by
  rw [burstWriterFinalize_ok hfin, List.length_append, List.length_append, endRecords_length, ← htracks]
  rfl

/-- The last three bytes of a finalized archive hold the offset of the first header in its tail. -/
theorem finalized_firstCdfhOffset {w w' : BurstWriter} (htracks : w.Tracks)
    (hfin : burstWriterFinalize w = (some (), w')) :
    read w'.output.bytes (w'.output.bytes.length - 3) 3 =
      findFirstCdfhInTail w.files w.position w'.output.bytes.length % 2 ^ 24 := by
  have hlength := finalized_length htracks hfin
  have hend : w'.output.bytes.length - 3 =
      (w.archive ++ centralDirectoryBytes w.files).length + 103 := by
    rw [hlength, List.length_append, ← htracks, burstEocdCommentSize]
    omega
  rw [hend, hlength, burstWriterFinalize_ok hfin, read_after]
  exact (endRecords_read w.files w.position _).firstCdfhOffset

/-- The end records of a finalized archive are found in every suffix that holds them, and what
they say about the central directory is read back. -/
theorem finalized_parseEocdOnly {w w' : BurstWriter} (htracks : w.Tracks)
    (hfin : burstWriterFinalize w = (some (), w')) (hsize : w'.output.bytes.length < 2 ^ 64)
    {tailStart : ℕ} (htail : tailStart + 106 ≤ w'.output.bytes.length) :
    let archive := w'.output.bytes
    let cd := centralDirectoryBytes w.files
    archive = w.archive ++ cd ++ endRecords w.files w.position cd.length ∧
      findEocd (archive.drop tailStart) =
        .ok ⟨archive.length - 30 - tailStart, true, archive.length - 50 - tailStart⟩ ∧
      centralDirParseEocdOnly (archive.drop tailStart) archive.length =
        .ok ⟨w.position, cd.length, some w.files.length, true,
          read archive (archive.length - 3) 3⟩ := by
  intro archive cd
  have hbytes : archive = w.archive ++ cd ++ endRecords w.files w.position cd.length :=
    burstWriterFinalize_ok hfin
  have hlength : archive.length = w.position + cd.length + 106 := finalized_length htracks hfin
  change archive.length < 2 ^ 64 at hsize
  change tailStart + 106 ≤ archive.length at htail
  have hcount := centralDirectoryBytes_length_ge w.files
  change _ ≤ cd.length at hcount
  have hbody : (w.archive ++ cd).length = w.position + cd.length := by
    rw [List.length_append, ← htracks]
  have hdrop : archive.drop tailStart =
      (w.archive ++ cd).drop tailStart ++ endRecords w.files w.position cd.length := by
    rw [hbytes, List.drop_append_of_le_length (by omega)]
  have hpre : ((w.archive ++ cd).drop tailStart).length = w.position + cd.length - tailStart := by
    rw [List.length_drop, hbody]
  have hoffset : read archive (archive.length - 3) 3 = findFirstCdfhInTail w.files w.position
      (w.position + cd.length + 56 + 20 + 22 + burstEocdCommentSize) % 2 ^ 24 := by
    rw [show w.position + cd.length + 56 + 20 + 22 + burstEocdCommentSize = archive.length from
      hlength.symm]
    exact finalized_firstCdfhOffset htracks hfin
  refine ⟨hbytes, ?_, ?_⟩
  · rw [hdrop, findEocd_suffix, hpre]
    congr 2 <;> omega
  · rw [hdrop, hoffset]
    exact centralDirParseEocdOnly_suffix _ _ hlength hsize (by omega) (by omega)

theorem finalized_parseEocdOnly_sample :
    let archive := (burstWriterFinalize sampleWriter).2.output.bytes
    let cd := centralDirectoryBytes sampleWriter.files
    archive = sampleWriter.archive ++ cd ++
        endRecords sampleWriter.files sampleWriter.position cd.length ∧
      findEocd (archive.drop 0) =
        .ok ⟨archive.length - 30 - 0, true, archive.length - 50 - 0⟩ ∧
      centralDirParseEocdOnly (archive.drop 0) archive.length =
        .ok ⟨sampleWriter.position, cd.length, some sampleWriter.files.length, true,
          read archive (archive.length - 3) 3⟩ := by
  have hadd : addAll rawEnv sampleCalls (burstWriterCreate ⟨[], []⟩ 3) = (some (), sampleWriter) :=
    WriterM.ok_of_fst (by decide +kernel)
  have hfin : burstWriterFinalize sampleWriter = (some (), (burstWriterFinalize sampleWriter).2) :=
    WriterM.ok_of_fst (by decide +kernel)
  exact finalized_parseEocdOnly (addAll_tracks hadd) hfin (by decide +kernel) (by decide +kernel)

end Burst
