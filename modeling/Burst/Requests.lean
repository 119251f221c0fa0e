import Burst.Lib.FormattedText
import Mathlib.Data.List.TakeWhile

namespace Burst

open FormattedText

/-- The headers of a response that a request looks at. -/
structure ResponseHeaders where
  status : ℕ
  contentLength : Option (List UInt8)
  contentRange : Option (List UInt8)
  deriving DecidableEq, Repr

/-- A response: its headers, the chunks that its body comes in, and how the request ends. -/
structure Response where
  headers : ResponseHeaders
  chunks : List (List UInt8)
  errorCode : ℤ
  deriving DecidableEq, Repr

/-- The bytes of a response so far, and the size of the memory they are in. -/
structure ResponseBuffer where
  bytes : List UInt8
  capacity : ℕ
  deriving DecidableEq, Repr

structure GetRequestContext where
  buffer : ResponseBuffer
  contentLength : ℕ
  rangeStart : ℕ
  rangeEnd : ℕ
  totalSize : ℕ
  errorCode : ℤ
  deriving DecidableEq, Repr

def getRequestContextNew : GetRequestContext where
  buffer := ⟨[], 0⟩
  contentLength := 0
  rangeStart := 0
  rangeEnd := 0
  totalSize := 0
  errorCode := 0

/-- The string that a value is copied to, in an array of a size. -/
def copyValue (size : ℕ) (value : List UInt8) : List UInt8 :=
  (value.take (size - 1)).takeWhile (· ≠ 0)

def strtoull (s : List UInt8) : ℕ := (scanUnsigned s).elim 0 Prod.fst

/-- `bytes %llu-%llu/%llu` -/
def rangeFormat : List Directive :=
  [.literal 98, .literal 121, .literal 116, .literal 101, .literal 115, .space, .unsigned, .literal 45,
    .unsigned, .literal 47, .unsigned]

/-- `bytes */%llu` -/
def totalFormat : List Directive :=
  [.literal 98, .literal 121, .literal 116, .literal 101, .literal 115, .space, .literal 42, .literal 47,
    .unsigned]

/-- The numbers are stored as they are converted, also when the text does not match to its end. -/
def GetRequestContext.scanContentRange (ctx : GetRequestContext) (text : List UInt8) : GetRequestContext :=
  let range := sscanf rangeFormat text
  let ctx := { ctx with
    rangeStart := range[0]?.getD ctx.rangeStart
    rangeEnd := range[1]?.getD ctx.rangeEnd
    totalSize := range[2]?.getD ctx.totalSize }
  if range.length = 3 then ctx
  else
    match sscanf totalFormat text with
    | [] => ctx
    | total :: _ => { ctx with totalSize := total, rangeStart := 0, rangeEnd := 0 }

def s3GetHeadersCallback (ctx : GetRequestContext) (headers : ResponseHeaders) : GetRequestContext :=
  if headers.status < 200 ∨ headers.status ≥ 300 then { ctx with errorCode := -1 }
  else
    let ctx := match headers.contentLength with
      | none => ctx
      | some value => { ctx with contentLength := strtoull (copyValue 64 value) }
    match headers.contentRange with
    | none => ctx
    | some value => ctx.scanContentRange (copyValue 128 value)

/-- The doubling loop, in at most so many rounds. -/
def growCapacity (newSize : ℕ) : ℕ → ℕ → ℕ
  | 0, capacity => capacity
  | n + 1, capacity => if capacity < newSize then growCapacity newSize n (capacity * 2 % 2 ^ 64) else capacity

/-- Appends to a buffer, which is enlarged where its capacity does not suffice. -/
def ResponseBuffer.append (buffer : ResponseBuffer) (body : List UInt8) : ResponseBuffer where
  bytes := buffer.bytes ++ body
  capacity :=
    let newSize := (buffer.bytes.length + body.length) % 2 ^ 64
    if newSize > buffer.capacity then
      growCapacity newSize 64 (if buffer.capacity = 0 then 4096 else buffer.capacity * 2 % 2 ^ 64)
    else buffer.capacity

def s3GetBodyCallback (ctx : GetRequestContext) (body : List UInt8) : GetRequestContext :=
  { ctx with buffer := ctx.buffer.append body }

def s3GetFinishCallback (ctx : GetRequestContext) (errorCode : ℤ) : GetRequestContext :=
  if errorCode ≠ 0 then { ctx with errorCode := errorCode } else ctx

/-- The buffer, its offset in the object and the size of the object, unless the request fails. -/
def burstDownloaderFetchCdPart (response : Response) : Option (List UInt8 × ℕ × ℕ) :=
  let ctx := s3GetFinishCallback
    (response.chunks.foldl s3GetBodyCallback (s3GetHeadersCallback getRequestContextNew response.headers))
    response.errorCode
  if ctx.errorCode ≠ 0 then none else some (ctx.buffer.bytes, ctx.rangeStart, ctx.totalSize)

structure CdRangeFetchContext where
  buffer : ResponseBuffer
  errorCode : ℤ
  deriving DecidableEq, Repr

def cdRangeHeadersCallback (ctx : CdRangeFetchContext) (headers : ResponseHeaders) : CdRangeFetchContext :=
  if headers.status < 200 ∨ headers.status ≥ 300 then { ctx with errorCode := -1 } else ctx

def cdRangeBodyCallback (ctx : CdRangeFetchContext) (body : List UInt8) : CdRangeFetchContext :=
  { ctx with buffer := ctx.buffer.append body }

/-- What `cd_range_finish_callback` makes of the end of a request before it takes the lock. -/
def cdRangeFinish (ctx : CdRangeFetchContext) (errorCode : ℤ) : CdRangeFetchContext :=
  if errorCode ≠ 0 ∧ ctx.errorCode = 0 then { ctx with errorCode := errorCode } else ctx

/-- The context of a range after its request. -/
def cdRangeFetched (response : Response) : CdRangeFetchContext :=
  cdRangeFinish (response.chunks.foldl cdRangeBodyCallback
    (cdRangeHeadersCallback ⟨⟨[], 0⟩, 0⟩ response.headers)) response.errorCode

/-- The offset in an object of a size from which a request for its last 8 MiB is answered. -/
@[irreducible] def tailStart (objectSize : ℕ) : ℕ := objectSize - 8388608

theorem tailStart_le (n : ℕ) : tailStart n ≤ n := by
  unfold tailStart
  exact Nat.sub_le n _

theorem tailStart_of_le {n : ℕ} (h : n ≤ 8388608) : tailStart n = 0 := by
  unfold tailStart
  exact Nat.sub_eq_zero_of_le h

/-- The answer of the store to the request for the last 8 MiB of an object. -/
structure Response.AnswersTail (response : Response) (object : List UInt8) : Prop where
  status : 200 ≤ response.headers.status ∧ response.headers.status < 300
  contentRange : response.headers.contentRange =
    some (printed rangeFormat [tailStart object.length, object.length - 1, object.length])
  body : response.chunks.flatten = object.drop (tailStart object.length)
  completes : response.errorCode = 0

/-- The buffer has room for its bytes, and less than half of it is idle once it has been enlarged. -/
structure ResponseBuffer.HasRoom (buffer : ResponseBuffer) : Prop where
  fits : buffer.bytes.length ≤ buffer.capacity
  capacity_le : buffer.capacity ≤ 4096 ∨ buffer.capacity < 2 * buffer.bytes.length

theorem growCapacity_spec {newSize : ℕ} (hsize : newSize < 2 ^ 63) {n capacity : ℕ}
    (hcapacity : capacity < 2 ^ 64) (hreach : newSize ≤ capacity * 2 ^ n) :
    newSize ≤ growCapacity newSize n capacity ∧
      (growCapacity newSize n capacity = capacity ∨ growCapacity newSize n capacity < 2 * newSize) := by
  induction n generalizing capacity with
  | zero =>
    rw [pow_zero, Nat.mul_one] at hreach
    exact ⟨hreach, .inl rfl⟩
  | succ n ih =>
    rw [growCapacity]
    by_cases hlt : capacity < newSize
    · rw [if_pos hlt, Nat.mod_eq_of_lt (by omega)]
      rw [pow_succ', ← Nat.mul_assoc] at hreach
      obtain ⟨hle, hgrown⟩ := ih (by omega) hreach
      refine ⟨hle, .inr ?_⟩
      rcases hgrown with hsame | hless
      · omega
      · exact hless
    · rw [if_neg hlt]
      exact ⟨Nat.le_of_not_lt hlt, .inl rfl⟩

namespace ResponseBuffer

theorem hasRoom_append {buffer : ResponseBuffer} (h : buffer.HasRoom) {body : List UInt8}
    (hsize : buffer.bytes.length + body.length < 2 ^ 62) : (buffer.append body).HasRoom := by
  obtain ⟨hfits, hcapacity⟩ := h
  have hmod : (buffer.bytes.length + body.length) % 2 ^ 64 = buffer.bytes.length + body.length :=
    Nat.mod_eq_of_lt (by omega)
  have hbytes : (buffer.append body).bytes.length = buffer.bytes.length + body.length := List.length_append
  rw [ResponseBuffer.append, hmod] at *
  by_cases hgrow : buffer.bytes.length + body.length > buffer.capacity
  · simp only [if_pos hgrow] at *
    obtain ⟨first, hfirst⟩ : ∃ first,
      first = if buffer.capacity = 0 then 4096 else buffer.capacity * 2 % 2 ^ 64 :=
      ⟨_, rfl⟩
    have hwaste : first ≤ 4096 ∨ first < 2 * (buffer.bytes.length + body.length) := by
      split at hfirst <;> omega
    obtain ⟨hle, hgrown⟩ := @growCapacity_spec (buffer.bytes.length + body.length) (by omega) 64 first
      (by split at hfirst <;> omega) (by split at hfirst <;> omega)
    rw [hfirst] at hle hgrown hwaste
    refine ⟨hbytes.trans_le hle, ?_⟩
    change growCapacity _ _ _ ≤ 4096 ∨ growCapacity _ _ _ < 2 * _
    rw [hbytes]
    omega
  · simp only [if_neg hgrow] at *
    refine ⟨hbytes.trans_le (Nat.le_of_not_lt hgrow), ?_⟩
    change buffer.capacity ≤ 4096 ∨ buffer.capacity < 2 * _
    rw [hbytes]
    omega

/-- The chunks of a body, one after the other. -/
theorem bytes_foldl_append (buffer : ResponseBuffer) (chunks : List (List UInt8)) :
    (chunks.foldl append buffer).bytes = buffer.bytes ++ chunks.flatten := by
  induction chunks generalizing buffer with
  | nil => rw [List.foldl_nil, List.flatten_nil, List.append_nil]
  | cons chunk chunks ih =>
    rw [List.foldl_cons, ih, List.flatten_cons, ← List.append_assoc]
    rfl

theorem hasRoom_foldl_append {buffer : ResponseBuffer} (h : buffer.HasRoom) {chunks : List (List UInt8)}
    (hsize : buffer.bytes.length + chunks.flatten.length < 2 ^ 62) : (chunks.foldl append buffer).HasRoom := by
  induction chunks generalizing buffer with
  | nil => exact h
  | cons chunk chunks ih =>
    rw [List.flatten_cons, List.length_append] at hsize
    have hbytes : (buffer.append chunk).bytes.length = buffer.bytes.length + chunk.length := List.length_append
    exact ih (hasRoom_append h (by omega)) (by rw [hbytes]; omega)

theorem hasRoom_empty : (⟨[], 0⟩ : ResponseBuffer).HasRoom := ⟨le_rfl, .inl (Nat.zero_le _)⟩

end ResponseBuffer

theorem foldl_s3GetBodyCallback (ctx : GetRequestContext) (chunks : List (List UInt8)) :
    chunks.foldl s3GetBodyCallback ctx =
      { ctx with buffer := chunks.foldl ResponseBuffer.append ctx.buffer } := by
  induction chunks generalizing ctx with
  | nil => rfl
  | cons chunk chunks ih => exact ih (s3GetBodyCallback ctx chunk)

theorem foldl_cdRangeBodyCallback (ctx : CdRangeFetchContext) (chunks : List (List UInt8)) :
    chunks.foldl cdRangeBodyCallback ctx =
      { ctx with buffer := chunks.foldl ResponseBuffer.append ctx.buffer } := by
  induction chunks generalizing ctx with
  | nil => rfl
  | cons chunk chunks ih => exact ih (cdRangeBodyCallback ctx chunk)

/-- The buffer of a range holds what has come for it. -/
theorem cdRangeFetched_bytes (response : Response) :
    (cdRangeFetched response).buffer.bytes = response.chunks.flatten := by
  have hempty : (cdRangeHeadersCallback ⟨⟨[], 0⟩, 0⟩ response.headers).buffer = ⟨[], 0⟩ := by
    rw [cdRangeHeadersCallback]
    split <;> rfl
  have hfinish (ctx : CdRangeFetchContext) : (cdRangeFinish ctx response.errorCode).buffer = ctx.buffer := by
    rw [cdRangeFinish]
    split <;> rfl
  rw [cdRangeFetched, hfinish, foldl_cdRangeBodyCallback, ResponseBuffer.bytes_foldl_append, hempty]
  rfl

/-- A short string is copied whole. -/
theorem copyValue_of_lt {size : ℕ} {value : List UInt8} (hlen : value.length < size)
    (hstring : ∀ b ∈ value, b ≠ 0) : copyValue size value = value := by
  rw [copyValue, List.take_of_length_le (by omega), List.takeWhile_eq_self_iff]
  intro b hb
  exact decide_eq_true (hstring b hb)

theorem rangeFormat_separated : Separated rangeFormat := by
  exact ⟨by decide, by decide, trivial⟩

theorem rangeFormat_numbers {start rangeEnd total : ℕ} (hstart : start < 2 ^ 64) (hend : rangeEnd < 2 ^ 64)
    (htotal : total < 2 ^ 64) : ∀ n ∈ [start, rangeEnd, total], n < 2 ^ 64 := by
  intro n hn
  simp only [List.mem_cons, List.not_mem_nil, or_false] at hn
  rcases hn with rfl | rfl | rfl
  · exact hstart
  · exact hend
  · exact htotal

/-- The range that the store names is read as it is. -/
theorem GetRequestContext.scanContentRange_printed (ctx : GetRequestContext) {start rangeEnd total : ℕ}
    (hstart : start < 2 ^ 64) (hend : rangeEnd < 2 ^ 64) (htotal : total < 2 ^ 64) :
    ctx.scanContentRange (printed rangeFormat [start, rangeEnd, total]) =
      { ctx with rangeStart := start, rangeEnd := rangeEnd, totalSize := total } := by
  have hscan : sscanf rangeFormat (printed rangeFormat [start, rangeEnd, total]) = [start, rangeEnd, total] :=
    sscanf_printed rangeFormat_separated rfl (rangeFormat_numbers hstart hend htotal)
  rw [scanContentRange, hscan]
  rfl

theorem Response.AnswersTail.headers {response : Response} {object : List UInt8}
    (h : response.AnswersTail object) (hsize : object.length < 2 ^ 64) :
    let ctx := s3GetHeadersCallback getRequestContextNew response.headers
    ctx.buffer = ⟨[], 0⟩ ∧ ctx.rangeStart = tailStart object.length ∧ ctx.totalSize = object.length ∧
      ctx.errorCode = 0 := by
  have hstart : tailStart object.length < 2 ^ 64 := (tailStart_le _).trans_lt hsize
  have hend : object.length - 1 < 2 ^ 64 := by omega
  have hcopy : copyValue 128 (printed rangeFormat [tailStart object.length, object.length - 1, object.length]) =
      printed rangeFormat [tailStart object.length, object.length - 1, object.length] := by
    refine copyValue_of_lt ?_ (zero_notMem_printed (by decide) _)
    have hlen := @printed_length_le rangeFormat _ (rangeFormat_numbers hstart hend hsize)
    simp only [rangeFormat, List.length_cons, List.length_nil] at hlen ⊢
    omega
  have hstatus : ¬ (response.headers.status < 200 ∨ response.headers.status ≥ 300) := by
    have hrange := h.status
    omega
  simp only [s3GetHeadersCallback, if_neg hstatus, h.contentRange, hcopy]
  rw [GetRequestContext.scanContentRange_printed _ hstart hend hsize]
  cases response.headers.contentLength with
  | none => exact ⟨rfl, rfl, rfl, rfl⟩
  | some value => exact ⟨rfl, rfl, rfl, rfl⟩

theorem Response.AnswersTail.fetched {response : Response} {object : List UInt8}
    (h : response.AnswersTail object) (hsize : object.length < 2 ^ 64) :
    burstDownloaderFetchCdPart response =
      some (object.drop (tailStart object.length), tailStart object.length, object.length) := by
  obtain ⟨hbuffer, hstart, htotal, herror⟩ := h.headers hsize
  have hbytes : (response.chunks.foldl ResponseBuffer.append ⟨[], 0⟩).bytes =
      object.drop (tailStart object.length) := by
    rw [ResponseBuffer.bytes_foldl_append, h.body, List.nil_append]
  rw [burstDownloaderFetchCdPart, h.completes, foldl_s3GetBodyCallback, hbuffer]
  generalize s3GetHeadersCallback getRequestContextNew response.headers = ctx at hstart htotal herror ⊢
  have hfinish (ctx : GetRequestContext) : s3GetFinishCallback ctx 0 = ctx := if_neg (by simp)
  rw [hfinish, if_neg (by simp [herror]), hstart, htotal, hbytes]

/-- The request for the tail gives the last bytes of the object, the offset where they begin and the size of
the object, in whatever chunks they come; no chunk is written beyond the buffer. -/
theorem burstDownloaderFetchCdPart_tail {response : Response} {object : List UInt8}
    (h : response.AnswersTail object) (hsize : object.length < 2 ^ 62) :
    burstDownloaderFetchCdPart response =
        some (object.drop (tailStart object.length), tailStart object.length, object.length) ∧
      ∀ n, ((response.chunks.take n).foldl s3GetBodyCallback
        (s3GetHeadersCallback getRequestContextNew response.headers)).buffer.HasRoom := by
  obtain ⟨hbuffer, -⟩ := h.headers (by omega)
  refine ⟨h.fetched (by omega), fun n ↦ ?_⟩
  have hlen : (response.chunks.take n).flatten.length ≤ object.length := by
    have hpart := ((response.chunks.take_prefix n).sublist.flatten).length_le
    rw [h.body, List.length_drop] at hpart
    omega
  rw [foldl_s3GetBodyCallback, hbuffer]
  refine ResponseBuffer.hasRoom_foldl_append ResponseBuffer.hasRoom_empty ?_
  rw [List.length_nil]
  omega

/-- An object of 300 bytes that comes in two chunks. -/
def twoChunks : Response where
  headers := ⟨206, some [51, 48, 48], some [98, 121, 116, 101, 115, 32, 48, 45, 50, 57, 57, 47, 51, 48, 48]⟩
  chunks := [List.replicate 100 1, List.replicate 200 2]
  errorCode := 0

theorem twoChunks_range : twoChunks.headers.contentRange = some (printed rangeFormat [0, 299, 300]) := by
  simp [twoChunks, rangeFormat, printed, print]

theorem twoChunks_tail :
    burstDownloaderFetchCdPart twoChunks = some (List.replicate 100 1 ++ List.replicate 200 2, 0, 300) := by
  have hobject : (List.replicate 100 1 ++ List.replicate 200 (2 : UInt8)).length = 300 := by
    rw [List.length_append, List.length_replicate, List.length_replicate]
  have hstart : tailStart (List.replicate 100 1 ++ List.replicate 200 (2 : UInt8)).length = 0 :=
    tailStart_of_le (by rw [hobject]; norm_num)
  have hbody : twoChunks.chunks.flatten = List.replicate 100 1 ++ List.replicate 200 2 := by
    rw [twoChunks, List.flatten_cons, List.flatten_cons, List.flatten_nil, List.append_nil]
  have hanswers : twoChunks.AnswersTail (List.replicate 100 1 ++ List.replicate 200 2) := by
    constructor
    · exact ⟨by decide, by decide⟩
    · rw [hstart, hobject]
      exact twoChunks_range
    · rw [hstart]
      exact hbody
    · rfl
  have htail := (burstDownloaderFetchCdPart_tail hanswers (by rw [hobject]; norm_num)).1
  rw [hstart, hobject] at htail
  exact htail

end Burst
