import Burst.Lib.LittleEndian

namespace TaggedFields

open LittleEndian

/-- A field with a 16-bit id and data whose size fits into 16 bits. -/
structure Field where
  id : ℕ
  data : List UInt8
  id_lt : id < 2 ^ 16
  size_lt : data.length < 2 ^ 16

def Field.bytes (f : Field) : List UInt8 := encode 2 f.id ++ (encode 2 f.data.length ++ f.data)

def fieldBytes (fields : List Field) : List UInt8 := fields.flatMap Field.bytes

@[simp] theorem fieldBytes_nil : fieldBytes [] = [] := rfl

@[simp] theorem fieldBytes_cons (f : Field) (fields : List Field) :
    fieldBytes (f :: fields) = f.bytes ++ fieldBytes fields := rfl

theorem fieldBytes_append (fields fields' : List Field) :
    fieldBytes (fields ++ fields') = fieldBytes fields ++ fieldBytes fields' :=
  List.flatMap_append

theorem Field.bytes_length (f : Field) : f.bytes.length = 4 + f.data.length := by
  rw [bytes, List.length_append, List.length_append, encode_length, encode_length]
  omega

/-- What the header of a field reads as, whatever follows the field. -/
theorem Field.reads (f : Field) (rest : List UInt8) :
    read (f.bytes ++ rest) 0 2 = f.id ∧ read (f.bytes ++ rest) 2 2 = f.data.length ∧
      (f.bytes ++ rest).drop 4 = f.data ++ rest ∧
      (f.bytes ++ rest).drop (4 + f.data.length) = rest := by
  have hid : f.id % 256 ^ 2 = f.id := Nat.mod_eq_of_lt f.id_lt
  have hsize : f.data.length % 256 ^ 2 = f.data.length := Nat.mod_eq_of_lt f.size_lt
  refine ⟨?_, ?_, ?_, ?_⟩
  · rw [bytes, List.append_assoc, read_zero_append, hid]
  · rw [bytes, List.append_assoc, List.append_assoc, read_append_right (by rw [encode_length]),
      encode_length, Nat.sub_self, read_zero_append, hsize]
  · rw [bytes, ← List.append_assoc, List.append_assoc _ f.data]
    exact List.drop_left' (by simp)
  · exact List.drop_left' f.bytes_length

section Scan

variable {α : Type} (target : ℕ) (found : ℕ → List UInt8 → α) (missing : α)

/-- Walks over the fields up to the first with the id `target`; `found` is given its size and all
bytes after its header. -/
def scan : ℕ → List UInt8 → α
  | 0, _ => missing
  | fuel + 1, bs =>
    if bs.length < 4 then missing
    else if read bs 0 2 = target then found (read bs 2 2) (bs.drop 4)
    else if bs.length - 4 < read bs 2 2 then missing
    else scan fuel (bs.drop (4 + read bs 2 2))

variable {target found missing}

theorem scan_skip {f : Field} (h : f.id ≠ target) (fuel : ℕ) (rest : List UInt8) :
    scan target found missing (fuel + 1) (f.bytes ++ rest) =
      scan target found missing fuel rest := by
  obtain ⟨hid, hsize, -, hdrop⟩ := f.reads rest
  have hlen : (f.bytes ++ rest).length = 4 + f.data.length + rest.length := by
    rw [List.length_append, f.bytes_length]
  rw [scan, if_neg (by omega), hid, if_neg h, hsize, if_neg (by omega), hdrop]

theorem scan_found {f : Field} (h : f.id = target) (fuel : ℕ) (rest : List UInt8) :
    scan target found missing (fuel + 1) (f.bytes ++ rest) =
      found f.data.length (f.data ++ rest) := by
  obtain ⟨hid, hsize, hdrop, -⟩ := f.reads rest
  have hlen : (f.bytes ++ rest).length = 4 + f.data.length + rest.length := by
    rw [List.length_append, f.bytes_length]
  rw [scan, if_neg (by omega), hid, if_pos h, hsize, hdrop]

/-- Fields with other ids are passed over, one for each unit of fuel. -/
theorem scan_before {before : List Field} (h : ∀ f ∈ before, f.id ≠ target) (fuel : ℕ)
    (rest : List UInt8) :
    scan target found missing (before.length + fuel) (fieldBytes before ++ rest) =
      scan target found missing fuel rest := by
  induction before with
  | nil => rw [List.length_nil, Nat.zero_add, fieldBytes_nil, List.nil_append]
  | cons f before ih =>
    have hcons : (f :: before).length + fuel = before.length + fuel + 1 := by
      rw [List.length_cons]
      omega
    rw [hcons, fieldBytes_cons, List.append_assoc, scan_skip (h f List.mem_cons_self)]
    exact ih fun f' hf' ↦ h f' (List.mem_cons_of_mem f hf')

/-- Every field takes at least four bytes, so the length of the bytes is fuel enough. -/
theorem length_le_fieldBytes (fields : List Field) : fields.length ≤ (fieldBytes fields).length := by
  induction fields with
  | nil => exact Nat.le_refl 0
  | cons f fields ih =>
    rw [fieldBytes_cons, List.length_cons, List.length_append, f.bytes_length]
    omega

/-- The scan answers with the first field that has the id. -/
theorem scan_first {before : List Field} {f : Field} (hbefore : ∀ g ∈ before, g.id ≠ target)
    (hf : f.id = target) (tail : List UInt8) :
    let bs := fieldBytes (before ++ [f]) ++ tail
    scan target found missing bs.length bs = found f.data.length (f.data ++ tail) := by
  intro bs
  have hbs : bs = fieldBytes before ++ (f.bytes ++ tail) := by
    simp only [bs, fieldBytes_append, fieldBytes_cons, fieldBytes_nil, List.append_nil,
      List.append_assoc]
  have hmin := length_le_fieldBytes before
  have hlen : bs.length = before.length + ((fieldBytes before).length - before.length +
      f.data.length + tail.length + 3 + 1) := by
    rw [hbs, List.length_append, List.length_append, f.bytes_length]
    omega
  rw [hlen, hbs, scan_before hbefore]
  exact scan_found hf _ tail

/-- Without such a field nothing is found. -/
theorem scan_missing {fields : List Field} (h : ∀ f ∈ fields, f.id ≠ target) :
    scan target found missing (fieldBytes fields).length (fieldBytes fields) = missing := by
  have hmin := length_le_fieldBytes fields
  have hbefore := @scan_before _ target found missing _ h
    ((fieldBytes fields).length - fields.length) []
  rw [List.append_nil, Nat.add_sub_cancel' hmin] at hbefore
  rw [hbefore]
  cases (fieldBytes fields).length - fields.length with
  | zero => rfl
  | succ fuel => rw [scan, if_pos (by simp)]

/-- A scan respects the structure of the fields: only the first field with its id matters, and of that
only its own bytes, whatever bytes come after it. -/
def RespectsFields (target : ℕ) (parse : List UInt8 → α) (meaning : List UInt8 → α)
    (missing : α) (fields : List Field) : Prop :=
  ((∀ f ∈ fields, f.id ≠ target) → parse (fieldBytes fields) = missing) ∧
    ∀ before f after, fields = before ++ f :: after → (∀ g ∈ before, g.id ≠ target) →
      f.id = target → ∀ tail, tail.length = (fieldBytes after).length →
        parse (fieldBytes (before ++ [f]) ++ tail) = meaning f.data

/-- A scan respects the structure exactly when its answer on each first field does. -/
theorem scan_respectsFields_iff {meaning : List UInt8 → α} {fields : List Field} :
    RespectsFields target (fun extra ↦ scan target found missing extra.length extra) meaning missing
        fields ↔
      ∀ before f after, fields = before ++ f :: after → (∀ g ∈ before, g.id ≠ target) →
        f.id = target → ∀ tail, tail.length = (fieldBytes after).length →
          found f.data.length (f.data ++ tail) = meaning f.data := by
  constructor
  · rintro ⟨-, hfirst⟩ before f after hfields hbefore hf tail htail
    rw [← hfirst before f after hfields hbefore hf tail htail]
    exact (scan_first hbefore hf tail).symm
  · intro hall
    refine ⟨scan_missing, fun before f after hfields hbefore hf tail htail ↦ ?_⟩
    rw [← hall before f after hfields hbefore hf tail htail]
    exact scan_first hbefore hf tail

end Scan

end TaggedFields
