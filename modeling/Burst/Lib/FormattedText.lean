import Mathlib.Data.Nat.Digits.Lemmas
import Mathlib.Tactic.NormNum

namespace FormattedText

def isDigit (b : UInt8) : Bool := 48 ≤ b && b ≤ 57

/-- A number in decimal digits, the highest one first. -/
def print (n : ℕ) : List UInt8 :=
  if n = 0 then [48] else (Nat.digits 10 n).reverse.map fun d ↦ UInt8.ofNat (48 + d)

/-- What digits stand for. -/
def value (digits : List UInt8) : ℕ := Nat.ofDigits 10 (digits.reverse.map fun b ↦ b.toNat - 48)

theorem digit_lt {n d : ℕ} (h : d ∈ Nat.digits 10 n) : d < 10 := Nat.digits_lt_base (by norm_num) h

theorem isDigit_of_mem_print {n : ℕ} {b : UInt8} (h : b ∈ print n) : isDigit b = true := by
  rw [print] at h
  split at h
  · rw [List.mem_singleton.mp h]
    rfl
  · obtain ⟨d, hd, rfl⟩ := List.mem_map.mp h
    have hlt := digit_lt (List.mem_reverse.mp hd)
    have hall : ∀ d < 10, isDigit (UInt8.ofNat (48 + d)) = true := by decide
    exact hall d hlt

theorem print_ne_nil (n : ℕ) : print n ≠ [] := by
  rw [print]
  split
  · exact List.cons_ne_nil 48 []
  · next hne => simpa [Nat.digits_eq_nil_iff_eq_zero] using hne

theorem value_print (n : ℕ) : value (print n) = n := by
  rw [value, print]
  split
  · next hzero =>
    rw [hzero]
    rfl
  · have hdigits : (Nat.digits 10 n).map (fun d ↦ (UInt8.ofNat (48 + d)).toNat - 48) = Nat.digits 10 n := by
      refine (List.map_congr_left fun d hd ↦ ?_).trans (List.map_id _)
      have hlt := digit_lt hd
      have hall : ∀ d < 10, (UInt8.ofNat (48 + d)).toNat - 48 = d := by decide
      exact hall d hlt
    rw [← List.map_reverse, List.reverse_reverse, List.map_map]
    exact (congrArg (Nat.ofDigits 10) hdigits).trans (Nat.ofDigits_digits 10 n)

/-- Digits end where something else than a digit comes. -/
theorem takeWhile_print {n : ℕ} {rest : List UInt8} (h : ∀ b ∈ rest.head?, isDigit b = false) :
    (print n ++ rest).takeWhile isDigit = print n := by
  rw [List.takeWhile_append_of_pos fun b hb ↦ isDigit_of_mem_print hb]
  cases rest with
  | nil => exact List.append_nil _
  | cons b rest => rw [List.takeWhile_cons_of_neg (by simp [h b rfl]), List.append_nil]

/-- What `isspace` holds of. -/
def isSpace (b : UInt8) : Bool := b = 32 || (9 ≤ b && b ≤ 13)

/-- The magnitude that `strtoull` and `%llu` read: too large a number becomes the largest one. -/
def saturate (n : ℕ) : ℕ := if n < 2 ^ 64 then n else 2 ^ 64 - 1

/-- A sign, if there is one: whether it is a minus, and what follows. -/
def scanSign : List UInt8 → Bool × List UInt8
  | 43 :: s => (false, s)
  | 45 :: s => (true, s)
  | s => (false, s)

/-- The unsigned 64-bit number that a text begins with, and the rest of the text. -/
def scanUnsigned (s : List UInt8) : Option (ℕ × List UInt8) :=
  let (negative, s) := scanSign (s.dropWhile isSpace)
  let digits := s.takeWhile isDigit
  if digits = [] then none
  else
    let n := value digits
    let n := if negative ∧ n < 2 ^ 64 then (2 ^ 64 - n) % 2 ^ 64 else saturate n
    some (n, s.drop digits.length)

/-- A directive of a format: white space, a byte, or `%llu`. -/
inductive Directive where
  | space
  | literal (b : UInt8)
  | unsigned
  deriving DecidableEq, Repr

/-- The numbers that `sscanf` converts before it comes to something that does not match. -/
def sscanf : List Directive → List UInt8 → List ℕ
  | [], _ => []
  | .space :: format, s => sscanf format (s.dropWhile isSpace)
  | .literal _ :: _, [] => []
  | .literal b :: format, c :: s => if c = b then sscanf format s else []
  | .unsigned :: format, s =>
    match scanUnsigned s with
    | none => []
    | some (n, s) => n :: sscanf format s

/-- The text that a format gives for numbers. -/
def printed : List Directive → List ℕ → List UInt8
  | [], _ => []
  | .space :: format, ns => 32 :: printed format ns
  | .literal b :: format, ns => b :: printed format ns
  | .unsigned :: format, n :: ns => print n ++ printed format ns
  | .unsigned :: _, [] => []

/-- A text of the format shows where its numbers end and what its white space is. -/
def Separated : List Directive → Prop
  | [] => True
  | .unsigned :: .literal b :: format => isDigit b = false ∧ Separated (.literal b :: format)
  | .unsigned :: [] => True
  | .unsigned :: _ => False
  | .space :: .literal b :: format => isSpace b = false ∧ Separated (.literal b :: format)
  | .space :: .unsigned :: format => Separated (.unsigned :: format)
  | .space :: _ => False
  | .literal _ :: format => Separated format

theorem isSpace_of_isDigit {b : UInt8} (h : isDigit b = true) : isSpace b = false := by
  simp only [isDigit, Bool.and_eq_true, decide_eq_true_eq, UInt8.le_iff_toNat_le] at h
  obtain ⟨hlo, -⟩ := h
  change 48 ≤ b.toNat at hlo
  have hne : b ≠ 32 := by
    rintro rfl
    exact absurd hlo (by decide)
  have hlt : ¬ b ≤ 13 := by
    rw [UInt8.le_iff_toNat_le]
    change ¬ b.toNat ≤ 13
    omega
  simp [isSpace, hne, hlt]

theorem scanSign_of_isDigit {b : UInt8} (h : isDigit b = true) (s : List UInt8) :
    scanSign (b :: s) = (false, b :: s) := by
  unfold scanSign
  split
  · next heq =>
    obtain ⟨rfl, -⟩ := List.cons.inj heq
    cases h
  · next heq =>
    obtain ⟨rfl, -⟩ := List.cons.inj heq
    cases h
  · rfl

theorem print_append_eq (n : ℕ) (rest : List UInt8) : ∃ b s, isDigit b = true ∧ print n ++ rest = b :: s := by
  cases hprint : print n with
  | nil => exact absurd hprint (print_ne_nil n)
  | cons b s =>
    exact ⟨b, s ++ rest, isDigit_of_mem_print (by rw [hprint]; exact List.mem_cons_self), rfl⟩

/-- A printed number is read back. -/
theorem scanUnsigned_print {n : ℕ} (hn : n < 2 ^ 64) {rest : List UInt8}
    (hrest : ∀ b ∈ rest.head?, isDigit b = false) : scanUnsigned (print n ++ rest) = some (n, rest) := by
  obtain ⟨b, s, hdigit, hcons⟩ := print_append_eq n rest
  have hspaces : (print n ++ rest).dropWhile isSpace = print n ++ rest := by
    rw [hcons, List.dropWhile_cons_of_neg (by simp [isSpace_of_isDigit hdigit])]
  have hsign : scanSign (print n ++ rest) = (false, print n ++ rest) := by
    rw [hcons]
    exact scanSign_of_isDigit hdigit s
  simp only [scanUnsigned, hspaces, hsign, takeWhile_print hrest, if_neg (print_ne_nil n), value_print,
    Bool.false_eq_true, false_and, if_false, saturate, if_pos hn, List.drop_left]

theorem Separated.tail {directive : Directive} {format : List Directive}
    (h : Separated (directive :: format)) : Separated format := by
  cases directive with
  | space =>
    cases format with
    | nil => trivial
    | cons next format =>
      cases next with
      | space => exact h.elim
      | literal b => exact h.2
      | unsigned => exact h
  | literal b => exact h
  | unsigned =>
    cases format with
    | nil => trivial
    | cons next format =>
      cases next with
      | space => exact h.elim
      | literal b => exact h.2
      | unsigned => exact h.elim

/-- A number ends where the text goes on. -/
theorem Separated.isDigit_head {format : List Directive} (h : Separated (.unsigned :: format)) (ns : List ℕ) :
    ∀ b ∈ (printed format ns).head?, isDigit b = false := by
  cases format with
  | nil => simp [printed]
  | cons next format =>
    cases next with
    | space => exact h.elim
    | literal b =>
      intro b' hb'
      obtain rfl := Option.some.inj hb'
      exact h.1
    | unsigned => exact h.elim

/-- White space ends where the text goes on. -/
theorem Separated.dropWhile_isSpace {format : List Directive} (h : Separated (.space :: format))
    (ns : List ℕ) : (printed format ns).dropWhile isSpace = printed format ns := by
  cases format with
  | nil => rfl
  | cons next format =>
    cases next with
    | space => exact h.elim
    | literal b => rw [printed, List.dropWhile_cons_of_neg (by simp [h.1])]
    | unsigned =>
      cases ns with
      | nil => rfl
      | cons n ns =>
        obtain ⟨b, s, hdigit, hcons⟩ := print_append_eq n (printed format ns)
        rw [printed, hcons, List.dropWhile_cons_of_neg (by simp [isSpace_of_isDigit hdigit])]

/-- The numbers of a text are read back by the format that it was printed with. -/
theorem sscanf_printed {format : List Directive} (hformat : Separated format) {ns : List ℕ}
    (hcount : ns.length = format.count .unsigned) (hns : ∀ n ∈ ns, n < 2 ^ 64) :
    sscanf format (printed format ns) = ns := by
  induction format generalizing ns with
  | nil =>
    rw [List.count_nil, List.length_eq_zero_iff] at hcount
    rw [hcount]
    rfl
  | cons directive format ih =>
    cases directive with
    | space =>
      rw [List.count_cons_of_ne (by decide)] at hcount
      rw [printed, sscanf, List.dropWhile_cons_of_pos (by decide), hformat.dropWhile_isSpace]
      exact ih hformat.tail hcount hns
    | literal b =>
      rw [List.count_cons_of_ne (by simp)] at hcount
      rw [printed, sscanf, if_pos rfl]
      exact ih hformat.tail hcount hns
    | unsigned =>
      rw [List.count_cons_self] at hcount
      cases ns with
      | nil => cases hcount
      | cons n ns =>
        obtain ⟨hn, hns⟩ := List.forall_mem_cons.mp hns
        rw [printed, sscanf, scanUnsigned_print hn (hformat.isDigit_head ns)]
        dsimp only
        rw [ih hformat.tail (Nat.succ.inj hcount) hns]

theorem ne_zero_of_isDigit {b : UInt8} (h : isDigit b = true) : b ≠ 0 := by
  rintro rfl
  cases h

/-- A text of digits, blanks and literals that are not zero is a string. -/
theorem zero_notMem_printed {format : List Directive} (hformat : Directive.literal 0 ∉ format) (ns : List ℕ) :
    ∀ b ∈ printed format ns, b ≠ 0 := by
  induction format generalizing ns with
  | nil => simp [printed]
  | cons directive format ih =>
    obtain ⟨hne, hrest⟩ := not_or.mp (fun h ↦ hformat (List.mem_cons.mpr h))
    cases directive with
    | space => exact List.forall_mem_cons.mpr ⟨by decide, ih hrest ns⟩
    | literal b => exact List.forall_mem_cons.mpr ⟨fun h ↦ hne (h ▸ rfl), ih hrest ns⟩
    | unsigned =>
      cases ns with
      | nil => simp [printed]
      | cons n ns =>
        intro b hb
        rcases List.mem_append.mp hb with hprint | hrest'
        · exact ne_zero_of_isDigit (isDigit_of_mem_print hprint)
        · exact ih hrest ns b hrest'

theorem print_length_le {n k : ℕ} (hk : 0 < k) (h : n < 10 ^ k) : (print n).length ≤ k := by
  rw [print]
  split
  · exact hk
  · rw [List.length_map, List.length_reverse]
    exact (Nat.digits_length_le_iff (by norm_num) n).mpr h

/-- A number of 64 bits has at most twenty digits. -/
theorem printed_length_le {format : List Directive} {ns : List ℕ} (hns : ∀ n ∈ ns, n < 2 ^ 64) :
    (printed format ns).length ≤ format.length + 19 * ns.length := by
  induction format generalizing ns with
  | nil => simp [printed]
  | cons directive format ih =>
    cases directive with
    | space =>
      have hrest := ih hns
      rw [printed, List.length_cons, List.length_cons]
      omega
    | literal b =>
      have hrest := ih hns
      rw [printed, List.length_cons, List.length_cons]
      omega
    | unsigned =>
      cases ns with
      | nil => simp [printed]
      | cons n ns =>
        obtain ⟨hn, hns⟩ := List.forall_mem_cons.mp hns
        have hrest := ih hns
        have hprint := print_length_le (n := n) (k := 20) (by norm_num) (hn.trans (by norm_num))
        rw [printed, List.length_append, List.length_cons, List.length_cons]
        omega

end FormattedText
