import Mathlib.Tactic.Ring
import Mathlib.Tactic.Linarith
import Mathlib.Data.List.Basic

namespace LittleEndian

/-- The `w` low-order bytes of a number, least significant first. -/
def encode : ℕ → ℕ → List UInt8
  | 0, _ => []
  | w + 1, n => UInt8.ofNat n :: encode w (n / 256)

def decode : List UInt8 → ℕ
  | [] => 0
  | b :: bs => b.toNat + 256 * decode bs

/-- The number held by the `w` bytes at an offset; bytes past the end count as zero. -/
def read (bs : List UInt8) (off w : ℕ) : ℕ := decode ((bs.drop off).take w)

@[simp] theorem encode_length (w n : ℕ) : (encode w n).length = w := by
  induction w generalizing n with
  | zero => rfl
  | succ w ih => simp only [encode, List.length_cons, ih]

theorem decode_encode (w n : ℕ) : decode (encode w n) = n % 256 ^ w := by
  induction w generalizing n with
  | zero => simp [encode, decode, Nat.mod_one]
  | succ w ih =>
    have hb : (UInt8.ofNat n).toNat = n % 256 := by simp
    rw [encode, decode, ih, hb, pow_succ', Nat.mod_mul]

theorem decode_encode_of_lt {w n : ℕ} (h : n < 256 ^ w) : decode (encode w n) = n := by
  rw [decode_encode, Nat.mod_eq_of_lt h]

theorem decode_lt (bs : List UInt8) : decode bs < 256 ^ bs.length := by
  induction bs with
  | nil => simp [decode]
  | cons b bs ih =>
    have hb : b.toNat < 256 := b.toNat_lt
    rw [decode, List.length_cons, pow_succ]
    omega

/-- Zeros in the high bytes do not change a number. -/
theorem decode_append_zeros (bs : List UInt8) (n : ℕ) :
    decode (bs ++ List.replicate n 0) = decode bs := by
  induction bs with
  | nil =>
    induction n with
    | zero => rfl
    | succ n ih =>
      have htail : decode (List.replicate n 0) = 0 := ih
      rw [List.nil_append, List.replicate_succ]
      change 0 + 256 * decode (List.replicate n 0) = 0
      rw [htail]
  | cons b bs ih => rw [List.cons_append, decode, ih, decode]

theorem encode_mod (w n : ℕ) : encode w (n % 256 ^ w) = encode w n := by
  induction w generalizing n with
  | zero => rfl
  | succ w ih =>
    have hq : n % 256 ^ (w + 1) / 256 = n / 256 % 256 ^ w := by
      rw [pow_succ', Nat.mod_mul_right_div_self]
    have hr : UInt8.ofNat (n % 256 ^ (w + 1)) = UInt8.ofNat n := by
      apply UInt8.toNat_inj.mp
      simp [pow_succ']
    rw [encode, encode, hq, hr, ih]

theorem read_zero_append (w n : ℕ) (rest : List UInt8) :
    read (encode w n ++ rest) 0 w = n % 256 ^ w := by
  rw [read, List.drop_zero, List.take_left' (encode_length w n), decode_encode]

theorem read_zero_encode (w n : ℕ) : read (encode w n) 0 w = n % 256 ^ w := by
  simpa using read_zero_append w n []

theorem read_append_right {xs : List UInt8} {off : ℕ} (h : xs.length ≤ off)
    (rest : List UInt8) (w : ℕ) : read (xs ++ rest) off w = read rest (off - xs.length) w := by
  rw [read, read, List.drop_append, List.drop_eq_nil_of_le h, List.nil_append]

theorem read_append_left {xs : List UInt8} {off w : ℕ} (h : off + w ≤ xs.length)
    (rest : List UInt8) : read (xs ++ rest) off w = read xs off w := by
  rw [read, read, List.drop_append_of_le_length (by omega),
    List.take_append_of_le_length (by rw [List.length_drop]; omega)]

theorem read_drop (bs : List UInt8) (n off w : ℕ) :
    read (bs.drop n) off w = read bs (n + off) w := by
  rw [read, read, List.drop_drop]

theorem read_lt (bs : List UInt8) (off w : ℕ) : read bs off w < 256 ^ w := by
  refine (decode_lt _).trans_le (Nat.pow_le_pow_right (by norm_num) ?_)
  rw [List.length_take]
  exact Nat.min_le_left _ _

/-- The lowest byte of a number. -/
theorem read_mod (bs : List UInt8) (off w : ℕ) : read bs off (w + 1) % 256 = read bs off 1 := by
  unfold read
  cases bs.drop off with
  | nil => simp [decode]
  | cons b bs =>
    have hb : b.toNat < 256 := b.toNat_lt
    simp only [List.take_succ_cons, List.take_zero, decode]
    omega

theorem read_after (pre records : List UInt8) (off w : ℕ) :
    read (pre ++ records) (pre.length + off) w = read records off w := by
  rw [read_append_right (by omega), Nat.add_sub_cancel_left]

end LittleEndian
