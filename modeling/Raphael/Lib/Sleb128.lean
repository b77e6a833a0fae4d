/-
  Signed LEB128: a number as groups of seven bits, lowest first; every byte but
  the last one has its top bit set, and the last group is signed.

  * `Codes` relates bytes to the integers they stand for, with or without
    redundant groups; `encode` is the shortest form (`codes_encode`).
  * `decode` is the loop that collects the groups in a word of `w` bits.  On the
    bytes of an integer it ends behind them with that integer modulo `2 ^ w`
    (`decode_codes`), as long as every group starts inside the word.
-/
import Mathlib.Data.BitVec
import Mathlib.Data.Int.Basic
import Mathlib.Tactic.Ring
import Mathlib.Tactic.Linarith

namespace Sleb128

abbrev Byte := BitVec 8

/-- The integer that some bytes stand for. -/
inductive Codes : List Byte → ℤ → Prop
  | last {b : Byte} (h : b.msb = false) : Codes [b] (b.setWidth 7).toInt
  | more {b : Byte} {bs : List Byte} {n : ℤ} (h : b.msb = true) (hs : Codes bs n) :
    Codes (b :: bs) ((b.setWidth 7).toNat + 128 * n)

/-- The shortest form, of at most `k + 1` bytes. -/
def encode : ℕ → ℤ → List Byte
  | 0, n => [0#1 ++ BitVec.ofInt 7 n]
  | k + 1, n =>
    if -64 ≤ n ∧ n < 64 then [0#1 ++ BitVec.ofInt 7 n]
    else (1#1 ++ BitVec.ofInt 7 n) :: encode k (n / 128)

/-- The groups are or-ed into `value`, the next one `shift` bits up. -/
def decode {w : ℕ} (value : BitVec w) (shift : ℕ) : List Byte → Option (BitVec w × List Byte)
  | [] => none
  | byte :: rest =>
    let value := value ||| (byte &&& 127).setWidth w <<< shift
    if byte &&& 128 ≠ 0 then decode value (shift + 7) rest
    else if shift + 7 < w ∧ byte &&& 64 ≠ 0 then
      some (value ||| -((1 : BitVec w) <<< (shift + 7)), rest)
    else some (value, rest)

/-! ## Encoding -/

theorem codes_small {n : ℤ} (h : -64 ≤ n) (h' : n < 64) : Codes [0#1 ++ BitVec.ofInt 7 n] n := by
  have e : ((0#1 ++ BitVec.ofInt 7 n : Byte).setWidth 7).toInt = n := by
    rw [BitVec.setWidth_append_eq_right, BitVec.toInt_ofInt]
    exact Int.bmod_eq_of_le (by omega) (by omega)
  have hc := Codes.last (b := 0#1 ++ BitVec.ofInt 7 n) (by rw [BitVec.msb_append]; rfl)
  rwa [e] at hc

theorem encode_length (k : ℕ) (n : ℤ) : (encode k n).length ≤ k + 1 ∧ encode k n ≠ [] := by
  induction k generalizing n with
  | zero => simp [encode]
  | succ k ih =>
    rw [encode]
    split
    · simp
    · simpa using (ih (n / 128)).1

/-- **The shortest form stands for the number.** -/
theorem codes_encode {k : ℕ} {n : ℤ} (h : -2 ^ (7 * k + 6) ≤ n) (h' : n < 2 ^ (7 * k + 6)) :
    Codes (encode k n) n := by
  induction k generalizing n with
  | zero => exact codes_small h h'
  | succ k ih =>
    rw [encode]
    split
    next hs => exact codes_small hs.1 hs.2
    next =>
      have e : (2 : ℤ) ^ (7 * (k + 1) + 6) = 128 * 2 ^ (7 * k + 6) := by ring
      rw [e] at h h'
      have hq := Codes.more (b := 1#1 ++ BitVec.ofInt 7 n) (by rw [BitVec.msb_append]; rfl)
        (ih (n := n / 128) (by omega) (by omega))
      have en : (((1#1 ++ BitVec.ofInt 7 n : Byte).setWidth 7).toNat : ℤ) = n % 128 := by
        rw [BitVec.setWidth_append_eq_right, BitVec.toNat_ofInt]
        omega
      rwa [en, Int.emod_add_mul_ediv] at hq

/-! ## Decoding -/

section
variable {w : ℕ} {x y : BitVec w} {s : ℕ}

theorem or_eq_add (hx : x.toNat < 2 ^ s) (hy : 2 ^ s ∣ y.toNat) : x ||| y = x + y := by
  obtain ⟨k, hk⟩ := hy
  have hor : (x ||| y).toNat = x.toNat + y.toNat := by
    rw [BitVec.toNat_or, hk, Nat.or_comm, ← Nat.two_pow_add_eq_or_of_lt hx, Nat.add_comm]
  apply BitVec.eq_of_toNat_eq
  rw [BitVec.toNat_add, ← hor, Nat.mod_eq_of_lt (x ||| y).isLt]

theorem setWidth_shiftLeft {v : ℕ} (b : BitVec v) (s : ℕ) :
    b.setWidth w <<< s = BitVec.ofInt w (2 ^ s * b.toNat) := by
  apply BitVec.eq_of_toNat_eq
  rw [BitVec.toNat_shiftLeft, BitVec.toNat_setWidth, BitVec.toNat_ofInt, Nat.shiftLeft_eq,
    Nat.mod_mul_mod, Nat.mul_comm]
  push_cast
  rfl

theorem dvd_shiftLeft (x : BitVec w) (h : s < w) : 2 ^ s ∣ (x <<< s).toNat := by
  rw [BitVec.toNat_shiftLeft, Nat.shiftLeft_eq]
  exact (Nat.dvd_mod_iff (Nat.pow_dvd_pow 2 h.le)).2 (Nat.dvd_mul_left _ _)

theorem dvd_neg (h : 2 ^ s ∣ x.toNat) (hs : s ≤ w) : 2 ^ s ∣ (-x).toNat := by
  rw [BitVec.toNat_neg]
  exact (Nat.dvd_mod_iff (Nat.pow_dvd_pow 2 hs)).2 (Nat.dvd_sub (Nat.pow_dvd_pow 2 hs) h)

theorem ofInt_two_pow_mul (h : w ≤ s) (n : ℤ) : BitVec.ofInt w (2 ^ s * n) = 0#w := by
  apply BitVec.eq_of_toNat_eq
  obtain ⟨d, rfl⟩ := Nat.exists_eq_add_of_le h
  rw [BitVec.toNat_ofInt, pow_add, mul_assoc]
  simp

/-- One more group: the bits of the value are below it. -/
theorem or_group (hx : x.toNat < 2 ^ s) (hs : s < w) (b : Byte) :
    x ||| (b &&& 127).setWidth w <<< s = x + BitVec.ofInt w (2 ^ s * (b.setWidth 7).toNat) := by
  have e : (b &&& 127).toNat = (b.setWidth 7).toNat := by
    rw [BitVec.toNat_and, BitVec.toNat_setWidth]
    exact Nat.and_two_pow_sub_one_eq_mod b.toNat 7
  rw [or_eq_add hx (dvd_shiftLeft _ hs), setWidth_shiftLeft, e]

theorem or_group_lt (hx : x.toNat < 2 ^ s) (b : Byte) :
    (x ||| (b &&& 127).setWidth w <<< s).toNat < 2 ^ (s + 7) := by
  rw [BitVec.toNat_or]
  refine Nat.or_lt_two_pow (hx.trans_le (Nat.pow_le_pow_right (by omega) (by omega))) ?_
  have hb : (b &&& 127).toNat < 2 ^ 7 := by
    rw [BitVec.toNat_and]
    exact Nat.and_lt_two_pow _ (by decide)
  rw [BitVec.toNat_shiftLeft, BitVec.toNat_setWidth, Nat.shiftLeft_eq, pow_add, Nat.mul_comm (2 ^ s)]
  exact (Nat.mod_le _ _).trans_lt (Nat.mul_lt_mul_of_pos_right
    ((Nat.mod_le _ _).trans_lt hb) (Nat.two_pow_pos s))

/-- The sign of the last group, if it ends inside the word. -/
theorem or_sign (hx : x.toNat < 2 ^ s) (hs : s < w) :
    x ||| -((1 : BitVec w) <<< s) = x + BitVec.ofInt w (-2 ^ s) := by
  have e : (1 : BitVec w) <<< s = BitVec.ofInt w (2 ^ s) := by
    have h := setWidth_shiftLeft (w := w) (BitVec.ofNat w 1) s
    rwa [BitVec.setWidth_eq, BitVec.toNat_ofNat, Nat.mod_eq_of_lt (Nat.one_lt_two_pow (by omega)),
      Nat.cast_one, mul_one] at h
  rw [or_eq_add hx (dvd_neg (dvd_shiftLeft _ hs) hs.le), e, BitVec.ofInt_neg]

theorem last_toInt (b : Byte) :
    (b.setWidth 7).toInt = (b.setWidth 7).toNat + if b &&& 64 ≠ 0 then -2 ^ 7 else 0 := by
  revert b
  decide

theorem msb_eq (b : Byte) : b.msb = decide (b &&& 128 ≠ 0) := by
  revert b
  decide

/-- **The loop ends behind the bytes of a number, with that number.** -/
theorem decode_codes {bs : List Byte} {n : ℤ} (h : Codes bs n) {value : BitVec w}
    (hv : value.toNat < 2 ^ s) (hs : s + 7 * (bs.length - 1) < w) (rest : List Byte) :
    decode value s (bs ++ rest) = some (value + BitVec.ofInt w (2 ^ s * n), rest) := by
  induction h generalizing value s with
  | @last b h =>
    have hb : ¬ b &&& 128 ≠ 0 := by simpa [msb_eq] using h
    have hg := or_group hv (by simpa using hs) b
    have hlt := or_group_lt hv b
    rw [List.singleton_append, decode, if_neg hb, last_toInt, mul_add, BitVec.ofInt_add,
      ← BitVec.add_assoc, ← hg]
    split
    next hsign => rw [or_sign hlt hsign.1, if_pos hsign.2, mul_neg, ← pow_add]
    next hsign =>
      have e : BitVec.ofInt w (2 ^ s * if b &&& 64 ≠ 0 then -2 ^ 7 else 0) = 0#w := by
        split
        next h6 =>
          rw [mul_neg, ← mul_neg_one, ← pow_add]
          exact ofInt_two_pow_mul (Nat.le_of_not_lt fun hlt => hsign ⟨hlt, h6⟩) _
        next => rw [mul_zero]; rfl
      rw [e, BitVec.add_zero]
  | @more b bs n h hc ih =>
    have hb : b &&& 128 ≠ 0 := by simpa [msb_eq] using h
    have hne : bs.length ≠ 0 := by cases hc <;> simp
    rw [List.length_cons] at hs
    have hg := or_group hv (s := s) (by omega) b
    rw [List.cons_append, decode, if_pos hb, ih (or_group_lt hv b) (by omega), hg, BitVec.add_assoc,
      ← BitVec.ofInt_add, pow_add, mul_add, ← mul_assoc]
    rfl

/-- What the decoder reads for the bytes of `n`. -/
theorem decode_zero {bs : List Byte} {n : ℤ} (h : Codes bs n) (hs : 7 * (bs.length - 1) < w)
    (rest : List Byte) : decode (0 : BitVec w) 0 (bs ++ rest) = some (BitVec.ofInt w n, rest) := by
  rw [decode_codes h (by simp) (by omega), pow_zero, one_mul, BitVec.ofNat_eq_ofNat, BitVec.zero_add]

/-- The shortest bytes of a word, taken for a signed number. -/
def encodeWord (v : BitVec w) : List Byte := encode ((w - 1) / 7) v.toInt

/-- Bytes that the decoder reads as the word. -/
def Reads (bs : List Byte) (v : BitVec w) : Prop :=
  ∃ n, Codes bs n ∧ 7 * (bs.length - 1) < w ∧ BitVec.ofInt w n = v

theorem Reads.decode {bs : List Byte} {v : BitVec w} (h : Reads bs v) (rest : List Byte) :
    decode (0 : BitVec w) 0 (bs ++ rest) = some (v, rest) := by
  obtain ⟨n, hc, hs, rfl⟩ := h
  exact decode_zero hc hs rest

theorem reads_encodeWord (hw : 0 < w) (v : BitVec w) : Reads (encodeWord v) v := by
  have hlen := (encode_length ((w - 1) / 7) v.toInt).1
  have hpow : (2 : ℤ) ^ (w - 1) ≤ 2 ^ (7 * ((w - 1) / 7) + 6) :=
    pow_le_pow_right₀ (by decide) (by omega)
  have hlo := BitVec.le_toInt v
  have hhi := BitVec.toInt_lt (x := v)
  refine ⟨v.toInt, codes_encode ?_ ?_, ?_, BitVec.ofInt_toInt⟩
  · linarith
  · exact hhi.trans_le hpow
  · rw [encodeWord]
    omega

end

end Sleb128
