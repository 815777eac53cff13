import NarwhalGeth.Lib.RadixTree
import Mathlib.Algebra.Order.Ring.Nat

/-!
# Recursive length encoding

Strings and lists get a header with their length. Integers are strings of their bytes, the most
significant one first. `u64` values are modelled by `ℕ`. The encodings of two integers part at a
byte, so that none is the start of the other.
-/

namespace Rlp

open RadixTree

abbrev Bytes := List UInt8

/-! ## The functions of the source -/

/-- The last `n` bytes of an integer, the most significant one first. -/
def bigEndian : ℕ → ℕ → Bytes
  | 0, _ => []
  | n + 1, i => UInt8.ofNat (i >>> (8 * n)) :: bigEndian n i

/-- The cases of the switch from `n` bytes on, of which the last one is the default. -/
def byteCountFrom (i : ℕ) : ℕ → ℕ → ℕ
  | 0, n => n
  | more + 1, n => if i < 1 <<< (8 * n) then n else byteCountFrom i more (n + 1)

/-- How many bytes a `u64` takes, from one to eight. -/
def byteCount (i : ℕ) : ℕ := byteCountFrom i 7 1

def putint (i : ℕ) : Bytes := bigEndian (byteCount i) i

/-- The header of a string or a list. -/
def puthead (smalltag largetag : UInt8) (size : ℕ) : Bytes :=
  if size < 56 then [smalltag + UInt8.ofNat size]
  else (largetag + UInt8.ofNat (byteCount size)) :: putint size

def writeBytes : Bytes → Bytes
  | [x] => if x ≤ 0x7F then [x] else puthead 0x80 0xB7 1 ++ [x]
  | b => puthead 0x80 0xB7 b.length ++ b

/-- A list around its encoded elements. -/
def writeList (payload : Bytes) : Bytes := puthead 0xC0 0xF7 payload.length ++ payload

def appendUint64 (b : Bytes) (i : ℕ) : Bytes :=
  if i = 0 then b ++ [0x80]
  else if i < 128 then b ++ [UInt8.ofNat i]
  else b ++ UInt8.ofNat (0x80 + byteCount i) :: putint i

/-! ## The order of encoded integers -/

theorem byteCountFrom_bounds (i more n : ℕ) :
    n ≤ byteCountFrom i more n ∧ byteCountFrom i more n ≤ n + more := by
  induction more generalizing n with
  | zero => exact ⟨le_rfl, le_rfl⟩
  | succ more ih =>
    have := ih (n + 1)
    unfold byteCountFrom
    split_ifs <;> omega

theorem byteCountFrom_mono {i j : ℕ} (h : i ≤ j) (more n : ℕ) :
    byteCountFrom i more n ≤ byteCountFrom j more n := by
  induction more generalizing n with
  | zero => exact le_rfl
  | succ more ih =>
    unfold byteCountFrom
    split_ifs with hi hj hj
    · exact le_rfl
    · exact (Nat.le_succ n).trans (byteCountFrom_bounds j more (n + 1)).1
    · omega
    · exact ih (n + 1)

theorem lt_pow_byteCountFrom {i more n : ℕ} (h : i < 256 ^ (n + more)) :
    i < 256 ^ byteCountFrom i more n := by
  induction more generalizing n with
  | zero => exact h
  | succ more ih =>
    unfold byteCountFrom
    split_ifs with hi
    · rwa [Nat.one_shiftLeft, pow_mul] at hi
    · refine ih ?_
      rwa [Nat.add_right_comm, Nat.add_assoc]

theorem ofNat_lt {x y : ℕ} (hxy : x < y) (hy : y < 256) : UInt8.ofNat x < UInt8.ofNat y := by
  rw [UInt8.lt_iff_toNat_lt, UInt8.toNat_ofNat', UInt8.toNat_ofNat']
  omega

theorem shiftRight_byte (i n : ℕ) : i >>> (8 * n) = i / 256 ^ n := by
  rw [Nat.shiftRight_eq_div_pow, pow_mul]
  rfl

theorem bigEndian_congr {n i j : ℕ} (h : i % 256 ^ n = j % 256 ^ n) :
    bigEndian n i = bigEndian n j := by
  induction n with
  | zero => rfl
  | succ n ih =>
    have htop : i / 256 ^ n % 256 = j / 256 ^ n % 256 := by
      rw [← Nat.mod_mul_right_div_self, ← Nat.mod_mul_right_div_self, ← pow_succ, h]
    have hrest : i % 256 ^ n = j % 256 ^ n := by
      rw [← Nat.mod_mod_of_dvd i (pow_dvd_pow 256 n.le_succ), h,
        Nat.mod_mod_of_dvd j (pow_dvd_pow 256 n.le_succ)]
    rw [bigEndian, bigEndian, ih hrest, shiftRight_byte, shiftRight_byte]
    congr 1
    rw [← UInt8.toNat_inj, UInt8.toNat_ofNat', UInt8.toNat_ofNat']
    exact htop

theorem bigEndian_before {n i j : ℕ} (hij : i < j) (hj : j < 256 ^ n) :
    Before (bigEndian n i) (bigEndian n j) := by
  induction n generalizing i j with
  | zero => omega
  | succ n ih =>
    rw [bigEndian, bigEndian, shiftRight_byte, shiftRight_byte]
    have hpos : 0 < 256 ^ n := Nat.pow_pos (by decide)
    have htop : j / 256 ^ n < 256 := by
      rwa [Nat.div_lt_iff_lt_mul hpos, ← pow_succ']
    rcases (Nat.div_le_div_right hij.le : i / 256 ^ n ≤ j / 256 ^ n).lt_or_eq with hlt | heq
    · exact before_of_lt (ofNat_lt hlt htop) _ _
    · rw [heq, bigEndian_congr (Nat.mod_mod i (256 ^ n)).symm,
        bigEndian_congr (Nat.mod_mod j (256 ^ n)).symm]
      refine (ih ?_ (Nat.mod_lt _ hpos)).cons _
      have hi := Nat.div_add_mod i (256 ^ n)
      have hj := Nat.div_add_mod j (256 ^ n)
      rw [heq] at hi
      omega

theorem byteCount_bounds (i : ℕ) : 1 ≤ byteCount i ∧ byteCount i ≤ 8 := byteCountFrom_bounds i 7 1

/-- The order in which the encodings of integers stand: zero comes between 127 and 128. -/
def IndexBefore (i j : ℕ) : Prop :=
  (i ≠ 0 ∧ i < 128 ∧ j = 0) ∨ (i = 0 ∧ 128 ≤ j) ∨ (i ≠ 0 ∧ i < j)

theorem appendUint64_before {i j : ℕ} (h : IndexBefore i j) (hj : j < 2 ^ 64) :
    Before (appendUint64 [] i) (appendUint64 [] j) := by
  obtain ⟨hpos, hle⟩ := byteCount_bounds j
  unfold appendUint64
  simp only [List.nil_append]
  rcases h with ⟨hi, hlt, rfl⟩ | ⟨rfl, hj⟩ | ⟨hi, hij⟩
  · rw [if_neg hi, if_pos hlt, if_pos rfl]
    exact before_of_lt (ofNat_lt hlt (by omega)) _ _
  · rw [if_pos rfl, if_neg (by omega), if_neg (by omega)]
    have hlt : UInt8.ofNat 0x80 < UInt8.ofNat (0x80 + byteCount j) := ofNat_lt (by omega) (by omega)
    exact before_of_lt hlt _ _
  · rw [if_neg hi, if_neg (show j ≠ 0 by omega)]
    by_cases hsmall : i < 128
    · rw [if_pos hsmall]
      by_cases hsmall' : j < 128
      · rw [if_pos hsmall']
        exact before_of_lt (ofNat_lt hij (by omega)) _ _
      · rw [if_neg hsmall']
        exact before_of_lt (ofNat_lt (by omega) (by omega)) _ _
    · rw [if_neg hsmall, if_neg (by omega)]
      have hmono : byteCount i ≤ byteCount j := byteCountFrom_mono hij.le 7 1
      rcases hmono.lt_or_eq with hlt | heq
      · exact before_of_lt (ofNat_lt (Nat.add_lt_add_left hlt _) (by omega)) _ _
      · rw [putint, putint, heq]
        refine (bigEndian_before hij (lt_pow_byteCountFrom ?_)).cons _
        exact hj.trans_eq (by decide)

end Rlp
