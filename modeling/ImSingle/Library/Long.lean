import ImSingle.Library.Java
import Mathlib.Algebra.Order.Ring.Int
import Mathlib.Tactic.Ring
import Mathlib.Tactic.Positivity
import Mathlib.Tactic.Linarith

/-! Java's `long` and the fields packed into one. A word is read as its unsigned value to take
its fields apart and as its signed value to order it. -/
namespace ImSingle.Library

/-! ## Fields of a word of any width -/

section Fields
variable {w : ℕ} {x y : BitVec w} {k i j : ℕ}

/-- A shift to the left drops the bits it pushes out and multiplies the rest. -/
theorem toNat_shiftLeft_eq (hk : k ≤ w) : (x <<< k).toNat = x.toNat % 2^(w-k) * 2^k := by
  have hw : 2^w = 2^(w-k) * 2^k := by rw [← pow_add,Nat.sub_add_cancel hk]
  rw [BitVec.toNat_shiftLeft,Nat.shiftLeft_eq,hw,Nat.mul_mod_mul_right]

/-- A low field below a shifted word is added to it. -/
theorem toNat_shiftLeft_or (hk : k ≤ w) (hy : y.toNat < 2^k) :
    (x <<< k ||| y).toNat = x.toNat % 2^(w-k) * 2^k + y.toNat := by
  rw [BitVec.toNat_or,toNat_shiftLeft_eq hk,← Nat.shiftLeft_eq,
    ← Nat.shiftLeft_add_eq_or_of_lt hy]

/-- Shifting the bits above a field out, and then those below it, leaves the field's value. -/
theorem toNat_shiftLeft_ushiftRight (hi : i ≤ j) (hw : i ≤ w) :
    ((x <<< i) >>> j).toNat = x.toNat % 2^(w-i) / 2^(j-i) := by
  have hj : 2^j = 2^(j-i) * 2^i := by rw [← pow_add,Nat.sub_add_cancel hi]
  rw [BitVec.toNat_ushiftRight,toNat_shiftLeft_eq hw,Nat.shiftRight_eq_div_pow,hj,
    Nat.mul_div_mul_right _ _ (Nat.two_pow_pos i)]

/-- Two numbers are ordered by their high digits and, where these agree, by their low ones. -/
theorem mul_add_lt_mul_add_iff {m a b c d : ℤ} (ha : 0 ≤ a) (ham : a < m) (hb : 0 ≤ b)
    (hbm : b < m) : c * m + a < d * m + b ↔ c < d ∨ c = d ∧ a < b := by
  constructor
  · intro h
    by_contra hnot
    push Not at hnot
    obtain hlt | rfl := hnot.1.lt_or_eq
    · have hmul : (d + 1) * m ≤ c * m := mul_le_mul_of_nonneg_right (by omega) (by omega)
      rw [add_mul] at hmul
      omega
    · exact absurd (hnot.2 rfl) (by omega)
  · rintro (hlt | ⟨rfl,hlt⟩)
    · have hmul : (c + 1) * m ≤ d * m := mul_le_mul_of_nonneg_right (by omega) (by omega)
      rw [add_mul] at hmul
      omega
    · omega

end Fields

/-- A Java `long`. -/
abbrev Long := BitVec 64

namespace Long
variable {x y : Long} {n : ℤ}

/-- `<<` uses the low six bits of the distance. -/
def shiftLeft (x : Long) (distance : ℤ) : Long := x <<< (distance % 64).toNat

/-- `>>>` fills with zeros from above. -/
def unsignedShiftRight (x : Long) (distance : ℤ) : Long := x >>> (distance % 64).toNat

theorem shiftLeft_natCast {k : ℕ} (hk : k < 64) : shiftLeft x k = x <<< k := by
  rw [shiftLeft,Int.emod_eq_of_lt (by omega) (by omega),Int.toNat_natCast]

theorem unsignedShiftRight_natCast {k : ℕ} (hk : k < 64) : unsignedShiftRight x k = x >>> k := by
  rw [unsignedShiftRight,Int.emod_eq_of_lt (by omega) (by omega),Int.toNat_natCast]

/-- `~(-1L << bits)`: the largest value of so many bits. -/
theorem toNat_not_shiftLeft {k : ℕ} (hk : k < 64) :
    (~~~(shiftLeft (-1) k)).toNat = 2^k - 1 := by
  have hle : 2^k ≤ 2^64 := Nat.pow_le_pow_right (by decide) hk.le
  have h1 : (-1 : Long).toNat = 2^64 - 1 := rfl
  have hpow : 2^64 = 2^(64-k) * 2^k := by rw [← pow_add,Nat.sub_add_cancel hk.le]
  have hmod : (2^64 - 1) % 2^(64-k) = 2^(64-k) - 1 := by
    have h2 : 2^64 - 1 = 2^(64-k) * (2^k - 1) + (2^(64-k) - 1) := by
      rw [Nat.mul_sub,← hpow]
      have := Nat.two_pow_pos (64-k)
      have := Nat.pow_le_pow_right (n := 2) (by decide) (Nat.sub_le 64 k)
      omega
    rw [h2,Nat.mul_add_mod,Nat.mod_eq_of_lt (Nat.sub_lt (Nat.two_pow_pos _) Nat.one_pos)]
  rw [BitVec.toNat_not,shiftLeft_natCast hk,toNat_shiftLeft_eq hk.le,h1,hmod,Nat.sub_mul,← hpow]
  omega

/-- The signed value is the one number in range that agrees with the unsigned one. -/
theorem toInt_eq_of_dvd (h : (2^64 : ℤ) ∣ n - x.toNat) (hlo : -2^63 ≤ n) (hhi : n < 2^63) :
    x.toInt = n := by
  rw [BitVec.toInt_eq_toNat_cond]
  split <;> omega

theorem dvd_toInt_sub (x : Long) : (2^64 : ℤ) ∣ x.toInt - x.toNat := by
  rw [BitVec.toInt_eq_toNat_cond]
  split <;> omega

theorem toInt_lt_two_pow (x : Long) : x.toInt < 2^63 := by
  have h := BitVec.toInt_lt (x := x)
  omega

theorem neg_two_pow_le_toInt (x : Long) : -2^63 ≤ x.toInt := by
  have h := BitVec.le_toInt x
  omega

theorem toNat_of_nonneg (h : 0 ≤ x.toInt) : (x.toNat : ℤ) = x.toInt := by
  have hx := x.isLt
  rw [BitVec.toInt_eq_toNat_cond] at h ⊢
  split at h <;> omega

theorem toNat_lt_two_pow {k : ℕ} (h : 0 ≤ x.toInt) (hle : x.toInt ≤ 2^k - 1) :
    x.toNat < 2^k := by
  have hx := toNat_of_nonneg h
  have hlt : (x.toNat : ℤ) < 2^k := by omega
  exact_mod_cast hlt

/-- A word with few enough bits set is a number from 0 to the largest of so many bits. -/
theorem toInt_bounds_of_lt {k : ℕ} (hk : k ≤ 63) (h : x.toNat < 2^k) :
    0 ≤ x.toInt ∧ x.toInt ≤ 2^k - 1 := by
  have hle : 2^k ≤ 2^63 := Nat.pow_le_pow_right (by decide) hk
  have hlt : (x.toNat : ℤ) < 2^k := by exact_mod_cast h
  rw [BitVec.toInt_eq_toNat_cond,if_pos (by omega)]
  omega

theorem toInt_of_toNat {k : ℕ} (hk : k ≤ 63) (h : x.toNat = 2^k - 1) : x.toInt = 2^k - 1 := by
  have hpos : (1 : ℤ) ≤ 2^k := one_le_pow₀ (by norm_num)
  have hle : (2^k : ℤ) ≤ 2^63 := pow_le_pow_right₀ (by norm_num) hk
  apply toInt_eq_of_dvd
  · rw [h]
    push_cast [Nat.one_le_two_pow]
    simp
  · omega
  · omega

/-- Subtracting is exact as long as the result is in range. -/
theorem toInt_sub_of_range (hlo : -2^63 ≤ x.toInt - y.toInt) (hhi : x.toInt - y.toInt < 2^63) :
    (x - y).toInt = x.toInt - y.toInt := by
  rw [BitVec.toInt_sub]
  exact Int.bmod_eq_of_le (by omega) (by omega)

/-- The word behind a shifted one, read with its sign: the high field may be negative. -/
theorem toInt_shiftLeft_or {k : ℕ} (hk : k ≤ 63) (hy : y.toNat < 2^k)
    (hlo : -2^(63-k) ≤ x.toInt) (hhi : x.toInt < 2^(63-k)) :
    (x <<< k ||| y).toInt = x.toInt * 2^k + y.toNat := by
  have hpow : (2^63 : ℤ) = 2^(63-k) * 2^k := by rw [← pow_add]; congr 1; omega
  have hpos : (0 : ℤ) < 2^k := by positivity
  have hy' : (y.toNat : ℤ) < 2^k := by exact_mod_cast hy
  apply toInt_eq_of_dvd
  · have hx : (2^(64-k) : ℤ) ∣ x.toInt - (x.toNat % 2^(64-k) : ℕ) := by
      have hdvd : (2^(64-k) : ℤ) ∣ 2^64 := pow_dvd_pow 2 (Nat.sub_le 64 k)
      have hmod : (2^(64-k) : ℤ) ∣ x.toNat - (x.toNat % 2^(64-k) : ℕ) := by
        push_cast
        exact Int.dvd_self_sub_emod
      have h := (hdvd.trans (dvd_toInt_sub x)).add hmod
      rwa [sub_add_sub_cancel] at h
    have h64 : (2^64 : ℤ) = 2^(64-k) * 2^k := by rw [← pow_add]; congr 1; omega
    rw [toNat_shiftLeft_or (by omega) hy,h64]
    push_cast
    rw [add_sub_add_right_eq_sub,← sub_mul]
    exact mul_dvd_mul_right hx _
  · nlinarith
  · nlinarith

end Long
end ImSingle.Library
