import ImSingle.LoadTest.BinaryReader
import Mathlib.Data.Nat.Bitwise

/-! What the decoder makes of varints, numbers and text as the wire format has them, wherever they
lie in the bytes. -/
namespace ImSingle.LoadTest
open Library Wire

namespace BinaryReader

/-- These bytes lie behind the cursor, and before the limit. -/
structure Ahead (r : BinaryReader) (bs : Bytes) : Prop where
  byte : ∀ i < bs.length, r.byte i = bs[i]?
  limit : r.cursor + bs.length ≤ r.limit

/-- The same reader with the header of another field. -/
def at' (r : BinaryReader) (nextField_ nextWireType : ℤ) : BinaryReader :=
  { r with nextField_ := nextField_, nextWireType := nextWireType }

section Ahead
variable {r : BinaryReader} {as bs : Bytes}

@[simp] theorem skip_skip (m n : ℤ) : (r.skip m).skip n = r.skip (m + n) := by
  simp [skip,Int.add_assoc]

@[simp] theorem byte_skip (n i : ℕ) : (r.skip n).byte i = r.byte (n + i) := by
  have hsum : r.cursor + n + i = r.cursor + (n + i : ℕ) := by omega
  simp only [byte,skip,hsum]

theorem Ahead.cursor_nonneg (h : r.Ahead bs) (hbs : bs ≠ []) : 0 ≤ r.cursor := by
  have hpos := List.length_pos_of_ne_nil hbs
  have hbyte := h.byte 0 hpos
  by_contra hneg
  rw [BinaryReader.byte,if_neg (by omega),List.getElem?_eq_getElem hpos] at hbyte
  cases hbyte

theorem Ahead.left (h : r.Ahead (as ++ bs)) : r.Ahead as where
  byte i hi := by
    rw [h.byte i (by rw [List.length_append]; omega),List.getElem?_append_left hi]
  limit := by
    have hlimit := h.limit
    rw [List.length_append] at hlimit
    omega

theorem Ahead.right (h : r.Ahead (as ++ bs)) : (r.skip as.length).Ahead bs where
  byte i hi := by
    rw [byte_skip,h.byte (as.length + i) (by rw [List.length_append]; omega),
      List.getElem?_append_right (Nat.le_add_right ..),Nat.add_sub_cancel_left]
  limit := by
    have hlimit := h.limit
    rw [List.length_append] at hlimit
    simp only [skip]
    omega

theorem Ahead.new (bs : Bytes) : (BinaryReader.new bs).Ahead bs where
  byte i _ := by simp [BinaryReader.byte,BinaryReader.new]
  limit := by simp [BinaryReader.new]

end Ahead

/-! ## Varints -/

theorem or_eq_add {a b k : ℕ} (ha : a % 2^k = 0) (hb : b < 2^k) : a ||| b = a + b := by
  have hshift : a = (a / 2^k) <<< k := by
    rw [Nat.shiftLeft_eq,Nat.div_mul_cancel (Nat.dvd_of_mod_eq_zero ha)]
  rw [hshift,Nat.shiftLeft_add_eq_or_of_lt hb]

theorem or_shiftLeft {c k : ℕ} (h : c < 2^k) (d : ℕ) : c ||| d <<< k = c + d * 2^k := by
  rw [Nat.or_comm,Nat.shiftLeft_eq,or_eq_add (Nat.mul_mod_left ..) h,Nat.add_comm]

section digitByte
variable (m : ℕ)

theorem toNat_digitByte : (digitByte m).toNat = if m < 128 then m else m % 128 + 128 := by
  rw [digitByte,UInt8.toNat_ofNat']
  split <;> omega

theorem bits_digitByte : bits (some (digitByte m)) 127 = m % 128 := by
  simp only [bits,Option.map_some,Option.getD_some,toNat_digitByte]
  rw [show 127 = 2^7 - 1 from rfl,Nat.and_two_pow_sub_one_eq_mod]
  split <;> omega

theorem bits_digitByte_of_lt {m : ℕ} (h : m < 16) : bits (some (digitByte m)) 15 = m := by
  simp only [bits,Option.map_some,Option.getD_some,toNat_digitByte]
  rw [show 15 = 2^4 - 1 from rfl,Nat.and_two_pow_sub_one_eq_mod,if_pos (by omega)]
  omega

theorem ends_digitByte : ends (some (digitByte m)) = decide (m < 128) := by
  simp only [ends,Option.any_some,toNat_digitByte,decide_eq_decide]
  split <;> omega

theorem goesOn_digitByte : goesOn (some (digitByte m)) = decide (128 ≤ m) := by
  simp only [goesOn,Option.any_some,toNat_digitByte,decide_eq_decide]
  split <;> omega

end digitByte

section varint
variable {r : BinaryReader} {n : ℕ}

theorem Ahead.digit (h : r.Ahead (encodeVarint n)) {i : ℕ} (hi : i = 0 ∨ 128^i ≤ n) :
    r.byte i = some (digitByte (n / 128^i)) := by
  have hdigit := getElem?_encodeVarint n i
  rw [if_pos hi] at hdigit
  have hlt : i < (encodeVarint n).length := (List.getElem?_eq_some_iff.mp hdigit).1
  rw [h.byte i hlt,hdigit]

theorem Ahead.advance (h : r.Ahead (encodeVarint n)) {i : ℕ} (hle : i = 0 ∨ 128^i ≤ n)
    (hlt : n < 128^(i + 1)) :
    r.advance (i + 1 : ℕ) = some (r.skip (encodeVarint n).length) := by
  have hlimit := h.limit
  rw [length_encodeVarint hle hlt] at hlimit ⊢
  exact if_pos hlimit

theorem Ahead.ends_byte (h : r.Ahead (encodeVarint n)) {i : ℕ} (hi : i = 0 ∨ 128^i ≤ n) :
    ends (r.byte i) = decide (n < 128^(i + 1)) := by
  rw [h.digit hi,ends_digitByte,Nat.pow_succ]
  exact decide_eq_decide.mpr (Nat.div_lt_iff_lt_mul (Nat.pow_pos (by decide)) |>.trans
    (by rw [Nat.mul_comm]))

/-- The digits that have been read, with the next one. -/
theorem Ahead.or_bits (h : r.Ahead (encodeVarint n)) {i : ℕ} (hi : 128^i ≤ n) :
    n % 128^i ||| bits (r.byte i) 127 <<< (7 * i) = n % 128^(i + 1) := by
  have hpow : 128^i = 2^(7 * i) := by rw [Nat.pow_mul]
  have hlt : n % 128^i < 2^(7 * i) := hpow ▸ Nat.mod_lt _ (Nat.pow_pos (by decide))
  rw [h.digit (.inr hi),bits_digitByte,or_shiftLeft hlt,← hpow,Nat.pow_succ,Nat.mod_mul,
    Nat.mul_comm (128^i)]

theorem readUnsignedVarint32_encodeVarint (h : r.Ahead (encodeVarint n)) (hn : n < 2^32) :
    r.readUnsignedVarint32 = some ((n : ℤ),r.skip (encodeVarint n).length) := by
  -- The digit that ends the varint: with it, what has been read is all of `n`.
  have hlast {i : ℕ} (hle : i = 0 ∨ 128^i ≤ n) (hlt : n < 128^(i + 1)) :
      (do return ((n % 128^(i + 1) : ℕ),← r.advance (i + 1 : ℕ)) : Option (ℤ × BinaryReader)) =
        some ((n : ℤ),r.skip (encodeVarint n).length) := by
    rw [h.advance hle hlt,Nat.mod_eq_of_lt hlt]
    rfl
  have hbits : bits (r.byte 0) 127 = n % 128^1 := by
    rw [h.digit (.inl rfl),bits_digitByte,Nat.pow_zero,Nat.div_one,Nat.pow_one]
  rw [readUnsignedVarint32]
  simp only [h.ends_byte (.inl rfl),hbits]
  obtain h1 | h1 := Nat.lt_or_ge n (128^1)
  · rw [if_pos (decide_eq_true h1)]
    exact hlast (.inl rfl) h1
  rw [if_neg (by simpa using h1),h.ends_byte (.inr h1),h.or_bits h1]
  obtain h2 | h2 := Nat.lt_or_ge n (128^2)
  · rw [if_pos (decide_eq_true h2)]
    exact hlast (.inr h1) h2
  rw [if_neg (by simpa using h2),h.ends_byte (.inr h2),h.or_bits h2]
  obtain h3 | h3 := Nat.lt_or_ge n (128^3)
  · rw [if_pos (decide_eq_true h3)]
    exact hlast (.inr h2) h3
  rw [if_neg (by simpa using h3),h.ends_byte (.inr h3),h.or_bits h3]
  obtain h4 | h4 := Nat.lt_or_ge n (128^4)
  · rw [if_pos (decide_eq_true h4)]
    exact hlast (.inr h3) h4
  have h5 : n < 128^5 := Nat.lt_trans hn (by decide)
  have hfifth : n % 128^4 ||| bits (r.byte 4) 15 <<< 28 = n % 128^5 := by
    have hlt : n % 128^4 < 2^28 := Nat.mod_lt _ (by decide)
    rw [h.digit (.inr h4),bits_digitByte_of_lt (by omega),or_shiftLeft hlt]
    omega
  rw [if_neg (by simpa using h4),h.ends_byte (.inr h4),hfifth,if_pos (decide_eq_true h5)]
  exact hlast (.inr h4) h5

/-- The last of the first `i` bytes goes on exactly if the value has more digits. -/
structure Digits (n i : ℕ) (b : Option UInt8) : Prop where
  read : b ≠ none
  more : goesOn b = true ↔ i = 0 ∨ 128^i ≤ n
  done : goesOn b = false → (encodeVarint n).length = i

theorem Digits.next (h : r.Ahead (encodeVarint n)) {i : ℕ} (hi : i = 0 ∨ 128^i ≤ n) :
    Digits n (i + 1) (r.byte i) where
  read := by
    rw [h.digit hi]
    exact Option.some_ne_none _
  more := by
    rw [h.digit hi,goesOn_digitByte,decide_eq_true_iff,Nat.le_div_iff_mul_le
      (Nat.pow_pos (by decide)),Nat.pow_succ,Nat.mul_comm]
    simp
  done hdone := by
    rw [h.digit hi,goesOn_digitByte,decide_eq_false_iff_not,Nat.le_div_iff_mul_le
      (Nat.pow_pos (by decide)),Nat.mul_comm,← Nat.pow_succ] at hdone
    exact length_encodeVarint hi (Nat.lt_of_not_le hdone)

/-- The loop reads a part of the value: the digits of weight `base * 2^shift` and more, up to
`k` of them. -/
theorem varintLoop_encodeVarint (h : r.Ahead (encodeVarint n)) {k shift base i : ℕ}
    {b : Option UInt8} (hb : Digits n i b) (hbase : base * 2^shift = 128^i) :
    ∃ j b', r.varintLoop k shift (i,b,n / base % 2^shift) =
        (j,b',n / base % 2^(shift + 7 * k)) ∧
      Digits n j b' ∧ j ≤ i + k ∧ (goesOn b' = true → j = i + k) := by
  induction k generalizing shift i b with
  | zero => exact ⟨i,b,rfl,hb,Nat.le_refl _,fun _ => rfl⟩
  | succ k ih =>
    cases hgoes : goesOn b with
    | true =>
      have hi := hb.more.mp hgoes
      have hweight : base * 2^(shift + 7) = 128^(i + 1) := by
        rw [Nat.pow_add,← Nat.mul_assoc,hbase,Nat.pow_succ]
        rfl
      have hor : n / base % 2^shift ||| bits (r.byte i) 127 <<< shift =
          n / base % 2^(shift + 7) := by
        rw [h.digit hi,bits_digitByte,or_shiftLeft (Nat.mod_lt _ (Nat.two_pow_pos _)),Nat.pow_add,
          Nat.mod_mul,Nat.div_div_eq_div_mul,hbase,Nat.mul_comm (2^shift)]
      obtain ⟨j,b',hloop,hdigits,hle,hlast⟩ := ih (Digits.next h hi) hweight
      refine ⟨j,b',?_,hdigits,by omega,fun hgo => by rw [hlast hgo]; omega⟩
      rw [varintLoop,if_pos hgoes,hor,hloop,Nat.mul_succ,Nat.add_assoc,Nat.add_comm 7]
    | false =>
      have hlt : ¬ (i = 0 ∨ 128^i ≤ n) := fun hi => by simp [hb.more.mpr hi] at hgoes
      have hpart : n / base < 2^shift := by
        refine Nat.div_lt_of_lt_mul ?_
        rw [hbase]
        exact Nat.lt_of_not_le fun hle => hlt (.inr hle)
      refine ⟨i,b,?_,hb,Nat.le_add_right .., fun hgo => by rw [hgoes] at hgo; cases hgo⟩
      rw [varintLoop,if_neg (by simp [hgoes]),Nat.mod_eq_of_lt hpart,Nat.mod_eq_of_lt]
      exact Nat.lt_of_lt_of_le hpart (Nat.pow_le_pow_right (by decide) (by omega))

theorem Digits.ends {i : ℕ} {b : Option UInt8} (h : Digits n i b) (hdone : goesOn b = false) :
    ends b = true := by
  cases b with
  | none => exact absurd rfl h.read
  | some x => simpa [goesOn,LoadTest.ends] using hdone

theorem Digits.lt {i : ℕ} {b : Option UInt8} (h : Digits n i b) (hdone : goesOn b = false) :
    n < 128^i := by
  by_contra hle
  have hmore := h.more.mpr (.inr (Nat.le_of_not_lt hle))
  rw [hdone] at hmore
  cases hmore

theorem readSplitVarint64_encodeVarint (h : r.Ahead (encodeVarint n)) (hn : n < 2^64) :
    r.readSplitVarint64 = some ((n % 2^32,n / 2^32),r.skip (encodeVarint n).length) := by
  have hstart : Digits n 0 (some 128) := ⟨Option.some_ne_none _,
    iff_of_true (by decide) (.inl rfl),fun hdone => absurd hdone (by decide)⟩
  obtain ⟨i,b,hloop,hdigits,hle,hlast⟩ := @varintLoop_encodeVarint r n h 4 0 1 0 _ hstart rfl
  rw [Nat.pow_zero,Nat.mod_one,Nat.div_one] at hloop
  simp only [readSplitVarint64,hloop]
  cases hgoes : goesOn b with
  | false =>
    have hsmall : n < 2^28 :=
      Nat.lt_of_lt_of_le (hdigits.lt hgoes) (Nat.pow_le_pow_right (n := 128) (by decide) hle)
    simp only [Bool.false_eq_true,if_false,hgoes,hdigits.ends hgoes,if_true,← hdigits.done hgoes]
    congr 3 <;> omega
  | true =>
    obtain rfl : i = 4 := hlast hgoes
    have hfour := hdigits.more.mp hgoes
    have hfifth := Digits.next h hfour
    have hor : n % 2^(0 + 7 * 4) ||| bits (r.byte 4) 127 <<< 28 = n % 128^5 :=
      h.or_bits (hfour.resolve_left (by decide))
    have hhigh : bits (r.byte 4) 127 >>> 4 = n / 2^32 % 2^3 := by
      rw [h.digit hfour,bits_digitByte,Nat.shiftRight_eq_div_pow]
      omega
    simp only [if_true,hhigh]
    rw [hor]
    cases hmore : goesOn (r.byte 4) with
    | false =>
      have hsmall : n < 2^35 := hfifth.lt hmore
      simp only [Bool.false_eq_true,if_false,hfifth.ends hmore,if_true,← hfifth.done hmore]
      congr 3 <;> omega
    | true =>
      obtain ⟨j,b',hloop,hdigits,-,hlast⟩ :=
        @varintLoop_encodeVarint r n h 5 3 (2^32) 5 _ hfifth rfl
      have hdone : goesOn b' = false := by
        by_contra hgo
        obtain rfl := hlast (by simpa using hgo)
        have hten := (hdigits.more.mp (by simpa using hgo)).resolve_left (by decide)
        omega
      simp only [if_true,hloop,hdigits.ends hdone,← hdigits.done hdone]
      congr 3 <;> omega

end varint

/-! ## Numbers -/

/-- The double nearest to an integer. -/
def nearest (x : ℤ) : ℤ := x.sign * toDouble x.natAbs

theorem toDouble_of_le {n : ℕ} (h : n ≤ 2^53) : toDouble n = n := by
  obtain rfl | hlt := Nat.eq_or_lt_of_le h
  · decide
  · have hunit : n.log2 - 52 = 0 := by
      obtain rfl | hn := Nat.eq_zero_or_pos n
      · rfl
      · have hlog := (Nat.log2_lt (Nat.ne_of_gt hn)).mpr hlt
        omega
    simp [toDouble,hunit,Nat.mod_one]

/-- Up to `2^53` every integer is a double. -/
theorem nearest_of_le {x : ℤ} (h : x.natAbs ≤ 2^53) : nearest x = x := by
  rw [nearest,toDouble_of_le h]
  exact Int.sign_mul_natAbs x

theorem and_top {x k : ℕ} (h : x < 2^(k + 1)) : x &&& 2^k = 0 ↔ x < 2^k := by
  have hpos := Nat.two_pow_pos k
  have htop : x / 2^k % 2 = x / 2^k := Nat.mod_eq_of_lt (Nat.div_lt_of_lt_mul h)
  rw [Nat.and_two_pow,Nat.testBit_eq_decide_div_mod_eq,htop]
  by_cases hlt : x < 2^k
  · simp [Nat.div_eq_of_lt hlt,hlt]
  · have hone : x / 2^k = 1 :=
      Nat.div_eq_of_lt_le (by omega) (by rw [Nat.pow_succ] at h; omega)
    simp only [hone,decide_true,Bool.toNat_true]
    omega

theorem toInt_eq (x : Int64) :
    x.toInt = if ofInt64 x < 2^63 then (ofInt64 x : ℤ) else ofInt64 x - 2^64 := by
  have hnat : ofInt64 x = x.toBitVec.toNat := (Int64.toNat_toBitVec x).symm
  rw [hnat]
  refine (BitVec.toInt_eq_toNat_cond x.toBitVec).trans ?_
  split_ifs <;> omega

theorem joinUint64_parts (n : ℕ) : joinUint64 (n % 2^32) (n / 2^32) = toDouble n := by
  rw [joinUint64,Nat.mul_comm,Nat.div_add_mod]

theorem joinInt64_ofInt64 (x : Int64) :
    joinInt64 (ofInt64 x % 2^32) (ofInt64 x / 2^32) = nearest x.toInt := by
  have hlt : ofInt64 x < 2^64 := x.toUInt64.toNat_lt
  rw [nearest,toInt_eq]
  generalize ofInt64 x = n at hlt
  have htop : n / 2^32 &&& 2147483648 = 0 ↔ n / 2^32 < 2^31 := and_top (k := 31) (by omega)
  by_cases hsign : n < 2^63
  · rw [joinInt64,if_pos (htop.mpr (by omega)),if_pos hsign,joinUint64_parts,
      Int.natAbs_natCast]
    obtain rfl | hn := Nat.eq_zero_or_pos n
    · rfl
    · rw [Int.sign_natCast_of_ne_zero (Nat.ne_of_gt hn),Int.one_mul]
  · rw [joinInt64,if_neg (mt htop.mp (by omega)),if_neg hsign]
    -- The halves are negated together: a carry goes into the high one.
    have hlow : (2^32 - n % 2^32) % 2^32 = (2^64 - n) % 2^32 := by omega
    have hhigh : (if (2^32 - n % 2^32) % 2^32 = 0 then (2^32 - 1 - n / 2^32 + 1) % 2^32
        else 2^32 - 1 - n / 2^32) = (2^64 - n) / 2^32 := by
      split_ifs <;> omega
    have habs : ((n : ℤ) - 2^64).natAbs = 2^64 - n := by omega
    simp only [hhigh]
    rw [hlow,joinUint64_parts,habs,Int.sign_eq_neg_one_of_neg (by omega),Int.neg_one_mul,
      Int.negOfNat_eq]
    rfl

/-! ## Text -/

/-- The units of a character: from 65536 on two surrogates. -/
def utf16Char (c : Char) : JsString :=
  if c.toNat < 65536 then [UInt16.ofNat c.toNat]
  else
    [UInt16.ofNat ((c.toNat - 65536) / 1024 + 55296),
      UInt16.ofNat ((c.toNat - 65536) % 1024 + 56320)]

def utf16 (s : String) : JsString := s.toList.flatMap utf16Char

theorem utf8_eq (s : String) : utf8 s = s.toList.flatMap String.utf8EncodeChar := by
  obtain ⟨l,rfl⟩ : ∃ l, s = String.ofList l := ⟨s.toList,String.ofList_toList.symm⟩
  rw [utf8,String.toByteArray_ofList,String.toList_ofList,List.utf8Encode]
  simp

theorem bits_continuation {x : ℕ} (h : x < 64) : bits (some (UInt8.ofNat (x + 128))) 63 = x := by
  simp only [bits,Option.map_some,Option.getD_some]
  rw [UInt8.toNat_ofNat',show 63 = 2^6 - 1 from rfl,Nat.and_two_pow_sub_one_eq_mod]
  omega

/-- What a first byte says about the character, below what it says about the length. -/
theorem and_mask {x mark k : ℕ} (hx : x < 2^k) (hmark : mark % 2^k = 0) :
    (x + mark) &&& (2^k - 1) = x := by
  rw [Nat.and_two_pow_sub_one_eq_mod,Nat.add_mod,hmark,Nat.add_zero,Nat.mod_mod,
    Nat.mod_eq_of_lt hx]

section units
variable {r : BinaryReader} {n k i v : ℕ}

theorem units_one (hi : i < n) (hv : v < 128) (h0 : r.byte i = some (UInt8.ofNat v)) :
    r.units n (k + 1) i =
      (UInt16.ofNat v :: (r.units n k (i + 1)).1,(r.units n k (i + 1)).2) := by
  have hf : (UInt8.ofNat v).toNat = v := by
    rw [UInt8.toNat_ofNat']
    omega
  rw [units,if_pos hi]
  simp only [h0,hf]
  rw [if_pos hv]

theorem units_two (hi : i < n) (hv : v < 2048)
    (h0 : r.byte i = some (UInt8.ofNat (v / 64 % 32 + 192)))
    (h1 : r.byte (i + 1) = some (UInt8.ofNat (v % 64 + 128))) :
    r.units n (k + 1) i =
      (UInt16.ofNat v :: (r.units n k (i + 2)).1,(r.units n k (i + 2)).2) := by
  have hf : (UInt8.ofNat (v / 64 % 32 + 192)).toNat = v / 64 + 192 := by
    rw [UInt8.toNat_ofNat']
    omega
  have hjoin : ((v / 64 + 192) &&& 31) <<< 6 ||| v % 64 = v := by
    have hmask : (v / 64 + 192) &&& 31 = v / 64 := and_mask (k := 5) (by omega) rfl
    rw [hmask,Nat.shiftLeft_eq,or_eq_add (k := 6) (by omega) (by omega)]
    omega
  rw [units,if_pos hi]
  simp only [h0,hf,h1,bits_continuation (Nat.mod_lt v (show 0 < 64 by decide)),hjoin]
  rw [if_neg (by omega),if_neg (by omega),if_pos (by omega)]

theorem units_three (hi : i < n) (hv : v < 65536)
    (h0 : r.byte i = some (UInt8.ofNat (v / 4096 % 16 + 224)))
    (h1 : r.byte (i + 1) = some (UInt8.ofNat (v / 64 % 64 + 128)))
    (h2 : r.byte (i + 2) = some (UInt8.ofNat (v % 64 + 128))) :
    r.units n (k + 1) i =
      (UInt16.ofNat v :: (r.units n k (i + 3)).1,(r.units n k (i + 3)).2) := by
  have hf : (UInt8.ofNat (v / 4096 % 16 + 224)).toNat = v / 4096 + 224 := by
    rw [UInt8.toNat_ofNat']
    omega
  have hjoin : ((v / 4096 + 224) &&& 15) <<< 12 ||| (v / 64 % 64) <<< 6 ||| v % 64 = v := by
    have hmask : (v / 4096 + 224) &&& 15 = v / 4096 := and_mask (k := 4) (by omega) rfl
    rw [hmask,Nat.shiftLeft_eq,Nat.shiftLeft_eq,
      or_eq_add (a := v / 4096 * 2^12) (k := 12) (by omega) (by omega),
      or_eq_add (k := 6) (by omega) (by omega)]
    omega
  rw [units,if_pos hi]
  simp only [h0,hf,h1,h2,bits_continuation (Nat.mod_lt _ (show 0 < 64 by decide)),hjoin]
  rw [if_neg (by omega),if_neg (by omega),if_neg (by omega),if_pos (by omega)]

theorem units_four (hi : i < n) (hv : 65536 ≤ v) (hv' : v < 1114112)
    (h0 : r.byte i = some (UInt8.ofNat (v / 262144 % 8 + 240)))
    (h1 : r.byte (i + 1) = some (UInt8.ofNat (v / 4096 % 64 + 128)))
    (h2 : r.byte (i + 2) = some (UInt8.ofNat (v / 64 % 64 + 128)))
    (h3 : r.byte (i + 3) = some (UInt8.ofNat (v % 64 + 128))) :
    r.units n (k + 1) i =
      (UInt16.ofNat ((v - 65536) / 1024 + 55296) :: UInt16.ofNat ((v - 65536) % 1024 + 56320) ::
        (r.units n k (i + 4)).1,(r.units n k (i + 4)).2) := by
  have hf : (UInt8.ofNat (v / 262144 % 8 + 240)).toNat = v / 262144 + 240 := by
    rw [UInt8.toNat_ofNat']
    omega
  have hjoin : ((v / 262144 + 240) &&& 7) <<< 18 ||| (v / 4096 % 64) <<< 12 |||
      (v / 64 % 64) <<< 6 ||| v % 64 = v := by
    have hmask : (v / 262144 + 240) &&& 7 = v / 262144 := and_mask (k := 3) (by omega) rfl
    rw [hmask,Nat.shiftLeft_eq,Nat.shiftLeft_eq,Nat.shiftLeft_eq,
      or_eq_add (a := v / 262144 * 2^18) (k := 18) (by omega) (by omega),
      or_eq_add (a := v / 262144 * 2^18 + v / 4096 % 64 * 2^12) (k := 12) (by omega) (by omega),
      or_eq_add (k := 6) (by omega) (by omega)]
    omega
  have hhigh : (((v : ℤ) - 65536) / 1024 % 1024).toNat = (v - 65536) / 1024 := by omega
  have hlow : (((v : ℤ) - 65536) % 1024).toNat = (v - 65536) % 1024 := by omega
  rw [units,if_pos hi]
  simp only [h0,hf,h1,h2,h3,bits_continuation (Nat.mod_lt _ (show 0 < 64 by decide)),hjoin,hhigh,
    hlow]
  rw [if_neg (by omega),if_neg (by omega),if_neg (by omega),if_neg (by omega),if_pos (by omega)]

theorem toNat_lt (c : Char) : c.val.toNat < 1114112 := by
  obtain h | ⟨-,h⟩ := c.valid
  · exact Nat.lt_trans h (by decide)
  · exact h

/-- A character, with as many bytes as its code point needs, is read as its units. -/
theorem units_char {c : Char} (hi : i < n) (h : ∀ j < (String.utf8EncodeChar c).length,
    r.byte (i + j) = (String.utf8EncodeChar c)[j]?) :
    r.units n (k + 1) i =
      (utf16Char c ++ (r.units n k (i + (String.utf8EncodeChar c).length)).1,
        (r.units n k (i + (String.utf8EncodeChar c).length)).2) := by
  have hv := toNat_lt c
  simp only [utf16Char,Char.toNat]
  unfold String.utf8EncodeChar at h ⊢
  simp only at h ⊢
  generalize c.val.toNat = v at h hv
  by_cases h1 : v ≤ 0x7f
  · simp only [if_pos h1] at h ⊢
    rw [if_pos (by omega),units_one hi (by omega) (h 0 (by simp))]
    rfl
  by_cases h2 : v ≤ 0x7ff
  · simp only [if_neg h1,if_pos h2] at h ⊢
    rw [if_pos (by omega),units_two hi (by omega) (h 0 (by simp)) (h 1 (by simp))]
    rfl
  by_cases h3 : v ≤ 0xffff
  · simp only [if_neg h1,if_neg h2,if_pos h3] at h ⊢
    rw [if_pos (by omega),
      units_three hi (by omega) (h 0 (by simp)) (h 1 (by simp)) (h 2 (by simp))]
    rfl
  · simp only [if_neg h1,if_neg h2,if_neg h3] at h ⊢
    rw [if_neg (by omega),units_four hi (by omega) hv (h 0 (by simp)) (h 1 (by simp))
      (h 2 (by simp)) (h 3 (by simp))]
    rfl

theorem units_flatMap {chars : List Char} (hk : chars.length ≤ k)
    (h : ∀ j < (chars.flatMap String.utf8EncodeChar).length,
      r.byte (i + j) = (chars.flatMap String.utf8EncodeChar)[j]?) :
    r.units (i + (chars.flatMap String.utf8EncodeChar).length) k i =
      (chars.flatMap utf16Char,i + (chars.flatMap String.utf8EncodeChar).length) := by
  induction chars generalizing k i with
  | nil => cases k <;> simp [units]
  | cons c chars ih =>
    obtain ⟨k,rfl⟩ := Nat.exists_eq_add_one_of_ne_zero (show k ≠ 0 by simp at hk; omega)
    have hpos := Char.utf8Size_pos c
    rw [← String.length_utf8EncodeChar] at hpos
    rw [List.flatMap_cons,List.length_append] at h ⊢
    have hlt : i < i + ((String.utf8EncodeChar c).length +
        (chars.flatMap String.utf8EncodeChar).length) := by omega
    have hchar := units_char (k := k) (c := c) hlt fun j hj => by
      rw [h j (by omega),List.getElem?_append_left hj]
    have hrest := @ih k (i + (String.utf8EncodeChar c).length) (by simpa using hk) fun j hj => by
      rw [Nat.add_assoc,h _ (by omega),List.getElem?_append_right (by omega),
        Nat.add_sub_cancel_left]
    rw [hchar,← Nat.add_assoc,hrest,List.flatMap_cons]

theorem length_le_flatMap (chars : List Char) :
    chars.length ≤ (chars.flatMap String.utf8EncodeChar).length := by
  induction chars with
  | nil => exact Nat.le_refl _
  | cons c chars ih =>
    have hpos := Char.utf8Size_pos c
    rw [← String.length_utf8EncodeChar] at hpos
    rw [List.flatMap_cons,List.length_append,List.length_cons]
    omega

theorem readText_utf8 (s : String) (h : r.Ahead (utf8 s)) :
    r.readText (utf8 s).length = (utf16 s,r.skip (utf8 s).length) := by
  rw [utf8_eq] at h ⊢
  have hunits := units_flatMap (i := 0) (length_le_flatMap s.toList) fun j hj => by
    rw [Nat.zero_add]
    exact h.byte j hj
  rw [Nat.zero_add] at hunits
  simp only [readText,Int.toNat_natCast,hunits]
  rfl

end units

end BinaryReader
end ImSingle.LoadTest
