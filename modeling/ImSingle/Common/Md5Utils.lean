import Mathlib.Data.List.Basic
import Mathlib.Data.Set.Function
import Mathlib.Tactic.Ring

/-! im-common's `Md5Utils`: the digest of a text, written as hexadecimal digits. -/
namespace ImSingle.Common

/-- What `MessageDigest` returns for MD5. -/
abbrev Digest := Vector UInt8 16

/-- `new BigInteger(1,bytes)` reads the bytes as one number, highest first. -/
def appendByte (n : ℕ) (b : UInt8) : ℕ := 256*n + b.toNat
def bigInteger (bytes : List UInt8) : ℕ := bytes.foldl appendByte 0

/-- `hashtext.append("0").append(hashtext)`: the zero is in the buffer when it is appended. -/
def padLoop (hashtext : List Char) : List Char :=
  if hashtext.length < 32 then
    let hashtext := hashtext ++ ['0']
    padLoop (hashtext ++ hashtext)
  else hashtext
termination_by 32 - hashtext.length
decreasing_by simp; omega

def hashtext (messageDigest : Digest) : String :=
  String.ofList (padLoop (Nat.toDigits 16 (bigInteger messageDigest.toList)))

/-- `md` digests a text's bytes; without it the exception is caught and null is returned. -/
def create (md : Option (String → Digest)) (input : String) : Option String :=
  md.map fun digest => hashtext (digest input)

/-! ## The encoding -/

/-- Two lowercase digits for a byte, high half first. -/
def byteDigits (b : UInt8) : List Char :=
  [Nat.digitChar (b.toNat / 16),Nat.digitChar (b.toNat % 16)]

def hexEncoding (messageDigest : Digest) : String :=
  String.ofList (messageDigest.toList.flatMap byteDigits)

/-- On these digests the text is the encoding, 32 digits long, and no two share a text. -/
structure Encodes (digests : Set Digest) : Prop where
  digits : ∀ d ∈ digests, hashtext d = hexEncoding d
  length : ∀ d ∈ digests, (hashtext d).length = 32
  distinct : digests.InjOn hashtext

theorem digitChar_injective {i j : ℕ} (hi : i < 16) (hj : j < 16)
    (h : Nat.digitChar i = Nat.digitChar j) : i=j := by
  have key : ∀ a b : Fin 16, Nat.digitChar a.val = Nat.digitChar b.val → a=b := by decide
  have hab := key ⟨i,hi⟩ ⟨j,hj⟩ h
  exact congrArg Fin.val hab

theorem byteDigits_injective {b c : UInt8} (h : byteDigits b = byteDigits c) : b=c := by
  simp only [byteDigits,List.cons.injEq,and_true] at h
  have hb := b.toNat_lt
  have hc := c.toNat_lt
  have high := digitChar_injective (by omega) (by omega) h.1
  have low := digitChar_injective (by omega) (by omega) h.2
  apply UInt8.toNat_inj.mp
  omega

theorem flatMap_byteDigits_injective {bs cs : List UInt8}
    (h : bs.flatMap byteDigits = cs.flatMap byteDigits) : bs=cs := by
  induction bs generalizing cs with
  | nil =>
    cases cs with
    | nil => rfl
    | cons c cs => simp [byteDigits] at h
  | cons b bs ih =>
    cases cs with
    | nil => simp [byteDigits] at h
    | cons c cs =>
      obtain ⟨hb,hbs⟩ := List.append_inj h rfl
      rw [byteDigits_injective hb,ih hbs]

theorem hexEncoding_injective : Function.Injective hexEncoding := by
  intro d e h
  apply Vector.toList_inj.mp
  exact flatMap_byteDigits_injective (String.ofList_injective h)

theorem length_flatMap_byteDigits (bs : List UInt8) :
    (bs.flatMap byteDigits).length = 2 * bs.length := by
  induction bs with
  | nil => rfl
  | cons b bs ih =>
    rw [List.flatMap_cons,List.length_append,ih,List.length_cons]
    simp only [byteDigits,List.length_cons,List.length_nil]
    omega

theorem length_hexEncoding (d : Digest) : (hexEncoding d).length = 32 := by
  rw [hexEncoding,String.length_ofList,length_flatMap_byteDigits,Vector.length_toList]

/-! ## The number and its digits -/

/-- A byte after a number other than zero adds its two digits. -/
theorem toDigits_appendByte {n : ℕ} (hn : 0 < n) (b : UInt8) :
    Nat.toDigits 16 (appendByte n b) = Nat.toDigits 16 n ++ byteDigits b := by
  have hb := b.toNat_lt
  have hhigh : b.toNat / 16 < 16 := by omega
  have hlow : b.toNat % 16 < 16 := by omega
  calc
    Nat.toDigits 16 (appendByte n b)
      = Nat.toDigits 16 (16*(16*n + b.toNat/16) + b.toNat%16) := by
        congr 1
        simp only [appendByte]
        omega
    _ = Nat.toDigits 16 (16*n + b.toNat/16) ++ Nat.toDigits 16 (b.toNat%16) :=
        (Nat.toDigits_append_toDigits (by decide) (by omega) hlow).symm
    _ = Nat.toDigits 16 n ++ Nat.toDigits 16 (b.toNat/16)
          ++ Nat.toDigits 16 (b.toNat%16) := by
        rw [Nat.toDigits_append_toDigits (by decide) hn hhigh]
    _ = Nat.toDigits 16 n ++ byteDigits b := by
        rw [Nat.toDigits_of_lt_base hhigh,Nat.toDigits_of_lt_base hlow,List.append_assoc]
        rfl

theorem appendByte_pos {n : ℕ} (hn : 0 < n) (b : UInt8) : 0 < appendByte n b := by
  simp only [appendByte]
  omega

theorem toDigits_foldl {n : ℕ} (hn : 0 < n) (bs : List UInt8) :
    Nat.toDigits 16 (bs.foldl appendByte n) = Nat.toDigits 16 n ++ bs.flatMap byteDigits := by
  induction bs generalizing n with
  | nil => simp
  | cons b bs ih =>
    rw [List.foldl_cons,ih (appendByte_pos hn b),toDigits_appendByte hn,List.append_assoc]
    rfl

/-- Without a leading zero digit the number has exactly the digits of the bytes. -/
theorem toDigits_bigInteger {b : UInt8} (hb : 16 ≤ b.toNat) (bs : List UInt8) :
    Nat.toDigits 16 (bigInteger (b :: bs)) = (b :: bs).flatMap byteDigits := by
  have hlt := b.toNat_lt
  have hhead : Nat.toDigits 16 b.toNat = byteDigits b := by
    rw [Nat.toDigits_of_base_le (by decide) hb,Nat.toDigits_of_lt_base (by omega)]
    rfl
  have hfold : bigInteger (b :: bs) = bs.foldl appendByte b.toNat := by
    rw [bigInteger,List.foldl_cons,appendByte,Nat.mul_zero,Nat.zero_add]
  rw [hfold,toDigits_foldl (by omega),hhead]
  rfl

/-- The highest digit of a number other than zero is not zero. -/
theorem head?_toDigits {n : ℕ} (hn : 0 < n) : (Nat.toDigits 16 n).head? ≠ some '0' := by
  induction n using Nat.strong_induction_on with
  | _ n ih =>
    rw [Nat.toDigits_eq_if (by decide)]
    split
    case isTrue h => simpa using hn.ne'
    case isFalse h =>
      rw [List.head?_append_of_ne_nil _ Nat.toDigits_ne_nil]
      exact ih (n/16) (by omega) (by omega)

/-! ## The padding loop -/

theorem padLoop_long {s : List Char} (h : 32 ≤ s.length) : padLoop s = s := by
  rw [padLoop,if_neg (by omega)]

/-- The loop only adds behind what the buffer holds. -/
theorem isPrefix_padLoop (s : List Char) : s <+: padLoop s := by
  fun_induction padLoop s with
  | case1 s hs t ih =>
    have hst : s <+: t ++ t := by
      rw [List.append_assoc]
      exact List.prefix_append s _
    exact hst.trans ih
  | case2 s hs => exact List.prefix_rfl

theorem head?_padLoop {s : List Char} (h : s ≠ []) : (padLoop s).head? = s.head? := by
  obtain ⟨t,ht⟩ := isPrefix_padLoop s
  rw [← ht,List.head?_append_of_ne_nil _ h]

/-- The zero digest, whose only digit the loop doubles four times. -/
theorem length_padLoop_zero : (padLoop ['0']).length = 46 := by
  simp [padLoop]

/-! ## The text of a digest -/

theorem toList_eq_cons (d : Digest) : ∃ bs, d.toList = d[0] :: bs := by
  obtain ⟨b,bs,hd⟩ : ∃ b bs, d.toList = b :: bs := List.exists_cons_of_length_pos (by simp)
  have h0 : d.toList[0]? = some d[0] := by simp
  rw [hd,List.getElem?_cons_zero,Option.some.injEq] at h0
  exact ⟨bs,by rw [hd,h0]⟩

theorem hashtext_of_high {d : Digest} (h : 16 ≤ d[0].toNat) : hashtext d = hexEncoding d := by
  obtain ⟨bs,hd⟩ := toList_eq_cons d
  have hdigits : Nat.toDigits 16 (bigInteger d.toList) = d.toList.flatMap byteDigits := by
    rw [hd]
    exact toDigits_bigInteger h bs
  have hlong : 32 ≤ (d.toList.flatMap byteDigits).length := by
    rw [length_flatMap_byteDigits,Vector.length_toList]
  rw [hashtext,hdigits,padLoop_long hlong,hexEncoding]

/-- A digest whose highest digit is zero never gets its encoding. -/
theorem hashtext_of_low {d : Digest} (h : d[0].toNat < 16) : hashtext d ≠ hexEncoding d := by
  obtain ⟨bs,hd⟩ := toList_eq_cons d
  intro heq
  rcases Nat.eq_zero_or_pos (bigInteger d.toList) with hz | hpos
  · have hlen : (hashtext d).length = 46 := by
      rw [hashtext,hz,Nat.toDigits_zero,String.length_ofList,length_padLoop_zero]
    rw [heq,length_hexEncoding] at hlen
    omega
  · -- the encoding begins with a zero, the number and what the loop makes of it do not
    have hlist := String.ofList_injective heq
    have hhead := head?_padLoop (Nat.toDigits_ne_nil (b := 16) (n := bigInteger d.toList))
    have hzero : Nat.digitChar (d[0].toNat / 16) = '0' := by
      rw [Nat.div_eq_of_lt h]
      rfl
    rw [hlist,hd,List.flatMap_cons,byteDigits,List.cons_append,List.head?_cons,hzero,← hd] at hhead
    exact head?_toDigits hpos hhead.symm

/-- The conversion encodes a set of digests exactly when none of them has a zero for its
highest digit. -/
theorem encodes_iff (digests : Set Digest) :
    Encodes digests ↔ ∀ d ∈ digests, 16 ≤ d[0].toNat := by
  constructor
  · intro h d hd
    by_contra hlow
    exact hashtext_of_low (by omega) (h.digits d hd)
  · intro h
    refine ⟨fun d hd => hashtext_of_high (h d hd),fun d hd => ?_,fun d hd e he heq => ?_⟩
    · rw [hashtext_of_high (h d hd),length_hexEncoding]
    · rw [hashtext_of_high (h d hd),hashtext_of_high (h e he)] at heq
      exact hexEncoding_injective heq

/-- Fifteen ones behind seventeen zeros. -/
def onesDigest : Digest :=
  #v[0,0,0,0,0,0,0,0,0x01,0x11,0x11,0x11,0x11,0x11,0x11,0x11]

/-- The digest whose encoding the padded ones are. -/
def paddedDigest : Digest :=
  #v[0x11,0x11,0x11,0x11,0x11,0x11,0x11,0x10,0x11,0x11,0x11,0x11,0x11,0x11,0x11,0x10]

theorem hashtext_onesDigest : hashtext onesDigest = hexEncoding paddedDigest := by
  have hdigits : Nat.toDigits 16 (bigInteger onesDigest.toList) = List.replicate 15 '1' := by
    decide +kernel
  rw [hashtext,hdigits,padLoop,if_pos (by decide),padLoop_long (by decide)]
  rfl

/-- The text of a digest need not be its encoding, and two digests can share one. -/
theorem onesDigest_not_encodes :
    hashtext onesDigest ≠ hexEncoding onesDigest ∧
      (onesDigest ≠ paddedDigest ∧ hashtext onesDigest = hashtext paddedDigest) ∧
      ¬ Encodes Set.univ := by
  have hwrong : hashtext onesDigest ≠ hexEncoding onesDigest := hashtext_of_low (by decide)
  refine ⟨hwrong,⟨by decide,?_⟩,fun h => hwrong (h.digits _ (Set.mem_univ _))⟩
  rw [hashtext_onesDigest,hashtext_of_high (by decide)]

end ImSingle.Common
