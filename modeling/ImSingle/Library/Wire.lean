import Mathlib.Algebra.Group.Nat.Defs
import Mathlib.Data.List.Basic

/-! The proto3 wire format, for messages whose fields are varints and length-delimited bytes. A
field that has its default value is not written, and of a field that is written several times
the last one counts. -/
namespace ImSingle.Library

abbrev Bytes := List UInt8

/-- A serialiser and a parser that reads back what the serialiser wrote. -/
structure Codec (α : Type) where
  toByteArray : α → Bytes
  parseFrom : Bytes → Option α
  parseFrom_toByteArray : ∀ a, parseFrom (toByteArray a) = some a

namespace Wire

/-! ## Varints -/

/-- Base 128, least digit first; every byte but the last has its top bit set. -/
def encodeDigits : ℕ → ℕ → Bytes
  | 0, _ => []
  | k+1, n =>
    if n < 128 then [UInt8.ofNat n]
    else UInt8.ofNat (n % 128 + 128) :: encodeDigits k (n / 128)

def encodeVarint (n : ℕ) : Bytes := encodeDigits (n+1) n

def decodeVarint : Bytes → Option (ℕ × Bytes)
  | [] => none
  | b :: rest =>
    if b.toNat < 128 then some (b.toNat,rest)
    else (decodeVarint rest).map fun p => (b.toNat - 128 + 128 * p.1,p.2)

theorem decodeVarint_encodeDigits {k n : ℕ} (h : n < k) (rest : Bytes) :
    decodeVarint (encodeDigits k n ++ rest) = some (n,rest) := by
  induction k generalizing n with
  | zero => omega
  | succ k ih =>
    by_cases hn : n < 128
    · have hb : (UInt8.ofNat n).toNat = n := by rw [UInt8.toNat_ofNat']; omega
      simp [encodeDigits,decodeVarint,hn,hb]
    · have hb : (UInt8.ofNat (n % 128 + 128)).toNat = n % 128 + 128 := by
        rw [UInt8.toNat_ofNat']; omega
      have hrest := ih (n := n / 128) (by omega)
      simp only [encodeDigits,hn,if_false,List.cons_append,decodeVarint,hb,hrest,Option.map_some]
      rw [if_neg (by omega)]
      congr 2
      omega

theorem decodeVarint_encodeVarint (n : ℕ) (rest : Bytes) :
    decodeVarint (encodeVarint n ++ rest) = some (n,rest) :=
  decodeVarint_encodeDigits (Nat.lt_succ_self n) rest

theorem encodeVarint_ne_nil (n : ℕ) : encodeVarint n ≠ [] := by
  unfold encodeVarint encodeDigits
  split <;> simp

theorem encodeDigits_eq {k l n : ℕ} (hk : n < k) (hl : n < l) :
    encodeDigits k n = encodeDigits l n := by
  induction k generalizing l n with
  | zero => omega
  | succ k ih =>
    obtain ⟨l,rfl⟩ := Nat.exists_eq_add_one_of_ne_zero (Nat.ne_zero_of_lt hl)
    by_cases hn : n < 128
    · simp [encodeDigits,hn]
    · have hrest := ih (l := l) (n := n / 128) (by omega) (by omega)
      simp only [encodeDigits,hn,if_false,hrest]

theorem encodeVarint_of_lt {n : ℕ} (h : n < 128) : encodeVarint n = [UInt8.ofNat n] := if_pos h

theorem encodeVarint_of_le {n : ℕ} (h : 128 ≤ n) :
    encodeVarint n = UInt8.ofNat (n % 128 + 128) :: encodeVarint (n / 128) := by
  have hrest : encodeDigits n (n / 128) = encodeVarint (n / 128) :=
    encodeDigits_eq (by omega) (by omega)
  rw [encodeVarint,encodeDigits,if_neg (by omega),hrest]

/-- The byte for a digit: the digits that follow it are not all zero, or it is the last. -/
def digitByte (m : ℕ) : UInt8 := UInt8.ofNat (if m < 128 then m else m % 128 + 128)

theorem getElem?_encodeVarint (n i : ℕ) : (encodeVarint n)[i]? =
    if i = 0 ∨ 128^i ≤ n then some (digitByte (n / 128^i)) else none := by
  induction i generalizing n with
  | zero =>
    by_cases hn : n < 128
    · simp [encodeVarint_of_lt hn,digitByte,hn]
    · rw [encodeVarint_of_le (Nat.le_of_not_lt hn)]
      simp [digitByte,hn]
  | succ i ih =>
    have hdiv : n / 128 / 128^i = n / 128^(i + 1) := by rw [Nat.div_div_eq_div_mul,Nat.pow_succ']
    by_cases hn : n < 128
    · have hpow : ¬ 128^(i + 1) ≤ n := by
        have hpos : 0 < 128^i := Nat.pow_pos (by decide)
        rw [Nat.pow_succ]
        omega
      simp [encodeVarint_of_lt hn,hpow]
    · have hle : i = 0 ∨ 128^i ≤ n / 128 ↔ 128^(i + 1) ≤ n := by
        rw [Nat.le_div_iff_mul_le (by decide),← Nat.pow_succ]
        refine or_iff_right_of_imp ?_
        rintro rfl
        omega
      rw [encodeVarint_of_le (Nat.le_of_not_lt hn),List.getElem?_cons_succ,ih,hdiv]
      simp only [hle,Nat.succ_ne_zero,false_or]

/-- A varint has as many bytes as its value has digits. -/
theorem length_encodeVarint {n i : ℕ} (hle : i = 0 ∨ 128^i ≤ n) (hlt : n < 128^(i + 1)) :
    (encodeVarint n).length = i + 1 := by
  have hin : (encodeVarint n)[i]? ≠ none := by simp [getElem?_encodeVarint,hle]
  have hout : (encodeVarint n)[i + 1]? = none := by
    rw [getElem?_encodeVarint,if_neg (by omega)]
  have hi := List.getElem?_eq_none_iff.not.mp hin
  have hi' := List.getElem?_eq_none_iff.mp hout
  omega

/-! ## Fields -/

inductive Field
  | varint (number value : ℕ)
  | bytes (number : ℕ) (value : Bytes)
  deriving DecidableEq

/-- The key is the field's number and its wire type. -/
def encodeField : Field → Bytes
  | .varint number value => encodeVarint (8 * number) ++ encodeVarint value
  | .bytes number value => encodeVarint (8 * number + 2) ++ encodeVarint value.length ++ value

namespace Field

def number : Field → ℕ
  | varint number _ | bytes number _ => number

def wireType : Field → ℕ
  | varint _ _ => 0
  | bytes _ _ => 2

/-- What follows the key. -/
def payload : Field → Bytes
  | varint _ value => encodeVarint value
  | bytes _ value => encodeVarint value.length ++ value

end Field

theorem encodeField_eq (field : Field) :
    encodeField field = encodeVarint (8 * field.number + field.wireType) ++ field.payload := by
  cases field with
  | varint number value => rfl
  | bytes number value => exact List.append_assoc ..

/-- A wire type other than varint and length-delimited is refused. -/
def decodeField (bs : Bytes) : Option (Field × Bytes) := do
  let (key,rest) ← decodeVarint bs
  if key % 8 = 0 then
    let (value,rest) ← decodeVarint rest
    some (.varint (key / 8) value,rest)
  else if key % 8 = 2 then
    let (size,rest) ← decodeVarint rest
    if size ≤ rest.length then some (.bytes (key / 8) (rest.take size),rest.drop size) else none
  else none

def encode (fields : List Field) : Bytes := fields.flatMap encodeField

def decodeFields : ℕ → Bytes → Option (List Field)
  | _, [] => some []
  | 0, _ :: _ => none
  | k+1, bs => do
    let (field,rest) ← decodeField bs
    let fields ← decodeFields k rest
    some (field :: fields)

/-- Every field takes at least one byte. -/
def decode (bs : Bytes) : Option (List Field) := decodeFields bs.length bs

theorem decodeField_encodeField (field : Field) (rest : Bytes) :
    decodeField (encodeField field ++ rest) = some (field,rest) := by
  cases field with
  | varint number value => simp [decodeField,encodeField,decodeVarint_encodeVarint]
  | bytes number value =>
    have hmod : (8 * number + 2) % 8 = 2 := by omega
    have hdiv : (8 * number + 2) / 8 = number := by omega
    simp [decodeField,encodeField,decodeVarint_encodeVarint,hmod,hdiv]

theorem encodeField_ne_nil (field : Field) : encodeField field ≠ [] := by
  cases field <;> simp [encodeField,encodeVarint_ne_nil]

theorem decodeFields_encode (fields : List Field) (k : ℕ) (h : fields.length ≤ k) :
    decodeFields k (encode fields) = some fields := by
  induction fields generalizing k with
  | nil => cases k <;> rfl
  | cons field fields ih =>
    obtain ⟨k,rfl⟩ : ∃ j, k = j + 1 := ⟨k-1,by simp at h; omega⟩
    have hrest := ih k (by simpa using h)
    have hencode : encode (field :: fields) = encodeField field ++ encode fields := rfl
    obtain ⟨b,bs,hb⟩ := List.exists_cons_of_ne_nil (encodeField_ne_nil field)
    have hfield := decodeField_encodeField field (encode fields)
    rw [hencode]
    rw [hb] at hfield ⊢
    simp only [List.cons_append] at hfield ⊢
    simp [decodeFields,hfield,hrest]

theorem length_le_encode (fields : List Field) : fields.length ≤ (encode fields).length := by
  induction fields with
  | nil => exact Nat.le_refl _
  | cons field fields ih =>
    have hpos := List.length_pos_of_ne_nil (encodeField_ne_nil field)
    have hencode : encode (field :: fields) = encodeField field ++ encode fields := rfl
    rw [hencode,List.length_append,List.length_cons]
    omega

/-- A field's value takes no more bytes than the message. -/
theorem length_le_of_mem {fields : List Field} {n : ℕ} {value : Bytes}
    (h : .bytes n value ∈ fields) : value.length ≤ (encode fields).length := by
  have hfield : (encodeField (.bytes n value)).length ≤ (encode fields).length :=
    (List.sublist_flatten_of_mem (List.mem_map_of_mem h)).length_le
  refine Nat.le_trans ?_ hfield
  rw [encodeField,List.length_append]
  exact Nat.le_add_left ..

theorem decode_encode (fields : List Field) : decode (encode fields) = some fields :=
  decodeFields_encode fields _ (length_le_encode fields)

/-! ## Reading and writing fields -/

def Field.varint? (number : ℕ) : Field → Option ℕ
  | .varint n value => if n = number then some value else none
  | .bytes _ _ => none

def Field.bytes? (number : ℕ) : Field → Option Bytes
  | .varint _ _ => none
  | .bytes n value => if n = number then some value else none

def utf8 (s : String) : Bytes := s.toByteArray.data.toList

def ofUtf8 (bs : Bytes) : Option String := String.fromUTF8? ⟨⟨bs⟩⟩

@[simp] theorem ofUtf8_utf8 (s : String) : ofUtf8 (utf8 s) = some s := by
  simp [ofUtf8,utf8,String.fromUTF8?,s.isValidUTF8,String.fromUTF8]

def getVarint (number : ℕ) (fields : List Field) : ℕ :=
  (fields.filterMap (Field.varint? number)).getLast?.getD 0

def getBytes (number : ℕ) (fields : List Field) : Bytes :=
  (fields.filterMap (Field.bytes? number)).getLast?.getD []

/-- Every occurrence of a string has to be UTF-8. -/
def getString (number : ℕ) (fields : List Field) : Option String :=
  ((fields.filterMap (Field.bytes? number)).mapM ofUtf8).map fun ss => ss.getLast?.getD ""

def putVarint (number value : ℕ) : List Field :=
  if value = 0 then [] else [.varint number value]

def putBytes (number : ℕ) (value : Bytes) : List Field :=
  if value = [] then [] else [.bytes number value]

def putString (number : ℕ) (value : String) : List Field :=
  if value = "" then [] else [.bytes number (utf8 value)]

/-- A message field is written if it is set, also if the message has no fields. -/
def putMessage (number : ℕ) : Option (List Field) → List Field
  | none => []
  | some fields => [.bytes number (encode fields)]

section put
variable (number n v : ℕ) (bs : Bytes) (s : String)

@[simp] theorem varints_putVarint : (putVarint n v).filterMap (Field.varint? number) =
    if n = number then (if v = 0 then [] else [v]) else [] := by
  by_cases hn : n = number <;> by_cases hv : v = 0 <;> simp [putVarint,Field.varint?,hn,hv]

@[simp] theorem varints_putBytes : (putBytes n bs).filterMap (Field.varint? number) = [] := by
  by_cases h : bs = [] <;> simp [putBytes,Field.varint?,h]

@[simp] theorem varints_putString : (putString n s).filterMap (Field.varint? number) = [] := by
  by_cases h : s = "" <;> simp [putString,Field.varint?,h]

@[simp] theorem bytes_putVarint : (putVarint n v).filterMap (Field.bytes? number) = [] := by
  by_cases h : v = 0 <;> simp [putVarint,Field.bytes?,h]

@[simp] theorem bytes_putBytes : (putBytes n bs).filterMap (Field.bytes? number) =
    if n = number then (if bs = [] then [] else [bs]) else [] := by
  by_cases hn : n = number <;> by_cases hbs : bs = [] <;> simp [putBytes,Field.bytes?,hn,hbs]

@[simp] theorem bytes_putString : (putString n s).filterMap (Field.bytes? number) =
    if n = number then (if s = "" then [] else [utf8 s]) else [] := by
  by_cases hn : n = number <;> by_cases hs : s = "" <;> simp [putString,Field.bytes?,hn,hs]

@[simp] theorem getLastD_written {α : Type} [DecidableEq α] (a default : α) :
    (if a = default then [] else [a]).getLast?.getD default = a := by
  by_cases h : a = default <;> simp [h]

@[simp] theorem mapM_ofUtf8_written : ((if s = "" then [] else [utf8 s]).mapM ofUtf8).map
    (fun ss => ss.getLast?.getD "") = some s := by
  by_cases h : s = "" <;> simp [h]

end put

section written
variable {α : Type} {apply : α → Field → α} {msg : α}

/-- What is not written has its default value, which a message has anyway. -/
theorem foldl_putVarint {n : ℕ} (v : ℕ) (h : apply msg (.varint n 0) = msg) :
    (putVarint n v).foldl apply msg = apply msg (.varint n v) := by
  rw [putVarint]
  split_ifs with hv
  · rw [hv,h]
    rfl
  · rfl

theorem foldl_putString {n : ℕ} (s : String) (h : apply msg (.bytes n []) = msg) :
    (putString n s).foldl apply msg = apply msg (.bytes n (utf8 s)) := by
  rw [putString]
  split_ifs with hs
  · rw [hs]
    exact h.symm
  · rfl

theorem foldl_putMessage {n : ℕ} (fields : Option (List Field)) :
    (putMessage n fields).foldl apply msg =
      match fields with
      | none => msg
      | some fields => apply msg (.bytes n (encode fields)) := by
  cases fields <;> rfl

theorem mem_putVarint {n v : ℕ} {f : Field} (h : f ∈ putVarint n v) : f = .varint n v := by
  rw [putVarint] at h
  split_ifs at h
  · cases h
  · exact List.mem_singleton.mp h

theorem mem_putString {n : ℕ} {s : String} {f : Field} (h : f ∈ putString n s) :
    f = .bytes n (utf8 s) := by
  rw [putString] at h
  split_ifs at h
  · cases h
  · exact List.mem_singleton.mp h

theorem mem_putMessage {n : ℕ} {fields : Option (List Field)} {f : Field}
    (h : f ∈ putMessage n fields) : ∃ fs, fields = some fs ∧ f = .bytes n (encode fs) := by
  cases fields with
  | none => cases h
  | some fs => exact ⟨fs,rfl,List.mem_singleton.mp h⟩

end written

/-- The codec of a message type, given its fields and what it reads off them. -/
def codec {α : Type} (fields : α → List Field) (ofFields : List Field → Option α)
    (h : ∀ a, ofFields (fields a) = some a) : Codec α where
  toByteArray a := encode (fields a)
  parseFrom bs := (decode bs).bind ofFields
  parseFrom_toByteArray a := by rw [decode_encode,Option.bind_some,h]

/-! ## Enums and 64-bit integers as varints -/

def ofInt64 (x : Int64) : ℕ := x.toUInt64.toNat
def toInt64 (v : ℕ) : Int64 := (UInt64.ofNat v).toInt64

/-- An enum's number is sign-extended, and cut to 32 bits when it is read. -/
def ofInt32 (x : Int32) : ℕ := ofInt64 x.toInt64
def toInt32 (v : ℕ) : Int32 := (toInt64 v).toInt32

@[simp] theorem toInt64_ofInt64 (x : Int64) : toInt64 (ofInt64 x) = x := by
  simp [toInt64,ofInt64]

@[simp] theorem toInt32_ofInt32 (x : Int32) : toInt32 (ofInt32 x) = x := by
  simp [toInt32,ofInt32]

end Wire
end ImSingle.Library
