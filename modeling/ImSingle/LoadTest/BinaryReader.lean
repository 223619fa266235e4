import ImSingle.Library.Java
import ImSingle.Library.Wire

/-! The reader in load-test's `google-protobuf.js`: a decoder with a cursor over the bytes
(`jspb.BinaryDecoder`) and the fields read with it (`jspb.BinaryReader`). Numbers are doubles;
the bitwise operators cut them to 32 bits. -/
namespace ImSingle.LoadTest
open Library

/-- A JavaScript string, by its 16-bit units. -/
abbrev JsString := List UInt16

/-- The reader with its decoder. `limit` is the decoder's `end_`. Neither the cursor nor the
limit needs to be within the bytes. -/
structure BinaryReader where
  bytes : Bytes
  cursor : ℤ
  limit : ℤ
  nextField_ : ℤ
  nextWireType : ℤ

namespace WireType

def INVALID : ℤ := -1
def VARINT : ℤ := 0
def FIXED64 : ℤ := 1
def DELIMITED : ℤ := 2
def START_GROUP : ℤ := 3
def END_GROUP : ℤ := 4
def FIXED32 : ℤ := 5

end WireType

def INVALID_FIELD_NUMBER : ℤ := -1

/-! ## Bytes -/

/-- `b & mask`, where an undefined byte counts as 0. -/
def bits (b : Option UInt8) (mask : ℕ) : ℕ := (b.map UInt8.toNat).getD 0 &&& mask

/-- `128 <= b`, which an undefined byte fails. -/
def goesOn (b : Option UInt8) : Bool := b.any fun b => 128 ≤ b.toNat

/-- `128 > b`, which it fails as well. -/
def ends (b : Option UInt8) : Bool := b.any fun b => b.toNat < 128

/-- `toDouble n` is the double nearest to `n`, of two the one whose significand is even. -/
def toDouble (n : ℕ) : ℕ :=
  let unit := 2^(n.log2 - 52)
  if 2 * (n % unit) > unit ∨ 2 * (n % unit) = unit ∧ n / unit % 2 = 1 then (n / unit + 1) * unit
  else n / unit * unit

def joinUint64 (low high : ℕ) : ℕ := toDouble (high * 2^32 + low)

/-- The top bit of the high half is the sign. -/
def joinInt64 (low high : ℕ) : ℤ :=
  if high &&& 2147483648 = 0 then joinUint64 low high
  else
    let low := (2^32 - low) % 2^32
    let high := 2^32 - 1 - high
    let high := if low = 0 then (high + 1) % 2^32 else high
    Int.negOfNat (joinUint64 low high)

namespace BinaryReader
variable (r : BinaryReader)

/-! ## The decoder

A method that fails an assertion, and so throws, is none; so is one that does not return. -/

/-- The byte so far behind the cursor. -/
def byte (i : ℕ) : Option UInt8 :=
  if 0 ≤ r.cursor + i then r.bytes[(r.cursor + i).toNat]? else none

def skip (n : ℤ) : BinaryReader := { r with cursor := r.cursor + n }

/-- `advance`: the cursor may not pass the limit. -/
def advance (n : ℤ) : Option BinaryReader :=
  if r.cursor + n ≤ r.limit then some (r.skip n) else none

/-- The last bytes of an overlong varint: one of the next five has to end it. -/
def overlong : ℕ → ℕ → Option ℕ
  | 0, _ => none
  | k+1, i => if goesOn (r.byte i) then overlong k (i + 1) else some (i + 1)

/-- An overlong varint is returned with its sign. -/
def readUnsignedVarint32 : Option (ℤ × BinaryReader) := do
  let b := r.byte 0
  let c := bits b 127
  if ends b then return (c,← r.advance 1)
  let b := r.byte 1
  let c := c ||| bits b 127 <<< 7
  if ends b then return (c,← r.advance 2)
  let b := r.byte 2
  let c := c ||| bits b 127 <<< 14
  if ends b then return (c,← r.advance 3)
  let b := r.byte 3
  let c := c ||| bits b 127 <<< 21
  if ends b then return (c,← r.advance 4)
  let b := r.byte 4
  let c := c ||| bits b 15 <<< 28
  if ends b then return (c,← r.advance 5)
  return (toInt32 c,← r.advance (← r.overlong 5 5))

/-- At most `k` bytes that go on or end a varint, from the `i`-th on; `b` is the byte before. -/
def varintLoop : ℕ → ℕ → ℕ × Option UInt8 × ℕ → ℕ × Option UInt8 × ℕ
  | 0, _, s => s
  | k+1, shift, (i,b,c) =>
    if goesOn b then
      varintLoop k (shift + 7) (i + 1,r.byte i,c ||| bits (r.byte i) 127 <<< shift)
    else (i,b,c)

/-- The fifth byte is split between the two halves. The cursor may pass the limit. -/
def readSplitVarint64 : Option ((ℕ × ℕ) × BinaryReader) :=
  let (i,b,c) := r.varintLoop 4 0 (0,some 128,0)
  let (i,b,c,d) :=
    if goesOn b then
      (i + 1,r.byte i,c ||| bits (r.byte i) 127 <<< 28,bits (r.byte i) 127 >>> 4)
    else (i,b,c,0)
  let (i,b,d) := if goesOn b then r.varintLoop 5 3 (i,b,d) else (i,b,d)
  if ends b then some ((c % 2^32,d % 2^32),r.skip i) else none

def readSignedVarint64 : Option (ℤ × BinaryReader) :=
  r.readSplitVarint64.map fun p => (joinInt64 p.1.1 p.1.2,p.2)

def skipVarint : BinaryReader :=
  r.skip ((List.range r.bytes.length).takeWhile fun i => bits (r.byte i) 128 ≠ 0).length.succ

/-- The units of the characters that start within the first `n` bytes, from the `i`-th on. The
source collects them in pieces of 8192. -/
def units (n : ℕ) : ℕ → ℕ → JsString × ℕ
  | 0, i => ([],i)
  | k+1, i =>
    if i < n then
      match r.byte i with
      | none => units n k (i + 1)
      | some b =>
        let f := b.toNat
        if f < 128 then
          let rest := units n k (i + 1)
          (UInt16.ofNat f :: rest.1,rest.2)
        else if f < 192 then units n k (i + 1)
        else if f < 224 then
          let g := bits (r.byte (i + 1)) 63
          let rest := units n k (i + 2)
          (UInt16.ofNat ((f &&& 31) <<< 6 ||| g) :: rest.1,rest.2)
        else if f < 240 then
          let g := bits (r.byte (i + 1)) 63
          let h := bits (r.byte (i + 2)) 63
          let rest := units n k (i + 3)
          (UInt16.ofNat ((f &&& 15) <<< 12 ||| g <<< 6 ||| h) :: rest.1,rest.2)
        else if f < 248 then
          let g := bits (r.byte (i + 1)) 63
          let h := bits (r.byte (i + 2)) 63
          let l := bits (r.byte (i + 3)) 63
          let f : ℤ := ((f &&& 7) <<< 18 ||| g <<< 12 ||| h <<< 6 ||| l : ℕ) - 65536
          let rest := units n k (i + 4)
          (UInt16.ofNat ((f / 1024 % 1024).toNat + 55296) ::
            UInt16.ofNat ((f % 1024).toNat + 56320) :: rest.1,rest.2)
        else units n k (i + 1)
    else ([],i)

/-- `BinaryDecoder.readString`. The cursor may pass the limit. -/
def readText (length : ℤ) : JsString × BinaryReader :=
  let (text,i) := r.units length.toNat length.toNat 0
  (text,r.skip i)

/-! ## The reader -/

def new (bytes : Bytes) : BinaryReader :=
  ⟨bytes,0,bytes.length,INVALID_FIELD_NUMBER,WireType.INVALID⟩

/-- Whether there is another field; if so, its key has been read. -/
def nextField : Option (Bool × BinaryReader) :=
  if r.cursor = r.limit then some (false,r)
  else if r.cursor < 0 ∨ r.cursor > r.limit then none
  else do
    let (a,r) ← r.readUnsignedVarint32
    let a := (a % 2^32).toNat
    let wireType : ℤ := (a &&& 7 : ℕ)
    if wireType ∉ [WireType.VARINT,WireType.FIXED32,WireType.FIXED64,WireType.DELIMITED,
        WireType.START_GROUP,WireType.END_GROUP] then none
    else some (true,{ r with nextField_ := (a >>> 3 : ℕ), nextWireType := wireType })

mutual

/-- A field with an unknown number. -/
def skipField : ℕ → BinaryReader → Option BinaryReader
  | 0, _ => none
  | k+1, r =>
    if r.nextWireType = WireType.VARINT then some r.skipVarint
    else if r.nextWireType = WireType.FIXED64 then r.advance 8
    else if r.nextWireType = WireType.DELIMITED then do
      let (a,r) ← r.readUnsignedVarint32
      r.advance a
    else if r.nextWireType = WireType.FIXED32 then r.advance 4
    else if r.nextWireType = WireType.START_GROUP then skipGroup k r.nextField_ r
    else none

def skipGroup : ℕ → ℤ → BinaryReader → Option BinaryReader
  | 0, _, _ => none
  | k+1, a, r => do
    let (more,r) ← r.nextField
    if !more then none
    else if r.nextWireType = WireType.END_GROUP then
      if r.nextField_ ≠ a then none else some r
    else skipGroup k a (← skipField k r)

end

/-- A loop over fields that returns comes to no position twice, nor does a group in it. -/
def fuel : ℕ := 2 * r.limit.toNat + 3

def readInt64 : Option (ℤ × BinaryReader) :=
  if r.nextWireType = WireType.VARINT then r.readSignedVarint64 else none

def readEnum : Option (ℤ × BinaryReader) :=
  if r.nextWireType = WireType.VARINT then r.readSignedVarint64 else none

def readString : Option (JsString × BinaryReader) :=
  if r.nextWireType = WireType.DELIMITED then do
    let (a,r) ← r.readUnsignedVarint32
    return r.readText a
  else none

/-- A message has a limit of its own; afterwards the cursor is there and the limit as before. -/
def readMessage {α : Type} (read : BinaryReader → Option (α × BinaryReader)) :
    Option (α × BinaryReader) :=
  if r.nextWireType = WireType.DELIMITED then do
    let limit := r.limit
    let (d,r) ← r.readUnsignedVarint32
    let d := r.cursor + d
    let (value,r) ← read { r with limit := d }
    return (value,{ r with cursor := d, limit := limit })
  else none

/-! ## The loop over a message's fields -/

section fields
variable {α β : Type}

/-- A case of the switch over the field numbers: a value is read and set. -/
def readAs (read : BinaryReader → Option (β × BinaryReader)) (set : α → β → α) (msg : α)
    (r : BinaryReader) : Option (α × BinaryReader) :=
  (read r).map fun p => (set msg p.1,p.2)

/-- The cases of a message type, by field number. -/
abbrev Cases (α : Type) := List (ℤ × (α → BinaryReader → Option (α × BinaryReader)))

/-- A field without a case is skipped. -/
def readField (cases : Cases α) (msg : α) (r : BinaryReader) : Option (α × BinaryReader) :=
  match cases.lookup r.nextField_ with
  | some read => read msg r
  | none => (skipField r.fuel r).map fun r => (msg,r)

/-- The loop of a `deserializeBinaryFromReader`. -/
def deserialize (cases : Cases α) : ℕ → α → BinaryReader → Option (α × BinaryReader)
  | 0, _, _ => none
  | k+1, msg, r => do
    let (more,r) ← r.nextField
    if !more || r.nextWireType = WireType.END_GROUP then return (msg,r)
    let (msg,r) ← readField cases msg r
    deserialize cases k msg r

end fields

end BinaryReader
end ImSingle.LoadTest
