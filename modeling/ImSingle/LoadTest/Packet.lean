import ImSingle.LoadTest.Fields
import ImSingle.Proto

/-! The packets of load-test's `packet_pb.js`, and that they are read as the node has them. -/
namespace ImSingle.LoadTest
open Library Wire

/-- `proto.Message`, by what its getters return. -/
structure Message where
  type : ℤ := 0
  content : JsString := []
  timestamp : ℤ := 0
  deriving DecidableEq

structure Event where
  channelId : JsString := []
  userId : JsString := []
  type : ℤ := 0
  timestamp : ℤ := 0
  deriving DecidableEq

structure Packet where
  dataType : ℤ := 0
  timestamp : ℤ := 0
  message : Option Message := none
  event : Option Event := none
  deriving DecidableEq

/-! ## Deserialising -/

open BinaryReader

namespace Message

def setType (msg : Message) (value : ℤ) : Message := { msg with type := value }
def setContent (msg : Message) (value : JsString) : Message := { msg with content := value }
def setTimestamp (msg : Message) (value : ℤ) : Message := { msg with timestamp := value }

def cases : Cases Message :=
  [(1,readAs readEnum setType),(2,readAs readString setContent),(3,readAs readInt64 setTimestamp)]

def deserializeBinaryFromReader (msg : Message) (r : BinaryReader) :
    Option (Message × BinaryReader) :=
  deserialize cases r.fuel msg r

end Message

namespace Event

def setChannelId (msg : Event) (value : JsString) : Event := { msg with channelId := value }
def setUserId (msg : Event) (value : JsString) : Event := { msg with userId := value }
def setType (msg : Event) (value : ℤ) : Event := { msg with type := value }
def setTimestamp (msg : Event) (value : ℤ) : Event := { msg with timestamp := value }

def cases : Cases Event :=
  [(1,readAs readString setChannelId),(2,readAs readString setUserId),(3,readAs readEnum setType),
    (4,readAs readInt64 setTimestamp)]

def deserializeBinaryFromReader (msg : Event) (r : BinaryReader) : Option (Event × BinaryReader) :=
  deserialize cases r.fuel msg r

end Event

namespace Packet

def setDataType (msg : Packet) (value : ℤ) : Packet := { msg with dataType := value }
def setTimestamp (msg : Packet) (value : ℤ) : Packet := { msg with timestamp := value }
def setMessage (msg : Packet) (value : Message) : Packet := { msg with message := some value }
def setEvent (msg : Packet) (value : Event) : Packet := { msg with event := some value }

/-- A nested message is read into a new one. -/
def cases : Cases Packet :=
  [(1,readAs readEnum setDataType),(2,readAs readInt64 setTimestamp),
    (3,readAs (readMessage · (Message.deserializeBinaryFromReader {})) setMessage),
    (4,readAs (readMessage · (Event.deserializeBinaryFromReader {})) setEvent)]

def deserializeBinaryFromReader (msg : Packet) (r : BinaryReader) :
    Option (Packet × BinaryReader) :=
  deserialize cases r.fuel msg r

def deserializeBinary (bytes : Bytes) : Option Packet :=
  (deserializeBinaryFromReader {} (new bytes)).map Prod.fst

end Packet

/-! ## The node's messages as the client has them -/

/-- Strings are the same in UTF-16, and a number is the nearest double. -/
def Message.of (m : Proto.Message) : Message :=
  ⟨m.type.number.toInt,utf16 m.content,nearest m.timestamp.toInt⟩

def Event.of (e : Proto.Event) : Event :=
  ⟨utf16 e.channelId,utf16 e.userId,e.type.number.toInt,nearest e.timestamp.toInt⟩

def Packet.of (p : Proto.Packet) : Packet :=
  ⟨p.dataType.number.toInt,nearest p.timestamp.toInt,p.message.map Message.of,
    p.event.map Event.of⟩

/-! ## Reading what the node writes -/

def number (value : ℕ) : ℤ := nearest (toInt64 value).toInt
def text (value : Bytes) : JsString := utf16 ((ofUtf8 value).getD "")

@[simp] theorem number_ofInt64 (x : Int64) : number (ofInt64 x) = nearest x.toInt := by
  simp [number]

@[simp] theorem number_zero : number 0 = 0 := by decide

@[simp] theorem text_utf8 (s : String) : text (utf8 s) = utf16 s := by simp [text]

@[simp] theorem text_nil : text [] = [] := by simpa [utf8,utf16] using text_utf8 ""

@[simp] theorem utf16_empty : utf16 "" = [] := rfl

theorem nearest_int32 (x : Int32) : nearest x.toInt = x.toInt := by
  have hlt := x.toInt_lt
  have hge := x.le_toInt
  exact nearest_of_le (by omega)

/-- The fields that a message with `count` fields does not know. -/
def Unknown (count : ℕ) (f : Field) : Prop :=
  (f.number = 0 ∨ count < f.number) ∧ f.number < 2^29 ∧ Sized f

theorem Unknown.lookup_eq_none {α : Type} {count : ℕ} {cases : Cases α} {f : Field}
    (h : Unknown count f) (hcases : ∀ p ∈ cases, 1 ≤ p.1 ∧ p.1 ≤ count) :
    cases.lookup (f.number : ℤ) = none := by
  refine List.lookup_eq_none_iff.mpr fun p hp => ?_
  obtain ⟨hpos,hle⟩ := hcases p hp
  have hnumber := h.1
  rw [bne_iff_ne]
  omega

/-! ### Messages -/

namespace Message

/-- The fields that are read as fields of a message. -/
inductive Readable : Field → Prop
  | type (x : Int64) : Readable (.varint 1 (ofInt64 x))
  | content (s : String) (size : (utf8 s).length < 2^32) : Readable (.bytes 2 (utf8 s))
  | timestamp (x : Int64) : Readable (.varint 3 (ofInt64 x))
  | unknown (f : Field) (h : Unknown 3 f) : Readable f

def apply (msg : Message) : Field → Message
  | .varint n value =>
    if n = 1 then msg.setType (number value)
    else if n = 3 then msg.setTimestamp (number value)
    else msg
  | .bytes n value => if n = 2 then msg.setContent (text value) else msg

theorem apply_unknown {msg : Message} {f : Field} (h : Unknown 3 f) : msg.apply f = msg := by
  obtain ⟨hnumber,-⟩ := h
  cases f with
  | varint n value =>
    simp only [Field.number] at hnumber
    rw [apply,if_neg (by omega),if_neg (by omega)]
  | bytes n value =>
    simp only [Field.number] at hnumber
    rw [apply,if_neg (by omega)]

theorem Readable.reads {f : Field} (h : Readable f) : Reads cases apply f := by
  cases h with
  | type x => exact .enum (by decide) rfl fun msg => by simp [apply]
  | content s size => exact .string (by decide) size rfl fun msg => by simp [apply]
  | timestamp x => exact .int64 (by decide) rfl fun msg => by simp [apply]
  | unknown f h =>
    exact .of_skip h.2.1 h.2.2 (h.lookup_eq_none (by simp [cases])) fun _ => (apply_unknown h).symm

theorem readable_fields (m : Proto.Message) (h : (encode m.fields).length < 2^32) :
    ∀ f ∈ m.fields, Readable f := by
  intro f hf
  have hmem := hf
  simp only [Proto.Message.fields,List.mem_append] at hf
  obtain (hf | hf) | hf := hf
  · rw [mem_putVarint hf]
    exact .type _
  · rw [mem_putString hf] at hmem ⊢
    exact .content _ (Nat.lt_of_le_of_lt (length_le_of_mem hmem) h)
  · rw [mem_putVarint hf]
    exact .timestamp _

theorem foldl_fields (m : Proto.Message) : m.fields.foldl apply {} = Message.of m := by
  simp [Proto.Message.fields,foldl_putVarint,foldl_putString,apply,setType,setContent,setTimestamp,
    Message.of,ofInt32,nearest_int32]

end Message

/-! ### Events -/

namespace Event

inductive Readable : Field → Prop
  | channelId (s : String) (size : (utf8 s).length < 2^32) : Readable (.bytes 1 (utf8 s))
  | userId (s : String) (size : (utf8 s).length < 2^32) : Readable (.bytes 2 (utf8 s))
  | type (x : Int64) : Readable (.varint 3 (ofInt64 x))
  | timestamp (x : Int64) : Readable (.varint 4 (ofInt64 x))
  | unknown (f : Field) (h : Unknown 4 f) : Readable f

def apply (msg : Event) : Field → Event
  | .varint n value =>
    if n = 3 then msg.setType (number value)
    else if n = 4 then msg.setTimestamp (number value)
    else msg
  | .bytes n value =>
    if n = 1 then msg.setChannelId (text value)
    else if n = 2 then msg.setUserId (text value)
    else msg

theorem apply_unknown {msg : Event} {f : Field} (h : Unknown 4 f) : msg.apply f = msg := by
  obtain ⟨hnumber,-⟩ := h
  cases f with
  | varint n value | bytes n value =>
    simp only [Field.number] at hnumber
    rw [apply,if_neg (by omega),if_neg (by omega)]

theorem Readable.reads {f : Field} (h : Readable f) : Reads cases apply f := by
  cases h with
  | channelId s size => exact .string (by decide) size rfl fun msg => by simp [apply]
  | userId s size => exact .string (by decide) size rfl fun msg => by simp [apply]
  | type x => exact .enum (by decide) rfl fun msg => by simp [apply]
  | timestamp x => exact .int64 (by decide) rfl fun msg => by simp [apply]
  | unknown f h =>
    exact .of_skip h.2.1 h.2.2 (h.lookup_eq_none (by simp [cases])) fun _ => (apply_unknown h).symm

theorem readable_fields (e : Proto.Event) (h : (encode e.fields).length < 2^32) :
    ∀ f ∈ e.fields, Readable f := by
  intro f hf
  have hsize (n : ℕ) (s : String) (hs : .bytes n (utf8 s) ∈ e.fields) :
      (utf8 s).length < 2^32 := Nat.lt_of_le_of_lt (length_le_of_mem hs) h
  have hmem := hf
  simp only [Proto.Event.fields,List.mem_append] at hf
  obtain ((hf | hf) | hf) | hf := hf
  · rw [mem_putString hf] at hmem ⊢
    exact .channelId _ (hsize _ _ hmem)
  · rw [mem_putString hf] at hmem ⊢
    exact .userId _ (hsize _ _ hmem)
  · rw [mem_putVarint hf]
    exact .type _
  · rw [mem_putVarint hf]
    exact .timestamp _

theorem foldl_fields (e : Proto.Event) : e.fields.foldl apply {} = Event.of e := by
  simp [Proto.Event.fields,foldl_putVarint,foldl_putString,apply,setChannelId,setUserId,setType,
    setTimestamp,Event.of,ofInt32,nearest_int32]

end Event

/-! ### Packets -/

namespace Packet

inductive Readable : Field → Prop
  | dataType (x : Int64) : Readable (.varint 1 (ofInt64 x))
  | timestamp (x : Int64) : Readable (.varint 2 (ofInt64 x))
  | message (fields : List Field) (h : ∀ f ∈ fields, Message.Readable f)
    (size : (encode fields).length < 2^32) : Readable (.bytes 3 (encode fields))
  | event (fields : List Field) (h : ∀ f ∈ fields, Event.Readable f)
    (size : (encode fields).length < 2^32) : Readable (.bytes 4 (encode fields))
  | unknown (f : Field) (h : Unknown 4 f) : Readable f

def apply (msg : Packet) : Field → Packet
  | .varint n value =>
    if n = 1 then msg.setDataType (number value)
    else if n = 2 then msg.setTimestamp (number value)
    else msg
  | .bytes n value =>
    if n = 3 then msg.setMessage (((decode value).getD []).foldl Message.apply {})
    else if n = 4 then msg.setEvent (((decode value).getD []).foldl Event.apply {})
    else msg

theorem apply_unknown {msg : Packet} {f : Field} (h : Unknown 4 f) : msg.apply f = msg := by
  obtain ⟨hnumber,-⟩ := h
  cases f with
  | varint n value | bytes n value =>
    simp only [Field.number] at hnumber
    rw [apply,if_neg (by omega),if_neg (by omega)]

theorem Readable.reads {f : Field} (h : Readable f) : Reads cases apply f := by
  cases h with
  | dataType x => exact .enum (by decide) rfl fun msg => by simp [apply]
  | timestamp x => exact .int64 (by decide) rfl fun msg => by simp [apply]
  | message fields hfields size =>
    exact .message (by decide) size (fun f hf => (hfields f hf).reads) rfl fun msg => by
      simp [apply,decode_encode]
  | event fields hfields size =>
    exact .message (by decide) size (fun f hf => (hfields f hf).reads) rfl fun msg => by
      simp [apply,decode_encode]
  | unknown f h =>
    exact .of_skip h.2.1 h.2.2 (h.lookup_eq_none (by simp [cases])) fun _ => (apply_unknown h).symm

theorem deserializeBinary_encode {fields : List Field} (hfields : ∀ f ∈ fields, Readable f) :
    deserializeBinary (encode fields) = some (fields.foldl apply {}) := by
  have hnew := Ahead.new (encode fields)
  obtain ⟨a,b,hread⟩ := deserialize_encode (fun f hf => (hfields f hf).reads) hnew
    (Int.zero_add _) (lt_fuel hnew) {}
  rw [deserializeBinary,deserializeBinaryFromReader,hread]
  rfl

theorem readable_fields (p : Proto.Packet) (h : p.toByteArray.length < 2^32) :
    ∀ f ∈ p.fields, Readable f := by
  intro f hf
  have hsize (n : ℕ) (fields : List Field) (hs : .bytes n (encode fields) ∈ p.fields) :
      (encode fields).length < 2^32 := Nat.lt_of_le_of_lt (length_le_of_mem hs) h
  have hmem := hf
  simp only [Proto.Packet.fields,List.mem_append] at hf
  obtain ((hf | hf) | hf) | hf := hf
  · rw [mem_putVarint hf]
    exact .dataType _
  · rw [mem_putVarint hf]
    exact .timestamp _
  · obtain ⟨fields,hm,rfl⟩ := mem_putMessage hf
    obtain ⟨m,-,rfl⟩ := Option.map_eq_some_iff.mp hm
    exact .message _ (Message.readable_fields m (hsize _ _ hmem)) (hsize _ _ hmem)
  · obtain ⟨fields,he,rfl⟩ := mem_putMessage hf
    obtain ⟨e,-,rfl⟩ := Option.map_eq_some_iff.mp he
    exact .event _ (Event.readable_fields e (hsize _ _ hmem)) (hsize _ _ hmem)

theorem foldl_fields (p : Proto.Packet) : p.fields.foldl apply {} = Packet.of p := by
  obtain ⟨dataType,timestamp,message,event⟩ := p
  cases message <;> cases event <;>
    simp [Proto.Packet.fields,foldl_putVarint,foldl_putMessage,apply,setDataType,setTimestamp,
      setMessage,setEvent,Packet.of,ofInt32,nearest_int32,decode_encode,Message.foldl_fields,
      Event.foldl_fields]

/-- A client reads each packet that the node writes as the node has it, with text in UTF-16, and
every number that is beyond `2^53` rounded to a double. -/
theorem deserializeBinary_toByteArray (p : Proto.Packet) (h : p.toByteArray.length < 2^31) :
    deserializeBinary p.toByteArray = some (Packet.of p) ∧
      ∀ x : ℤ, x.natAbs ≤ 2^53 → nearest x = x := by
  refine ⟨?_,fun x => nearest_of_le⟩
  have hreadable := readable_fields p (Nat.lt_trans h (by decide))
  rw [Proto.Packet.toByteArray,deserializeBinary_encode hreadable,foldl_fields]

/-- The second timestamp is the first integer that is not a double. -/
def samplePacket : Proto.Packet where
  dataType := .message
  timestamp := 1700000000000
  message := some ⟨.text,"a好😀",9007199254740993⟩
  event := none

theorem deserializeBinary_samplePacket :
    deserializeBinary samplePacket.toByteArray =
      some ⟨0,1700000000000,some ⟨0,[97,22909,55357,56832],9007199254740992⟩,none⟩ :=
  (deserializeBinary_toByteArray samplePacket (by decide)).1.trans (by decide)

/-- A packet with fields of a later schema, wherever they stand, is read as without them. -/
theorem deserializeBinary_later (p : Proto.Packet) (h : p.toByteArray.length < 2^31)
    {fields : List Field}
    (hknown : fields.filter (fun f => 1 ≤ f.number ∧ f.number ≤ 4) = p.fields)
    (hlater : ∀ f ∈ fields, f.number < 2^29 ∧ Sized f) :
    deserializeBinary (encode fields) = some (Packet.of p) := by
  have hunknown {f : Field} (hf : f ∈ fields) (hnumber : ¬ (1 ≤ f.number ∧ f.number ≤ 4)) :
      Unknown 4 f := ⟨by omega,hlater f hf⟩
  have hreadable : ∀ f ∈ fields, Readable f := by
    intro f hf
    by_cases hnumber : 1 ≤ f.number ∧ f.number ≤ 4
    · refine readable_fields p (Nat.lt_trans h (by decide)) f ?_
      rw [← hknown]
      exact List.mem_filter.mpr ⟨hf,decide_eq_true hnumber⟩
    · exact .unknown f (hunknown hf hnumber)
  rw [deserializeBinary_encode hreadable,← foldl_fields,← hknown,List.foldl_filter]
  congr 1
  apply List.foldl_ext
  intro msg f hf
  by_cases hnumber : 1 ≤ f.number ∧ f.number ≤ 4
  · simp [hnumber]
  · rw [apply_unknown (hunknown hf hnumber)]
    simp [hnumber]

/-- A field 9 before the others, and a field 12 behind them. -/
theorem deserializeBinary_later_sample :
    deserializeBinary (encode (.varint 9 7 :: samplePacket.fields ++ [.bytes 12 [1,2,3]])) =
      some (Packet.of samplePacket) :=
  deserializeBinary_later samplePacket (by decide) (by decide) (by decide)

end Packet
end ImSingle.LoadTest
