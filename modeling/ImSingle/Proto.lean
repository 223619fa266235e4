import ImSingle.Library.Wire

/-! The messages of `message.proto`, `packet.proto` and `kafka.proto` as the generated classes
hold them, and their wire format. A proto3 enum is open: a number without a name reads as
`unrecognized`. -/
namespace ImSingle.Proto
open Library

inductive MessageType
  | text
  | image
  | voice
  | video
  | file
  | location
  | command
  | unrecognized (number : Int32) (unknown : number ∉ ([0,1,2,3,4,5,6] : List Int32))
  deriving DecidableEq

/-- `com.itrjp.im.message.Message`. -/
structure Message where
  type : MessageType
  content : String
  timestamp : Int64
  deriving DecidableEq

inductive EventType
  | online
  | offline
  | join
  | leave
  | mute
  | unMute
  | kick
  | unrecognized (number : Int32) (unknown : number ∉ ([0,1,2,3,4,5,6] : List Int32))
  deriving DecidableEq

structure Event where
  channelId : String
  userId : String
  type : EventType
  timestamp : Int64
  deriving DecidableEq

/-- `com.itrjp.im.proto.DataType`, of packets to a client. -/
inductive PacketType
  | message
  | notion
  | unrecognized (number : Int32) (unknown : number ∉ ([0,1] : List Int32))
  deriving DecidableEq

/-- A packet to a client. A message field may be unset. -/
structure Packet where
  dataType : PacketType
  timestamp : Int64
  message : Option Message
  event : Option Event
  deriving DecidableEq

/-- `com.itrjp.im.kafka.DataType`, of records between the services. -/
inductive DataType
  | message
  | event
  | unrecognized (number : Int32) (unknown : number ∉ ([0,1] : List Int32))
  deriving DecidableEq

structure KafkaMessage where
  dataType : DataType
  data : Bytes
  from' : String
  to' : String
  timestamp : Int64
  nodeId : String
  deriving DecidableEq

/-! ## Numbers of the enums -/

def MessageType.number : MessageType → Int32
  | .text => 0
  | .image => 1
  | .voice => 2
  | .video => 3
  | .file => 4
  | .location => 5
  | .command => 6
  | .unrecognized number _ => number

def MessageType.forNumber (number : Int32) : MessageType :=
  if unknown : number ∉ ([0,1,2,3,4,5,6] : List Int32) then .unrecognized number unknown
  else if number = 0 then .text
  else if number = 1 then .image
  else if number = 2 then .voice
  else if number = 3 then .video
  else if number = 4 then .file
  else if number = 5 then .location
  else .command

def EventType.number : EventType → Int32
  | .online => 0
  | .offline => 1
  | .join => 2
  | .leave => 3
  | .mute => 4
  | .unMute => 5
  | .kick => 6
  | .unrecognized number _ => number

def EventType.forNumber (number : Int32) : EventType :=
  if unknown : number ∉ ([0,1,2,3,4,5,6] : List Int32) then .unrecognized number unknown
  else if number = 0 then .online
  else if number = 1 then .offline
  else if number = 2 then .join
  else if number = 3 then .leave
  else if number = 4 then .mute
  else if number = 5 then .unMute
  else .kick

def DataType.number : DataType → Int32
  | .message => 0
  | .event => 1
  | .unrecognized number _ => number

def DataType.forNumber (number : Int32) : DataType :=
  if unknown : number ∉ ([0,1] : List Int32) then .unrecognized number unknown
  else if number = 0 then .message
  else .event

def PacketType.number : PacketType → Int32
  | .message => 0
  | .notion => 1
  | .unrecognized number _ => number

@[simp] theorem MessageType.forNumber_number (type : MessageType) :
    forNumber type.number = type := by
  cases type with
  | unrecognized number unknown => exact dif_pos unknown
  | _ => rfl

@[simp] theorem EventType.forNumber_number (type : EventType) :
    forNumber type.number = type := by
  cases type with
  | unrecognized number unknown => exact dif_pos unknown
  | _ => rfl

@[simp] theorem DataType.forNumber_number (type : DataType) :
    forNumber type.number = type := by
  cases type with
  | unrecognized number unknown => exact dif_pos unknown
  | _ => rfl

/-! ## Wire format -/

open Wire

def Message.fields (m : Message) : List Field :=
  putVarint 1 (ofInt32 m.type.number) ++ putString 2 m.content ++ putVarint 3 (ofInt64 m.timestamp)

def Message.ofFields (fields : List Field) : Option Message := do
  let content ← getString 2 fields
  some ⟨.forNumber (toInt32 (getVarint 1 fields)),content,toInt64 (getVarint 3 fields)⟩

def Event.fields (e : Event) : List Field :=
  putString 1 e.channelId ++ putString 2 e.userId ++ putVarint 3 (ofInt32 e.type.number) ++
    putVarint 4 (ofInt64 e.timestamp)

def Event.ofFields (fields : List Field) : Option Event := do
  let channelId ← getString 1 fields
  let userId ← getString 2 fields
  some ⟨channelId,userId,.forNumber (toInt32 (getVarint 3 fields)),toInt64 (getVarint 4 fields)⟩

def KafkaMessage.fields (k : KafkaMessage) : List Field :=
  putVarint 1 (ofInt32 k.dataType.number) ++ putBytes 2 k.data ++ putString 3 k.from' ++
    putString 4 k.to' ++ putVarint 5 (ofInt64 k.timestamp) ++ putString 6 k.nodeId

def KafkaMessage.ofFields (fields : List Field) : Option KafkaMessage := do
  let from' ← getString 3 fields
  let to' ← getString 4 fields
  let nodeId ← getString 6 fields
  some ⟨.forNumber (toInt32 (getVarint 1 fields)),getBytes 2 fields,from',to',
    toInt64 (getVarint 5 fields),nodeId⟩

def Packet.fields (p : Packet) : List Field :=
  putVarint 1 (ofInt32 p.dataType.number) ++ putVarint 2 (ofInt64 p.timestamp) ++
    putMessage 3 (p.message.map Message.fields) ++ putMessage 4 (p.event.map Event.fields)

def Packet.toByteArray (p : Packet) : Bytes := encode p.fields

def Message.codec : Codec Message := Wire.codec fields ofFields fun m => by
  simp [fields,ofFields,getString,getVarint]

def Event.codec : Codec Event := Wire.codec fields ofFields fun e => by
  simp [fields,ofFields,getString,getVarint]

def KafkaMessage.codec : Codec KafkaMessage := Wire.codec fields ofFields fun k => by
  simp [fields,ofFields,getString,getVarint,getBytes]

end ImSingle.Proto
