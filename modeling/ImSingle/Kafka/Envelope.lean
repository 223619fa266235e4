import ImSingle.Message.MessageService

/-! The envelope between the two services: im-connect's `KafkaMessageSender` wraps messages and
events in a `KafkaMessage`, and im-message's `KafkaMessageListener` unwraps it and calls the
message service. -/
namespace ImSingle.Kafka
open Library Proto

/-- The generated serialisers and parsers of the record and of its two payloads. -/
structure Codecs where
  kafkaMessage : Codec KafkaMessage
  message : Codec Message
  event : Codec Event

def TOPIC_IM_MESSAGE : String := "im_message_topic"

/-- A record as it is published, without a key. -/
structure Record where
  topic : String
  value : Bytes

/-! ## The sender -/

section sender
variable (codecs : Codecs) (currentTimeMillis : Int64)

def sendMessage (from' to' : String) (data : Message) : Record :=
  let message : KafkaMessage :=
    ⟨.message,codecs.message.toByteArray data,from',to',currentTimeMillis,""⟩
  ⟨TOPIC_IM_MESSAGE,codecs.kafkaMessage.toByteArray message⟩

/-- The data type is set as for a message. -/
def sendEvent (instanceId : String) (event : Event) : Record :=
  let message : KafkaMessage :=
    ⟨.message,codecs.event.toByteArray event,"","",currentTimeMillis,instanceId⟩
  ⟨TOPIC_IM_MESSAGE,codecs.kafkaMessage.toByteArray message⟩

end sender

/-! ## The listener -/

/-- The message service the listener calls. -/
structure MessageService (σ : Type) where
  handleMessage : String → String → Bytes → Java σ Unit
  handleEvent : String → Bytes → Java σ Unit

/-- Whatever is thrown, also by the parser, is caught and logged. -/
def onChannelMessage {σ : Type} (codecs : Codecs) (messageService : MessageService σ)
    (data : Bytes) : Java σ Unit :=
  match codecs.kafkaMessage.parseFrom data with
  | none => pure ()
  | some kafkaMessage =>
    tryCatch
      (match kafkaMessage.dataType with
      | .message =>
        messageService.handleMessage kafkaMessage.from' kafkaMessage.to' kafkaMessage.data
      | .event => messageService.handleEvent kafkaMessage.nodeId kafkaMessage.data
      | .unrecognized _ _ => pure ())
      fun _ => pure ()

/-- The message service of im-message. -/
def imMessage (codecs : Codecs) : MessageService Message.World where
  handleMessage := Message.handleMessage ⟨codecs.message.parseFrom,codecs.event.parseFrom⟩
  handleEvent := Message.handleEvent ⟨codecs.message.parseFrom,codecs.event.parseFrom⟩

/-! ## Calls of the message service -/

inductive ServiceCall
  | handleMessage (from' to' : String) (data : Bytes)
  | handleEvent (nodeId : String) (data : Bytes)
  deriving DecidableEq

/-- A message service that keeps the calls it gets. -/
def recorder : MessageService (List ServiceCall) where
  handleMessage from' to' data := modify fun calls => calls ++ [.handleMessage from' to' data]
  handleEvent nodeId data := modify fun calls => calls ++ [.handleEvent nodeId data]

/-- What im-connect publishes on the topic. -/
inductive Published
  | message (from' to' : String) (message : Message)
  | event (nodeId : String) (event : Event)

namespace Published

def record (codecs : Codecs) (currentTimeMillis : Int64) : Published → Record
  | message from' to' m => sendMessage codecs currentTimeMillis from' to' m
  | event nodeId e => sendEvent codecs currentTimeMillis nodeId e

/-- The call it should lead to. -/
def call (codecs : Codecs) : Published → ServiceCall
  | message from' to' m => .handleMessage from' to' (codecs.message.toByteArray m)
  | event nodeId e => .handleEvent nodeId (codecs.event.toByteArray e)

/-- Consuming the record makes exactly that call. -/
def Delivered (codecs : Codecs) (currentTimeMillis : Int64) (p : Published) : Prop :=
  (onChannelMessage codecs recorder (p.record codecs currentTimeMillis).value).run [] =
    .ok () [p.call codecs]

end Published

section consume
variable {codecs : Codecs} {currentTimeMillis : Int64}

theorem consume_message (from' to' : String) (m : Message) :
    (onChannelMessage codecs recorder
      (sendMessage codecs currentTimeMillis from' to' m).value).run [] =
    .ok () [.handleMessage from' to' (codecs.message.toByteArray m)] := by
  simp only [onChannelMessage,sendMessage,codecs.kafkaMessage.parseFrom_toByteArray]
  rfl

/-- An event is taken for a message without sender and channel. -/
theorem consume_event (nodeId : String) (e : Event) :
    (onChannelMessage codecs recorder
      (sendEvent codecs currentTimeMillis nodeId e).value).run [] =
    .ok () [.handleMessage "" "" (codecs.event.toByteArray e)] := by
  simp only [onChannelMessage,sendEvent,codecs.kafkaMessage.parseFrom_toByteArray]
  rfl

/-- Were `handleEvent` called with an event's bytes, the event would reach the registry. -/
theorem imMessage_handleEvent (nodeId : String) (e : Event) :
    (imMessage codecs).handleEvent nodeId (codecs.event.toByteArray e) =
      Message.onRegistry (Message.eventHandler nodeId e) := by
  simp [imMessage,Message.handleEvent,codecs.event.parseFrom_toByteArray]

end consume

/-- For all codecs that round-trip, the services agree exactly on what `sendMessage` published. -/
theorem delivered_iff (codecs : Codecs) (currentTimeMillis : Int64) (p : Published) :
    p.Delivered codecs currentTimeMillis ↔ ∃ from' to' m, p = .message from' to' m := by
  cases p with
  | message from' to' m => exact iff_of_true (consume_message from' to' m) ⟨from',to',m,rfl⟩
  | event nodeId e =>
    refine iff_of_false (fun h => ?_) (by rintro ⟨_,_,_,h⟩; cases h)
    have hrun := (consume_event nodeId e).symm.trans h
    cases hrun

def protoCodecs : Codecs := ⟨KafkaMessage.codec,Message.codec,Event.codec⟩

/-- The ONLINE of user `u` in channel `c`, from node `1`. -/
def onlineEvent : Published := .event "1" ⟨"c","u",.online,0⟩

theorem onlineEvent_misread : Java.finalState ((onChannelMessage protoCodecs recorder
      (onlineEvent.record protoCodecs 0).value).run []) =
        [.handleMessage "" "" [10,1,99,18,1,117]] ∧
    ¬ onlineEvent.Delivered protoCodecs 0 := by
  refine ⟨by decide,fun h => ?_⟩
  have hcalls := congrArg Java.finalState h
  revert hcalls
  decide

end ImSingle.Kafka
