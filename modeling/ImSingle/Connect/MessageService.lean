import ImSingle.Connect.ChannelsHub
import ImSingle.Library.Transition
import ImSingle.Proto

/-! The sessions of a connect node: what a completed handshake does (`connectClient`), what a
closed connection does (`channelInactive`), and how a message is broadcast. -/
namespace ImSingle.Connect
open Library Proto ChannelsHub

/-- A connect node. `created` is every client there has been, `events` what was handed to the
sender and taken, `writes` what was written to the clients. -/
structure World where
  hub : ChannelsHub
  created : List ChannelClient
  events : List Event
  writes : List (ChannelClient × Packet)

def World.empty : World := ⟨ChannelsHub.empty,[],[],[]⟩

/-- What a step finds outside: the clock, and whether the broker takes an event. -/
structure Outside where
  currentTimeMillis : Int64
  sent : Bool
  deriving DecidableEq

def onHub {α : Type} (method : Java ChannelsHub α) : Java World α := fun w =>
  match method w.hub with
  | .ok a h => .ok a { w with hub := h }
  | .error e h => .error e { w with hub := h }

/-- `parameters.get(name).get(0)`. -/
def firstParameter {σ : Type} (parameters : JavaMap String (List String)) (name : String) :
    Java σ String := do
  let values ← Java.nonNull (parameters.lookup name)
  match values with
  | [] => throw .indexOutOfBounds
  | value :: _ => pure value

/-! ## The message service -/

/-- `messageSender.sendEvent`, which may throw. -/
def sendEvent (outside : Outside) (event : Event) : Java World Unit := do
  if outside.sent then
    modify fun w => { w with events := w.events ++ [event] }
  else throw .external

/-- `onOpen` and `onClose` differ in the type of the event. -/
def announce (outside : Outside) (type : EventType) (client : ChannelClient) : Java World Unit := do
  let uid ← firstParameter client.handshakeData.parameters "uid"
  sendEvent outside ⟨client.getChannelId (← get).hub,uid,type,outside.currentTimeMillis⟩

def onOpen (outside : Outside) (client : ChannelClient) : Java World Unit :=
  announce outside .online client

/-- A null client throws in the log line. -/
def onClose (outside : Outside) (client : Option ChannelClient) : Java World Unit := do
  announce outside .offline (← Java.nonNull client)

def broadcast (channelId : Option String) (packet : Packet) : Java World Unit := do
  let h := (← get).hub
  match h.find channelId with
  | none => pure ()
  | some websocketChannel =>
    (JavaMap.values (h.clients websocketChannel)).forM fun client =>
      modify fun w => { w with writes := w.writes ++ [(client,packet)] }

/-- `parseMessage` is `Message.parseFrom`, where an exception, which is caught, reads as none. -/
def handlerMessage (parseMessage : Bytes → Option Message) (currentTimeMillis : Int64)
    (_from : String) (to' : Option String) (data : Bytes) : Java World Unit :=
  match parseMessage data with
  | none => pure ()
  | some message => broadcast to' ⟨.message,currentTimeMillis,some message,none⟩

/-! ## The handlers -/

/-- `WebsocketHandler.connectClient`: `session` is the Netty channel's id. -/
def connectClient (outside : Outside) (request : HandshakeData) (session : String) :
    Java World Unit := do
  let cid ← firstParameter request.parameters "cid"
  let websocketChannel ← onHub (create cid session)
  let channelClient : ChannelClient := ⟨(← get).created.length,request,session,websocketChannel⟩
  modify fun w => { w with created := w.created ++ [channelClient] }
  modify fun w => { w with hub := channelClient.join w.hub }
  onOpen outside channelClient

/-- `MessageHandler.channelInactive`. -/
def channelInactive (outside : Outside) (session : String) : Java World Unit := do
  let webSocketClient ← onHub (getWebSocketClient session)
  onClose outside webSocketClient
  onHub (destroy session)
  let client ← Java.nonNull webSocketClient
  modify fun w => { w with hub := client.leave w.hub }

/-! ## Runs -/

/-- A connection completes its handshake, or goes down. -/
inductive Op
  | connectClient (outside : Outside) (request : HandshakeData) (session : String)
  | channelInactive (outside : Outside) (session : String)

def Op.call : Op → Java World Unit
  | .connectClient outside request session => Connect.connectClient outside request session
  | .channelInactive outside session => Connect.channelInactive outside session

def World.step (w : World) (op : Op) : World := Java.finalState (op.call.run w)

/-- Opens and closes one after the other. One that throws leaves what it did before. -/
def hub : Machine World Op := ⟨World.empty,World.step⟩

end ImSingle.Connect
