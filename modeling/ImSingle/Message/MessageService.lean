import ImSingle.Proto
import ImSingle.Stat.ConnectNodeLoadService

/-! The message service of im-message (`MessageService`): a message is filtered, sent to the
nodes of its channel, stored and counted; an event updates the registry. What it hands to its
collaborators is recorded in the order of the calls. -/
namespace ImSingle.Message
open Library Proto Stat

/-- `ProtobufMessageParser`: a parse that fails yields null. -/
structure MessageParser where
  parseMessage : Bytes → Option Proto.Message
  parseEvent : Bytes → Option Event

/-! ## Filters -/

inductive MessageFilterType
  | auto
  | manual
  | blackList
  | whiteList
  deriving DecidableEq, Repr

abbrev MessageFilter := Proto.Message → Bool

def autoMessageFilter : MessageFilter := fun _ => true
def manualMessageFilter : MessageFilter := fun _ => true
def blackListMessageFilter : MessageFilter := fun _ => true
def whiteListMessageFilter : MessageFilter := fun _ => false

/-- `MessageFilterFactory.create`. -/
def MessageFilter.create : MessageFilterType → MessageFilter
  | .auto => autoMessageFilter
  | .manual => manualMessageFilter
  | .blackList => blackListMessageFilter
  | .whiteList => whiteListMessageFilter

def getMessageFilterType (_channelId : String) : MessageFilterType := .auto

/-- `MessageFilterService.filter`. -/
def filter (channelId : String) (message : Proto.Message) : Bool :=
  MessageFilter.create (getMessageFilterType channelId) message

/-- Every channel has the automatic filter, which lets everything through. -/
@[simp] theorem filter_eq_true (channelId : String) (message : Proto.Message) :
    filter channelId message = true := rfl

/-! ## The service -/

/-- One call of a collaborator. -/
inductive Call
  | send (nodeId : Option String) (from' to' : String) (message : Proto.Message)
  | save (from' to' : String) (message : Proto.Message) (filterResult : Bool)
  | stat (from' to' : String) (message : Proto.Message) (filterResult : Bool)
  deriving DecidableEq

/-- The registry and the calls made so far. -/
structure World where
  registry : Registry
  calls : List Call

/-- A method of the registry, as the service calls it. -/
def onRegistry {α : Type} (method : Java Registry α) : Java World α := fun w =>
  match method w.registry with
  | .ok a s => .ok a { w with registry := s }
  | .error e s => .error e { w with registry := s }

def World.record (call : Call) (w : World) : World := { w with calls := w.calls ++ [call] }

/-- The nodes are looked up first; then each is sent the message, up to a null among them. -/
def sendToConnectNode (from' to' : String) (message : Proto.Message) : Java World Unit := do
  let connectNodeLoads ← onRegistry (getConnectNodeByChannelId to')
  connectNodeLoads.forM fun connectNodeLoad => do
    let r ← Java.nonNull connectNodeLoad
    modify fun w => w.record (.send (w.registry.heap r).id from' to' message)

def handleMessage (messageParser : MessageParser) (from' to' : String) (data : Bytes) :
    Java World Unit := do
  match messageParser.parseMessage data with
  | none => pure ()
  | some message =>
    let filterResult := filter to' message
    if filterResult then
      sendToConnectNode from' to' message
    modify (World.record (.save from' to' message filterResult))
    modify (World.record (.stat from' to' message filterResult))

def eventHandler (nodeId : String) (event : Event) : Java Registry Unit :=
  match event.type with
  | .online => connect nodeId event.channelId event.userId
  | .offline => disconnect nodeId event.channelId event.userId
  | _ => pure ()

def handleEvent (messageParser : MessageParser) (nodeId : String) (data : Bytes) :
    Java World Unit :=
  match messageParser.parseEvent data with
  | none => pure ()
  | some event => onRegistry (eventHandler nodeId event)

end ImSingle.Message
