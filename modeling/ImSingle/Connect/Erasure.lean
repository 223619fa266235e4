import ImSingle.Connect.MessageService
import ImSingle.Library.Image

/-! Of a handshake's query a connect node uses `cid` and `uid`. With everything else forgotten,
the token and its time among it, the node does the same. -/
namespace ImSingle.Connect
open Library Proto ChannelsHub

/-- The handshake with no other parameter and without its URI. -/
def HandshakeData.erase (data : HandshakeData) : HandshakeData where
  parameters := ["cid","uid"].foldl (fun kept name =>
    match data.parameters.lookup name with
    | some values => kept.insert name values
    | none => kept) ∅
  uri := ""

@[simps] def ChannelClient.erase (client : ChannelClient) : ChannelClient :=
  { client with handshakeData := client.handshakeData.erase }

@[simps] def WebsocketChannel.erase (channel : WebsocketChannel) : WebsocketChannel :=
  { channel with clients := channel.clients.mapValues ChannelClient.erase }

@[simps] def ChannelsHub.erase (h : ChannelsHub) : ChannelsHub :=
  { h with objects := fun r => (h.objects r).erase }

@[simps] def World.erase (w : World) : World where
  hub := w.hub.erase
  created := w.created.map ChannelClient.erase
  events := w.events
  writes := w.writes.map (Prod.map ChannelClient.erase id)

def Op.erase : Op → Op
  | .connectClient outside request session => .connectClient outside request.erase session
  | .channelInactive outside session => .channelInactive outside session

/-! ## The hub -/

section hub
variable (data : HandshakeData) (client : ChannelClient) (h : ChannelsHub)

theorem HandshakeData.lookup_erase {name : String} (hname : name = "cid" ∨ name = "uid") :
    data.erase.parameters.lookup name = data.parameters.lookup name := by
  simp only [HandshakeData.erase,List.foldl_cons,List.foldl_nil]
  obtain rfl | rfl := hname
  · cases hcid : data.parameters.lookup "cid" <;> cases data.parameters.lookup "uid" <;>
      simp [-AList.insert_empty]
  · cases huid : data.parameters.lookup "uid" <;> cases data.parameters.lookup "cid" <;>
      simp [-AList.insert_empty]

@[simp] theorem ChannelsHub.clients_erase (r : ChannelRef) :
    h.erase.clients r = (h.clients r).mapValues ChannelClient.erase := rfl

theorem ChannelsHub.erase_update (r : ChannelRef) (channel : WebsocketChannel) :
    (fun r' => (Function.update h.objects r channel r').erase) =
      Function.update (fun r' => (h.objects r').erase) r channel.erase := by
  funext r'
  exact Function.apply_update (fun _ => WebsocketChannel.erase) h.objects r channel r'

theorem ChannelsHub.setClients_erase (r : ChannelRef) (clients : JavaMap String ChannelClient) :
    setClients r (clients.mapValues ChannelClient.erase) h.erase =
      (setClients r clients h).erase := by
  rw [setClients,setClients,ChannelsHub.erase,ChannelsHub.erase,erase_update]
  rfl

theorem ChannelClient.join_erase : client.erase.join h.erase = (client.join h).erase := by
  rw [join,join,← setClients_erase,← JavaMap.insert_mapValues]
  rfl

theorem ChannelClient.leave_erase : client.erase.leave h.erase = (client.leave h).erase := by
  rw [leave,leave,← setClients_erase,← JavaMap.erase_mapValues]
  rfl

theorem ChannelsHub.computeIfAbsent_erase (channelId : String) :
    computeIfAbsent channelId h.erase =
      ((computeIfAbsent channelId h).1,(computeIfAbsent channelId h).2.erase) := by
  cases hr : h.channels.lookup channelId with
  | some r => rw [computeIfAbsent_of_some hr,computeIfAbsent_of_some (h := h.erase) hr]
  | none =>
    rw [computeIfAbsent_of_none hr,computeIfAbsent_of_none (h := h.erase) hr]
    simp only [ChannelsHub.erase,erase_update]
    rfl

end hub

section calls
open Java
variable {outside : Outside}

theorem maps_create (channelId sessionId : String) :
    Maps ChannelsHub.erase id (create channelId sessionId) (create channelId sessionId) := by
  apply Maps.bind (G := id)
  · exact maps_modify fun h => rfl
  · exact fun _ => maps_modifyGet fun h => h.computeIfAbsent_erase channelId

theorem maps_destroy (sessionId : String) :
    Maps ChannelsHub.erase id (destroy sessionId) (destroy sessionId) := by
  have hremove : Maps ChannelsHub.erase id (modify (removeSession sessionId))
      (modify (removeSession sessionId)) := maps_modify fun _ => rfl
  apply maps_get.bind
  intro h
  apply hremove.bind
  intro _
  apply maps_get.bind
  intro h'
  dsimp only
  rw [erase_channelMap,erase_channelMap]
  cases h.channelMap.lookup sessionId with
  | none => exact maps_pure ()
  | some channelId =>
    dsimp only
    split_ifs
    · exact maps_modify fun _ => rfl
    · exact maps_pure ()

theorem maps_getWebSocketClient (sessionId : String) :
    Maps ChannelsHub.erase (Option.map ChannelClient.erase) (getWebSocketClient sessionId)
      (getWebSocketClient sessionId) := by
  apply maps_get.bind
  intro h
  apply (maps_nonNull (G := id) (Option.map_id_apply ..)).bind
  intro channelId
  apply (maps_nonNull (G := id) (Option.map_id_apply ..)).bind
  intro websocketChannel
  have hlookup := JavaMap.lookup_mapValues ChannelClient.erase (h.clients websocketChannel)
    sessionId
  rw [id,clients_erase,hlookup]
  exact maps_pure _

theorem maps_onHub {α β : Type} {G : α → β} {method : Java ChannelsHub α}
    {method' : Java ChannelsHub β} (h : Maps ChannelsHub.erase G method method') :
    Maps World.erase G (onHub method) (onHub method') := by
  intro w
  have hrun : method' w.hub.erase = image ChannelsHub.erase G (method w.hub) := h w.hub
  change onHub method' w.erase = image World.erase G (onHub method w)
  rw [onHub,onHub,World.erase_hub,hrun]
  cases method w.hub <;> rfl

/-! ## The node -/

theorem maps_firstParameter (data : HandshakeData) {name : String}
    (hname : name = "cid" ∨ name = "uid") :
    Maps World.erase id (firstParameter data.parameters name)
      (firstParameter data.erase.parameters name) := by
  rw [firstParameter,firstParameter,data.lookup_erase hname]
  apply (maps_nonNull (G := id) (Option.map_id_apply ..)).bind
  intro values
  cases values with
  | nil => exact maps_throw _
  | cons value values => exact maps_pure value

theorem maps_sendEvent (event : Event) :
    Maps World.erase id (sendEvent outside event) (sendEvent outside event) := by
  rw [sendEvent]
  split_ifs
  · exact maps_modify fun _ => rfl
  · exact maps_throw _

theorem maps_announce (type : EventType) (client : ChannelClient) :
    Maps World.erase id (announce outside type client) (announce outside type client.erase) := by
  apply (maps_firstParameter client.handshakeData (.inr rfl)).bind
  intro uid
  apply maps_get.bind
  intro w
  exact maps_sendEvent _

theorem maps_connectClient (request : HandshakeData) (session : String) :
    Maps World.erase id (connectClient outside request session)
      (connectClient outside request.erase session) := by
  apply (maps_firstParameter request (.inl rfl)).bind
  intro cid
  apply (maps_onHub (maps_create cid session)).bind
  intro websocketChannel
  apply maps_get.bind
  intro w
  have hlength : w.erase.created.length = w.created.length := List.length_map ..
  rw [hlength]
  let client : ChannelClient := ⟨w.created.length,request,session,websocketChannel⟩
  have hcreated : Maps World.erase id
      (modify fun w' => { w' with created := w'.created ++ [client] })
      (modify fun w' => { w' with created := w'.created ++ [client.erase] }) := by
    apply maps_modify
    intro w'
    simp only [World.erase,List.map_append]
    rfl
  have hjoin : Maps World.erase id
      (modify fun w' => { w' with hub := client.join w'.hub })
      (modify fun w' => { w' with hub := client.erase.join w'.hub }) := by
    apply maps_modify
    intro w'
    simp only [World.erase]
    rw [← client.join_erase]
  apply hcreated.bind
  intro _
  apply hjoin.bind
  intro _
  exact maps_announce .online client

theorem maps_channelInactive (session : String) :
    Maps World.erase id (channelInactive outside session) (channelInactive outside session) := by
  have hclose (client : Option ChannelClient) : Maps World.erase id (onClose outside client)
      (onClose outside (client.map ChannelClient.erase)) := by
    apply (maps_nonNull rfl).bind
    exact maps_announce .offline
  have hleave (client : ChannelClient) : Maps World.erase id
      (modify fun w => { w with hub := client.leave w.hub })
      (modify fun w => { w with hub := client.erase.leave w.hub }) := by
    apply maps_modify
    intro w
    simp only [World.erase]
    rw [← ChannelClient.leave_erase]
  apply (maps_onHub (maps_getWebSocketClient session)).bind
  intro webSocketClient
  apply (hclose webSocketClient).bind
  intro _
  apply (maps_onHub (maps_destroy session)).bind
  intro _
  apply (maps_nonNull rfl).bind
  exact hleave

theorem World.step_erase (w : World) (op : Op) : (w.step op).erase = w.erase.step op.erase := by
  cases op with
  | connectClient outside request session =>
    exact ((maps_connectClient request session).finalState w).symm
  | channelInactive outside session => exact ((maps_channelInactive session).finalState w).symm

theorem maps_broadcast (channelId : Option String) (packet : Packet) :
    Maps World.erase id (broadcast channelId packet) (broadcast channelId packet) := by
  apply maps_get.bind
  intro w
  have hfind : w.erase.hub.find channelId = w.hub.find channelId := rfl
  simp only [hfind]
  cases w.hub.find channelId with
  | none => exact maps_pure ()
  | some websocketChannel =>
    have hvalues : JavaMap.values (w.erase.hub.clients websocketChannel) =
        (JavaMap.values (w.hub.clients websocketChannel)).map ChannelClient.erase :=
      JavaMap.values_mapValues ..
    dsimp only
    rw [hvalues]
    apply maps_forM
    intro client
    apply maps_modify
    intro w'
    simp only [World.erase,List.map_append]
    rfl

theorem maps_handlerMessage (parseMessage : Bytes → Option Message) (currentTimeMillis : Int64)
    (from' : String) (to' : Option String) (data : Bytes) :
    Maps World.erase id (handlerMessage parseMessage currentTimeMillis from' to' data)
      (handlerMessage parseMessage currentTimeMillis from' to' data) := by
  rw [handlerMessage]
  cases parseMessage data with
  | none => exact maps_pure ()
  | some message => exact maps_broadcast _ _

end calls
end ImSingle.Connect
