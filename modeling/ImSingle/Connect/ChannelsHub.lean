import ImSingle.Library.Java
import Mathlib.Logic.Function.Basic
import Mathlib.Tactic.Simps.Basic

/-! The hub of a connect node (`ChannelsHub`): which channel each session is in, which channel
objects there are, and which clients each object has. A client keeps a reference to the object
it joined, which need not be in the hub any more. -/
namespace ImSingle.Connect
open Library

structure HandshakeData where
  parameters : JavaMap String (List String)
  uri : String

/-- The identity of a `WebsocketChannel` object. -/
abbrev ChannelRef := ℕ

/-- A client, with the identity `ref` of the object and its session, the Netty channel's id. -/
structure ChannelClient where
  ref : ℕ
  handshakeData : HandshakeData
  session : String
  websocketChannel : ChannelRef

structure WebsocketChannel where
  channelId : String
  clients : JavaMap String ChannelClient := ∅

/-- The two maps of the hub, with the channel objects: `objects r` is the object `r`, and the
references from `next` on are not allocated yet. -/
structure ChannelsHub where
  objects : ChannelRef → WebsocketChannel
  next : ChannelRef
  channels : JavaMap String ChannelRef
  channelMap : JavaMap String String

namespace ChannelsHub

def empty : ChannelsHub := ⟨fun _ => ⟨"",∅⟩,0,∅,∅⟩

/-! ## Operations of the concurrent maps -/

/-- `channelMap.put(..)`. -/
@[simps] def putSession (sessionId channelId : String) (h : ChannelsHub) : ChannelsHub :=
  { h with channelMap := h.channelMap.insert sessionId channelId }

/-- `channelMap.remove(..)`. -/
@[simps] def removeSession (sessionId : String) (h : ChannelsHub) : ChannelsHub :=
  { h with channelMap := h.channelMap.erase sessionId }

/-- `channels.computeIfAbsent(.., WebsocketChannel::new)`. -/
def computeIfAbsent (channelId : String) (h : ChannelsHub) : ChannelRef × ChannelsHub :=
  match h.channels.lookup channelId with
  | some r => (r,h)
  | none => (h.next, { h with
      objects := Function.update h.objects h.next ⟨channelId,∅⟩
      next := h.next + 1
      channels := h.channels.insert channelId h.next })

/-- `channels.remove(..)`. -/
@[simps] def removeChannel (channelId : String) (h : ChannelsHub) : ChannelsHub :=
  { h with channels := h.channels.erase channelId }

/-- The clients of a channel object. -/
def clients (h : ChannelsHub) (r : ChannelRef) : JavaMap String ChannelClient :=
  (h.objects r).clients

@[simps next channels channelMap]
def setClients (r : ChannelRef) (clients : JavaMap String ChannelClient) (h : ChannelsHub) :
    ChannelsHub :=
  { h with objects := Function.update h.objects r { h.objects r with clients := clients } }

/-! ## Methods -/

def create (channelId sessionId : String) : Java ChannelsHub ChannelRef := do
  modify (putSession sessionId channelId)
  modifyGet (computeIfAbsent channelId)

/-- The size is that of the whole session map. -/
def destroy (sessionId : String) : Java ChannelsHub Unit := do
  let channelId := (← get).channelMap.lookup sessionId
  modify (removeSession sessionId)
  let size := JavaMap.size (← get).channelMap
  match channelId with
  | some channelId => if size = 0 then modify (removeChannel channelId)
  | none => pure ()

/-- `get(channelId)`, null for a null id. -/
def find (h : ChannelsHub) (channelId : Option String) : Option ChannelRef :=
  channelId.bind h.channels.lookup

def getChannelBySessionId (h : ChannelsHub) (sessionId : String) : Option String :=
  h.channelMap.lookup sessionId

/-- A session that is in no channel makes `channels.get(null)` throw. -/
def getWebSocketClient (sessionId : String) : Java ChannelsHub (Option ChannelClient) := do
  let h ← get
  let channelId ← Java.nonNull (h.channelMap.lookup sessionId)
  let websocketChannel ← Java.nonNull (h.channels.lookup channelId)
  pure ((h.clients websocketChannel).lookup sessionId)

end ChannelsHub
open ChannelsHub

namespace ChannelClient

def getChannelId (client : ChannelClient) (h : ChannelsHub) : String :=
  (h.objects client.websocketChannel).channelId

/-- `websocketChannel.join(this)`. -/
def join (client : ChannelClient) (h : ChannelsHub) : ChannelsHub :=
  setClients client.websocketChannel
    ((h.clients client.websocketChannel).insert client.session client) h

/-- `websocketChannel.leave(this)`. -/
def leave (client : ChannelClient) (h : ChannelsHub) : ChannelsHub :=
  setClients client.websocketChannel
    ((h.clients client.websocketChannel).erase client.session) h

end ChannelClient

/-! ## Frame lemmas -/

namespace ChannelsHub
variable (h : ChannelsHub) (r r' : ChannelRef) (c sessionId : String)
  (cs : JavaMap String ChannelClient)

@[simp] theorem setClients_channelId :
    ((setClients r cs h).objects r').channelId = (h.objects r').channelId := by
  by_cases hr : r' = r
  · subst hr; simp [setClients]
  · simp [setClients,hr]

theorem clients_setClients :
    (setClients r cs h).clients r' = if r' = r then cs else h.clients r' := by
  by_cases hr : r' = r
  · subst hr; simp [setClients,clients]
  · simp [setClients,clients,hr]

@[simp] theorem computeIfAbsent_channelMap :
    (computeIfAbsent c h).2.channelMap = h.channelMap := by
  unfold computeIfAbsent; split <;> rfl

end ChannelsHub

/-! ## The channel object of a session -/

namespace ChannelsHub
variable {h : ChannelsHub} {cid c : String} {r : ChannelRef}

theorem computeIfAbsent_of_some (hr : h.channels.lookup c = some r) :
    computeIfAbsent c h = (r,h) := by simp [computeIfAbsent,hr]

theorem computeIfAbsent_of_none (hr : h.channels.lookup c = none) :
    computeIfAbsent c h = (h.next, { h with
      objects := Function.update h.objects h.next ⟨c,∅⟩
      next := h.next + 1
      channels := h.channels.insert c h.next }) := by simp [computeIfAbsent,hr]

theorem computeIfAbsent_channels : (computeIfAbsent cid h).2.channels.lookup c =
    if c = cid then some (computeIfAbsent cid h).1 else h.channels.lookup c := by
  cases hr : h.channels.lookup cid with
  | some r =>
    rw [computeIfAbsent_of_some hr]
    split
    · next hc => rw [hc]; exact hr
    · rfl
  | none =>
    rw [computeIfAbsent_of_none hr]
    by_cases hc : c = cid
    · subst hc; simp
    · simp [hc]

theorem computeIfAbsent_keeps (hr : h.channels.lookup c = some r) :
    (computeIfAbsent cid h).2.channels.lookup c = some r := by
  rw [computeIfAbsent_channels]
  split
  · next hc => rw [← hc,computeIfAbsent_of_some hr]
  · exact hr

theorem computeIfAbsent_next : h.next ≤ (computeIfAbsent cid h).2.next := by
  cases hr : h.channels.lookup cid with
  | some r => rw [computeIfAbsent_of_some hr]
  | none => rw [computeIfAbsent_of_none hr]; exact Nat.le_succ _

/-- Objects there were are left as they are. -/
theorem computeIfAbsent_objects (hr : r < h.next) :
    (computeIfAbsent cid h).2.objects r = h.objects r := by
  cases hcid : h.channels.lookup cid with
  | some r' => rw [computeIfAbsent_of_some hcid]
  | none =>
    rw [computeIfAbsent_of_none hcid]
    exact Function.update_of_ne (Nat.ne_of_lt hr) _ _

/-- The channel's object is the one there was, or a new one without clients. -/
theorem computeIfAbsent_ref (h : ChannelsHub) (cid : String) :
    h.channels.lookup cid = some (computeIfAbsent cid h).1 ∨
    (computeIfAbsent cid h).1 = h.next ∧ (computeIfAbsent cid h).2.next = h.next + 1 ∧
    (computeIfAbsent cid h).2.objects h.next = ⟨cid,∅⟩ := by
  cases hcid : h.channels.lookup cid with
  | some r => rw [computeIfAbsent_of_some hcid]; exact .inl rfl
  | none =>
    rw [computeIfAbsent_of_none hcid]
    exact .inr ⟨rfl,rfl,Function.update_self _ _ _⟩

/-- An object found in the hub afterwards was there before, or is the channel's own. -/
theorem computeIfAbsent_old (hc : (computeIfAbsent cid h).2.channels.lookup c = some r) :
    h.channels.lookup c = some r ∨ c = cid ∧ r = h.next ∧
      (computeIfAbsent cid h).2.next = h.next + 1 ∧
      (computeIfAbsent cid h).2.objects r = ⟨cid,∅⟩ := by
  rw [computeIfAbsent_channels] at hc
  split at hc
  · next heq =>
    obtain rfl := Option.some.inj hc
    rcases computeIfAbsent_ref h cid with hold | ⟨href,hnext,hobj⟩
    · exact .inl (heq ▸ hold)
    · exact .inr ⟨heq,href,hnext,href ▸ hobj⟩
  · exact .inl hc

end ChannelsHub

namespace ChannelClient
variable (client : ChannelClient) (h : ChannelsHub) {r : ChannelRef} {s : String}

@[simp] theorem join_channels : (client.join h).channels = h.channels := rfl
@[simp] theorem join_channelMap : (client.join h).channelMap = h.channelMap := rfl
@[simp] theorem join_next : (client.join h).next = h.next := rfl
@[simp] theorem leave_channels : (client.leave h).channels = h.channels := rfl
@[simp] theorem leave_channelMap : (client.leave h).channelMap = h.channelMap := rfl
@[simp] theorem leave_next : (client.leave h).next = h.next := rfl

@[simp] theorem join_channelId :
    ((client.join h).objects r).channelId = (h.objects r).channelId := by simp [join]
@[simp] theorem leave_channelId :
    ((client.leave h).objects r).channelId = (h.objects r).channelId := by simp [leave]

theorem join_lookup_self :
    ((client.join h).clients client.websocketChannel).lookup client.session = some client := by
  simp [join,clients_setClients]

theorem join_lookup_session (hs : s ≠ client.session) :
    ((client.join h).clients r).lookup s = (h.clients r).lookup s := by
  rw [join,clients_setClients]
  split
  · next hr => rw [hr,AList.lookup_insert_ne hs]
  · rfl

theorem join_clients_ne (hr : r ≠ client.websocketChannel) :
    (client.join h).clients r = h.clients r := by
  rw [join,clients_setClients,if_neg hr]

theorem leave_lookup_self :
    ((client.leave h).clients client.websocketChannel).lookup client.session = none := by
  simp [leave,clients_setClients]

theorem leave_lookup_session (hs : s ≠ client.session) :
    ((client.leave h).clients r).lookup s = (h.clients r).lookup s := by
  rw [leave,clients_setClients]
  split
  · next hr => rw [hr,AList.lookup_erase_ne hs]
  · rfl

theorem leave_clients_ne (hr : r ≠ client.websocketChannel) :
    (client.leave h).clients r = h.clients r := by
  rw [leave,clients_setClients,if_neg hr]

end ChannelClient
end ImSingle.Connect
