import ImSingle.Connect.MessageService
import Mathlib.Data.List.Nodup

/-! Who a broadcast reaches. The members of a channel, read off the history of opens and
closes, are tied to the three maps of the hub: session to channel, channel to object, and the
object's clients. -/
namespace ImSingle.Connect
open Library Proto ChannelsHub

/-- The first value of a handshake parameter. -/
def HandshakeData.first (request : HandshakeData) (name : String) : Option String :=
  (request.parameters.lookup name).bind List.head?

/-- The live sessions after a history, each with its `cid`. -/
def liveSessions (past : List Op) : JavaMap String String :=
  past.foldl (fun members op =>
    match op with
    | .connectClient _ request session =>
      match request.first "cid" with
      | some cid => members.insert session cid
      | none => members
    | .channelInactive _ session => members.erase session) ∅

/-- The sessions that have been opened. -/
def openedSessions (past : List Op) : List String :=
  past.filterMap fun
    | .connectClient _ _ session => some session
    | .channelInactive _ _ => none

/-- A new session with `cid` and `uid`, or a close, whose event is taken. -/
def SessionGuard (past : List Op) (_w : World) : Op → Prop
  | .connectClient outside request session => session ∉ openedSessions past ∧
      request.first "cid" ≠ none ∧ request.first "uid" ≠ none ∧ outside.sent = true
  | .channelInactive outside _ => outside.sent = true

instance (past : List Op) (w : World) : DecidablePred (SessionGuard past w) := fun op => by
  cases op <;> unfold SessionGuard <;> infer_instance

theorem SessionGuard.connectClient {past : List Op} {w : World} {outside : Outside}
    {request : HandshakeData} {session : String}
    (hop : SessionGuard past w (.connectClient outside request session)) :
    session ∉ openedSessions past ∧ outside.sent = true ∧
    ∃ cid uid, request.first "cid" = some cid ∧ request.first "uid" = some uid := by
  obtain ⟨hfresh,hcid,huid,hsent⟩ := hop
  obtain ⟨cid,hcid⟩ := Option.ne_none_iff_exists'.mp hcid
  obtain ⟨uid,huid⟩ := Option.ne_none_iff_exists'.mp huid
  exact ⟨hfresh,hsent,cid,uid,hcid,huid⟩

/-! ## What one step does -/

section step
variable {w : World} {outside : Outside} {request : HandshakeData} {session cid uid : String}

theorem firstParameter_run {σ : Type} {s : σ} {name value : String}
    (h : request.first name = some value) :
    (firstParameter request.parameters name : Java σ String).run s = .ok value s := by
  obtain ⟨values,hlookup,hhead⟩ := Option.bind_eq_some_iff.mp h
  obtain ⟨rest,rfl⟩ := List.head?_eq_some_iff.mp hhead
  simp [firstParameter,hlookup]

/-- The hub with the session's channel present and the client not joined yet. -/
def opened (cid session : String) (h : ChannelsHub) : ChannelRef × ChannelsHub :=
  computeIfAbsent cid (putSession session cid h)

/-- The client made for a session. -/
def newClient (w : World) (request : HandshakeData) (cid session : String) : ChannelClient :=
  ⟨w.created.length,request,session,(opened cid session w.hub).1⟩

theorem onHub_run_ok {α : Type} {method : Java ChannelsHub α} {a : α} {h : ChannelsHub}
    (hrun : method.run w.hub = .ok a h) : (onHub method).run w = .ok a { w with hub := h } := by
  have hrun : method w.hub = .ok a h := hrun
  simp [onHub,EStateM.run,hrun]

theorem onHub_run_error {α : Type} {method : Java ChannelsHub α} {e : Exn}
    (hrun : method.run w.hub = .error e w.hub) : (onHub method).run w = .error e w := by
  have hrun : method w.hub = .error e w.hub := hrun
  simp [onHub,EStateM.run,hrun]

theorem announce_run {type : EventType} {client : ChannelClient} (hsent : outside.sent = true)
    (huid : client.handshakeData.first "uid" = some uid) :
    (announce outside type client).run w = .ok () { w with
      events := w.events ++
        [⟨client.getChannelId w.hub,uid,type,outside.currentTimeMillis⟩] } := by
  simp [announce,firstParameter_run huid,sendEvent,hsent]

theorem step_connectClient (hsent : outside.sent = true) (hcid : request.first "cid" = some cid)
    (huid : request.first "uid" = some uid) :
    w.step (.connectClient outside request session) =
      ⟨(newClient w request cid session).join (opened cid session w.hub).2,
        w.created ++ [newClient w request cid session],w.events ++
        [⟨(newClient w request cid session).getChannelId
          ((newClient w request cid session).join (opened cid session w.hub).2),
          uid,.online,outside.currentTimeMillis⟩],w.writes⟩ := by
  have hcreate : (create cid session).run w.hub =
      .ok (opened cid session w.hub).1 (opened cid session w.hub).2 := rfl
  have huid : (newClient w request cid session).handshakeData.first "uid" = some uid := huid
  simp only [World.step,Op.call,connectClient,EStateM.run_bind,firstParameter_run hcid,
    onHub_run_ok hcreate,EStateM.run_get,EStateM.run_modify,onOpen]
  exact congrArg Java.finalState (announce_run hsent huid)

theorem getWebSocketClient_run {h : ChannelsHub} {c : String} {r : ChannelRef}
    (hmap : h.channelMap.lookup session = some c) (hchannel : h.channels.lookup c = some r) :
    (getWebSocketClient session).run h = .ok ((h.clients r).lookup session) h := by
  simp [getWebSocketClient,hmap,hchannel,Java.nonNull]

/-- The hub once a session of channel `c` is destroyed. -/
def destroyed (c session : String) (h : ChannelsHub) : ChannelsHub :=
  if JavaMap.size (h.channelMap.erase session) = 0 then removeChannel c (removeSession session h)
  else removeSession session h

theorem destroy_run {h : ChannelsHub} {c : String}
    (hmap : h.channelMap.lookup session = some c) :
    (destroy session).run h = .ok () (destroyed c session h) := by
  by_cases hsize : JavaMap.size (h.channelMap.erase session) = 0
  · simp [destroy,hmap,destroyed,hsize]
  · simp [destroy,hmap,destroyed,hsize]

theorem step_channelInactive {client : ChannelClient} {c : String} {r : ChannelRef}
    (hsent : outside.sent = true) (hmap : w.hub.channelMap.lookup session = some c)
    (hchannel : w.hub.channels.lookup c = some r)
    (hclient : (w.hub.clients r).lookup session = some client)
    (huid : client.handshakeData.first "uid" = some uid) :
    w.step (.channelInactive outside session) =
      ⟨client.leave (destroyed c session w.hub),w.created,w.events ++
        [⟨client.getChannelId w.hub,uid,.offline,outside.currentTimeMillis⟩],w.writes⟩ := by
  have hget := getWebSocketClient_run hmap hchannel
  rw [hclient] at hget
  have hdestroy (es : List Event) : (onHub (destroy session)).run ⟨w.hub,w.created,es,w.writes⟩ =
      .ok () ⟨destroyed c session w.hub,w.created,es,w.writes⟩ :=
    onHub_run_ok (w := ⟨w.hub,w.created,es,w.writes⟩) (destroy_run hmap)
  simp only [World.step,Op.call,channelInactive,EStateM.run_bind,onHub_run_ok hget,onClose,
    Java.run_nonNull_some,announce_run hsent huid]
  rw [hdestroy]
  rfl

theorem step_channelInactive_unknown (hmap : w.hub.channelMap.lookup session = none) :
    w.step (.channelInactive outside session) = w := by
  have hget : (getWebSocketClient session).run w.hub = .error .nullPointer w.hub := by
    simp [getWebSocketClient,hmap]
  simp [World.step,Op.call,channelInactive,onHub_run_error hget]

end step

/-! ## The hub's maps and the history -/

/-- The session map is the live sessions; a live session's channel has an object with its
client; and the objects of the hub have clients of live sessions only. -/
structure HubInvariant (past : List Op) (w : World) : Prop where
  mapped : w.hub.channelMap = liveSessions past
  joined : ∀ s c, w.hub.channelMap.lookup s = some c → ∃ r client,
    w.hub.channels.lookup c = some r ∧ (w.hub.clients r).lookup s = some client
  channel : ∀ c r, w.hub.channels.lookup c = some r →
    r < w.hub.next ∧ (w.hub.objects r).channelId = c
  member : ∀ c r s client, w.hub.channels.lookup c = some r →
    (w.hub.clients r).lookup s = some client →
    w.hub.channelMap.lookup s = some c ∧ client ∈ w.created ∧ client.session = s ∧
    client.websocketChannel = r
  created : w.created.map ChannelClient.session = openedSessions past
  distinct : (openedSessions past).Nodup
  named : ∀ client ∈ w.created, client.handshakeData.first "uid" ≠ none

theorem hubInvariant_empty : HubInvariant [] World.empty := by
  constructor <;> simp [World.empty,ChannelsHub.empty,liveSessions,openedSessions]

/-! `opened` is `computeIfAbsent` after a `put` into the session map, which it leaves alone. -/

section opening
variable {h : ChannelsHub} {cid session c : String} {r : ChannelRef}

theorem opened_channelMap :
    (opened cid session h).2.channelMap = h.channelMap.insert session cid := by simp [opened]

theorem opened_self :
    (opened cid session h).2.channels.lookup cid = some (opened cid session h).1 := by
  rw [opened,computeIfAbsent_channels,if_pos rfl]

theorem opened_keeps (hr : h.channels.lookup c = some r) :
    (opened cid session h).2.channels.lookup c = some r :=
  computeIfAbsent_keeps (h := putSession session cid h) hr

theorem opened_objects (hr : r < h.next) :
    (opened cid session h).2.objects r = h.objects r :=
  computeIfAbsent_objects (h := putSession session cid h) hr

theorem opened_next : h.next ≤ (opened cid session h).2.next :=
  computeIfAbsent_next (h := putSession session cid h)

theorem opened_old (hc : (opened cid session h).2.channels.lookup c = some r) :
    h.channels.lookup c = some r ∨ c = cid ∧ r = h.next ∧
      (opened cid session h).2.next = h.next + 1 ∧
      (opened cid session h).2.objects r = ⟨cid,∅⟩ :=
  computeIfAbsent_old (h := putSession session cid h) hc

end opening

section invariant
variable {past : List Op} {w : World} {outside : Outside} {request : HandshakeData}
  {session cid uid : String}

/-- An object found in the hub after an open is allocated and has the channel's id. -/
theorem HubInvariant.opened_channel (hinv : HubInvariant past w) {c : String} {r : ChannelRef}
    (hc : (opened cid session w.hub).2.channels.lookup c = some r) :
    r < (opened cid session w.hub).2.next ∧
    ((opened cid session w.hub).2.objects r).channelId = c := by
  rcases opened_old hc with hold | ⟨rfl,rfl,hnext,hobj⟩
  · obtain ⟨hlt,hid⟩ := hinv.channel c r hold
    exact ⟨Nat.lt_of_lt_of_le hlt opened_next,by rw [opened_objects hlt,hid]⟩
  · rw [hnext,hobj]
    exact ⟨Nat.lt_succ_self _,rfl⟩

/-- The clients found in the hub after an open, before the new one joins, were there before. -/
theorem HubInvariant.opened_lookup (hinv : HubInvariant past w) {c s : String} {r : ChannelRef}
    {client : ChannelClient} (hc : (opened cid session w.hub).2.channels.lookup c = some r)
    (hlook : ((opened cid session w.hub).2.clients r).lookup s = some client) :
    w.hub.channels.lookup c = some r ∧ (w.hub.clients r).lookup s = some client := by
  rw [clients] at hlook
  rcases opened_old hc with hold | ⟨rfl,rfl,_,hobj⟩
  · rw [opened_objects (hinv.channel c r hold).1] at hlook
    exact ⟨hold,hlook⟩
  · simp [hobj] at hlook

/-- A session that was never opened has no client in the hub. -/
theorem HubInvariant.not_member (hinv : HubInvariant past w)
    (hfresh : session ∉ openedSessions past) {c : String} {r : ChannelRef}
    (hc : w.hub.channels.lookup c = some r) : (w.hub.clients r).lookup session = none := by
  cases hlook : (w.hub.clients r).lookup session with
  | none => rfl
  | some client =>
    obtain ⟨_,hcreated,hsession,_⟩ := hinv.member c r session client hc hlook
    exact absurd (hinv.created ▸ List.mem_map.mpr ⟨client,hcreated,hsession⟩) hfresh

/-- The client of an open is in the channel it asked for. -/
theorem HubInvariant.newClient_channelId (hinv : HubInvariant past w) :
    (newClient w request cid session).getChannelId
      ((newClient w request cid session).join (opened cid session w.hub).2) = cid := by
  rw [ChannelClient.getChannelId,ChannelClient.join_channelId]
  exact (hinv.opened_channel opened_self).2

/-- The new session's client is found in the object of its own channel only. -/
theorem HubInvariant.joined_lookup_self (hinv : HubInvariant past w)
    (hfresh : session ∉ openedSessions past) {c : String} {r : ChannelRef}
    {client : ChannelClient} (hc : (opened cid session w.hub).2.channels.lookup c = some r)
    (hlook : (((newClient w request cid session).join (opened cid session w.hub).2).clients
      r).lookup session = some client) :
    cid = c ∧ r = (newClient w request cid session).websocketChannel ∧
    client = newClient w request cid session := by
  have hself : (opened cid session w.hub).2.channels.lookup cid =
      some (newClient w request cid session).websocketChannel := opened_self
  by_cases hr : r = (newClient w request cid session).websocketChannel
  · subst hr
    have hid := (hinv.opened_channel hself).2.symm.trans (hinv.opened_channel hc).2
    have hjoined := (newClient w request cid session).join_lookup_self (opened cid session w.hub).2
    exact ⟨hid,rfl,Option.some.inj (hlook.symm.trans hjoined)⟩
  · rw [ChannelClient.join_clients_ne _ _ hr] at hlook
    obtain ⟨hc,hlook⟩ := hinv.opened_lookup hc hlook
    rw [hinv.not_member hfresh hc] at hlook
    cases hlook

/-- A session of the session map is a client of its channel. -/
def Joined (h : ChannelsHub) : Prop := ∀ s c, h.channelMap.lookup s = some c →
  ∃ r client, h.channels.lookup c = some r ∧ (h.clients r).lookup s = some client

theorem Joined.join (hjoined : Joined w.hub)
    (hallocated : ∀ c r, w.hub.channels.lookup c = some r → r < w.hub.next) :
    Joined ((newClient w request cid session).join (opened cid session w.hub).2) := by
  intro s c hs
  by_cases hsession : s = session
  · subst hsession
    obtain rfl : cid = c := by simpa [opened_channelMap] using hs
    exact ⟨_,_,opened_self,(newClient w request cid s).join_lookup_self _⟩
  · rw [ChannelClient.join_channelMap,opened_channelMap,AList.lookup_insert_ne hsession] at hs
    obtain ⟨r,client,hc,hlook⟩ := hjoined s c hs
    refine ⟨r,client,opened_keeps hc,?_⟩
    rw [ChannelClient.join_lookup_session _ _ hsession,clients,
      opened_objects (hallocated c r hc)]
    exact hlook

theorem HubInvariant.connectClient (hinv : HubInvariant past w)
    (hfresh : session ∉ openedSessions past) (hsent : outside.sent = true)
    (hcid : request.first "cid" = some cid) (huid : request.first "uid" = some uid) :
    HubInvariant (past ++ [.connectClient outside request session])
      (w.step (.connectClient outside request session)) := by
  rw [step_connectClient hsent hcid huid]
  set client := newClient w request cid session with hclient
  constructor
  · simp [opened_channelMap,hinv.mapped,liveSessions,hcid]
  · exact Joined.join hinv.joined fun c r hc => (hinv.channel c r hc).1
  · intro c r hc
    simpa using hinv.opened_channel hc
  · intro c r s client' hc hlook
    change (opened cid session w.hub).2.channels.lookup c = some r at hc
    change ((client.join _).clients r).lookup s = some client' at hlook
    by_cases hsession : s = session
    · subst hsession
      obtain ⟨rfl,rfl,rfl⟩ := hinv.joined_lookup_self hfresh hc hlook
      simp [opened_channelMap,hclient,newClient]
    · rw [client.join_lookup_session _ hsession] at hlook
      obtain ⟨hc,hlook⟩ := hinv.opened_lookup hc hlook
      obtain ⟨hmap,hcreated,hs,href⟩ := hinv.member c r s client' hc hlook
      refine ⟨?_,List.mem_append_left _ hcreated,hs,href⟩
      rw [ChannelClient.join_channelMap,opened_channelMap,AList.lookup_insert_ne hsession,hmap]
  · simp [hinv.created,openedSessions,hclient,newClient]
  · have hopened : openedSessions (past ++ [.connectClient outside request session]) =
        (openedSessions past).concat session := by simp [openedSessions]
    rw [hopened]
    exact hinv.distinct.concat hfresh
  · intro client' hmem
    rcases List.mem_append.mp hmem with hold | hnew
    · exact hinv.named client' hold
    · obtain rfl := List.mem_singleton.mp hnew
      simp [hclient,newClient,huid]

@[simp] theorem destroyed_channelMap (h : ChannelsHub) (c : String) :
    (destroyed c session h).channelMap = h.channelMap.erase session := by
  unfold destroyed; split <;> rfl
@[simp] theorem destroyed_objects (h : ChannelsHub) (c : String) :
    (destroyed c session h).objects = h.objects := by
  unfold destroyed; split <;> rfl
@[simp] theorem destroyed_next (h : ChannelsHub) (c : String) :
    (destroyed c session h).next = h.next := by
  unfold destroyed; split <;> rfl

theorem destroyed_channels_le {h : ChannelsHub} {c d : String} {r : ChannelRef}
    (hd : (destroyed c session h).channels.lookup d = some r) : h.channels.lookup d = some r := by
  unfold destroyed at hd
  split at hd
  · by_cases hdc : d = c
    · subst hdc; simp at hd
    · simpa [hdc] using hd
  · exact hd

/-- While another session is in the session map, no channel is removed. -/
theorem destroyed_channels {h : ChannelsHub} {c d s : String}
    (hs : (h.channelMap.erase session).lookup s = some d) :
    (destroyed c session h).channels = h.channels := by
  have hne : JavaMap.size (h.channelMap.erase session) ≠ 0 := by
    intro hsize
    have hmem : d ∈ JavaMap.values (h.channelMap.erase session) := JavaMap.mem_values.mpr ⟨s,hs⟩
    rw [← JavaMap.length_values] at hsize
    exact List.not_mem_nil (List.length_eq_zero_iff.mp hsize ▸ hmem)
  simp [destroyed,hne]

/-- What the invariant says of a live session. -/
theorem HubInvariant.live (hinv : HubInvariant past w) {c : String}
    (hmap : w.hub.channelMap.lookup session = some c) : ∃ r client uid,
      w.hub.channels.lookup c = some r ∧ (w.hub.clients r).lookup session = some client ∧
      client.session = session ∧ client.websocketChannel = r ∧ client ∈ w.created ∧
      client.handshakeData.first "uid" = some uid := by
  obtain ⟨r,client,hc,hlook⟩ := hinv.joined session c hmap
  obtain ⟨_,hcreated,hsession,href⟩ := hinv.member c r session client hc hlook
  obtain ⟨uid,huid⟩ := Option.ne_none_iff_exists'.mp (hinv.named client hcreated)
  exact ⟨r,client,uid,hc,hlook,hsession,href,hcreated,huid⟩

theorem HubInvariant.not_live (hinv : HubInvariant past w)
    (hfresh : session ∉ openedSessions past) : w.hub.channelMap.lookup session = none := by
  cases hmap : w.hub.channelMap.lookup session with
  | none => rfl
  | some c =>
    obtain ⟨_,client,_,_,_,hsession,_,hcreated,_⟩ := hinv.live hmap
    exact absurd (hinv.created ▸ List.mem_map.mpr ⟨client,hcreated,hsession⟩) hfresh

/-- The closed session has no client in the hub: its client was in its own channel only. -/
theorem HubInvariant.left_lookup_self (hinv : HubInvariant past w) {c d : String}
    {client : ChannelClient} {r : ChannelRef}
    (hmap : w.hub.channelMap.lookup client.session = some c)
    (hc : w.hub.channels.lookup c = some client.websocketChannel)
    (hd : w.hub.channels.lookup d = some r) :
    ((client.leave (destroyed c client.session w.hub)).clients r).lookup client.session =
      none := by
  by_cases hr : r = client.websocketChannel
  · subst hr
    exact client.leave_lookup_self _
  · rw [client.leave_clients_ne _ hr,clients,destroyed_objects]
    cases hlook : (w.hub.objects r).clients.lookup client.session with
    | none => rfl
    | some other =>
      have hsame := (hinv.member d r _ other hd hlook).1.symm.trans hmap
      obtain rfl := Option.some.inj hsame
      exact absurd (Option.some.inj (hd.symm.trans hc)) hr

theorem left_lookup_session {h : ChannelsHub} {client : ChannelClient} {c s : String}
    {r : ChannelRef} (hne : s ≠ client.session) :
    ((client.leave (destroyed c session h)).clients r).lookup s = (h.clients r).lookup s := by
  rw [client.leave_lookup_session _ hne,clients,destroyed_objects,clients]

theorem Joined.leave {h : ChannelsHub} {client : ChannelClient} {c : String} (hjoined : Joined h) :
    Joined (client.leave (destroyed c client.session h)) := by
  intro s d hs
  rw [ChannelClient.leave_channelMap,destroyed_channelMap] at hs
  have hne : s ≠ client.session := by
    rintro rfl
    simp at hs
  have hs' : h.channelMap.lookup s = some d := by rwa [AList.lookup_erase_ne hne] at hs
  obtain ⟨r,other,hd,hlook⟩ := hjoined s d hs'
  refine ⟨r,other,?_,?_⟩
  · rw [ChannelClient.leave_channels,destroyed_channels hs]
    exact hd
  · rw [left_lookup_session hne]
    exact hlook

theorem HubInvariant.channelInactive (hinv : HubInvariant past w)
    (hsent : outside.sent = true) : HubInvariant (past ++ [.channelInactive outside session])
      (w.step (.channelInactive outside session)) := by
  have hopened : openedSessions (past ++ [.channelInactive outside session]) =
      openedSessions past := by simp [openedSessions]
  have hlive : liveSessions (past ++ [.channelInactive outside session]) =
      w.hub.channelMap.erase session := by simp [hinv.mapped,liveSessions]
  cases hmap : w.hub.channelMap.lookup session with
  | none =>
    rw [step_channelInactive_unknown hmap]
    rw [JavaMap.erase_of_lookup_eq_none hmap] at hlive
    exact { hinv with
      mapped := hlive.symm
      created := hopened ▸ hinv.created
      distinct := hopened ▸ hinv.distinct }
  | some c =>
    obtain ⟨r,client,uid,hc,hlook,rfl,rfl,_,huid⟩ := hinv.live hmap
    rw [step_channelInactive hsent hmap hc hlook huid]
    constructor
    · simp [hlive]
    · exact Joined.leave hinv.joined
    · intro d r hd
      simpa using hinv.channel d r (destroyed_channels_le hd)
    · intro d r s client' hd hlook'
      replace hd : w.hub.channels.lookup d = some r := destroyed_channels_le hd
      change ((client.leave _).clients r).lookup s = some client' at hlook'
      have hne : s ≠ client.session := by
        rintro rfl
        rw [hinv.left_lookup_self hmap hc hd] at hlook'
        cases hlook'
      rw [left_lookup_session hne] at hlook'
      obtain ⟨hs,hrest⟩ := hinv.member d r s client' hd hlook'
      refine ⟨?_,hrest⟩
      rw [ChannelClient.leave_channelMap,destroyed_channelMap,AList.lookup_erase_ne hne,hs]
    · rw [hopened]; exact hinv.created
    · rw [hopened]; exact hinv.distinct
    · exact hinv.named

end invariant

/-! ## Broadcasts -/

/-- For each live session the hub finds the one client made for it, in its channel; and a
message for a channel is written once to each client of a live session of the channel, and to
no other client. -/
def MembersReached (past : List Op) (w : World) : Prop :=
  (∀ s c, (liveSessions past).lookup s = some c → ∃ client ∈ w.created, client.session = s ∧
    (∀ other ∈ w.created, other.session = s → other = client) ∧
    (getWebSocketClient s).run w.hub = .ok (some client) w.hub ∧
    client.getChannelId w.hub = c) ∧
  ∀ parseMessage currentTimeMillis from' c data message, parseMessage data = some message →
    ∃ receivers : List ChannelClient,
      (handlerMessage parseMessage currentTimeMillis from' (some c) data).run w = .ok ()
        { w with writes := w.writes ++ receivers.map fun client =>
          (client,⟨.message,currentTimeMillis,some message,none⟩) } ∧
      receivers.Nodup ∧
      ∀ client, client ∈ receivers ↔
        client ∈ w.created ∧ (liveSessions past).lookup client.session = some c

section broadcast
variable {past : List Op} {w : World} {c : String} {packet : Packet}

lemma writeAll_run (receivers : List ChannelClient) (ws : List (ChannelClient × Packet)) :
    (receivers.forM fun client => (modify fun w =>
      { w with writes := w.writes ++ [(client,packet)] } : Java World Unit)).run
        { w with writes := ws } =
      .ok () { w with writes := ws ++ (receivers.map fun client => (client,packet)) } := by
  induction receivers generalizing ws with
  | nil => simp
  | cons client receivers ih =>
    have h := ih (ws ++ [(client,packet)])
    rw [List.append_assoc] at h
    exact h

theorem broadcast_run {r : ChannelRef} (hc : w.hub.channels.lookup c = some r) :
    (broadcast (some c) packet).run w = .ok () { w with writes := w.writes ++
      ((JavaMap.values (w.hub.clients r)).map fun client => (client,packet)) } := by
  simp only [broadcast,find,Option.bind_some,EStateM.run_bind,EStateM.run_get,hc]
  exact writeAll_run _ w.writes

theorem broadcast_run_none (hc : w.hub.channels.lookup c = none) :
    (broadcast (some c) packet).run w = .ok () w := by
  simp [broadcast,find,hc]

theorem HubInvariant.session_unique (hinv : HubInvariant past w) {client other : ChannelClient}
    (hclient : client ∈ w.created) (hother : other ∈ w.created)
    (h : other.session = client.session) : other = client :=
  List.inj_on_of_nodup_map (hinv.created ▸ hinv.distinct) hother hclient h

theorem HubInvariant.membersReached (hinv : HubInvariant past w) : MembersReached past w := by
  constructor
  · intro s c hs
    rw [← hinv.mapped] at hs
    obtain ⟨r,client,uid,hc,hlook,rfl,rfl,hcreated,_⟩ := hinv.live hs
    refine ⟨client,hcreated,rfl,fun other hother => hinv.session_unique hcreated hother,?_,?_⟩
    · rw [getWebSocketClient_run hs hc,hlook]
    · exact (hinv.channel c _ hc).2
  · intro parseMessage currentTimeMillis from' c data message hparse
    rw [← hinv.mapped]
    simp only [handlerMessage,hparse]
    cases hc : w.hub.channels.lookup c with
    | none =>
      refine ⟨[],by simpa using broadcast_run_none hc,List.nodup_nil,fun client => ?_⟩
      refine iff_of_false List.not_mem_nil fun ⟨_,hs⟩ => ?_
      obtain ⟨r,_,hr,_⟩ := hinv.joined _ c hs
      rw [hc] at hr
      cases hr
    | some r =>
      refine ⟨_,broadcast_run hc,?_,fun client => ?_⟩
      · exact JavaMap.nodup_values ChannelClient.session fun s client hlook =>
          (hinv.member c r s client hc hlook).2.2.1
      · rw [JavaMap.mem_values]
        constructor
        · rintro ⟨s,hlook⟩
          obtain ⟨hs,hcreated,rfl,_⟩ := hinv.member c r s client hc hlook
          exact ⟨hcreated,hs⟩
        · rintro ⟨hcreated,hs⟩
          obtain ⟨r',client',_,hc',hlook,hsession,_,hcreated',_⟩ := hinv.live hs
          obtain rfl := hinv.session_unique hcreated hcreated' hsession
          obtain rfl := Option.some.inj (hc'.symm.trans hc)
          exact ⟨_,hlook⟩

end broadcast

theorem HubInvariant.step {past : List Op} {w : World} (hinv : HubInvariant past w) {op : Op}
    (hop : SessionGuard past w op) : HubInvariant (past ++ [op]) (w.step op) := by
  cases op with
  | connectClient outside request session =>
    obtain ⟨hfresh,hsent,cid,uid,hcid,huid⟩ := hop.connectClient
    exact hinv.connectClient hfresh hsent hcid huid
  | channelInactive outside session => exact hinv.channelInactive hop

/-- The invariant holds after every run of guarded opens and closes. -/
theorem hubInvariant_after {ops : List Op} (h : hub.Meets SessionGuard ops) :
    HubInvariant ops (hub.after ops) :=
  Machine.invariant hubInvariant_empty (fun _ _ _ hinv hop => hinv.step hop) h

/-- In every state between guarded opens and closes, a broadcast reaches exactly the members. -/
theorem membersReached_after (ops : List Op) (h : hub.Meets SessionGuard ops) :
    MembersReached ops (hub.after ops) :=
  (hubInvariant_after h).membersReached

/-- A handshake for a channel and a user. -/
def handshake (cid uid : String) : HandshakeData :=
  ⟨((∅ : JavaMap String (List String)).insert "cid" [cid]).insert "uid" [uid],"/"⟩

theorem membersReached_two :
    let ops := [.connectClient ⟨0,true⟩ (handshake "c" "u") "s",
      .connectClient ⟨0,true⟩ (handshake "d" "v") "t",.channelInactive ⟨0,true⟩ "s"]
    MembersReached ops (hub.after ops) :=
  membersReached_after _ (by decide)

end ImSingle.Connect
