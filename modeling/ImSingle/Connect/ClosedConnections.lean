import ImSingle.Connect.Membership

/-! What a closed connection leaves behind, whatever its handshake asked for and whether or not
its events are taken. `channelInactive` calls the listener before it clears the hub, so a
listener that throws leaves the session in the session map and in its channel. -/
namespace ImSingle.Connect
open Library Proto ChannelsHub

/-- The sessions whose `channelInactive` has run, returned or thrown, and that were not opened
again since. -/
def closedSessions (past : List Op) : List String :=
  past.foldl (fun closed op =>
    match op with
    | .connectClient _ _ session => closed.filter fun s => s ≠ session
    | .channelInactive _ session => session :: closed) []

/-- The session map does not have the session, no channel of the hub has it among its clients,
and no broadcast writes to it. -/
structure NoTrace (session : String) (w : World) : Prop where
  unmapped : w.hub.channelMap.lookup session = none
  left : ∀ r ∈ JavaMap.values w.hub.channels, (w.hub.clients r).lookup session = none
  unwritten : ∀ channelId packet, ∃ receivers : List ChannelClient,
    (broadcast channelId packet).run w = .ok ()
      { w with writes := w.writes ++ receivers.map fun client => (client,packet) } ∧
    ∀ client ∈ receivers, client.session ≠ session

def NoTraces (past : List Op) (w : World) : Prop :=
  ∀ session ∈ closedSessions past, NoTrace session w

/-- Each client the closing session has in the hub is in the channel that the session map names,
its handshake had a `uid`, and the event is taken. -/
def ClosesCleanly (_past : List Op) (w : World) : Op → Prop
  | .channelInactive outside session =>
    ∀ r ∈ JavaMap.values w.hub.channels, ∀ client ∈ (w.hub.clients r).lookup session,
      w.hub.find (w.hub.channelMap.lookup session) = some r ∧
      client.handshakeData.first "uid" ≠ none ∧ outside.sent = true
  | .connectClient _ _ _ => True

instance (past : List Op) (w : World) : DecidablePred (ClosesCleanly past w) := fun op =>
  match op with
  | .channelInactive _ _ => by unfold ClosesCleanly; infer_instance
  | .connectClient _ _ _ => .isTrue trivial

/-! ## What a step makes of the hub -/

section step
variable {w : World} {outside : Outside} {request : HandshakeData} {session cid : String}
  {client : ChannelClient}

theorem firstParameter_throws {σ : Type} {s : σ} {name : String}
    (h : request.first name = none) :
    ∃ e, (firstParameter request.parameters name : Java σ String).run s = .error e s := by
  cases hlookup : request.parameters.lookup name with
  | none => exact ⟨.nullPointer,by simp [firstParameter,hlookup]⟩
  | some values =>
    cases values with
    | nil =>
      refine ⟨.indexOutOfBounds,?_⟩
      simp only [firstParameter,hlookup,EStateM.run_bind,Java.run_nonNull_some]
      rfl
    | cons value rest => simp [HandshakeData.first,hlookup] at h

theorem announce_throws (type : EventType)
    (h : client.handshakeData.first "uid" = none ∨ outside.sent = false) :
    ∃ e, (announce outside type client).run w = .error e w := by
  cases huid : client.handshakeData.first "uid" with
  | none =>
    obtain ⟨e,he⟩ := firstParameter_throws (s := w) huid
    exact ⟨e,by simp [announce,he]⟩
  | some uid =>
    have hsent : outside.sent = false := h.resolve_left (by simp [huid])
    exact ⟨.external,by simp [announce,firstParameter_run huid,sendEvent,hsent]⟩

theorem announce_hub {type : EventType} :
    (Java.finalState ((announce outside type client).run w)).hub = w.hub := by
  by_cases h : client.handshakeData.first "uid" = none ∨ outside.sent = false
  · obtain ⟨e,he⟩ := announce_throws (w := w) type h
    rw [he]
    rfl
  · rw [not_or] at h
    obtain ⟨uid,huid⟩ := Option.ne_none_iff_exists'.mp h.1
    rw [announce_run (by simpa using h.2) huid]
    rfl

theorem hub_connectClient_none (hcid : request.first "cid" = none) :
    (w.step (.connectClient outside request session)).hub = w.hub := by
  obtain ⟨e,he⟩ := firstParameter_throws (s := w) hcid
  simp [World.step,Op.call,connectClient,he]

/-- Once the handshake has a `cid`, the client is in the hub whether or not the listener
throws. -/
theorem hub_connectClient (hcid : request.first "cid" = some cid) :
    (w.step (.connectClient outside request session)).hub =
      (newClient w request cid session).join (opened cid session w.hub).2 := by
  have hcreate : (create cid session).run w.hub =
      .ok (opened cid session w.hub).1 (opened cid session w.hub).2 := rfl
  simp only [World.step,Op.call,connectClient,EStateM.run_bind,firstParameter_run hcid,
    onHub_run_ok hcreate,EStateM.run_get,EStateM.run_modify,onOpen]
  exact announce_hub

/-- A listener that throws leaves the hub as it is. -/
theorem hub_channelInactive_throws {c : String} {r : ChannelRef}
    (hmap : w.hub.channelMap.lookup session = some c)
    (hchannel : w.hub.channels.lookup c = some r)
    (hclient : (w.hub.clients r).lookup session = some client)
    (h : client.handshakeData.first "uid" = none ∨ outside.sent = false) :
    (w.step (.channelInactive outside session)).hub = w.hub := by
  have hget := getWebSocketClient_run hmap hchannel
  rw [hclient] at hget
  obtain ⟨e,he⟩ := announce_throws (w := w) .offline h
  simp [World.step,Op.call,channelInactive,onHub_run_ok hget,onClose,he]

end step

/-! ## The hub's maps in every run -/

/-- A session of the session map is a client of its channel, and a client is found under its own
session in the object it joined. Unlike `HubInvariant` this survives sessions that are opened
twice and listeners that throw. -/
structure Linked (h : ChannelsHub) : Prop where
  allocated : ∀ c r, h.channels.lookup c = some r → r < h.next
  joined : ∀ s c, h.channelMap.lookup s = some c → ∃ r client,
    h.channels.lookup c = some r ∧ (h.clients r).lookup s = some client
  own : ∀ c r s client, h.channels.lookup c = some r → (h.clients r).lookup s = some client →
    client.session = s ∧ client.websocketChannel = r

section linked
variable {h : ChannelsHub} {w : World} {request : HandshakeData} {session cid c s : String}
  {r : ChannelRef} {client : ChannelClient}

theorem linked_empty : Linked ChannelsHub.empty := by
  constructor <;> simp [ChannelsHub.empty]

/-- The clients another session has in the hub after an open were there before. -/
theorem Linked.opened_lookup (hlinked : Linked h)
    (hc : (opened cid session h).2.channels.lookup c = some r)
    (hlook : ((opened cid session h).2.clients r).lookup s = some client) :
    h.channels.lookup c = some r ∧ (h.clients r).lookup s = some client := by
  rw [clients] at hlook
  rcases opened_old hc with hold | ⟨rfl,rfl,_,hobj⟩
  · rw [opened_objects (hlinked.allocated c r hold)] at hlook
    exact ⟨hold,hlook⟩
  · simp [hobj] at hlook

theorem Linked.join (hlinked : Linked w.hub) :
    Linked ((newClient w request cid session).join (opened cid session w.hub).2) := by
  set client := newClient w request cid session
  constructor
  · intro c r hc
    change (opened cid session w.hub).2.channels.lookup c = some r at hc
    change r < (opened cid session w.hub).2.next
    rcases opened_old hc with hold | ⟨_,rfl,hnext,_⟩
    · exact Nat.lt_of_lt_of_le (hlinked.allocated c r hold) opened_next
    · rw [hnext]
      exact Nat.lt_succ_self _
  · exact Joined.join hlinked.joined hlinked.allocated
  · intro c r s client' hc hlook
    change (opened cid session w.hub).2.channels.lookup c = some r at hc
    by_cases hr : r = client.websocketChannel
    · by_cases hsession : s = session
      · subst hr hsession
        have hself := client.join_lookup_self (opened cid s w.hub).2
        obtain rfl := Option.some.inj (hself.symm.trans hlook)
        exact ⟨rfl,rfl⟩
      · rw [client.join_lookup_session _ hsession] at hlook
        obtain ⟨hc,hlook⟩ := hlinked.opened_lookup hc hlook
        exact hlinked.own c r s client' hc hlook
    · rw [client.join_clients_ne _ hr] at hlook
      obtain ⟨hc,hlook⟩ := hlinked.opened_lookup hc hlook
      exact hlinked.own c r s client' hc hlook

theorem Linked.leave (hlinked : Linked h) (hclient : client.session = session) :
    Linked (client.leave (destroyed c session h)) := by
  subst hclient
  constructor
  · intro d r hd
    rw [ChannelClient.leave_next,destroyed_next]
    exact hlinked.allocated d r (destroyed_channels_le hd)
  · exact Joined.leave hlinked.joined
  · intro d r s client' hd hlook
    have hne : s ≠ client.session ∨ r ≠ client.websocketChannel := by
      by_contra hboth
      rw [not_or,not_not,not_not] at hboth
      obtain ⟨rfl,rfl⟩ := hboth
      rw [client.leave_lookup_self] at hlook
      cases hlook
    have hlook' : (h.clients r).lookup s = some client' := by
      rcases hne with hs | hr
      · rwa [left_lookup_session hs] at hlook
      · rw [client.leave_clients_ne _ hr,clients,destroyed_objects] at hlook
        exact hlook
    exact hlinked.own d r s client' (destroyed_channels_le hd) hlook'

/-- A close that finds its client, the client's `uid` and a sender that works. -/
structure Closing (outside : Outside) (session : String) (w : World) (client : ChannelClient)
    (c uid : String) : Prop where
  mapped : w.hub.channelMap.lookup session = some c
  channel : w.hub.channels.lookup c = some client.websocketChannel
  member : (w.hub.clients client.websocketChannel).lookup session = some client
  own : client.session = session
  uid : client.handshakeData.first "uid" = some uid
  sent : outside.sent = true

/-- A close that fails: the session is not in the session map, or the listener throws. -/
def Failing (outside : Outside) (session : String) (w : World) : Prop :=
  w.hub.channelMap.lookup session = none ∨ ∃ c r client,
    w.hub.channels.lookup c = some r ∧ (w.hub.clients r).lookup session = some client ∧
    (client.handshakeData.first "uid" = none ∨ outside.sent = false)

/-- A close either clears its session or fails and leaves the hub as it is. -/
theorem Linked.channelInactive_cases (hlinked : Linked w.hub) (outside : Outside)
    (session : String) :
    (∃ client c uid, Closing outside session w client c uid ∧
      (w.step (.channelInactive outside session)).hub =
        client.leave (destroyed c session w.hub)) ∨
    Failing outside session w ∧ (w.step (.channelInactive outside session)).hub = w.hub := by
  cases hmap : w.hub.channelMap.lookup session with
  | none => exact .inr ⟨.inl hmap,by rw [step_channelInactive_unknown hmap]⟩
  | some c =>
    obtain ⟨r,client,hc,hlook⟩ := hlinked.joined session c hmap
    obtain ⟨hown,rfl⟩ := hlinked.own c r session client hc hlook
    by_cases hthrows : client.handshakeData.first "uid" = none ∨ outside.sent = false
    · exact .inr ⟨.inr ⟨c,_,client,hc,hlook,hthrows⟩,
        hub_channelInactive_throws hmap hc hlook hthrows⟩
    · rw [not_or] at hthrows
      obtain ⟨uid,huid⟩ := Option.ne_none_iff_exists'.mp hthrows.1
      have hsent : outside.sent = true := by simpa using hthrows.2
      refine .inl ⟨client,c,uid,⟨hmap,hc,hlook,hown,huid,hsent⟩,?_⟩
      rw [step_channelInactive hsent hmap hc hlook huid]

theorem Linked.step (hlinked : Linked w.hub) (op : Op) : Linked (w.step op).hub := by
  cases op with
  | connectClient outside request session =>
    cases hcid : request.first "cid" with
    | none => rwa [hub_connectClient_none hcid]
    | some cid => rw [hub_connectClient hcid]; exact hlinked.join
  | channelInactive outside session =>
    rcases hlinked.channelInactive_cases outside session with ⟨client,c,uid,hclosing,heq⟩ | ⟨_,heq⟩
    · rw [heq]; exact hlinked.leave hclosing.own
    · rwa [heq]

/-- In every run, whatever its handshakes and events. -/
theorem linked_after (ops : List Op) : Linked (hub.after ops).hub := by
  have hall : hub.Meets (fun _ _ _ => True) ops := Machine.meets_of_forall fun _ _ _ => trivial
  exact Machine.invariant (P := fun _ w => Linked w.hub) linked_empty
    (fun _ op _ hlinked _ => hlinked.step op) hall

end linked

/-! ## Traces -/

section traces
variable {past : List Op} {w : World} {outside : Outside} {request : HandshakeData}
  {session cid c uid s : String} {client : ChannelClient}

/-- The two maps of the hub decide. -/
theorem noTrace_iff (hlinked : Linked w.hub) : NoTrace s w ↔
    w.hub.channelMap.lookup s = none ∧
    ∀ c r, w.hub.channels.lookup c = some r → (w.hub.clients r).lookup s = none := by
  constructor
  · intro h
    exact ⟨h.unmapped,fun c r hc => h.left r (JavaMap.mem_values.mpr ⟨c,hc⟩)⟩
  · rintro ⟨hunmapped,hleft⟩
    refine ⟨hunmapped,fun r hr => ?_,fun channelId packet => ?_⟩
    · obtain ⟨c,hc⟩ := JavaMap.mem_values.mp hr
      exact hleft c r hc
    · cases hfind : w.hub.find channelId with
      | none => exact ⟨[],by simp [broadcast,hfind],by simp⟩
      | some r =>
        obtain ⟨c,rfl,hc⟩ := Option.bind_eq_some_iff.mp hfind
        refine ⟨_,broadcast_run hc,fun client hmem hsession => ?_⟩
        obtain ⟨s',hlook⟩ := JavaMap.mem_values.mp hmem
        obtain ⟨rfl,_⟩ := hlinked.own c r s' client hc hlook
        rw [hsession,hleft c r hc] at hlook
        cases hlook

/-- An open leaves no trace of another session. -/
theorem NoTrace.connectClient (h : NoTrace s w) (hlinked : Linked w.hub) (hs : s ≠ session) :
    NoTrace s (w.step (.connectClient outside request session)) := by
  refine (noTrace_iff (hlinked.step _)).mpr ?_
  obtain ⟨hunmapped,hleft⟩ := (noTrace_iff hlinked).mp h
  cases hcid : request.first "cid" with
  | none =>
    rw [hub_connectClient_none hcid]
    exact ⟨hunmapped,hleft⟩
  | some cid =>
    rw [hub_connectClient hcid]
    set client := newClient w request cid session
    constructor
    · rw [ChannelClient.join_channelMap,opened_channelMap,AList.lookup_insert_ne hs,hunmapped]
    · intro c r hc
      rw [client.join_lookup_session _ hs]
      cases hlook : ((opened cid session w.hub).2.clients r).lookup s with
      | none => rfl
      | some client' =>
        obtain ⟨hold,hlook'⟩ := hlinked.opened_lookup hc hlook
        rw [hleft c r hold] at hlook'
        cases hlook'

/-- A close leaves no trace of another session. -/
theorem NoTrace.channelInactive (h : NoTrace s w) (hlinked : Linked w.hub) (hs : s ≠ session) :
    NoTrace s (w.step (.channelInactive outside session)) := by
  refine (noTrace_iff (hlinked.step _)).mpr ?_
  obtain ⟨hunmapped,hleft⟩ := (noTrace_iff hlinked).mp h
  rcases hlinked.channelInactive_cases outside session with ⟨client,c,uid,hclosing,heq⟩ | ⟨_,heq⟩
  · rw [heq]
    have hne : s ≠ client.session := by rwa [hclosing.own]
    constructor
    · rw [ChannelClient.leave_channelMap,destroyed_channelMap,AList.lookup_erase_ne hs,hunmapped]
    · intro d r hd
      rw [left_lookup_session hne]
      exact hleft d r (destroyed_channels_le hd)
  · rw [heq]
    exact ⟨hunmapped,hleft⟩

/-- What a close that succeeds leaves of its own session. -/
theorem Closing.noTrace_iff (hclosing : Closing outside session w client c uid)
    (hlinked : Linked w.hub) (heq : (w.step (.channelInactive outside session)).hub =
      client.leave (destroyed c session w.hub)) :
    NoTrace session (w.step (.channelInactive outside session)) ↔
      ∀ d r, w.hub.channels.lookup d = some r → (w.hub.clients r).lookup session ≠ none →
        r = client.websocketChannel := by
  obtain ⟨hmap,hc,hlook,rfl,huid,hsent⟩ := hclosing
  rw [Connect.noTrace_iff (hlinked.step _),heq]
  constructor
  · rintro ⟨_,hleft⟩ d r hd hmem
    by_contra hr
    have hne : d ≠ c := by
      rintro rfl
      exact hr (Option.some.inj (hd.symm.trans hc))
    have hkept : (destroyed c client.session w.hub).channels.lookup d = some r := by
      unfold destroyed
      split
      · simpa [hne] using hd
      · exact hd
    have hnone := hleft d r hkept
    rw [client.leave_clients_ne _ hr,clients,destroyed_objects] at hnone
    exact hmem hnone
  · intro honly
    refine ⟨by simp,fun d r hd => ?_⟩
    by_cases hr : r = client.websocketChannel
    · subst hr
      exact client.leave_lookup_self _
    · rw [client.leave_clients_ne _ hr,clients,destroyed_objects]
      by_contra hmem
      exact hr (honly d r (destroyed_channels_le hd) hmem)

theorem Closing.closesCleanly_iff (hclosing : Closing outside session w client c uid) :
    ClosesCleanly past w (.channelInactive outside session) ↔
      ∀ d r, w.hub.channels.lookup d = some r → (w.hub.clients r).lookup session ≠ none →
        r = client.websocketChannel := by
  unfold ClosesCleanly
  have hfind : w.hub.find (w.hub.channelMap.lookup session) = some client.websocketChannel := by
    rw [hclosing.mapped,find,Option.bind_some,hclosing.channel]
  constructor
  · intro hcond d r hd hmem
    obtain ⟨client',hclient'⟩ := Option.ne_none_iff_exists'.mp hmem
    obtain ⟨hfind',_⟩ := hcond r (JavaMap.mem_values.mpr ⟨d,hd⟩) client' hclient'
    exact Option.some.inj (hfind'.symm.trans hfind)
  · intro honly r hr client' hclient'
    obtain ⟨d,hd⟩ := JavaMap.mem_values.mp hr
    obtain rfl := honly d r hd (by rw [hclient']; simp)
    obtain rfl := Option.some.inj (hclosing.member.symm.trans hclient')
    exact ⟨hfind,by rw [hclosing.uid]; simp,hclosing.sent⟩

/-- A close that fails meets the condition only if the session had no client to begin with. -/
theorem Failing.closesCleanly_iff (hfailing : Failing outside session w) :
    ClosesCleanly past w (.channelInactive outside session) ↔
      w.hub.channelMap.lookup session = none ∧
      ∀ c r, w.hub.channels.lookup c = some r → (w.hub.clients r).lookup session = none := by
  unfold ClosesCleanly
  constructor
  · intro hcond
    have hclean : ∀ c r client, w.hub.channels.lookup c = some r →
        (w.hub.clients r).lookup session = some client →
        w.hub.find (w.hub.channelMap.lookup session) = some r ∧
        client.handshakeData.first "uid" ≠ none ∧ outside.sent = true :=
      fun c r client hc => hcond r (JavaMap.mem_values.mpr ⟨c,hc⟩) client
    rcases hfailing with hunmapped | ⟨c,r,client,hc,hlook,hthrows⟩
    · refine ⟨hunmapped,fun c r hc => ?_⟩
      by_contra hmem
      obtain ⟨client,hlook⟩ := Option.ne_none_iff_exists'.mp hmem
      have hfind := (hclean c r client hc hlook).1
      rw [hunmapped] at hfind
      cases hfind
    · obtain ⟨_,huid,hsent⟩ := hclean c r client hc hlook
      rcases hthrows with hnone | hunsent
      · exact absurd hnone huid
      · rw [hunsent] at hsent
        cases hsent
  · rintro ⟨_,hleft⟩ r hr client hclient
    obtain ⟨c,hc⟩ := JavaMap.mem_values.mp hr
    rw [Option.mem_def,hleft c r hc] at hclient
    cases hclient

/-- A close leaves no trace of its session exactly if it meets the condition. -/
theorem noTrace_channelInactive (hlinked : Linked w.hub) :
    NoTrace session (w.step (.channelInactive outside session)) ↔
      ClosesCleanly past w (.channelInactive outside session) := by
  rcases hlinked.channelInactive_cases outside session with
    ⟨client,c,uid,hclosing,heq⟩ | ⟨hfailing,heq⟩
  · rw [hclosing.noTrace_iff hlinked heq,hclosing.closesCleanly_iff]
  · rw [noTrace_iff (hlinked.step _),heq,hfailing.closesCleanly_iff]

theorem closedSessions_connectClient : closedSessions
    (past ++ [.connectClient outside request session]) =
      (closedSessions past).filter fun s => s ≠ session := by
  simp [closedSessions]

theorem closedSessions_channelInactive : closedSessions
    (past ++ [.channelInactive outside session]) = session :: closedSessions past := by
  simp [closedSessions]

end traces

/-- In every run a closed session leaves no trace, at any time after its close, exactly if each
close finds its client in the channel the session map names, with a `uid`, and its event is
taken. -/
theorem noTraces_iff (ops : List Op) :
    hub.Always NoTraces ops ↔ hub.Meets ClosesCleanly ops := by
  have hall : hub.Meets (fun _ _ _ => True) ops := Machine.meets_of_forall fun _ _ _ => trivial
  refine Machine.always_iff_meets (fun s hs => ?_) (fun past op _ ih _ => ?_) hall
  · simp [closedSessions] at hs
  · have hlinked := linked_after past
    cases op with
    | connectClient outside request session =>
      refine iff_of_true (fun s hs => ?_) trivial
      rw [closedSessions_connectClient,List.mem_filter] at hs
      exact (ih s hs.1).connectClient hlinked (by simpa using hs.2)
    | channelInactive outside session =>
      refine Iff.trans ?_ (noTrace_channelInactive hlinked)
      rw [NoTraces,closedSessions_channelInactive]
      constructor
      · exact fun hall => hall session List.mem_cons_self
      · intro hown s hs
        by_cases hsession : s = session
        · rw [hsession]
          exact hown
        · have hold := (List.mem_cons.mp hs).resolve_left hsession
          exact (ih s hold).channelInactive hlinked hsession

/-- The broker does not take the OFFLINE event. -/
def untakenRun : List Op :=
  [.connectClient ⟨0,true⟩ (handshake "c" "u") "s",.channelInactive ⟨0,false⟩ "s"]

/-- The closed session is still in the session map and a client of its channel. -/
theorem untakenRun_leaves : (hub.after untakenRun).hub.channelMap.lookup "s" = some "c" ∧
    (((hub.after untakenRun).hub.clients 0).lookup "s").isSome = true ∧
    ¬ hub.Always NoTraces untakenRun := by
  refine ⟨by decide,by decide,fun h => ?_⟩
  have hunmapped := (h.last "s" (by decide)).unmapped
  exact absurd hunmapped (by decide)

end ImSingle.Connect
