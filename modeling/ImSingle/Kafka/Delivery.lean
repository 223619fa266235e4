import ImSingle.Connect.Membership
import ImSingle.Kafka.Envelope
import ImSingle.Library.Relay
import ImSingle.Message.FanOut

/-! A message on its way: a client's frame is published for im-message, which sends it on to the
nodes of the channel, and each of them writes it to its clients. The topics hand out their
records in any order, and each record at most once: no record is delivered again after a crash
or a rebalancing of the consumers. -/
namespace ImSingle.Delivery
open Library Proto Kafka Stat
open Connect (ChannelClient ChannelsHub Outside SessionGuard HubInvariant liveSessions)
open Message (ListsNamed sendLoop)

/-- A record on the topic of a connect node, with its two headers. -/
structure NodeRecord where
  from' : String
  to' : String
  value : Bytes

def TOPIC_PREFIX : String := "connect-topic-"

/-- The topic that a node's configuration names. -/
def connectTopic (instanceId : String) : String := "connect-topic-" ++ instanceId

/-- `KafkaMessageSender.send` of im-message: the topic and the record. -/
def send (codecs : Codecs) (nodeId : Option String) (from' to' : String) (data : Message) :
    String × NodeRecord :=
  (TOPIC_PREFIX ++ textOf nodeId, ⟨from',to',codecs.message.toByteArray data⟩)

/-- `KafkaMessageListener.onMessage` of a connect node. What is thrown is caught and logged. -/
def onMessage (codecs : Codecs) (currentTimeMillis : Int64) (record : NodeRecord) :
    Java Connect.World Unit :=
  tryCatch (Connect.handlerMessage codecs.message.parseFrom currentTimeMillis record.from'
    (some record.to') record.value) fun _ => pure ()

/-- `MessageHandler.channelRead0`, with the `onMessage` it calls: what is published of a
client's message. -/
def channelRead0 (outside : Outside) (session : String) (msg : Message) :
    Java Connect.World Published := do
  let webSocketClient ← Connect.onHub (ChannelsHub.getWebSocketClient session)
  let client ← Java.nonNull webSocketClient
  let uid ← Connect.firstParameter client.handshakeData.parameters "uid"
  let to' := client.getChannelId (← get).hub
  if outside.sent then pure (.message uid to' msg) else throw .external

/-- One record that a node has consumed: its number, what the node wrote, and the clients there
were at the node. -/
structure Push where
  serial : ℕ
  node : String
  writes : List (ChannelClient × Packet)
  created : List ChannelClient

/-- The nodes by id, the registry and the records that are not consumed yet. A record carries
the number of what it was published as. -/
structure System where
  nodes : String → Connect.World
  registry : Registry
  published : List Published
  topic : List (ℕ × Record)
  nodeTopics : String → List (ℕ × NodeRecord)
  pushed : List Push

/-- The registry changes, a session opens or closes at a node, a client's message comes in,
im-message consumes a record, or a node does. -/
inductive Op
  | registry (op : Stat.Op)
  | session (nodeId : String) (op : Connect.Op) (publishedAt : Int64)
  | frame (nodeId session : String) (msg : Message) (outside : Outside)
  | consume (i : ℕ)
  | push (nodeId : String) (i : ℕ) (currentTimeMillis : Int64)

/-- What a call of im-message's sender puts on a topic. -/
def sentTo (codecs : Codecs) (topic : String) (calls : List Message.Call) : List NodeRecord :=
  calls.filterMap fun
    | .send nodeId from' to' message =>
      let sent := send codecs nodeId from' to' message
      if sent.1 = topic then some sent.2 else none
    | .save _ _ _ _ | .stat _ _ _ _ => none

namespace System
variable (codecs : Codecs)

def publish (currentTimeMillis : Int64) (s : System) (p : Published) : System :=
  { s with
    published := s.published ++ [p]
    topic := s.topic ++ [(s.published.length,p.record codecs currentTimeMillis)] }

/-- The events a node hands to its sender are published as they come. -/
def session (s : System) (nodeId : String) (op : Connect.Op) (publishedAt : Int64) : System :=
  let w := (s.nodes nodeId).step op
  (w.events.drop (s.nodes nodeId).events.length).foldl
    (fun s event => s.publish codecs publishedAt (.event nodeId event))
    { s with nodes := Function.update s.nodes nodeId w }

def frame (s : System) (nodeId session : String) (msg : Message) (outside : Outside) : System :=
  match (channelRead0 outside session msg).run (s.nodes nodeId) with
  | .ok p _ => s.publish codecs outside.currentTimeMillis p
  | .error _ _ => s

def consume (s : System) (i : ℕ) : System :=
  match s.topic[i]? with
  | none => s
  | some (serial,record) =>
    let w := Java.finalState
      ((onChannelMessage codecs (imMessage codecs) record.value).run ⟨s.registry,[]⟩)
    { s with
      registry := w.registry
      topic := s.topic.eraseIdx i
      nodeTopics := fun topic =>
        s.nodeTopics topic ++ (sentTo codecs topic w.calls).map fun record => (serial,record) }

def push (s : System) (nodeId : String) (i : ℕ) (currentTimeMillis : Int64) : System :=
  match (s.nodeTopics (connectTopic nodeId))[i]? with
  | none => s
  | some (serial,record) =>
    let w := s.nodes nodeId
    let w' := Java.finalState ((onMessage codecs currentTimeMillis record).run w)
    { s with
      nodes := Function.update s.nodes nodeId w'
      nodeTopics := Function.update s.nodeTopics (connectTopic nodeId)
        ((s.nodeTopics (connectTopic nodeId)).eraseIdx i)
      pushed := s.pushed ++
        [⟨serial,nodeId,w'.writes.drop w.writes.length,w.created⟩] }

end System

def machine (codecs : Codecs) : Machine System Op where
  init := ⟨fun _ => Connect.World.empty,Registry.empty,[],[],fun _ => [],[]⟩
  step s
    | .registry op => { s with registry := s.registry.step op }
    | .session nodeId op publishedAt => s.session codecs nodeId op publishedAt
    | .frame nodeId session msg outside => s.frame codecs nodeId session msg outside
    | .consume i => s.consume codecs i
    | .push nodeId i currentTimeMillis => s.push codecs nodeId i currentTimeMillis

/-- The opens and closes at one node. -/
def historyOf (n : String) (past : List Op) : List Connect.Op :=
  past.filterMap fun
    | .session n' op _ => if n' = n then some op else none
    | _ => none

/-- Sessions have distinct ids, `cid` and `uid`, and their events are taken. -/
def Guard (past : List Op) (s : System) : Op → Prop
  | .session n op _ => SessionGuard (historyOf n past) (s.nodes n) op
  | .registry _ | .frame _ _ _ _ | .consume _ | .push _ _ _ => True

instance (past : List Op) (s : System) (op : Op) : Decidable (Guard past s op) :=
  match op with
  | .session n op _ => inferInstanceAs (Decidable (SessionGuard (historyOf n past) (s.nodes n) op))
  | .registry _ | .frame _ _ _ _ | .consume _ | .push _ _ _ => inferInstanceAs (Decidable True)

/-! ## What a published record is handled as -/

/-- Sender, channel and bytes of the call that a published record leads to. An event is read as
a message too, without a sender and a channel. -/
def handledAs (codecs : Codecs) : Published → String × String × Bytes
  | .message from' to' m => (from',to',codecs.message.toByteArray m)
  | .event _ e => ("","",codecs.event.toByteArray e)

/-- The message in it, if it is one. -/
def parsed (codecs : Codecs) (p : Published) : Option Message :=
  codecs.message.parseFrom (handledAs codecs p).2.2

/-- The record that a node of the channel gets for it. -/
def nodeRecord (codecs : Codecs) (p : Published) (m : Message) : NodeRecord :=
  ⟨(handledAs codecs p).1,(handledAs codecs p).2.1,codecs.message.toByteArray m⟩

theorem onChannelMessage_record {σ : Type} (codecs : Codecs) (messageService : MessageService σ)
    (p : Published) (currentTimeMillis : Int64) :
    onChannelMessage codecs messageService (p.record codecs currentTimeMillis).value =
      tryCatch (messageService.handleMessage (handledAs codecs p).1 (handledAs codecs p).2.1
        (handledAs codecs p).2.2) fun _ => pure () := by
  cases p with
  | message | event =>
    simp only [onChannelMessage,Published.record,sendMessage,sendEvent,
      codecs.kafkaMessage.parseFrom_toByteArray]
    rfl

/-! ## What im-message sends -/

section consume
variable {s : Registry} {m : Message}

theorem connectTopic_injective : Function.Injective connectTopic := fun _ _ h =>
  (String.append_right_inj _).mp h

/-- The loop stops at the first node that is not available. -/
theorem sendLoop_final (from' c : String) (m : Message) (hwf : s.WellFormed)
    (ids : List (Option String)) (calls : List Message.Call) : ∃ part, part <+: ids ∧
      Java.finalState ((sendLoop from' c m (ids.map s.available)).run ⟨s,calls⟩) =
        ⟨s,calls ++ part.map fun id => .send id from' c m⟩ ∧
      ((∀ id ∈ ids, s.available id ≠ none) → part = ids) := by
  induction ids generalizing calls with
  | nil => exact ⟨[],List.prefix_refl _,by simp [sendLoop],fun _ => rfl⟩
  | cons id ids ih =>
    cases hr : s.available id with
    | none =>
      refine ⟨[],List.nil_prefix,?_,fun hall => absurd hr (hall id (List.mem_cons_self ..))⟩
      rw [List.map_cons,hr,List.map_nil,List.append_nil]
      rfl
    | some r =>
      obtain ⟨n,rfl,hn⟩ := Option.bind_eq_some_iff.mp hr
      obtain ⟨part,hpart,hrun,hwhole⟩ :=
        ih (calls ++ [.send (s.heap r).id from' c m])
      refine ⟨some n :: part,(List.prefix_cons_inj _).mpr hpart,?_,fun hall => ?_⟩
      · rw [List.map_cons,hr,Message.sendLoop_some,hrun,(hwf.stored n r hn).1,List.append_assoc]
        rfl
      · rw [hwhole fun id hid => hall id (List.mem_cons_of_mem _ hid)]

/-- A node gets a record exactly if it is among the ids. -/
theorem sentTo_sends (codecs : Codecs) (from' c : String) (m : Message)
    {ids : List (Option String)} (hnamed : none ∉ ids) (hnodup : ids.Nodup) (n : String) :
    sentTo codecs (connectTopic n) (ids.map fun id => .send id from' c m) =
      if some n ∈ ids then [⟨from',c,codecs.message.toByteArray m⟩] else [] := by
  induction ids with
  | nil => rfl
  | cons id ids ih =>
    obtain ⟨hid,hids⟩ := List.nodup_cons.mp hnodup
    have hrest := ih (fun hmem => hnamed (List.mem_cons_of_mem _ hmem)) hids
    cases id with
    | none => exact absurd (List.mem_cons_self ..) hnamed
    | some k =>
      have htopic : (send codecs (some k) from' c m).1 = connectTopic n ↔ k = n :=
        connectTopic_injective.eq_iff (a := k)
      rw [sentTo,List.map_cons,List.filterMap_cons]
      by_cases hk : k = n
      · subst hk
        rw [if_neg hid] at hrest
        simp only [if_pos (htopic.mpr rfl),if_pos (List.mem_cons_self ..)]
        exact congrArg (_ :: ·) hrest
      · have hmem : some n ∈ some k :: ids ↔ some n ∈ ids := by simp [Ne.symm hk]
        simp only [if_neg (hk ∘ htopic.mp),hmem]
        exact hrest

theorem nodup_eraseDups {α : Type} [BEq α] [LawfulBEq α] (as : List α) : as.eraseDups.Nodup := by
  refine List.nodup_iff_count_le_one.mpr fun a => ?_
  by_cases ha : a ∈ as
  · exact (Message.count_eraseDups ha).le
  · rw [List.count_eq_zero_of_not_mem fun h => ha (List.mem_eraseDups.mp h)]
    exact Nat.zero_le _

/-- Handling a message leaves the registry alone and calls the sender for some of the listed
nodes; for all of them if they are available. -/
theorem handleMessage_final (codecs : Codecs) (messageParser : Message.MessageParser)
    (from' c : String) (hwf : s.WellFormed) (hnamed : ListsNamed s) {data : Bytes}
    (hparse : messageParser.parseMessage data = some m) : ∃ part rest,
      part <+: (s.nodeIds c).eraseDups ∧
      Java.finalState ((Message.handleMessage messageParser from' c data).run ⟨s,[]⟩) =
        ⟨s,part.map (fun id => .send id from' c m) ++ rest⟩ ∧
      (∀ topic, sentTo codecs topic rest = []) ∧
      ((∀ id ∈ s.nodeIds c, s.available id ≠ none) → part = (s.nodeIds c).eraseDups) := by
  obtain ⟨part,hpart,hfinal,hwhole⟩ :=
    sendLoop_final from' c m hwf (s.nodeIds c).eraseDups []
  have hnodes := Message.getConnectNodeByChannelId_run (hnamed c)
  rw [← Message.sendToConnectNode_run hnodes] at hfinal
  have hall : (∀ id ∈ s.nodeIds c, s.available id ≠ none) → part = (s.nodeIds c).eraseDups :=
    fun hall => hwhole fun id hid => hall id (List.mem_eraseDups.mp hid)
  cases hrun : (Message.sendToConnectNode from' c m).run ⟨s,[]⟩ with
  | ok a w =>
    rw [hrun,Java.finalState_ok] at hfinal
    subst hfinal
    refine ⟨part,[.save from' c m true,.stat from' c m true],hpart,?_,?_,hall⟩
    · rw [Message.handleMessage_run hparse hrun,Java.finalState_ok]
      rfl
    · exact fun topic => rfl
  | error e w =>
    rw [hrun,Java.finalState_error] at hfinal
    refine ⟨part,[],hpart,?_,fun topic => rfl,hall⟩
    rw [Message.handleMessage_throws hparse hrun,Java.finalState_error,hfinal,List.append_nil]
    rfl

/-- The world after im-message has consumed a record. -/
def consumed (codecs : Codecs) (s : Registry) (record : Record) : Message.World :=
  Java.finalState ((onChannelMessage codecs (imMessage codecs) record.value).run ⟨s,[]⟩)

/-- A record that im-message consumes leads to at most one for each node, and only for the
listed ones; to one for each of them if they are available. -/
theorem consumed_eq (codecs : Codecs) (hwf : s.WellFormed) (hnamed : ListsNamed s) (p : Published)
    (currentTimeMillis : Int64) :
    (consumed codecs s (p.record codecs currentTimeMillis)).registry = s ∧
    ∃ chosen : String → Bool,
      (∀ n, sentTo codecs (connectTopic n)
        (consumed codecs s (p.record codecs currentTimeMillis)).calls =
          if chosen n then ((parsed codecs p).map (nodeRecord codecs p)).toList else []) ∧
      (∀ n, chosen n → parsed codecs p ≠ none ∧ some n ∈ s.nodeIds (handledAs codecs p).2.1) ∧
      (parsed codecs p ≠ none →
        (∀ id ∈ s.nodeIds (handledAs codecs p).2.1, s.available id ≠ none) →
        ∀ n, some n ∈ s.nodeIds (handledAs codecs p).2.1 → chosen n) := by
  rw [consumed,onChannelMessage_record,Java.finalState_tryCatch]
  cases hparse : parsed codecs p with
  | none =>
    have hskip : Java.finalState (((imMessage codecs).handleMessage (handledAs codecs p).1
        (handledAs codecs p).2.1 (handledAs codecs p).2.2).run ⟨s,[]⟩) = ⟨s,[]⟩ := by
      simp only [imMessage,Message.handleMessage]
      rw [parsed] at hparse
      rw [hparse]
      rfl
    rw [hskip]
    exact ⟨rfl,fun _ => false,fun _ => rfl,fun _ h => absurd h Bool.false_ne_true,
      fun h => absurd rfl h⟩
  | some m =>
    obtain ⟨part,rest,hpart,hfinal,hrest,hwhole⟩ := handleMessage_final codecs
      ⟨codecs.message.parseFrom,codecs.event.parseFrom⟩ (handledAs codecs p).1
      (handledAs codecs p).2.1 hwf hnamed hparse
    have hnone : none ∉ part := fun h =>
      hnamed _ (List.mem_eraseDups.mp (hpart.subset h))
    have hnodup : part.Nodup := hpart.sublist.nodup (nodup_eraseDups _)
    simp only [imMessage,hfinal,true_and]
    refine ⟨fun n => decide (some n ∈ part),fun n => ?_,
      fun n hn => ⟨Option.some_ne_none m,?_⟩,fun _ hall n hn => ?_⟩
    · have hsends := sentTo_sends codecs (handledAs codecs p).1 (handledAs codecs p).2.1 m
        hnone hnodup n
      simp only [sentTo,List.filterMap_append] at hsends hrest ⊢
      rw [hsends,hrest]
      simp [nodeRecord]
    · exact List.mem_eraseDups.mp (hpart.subset (of_decide_eq_true hn))
    · rw [decide_eq_true_eq,hwhole hall]
      exact List.mem_eraseDups.mpr hn

end consume

/-! ## What a node writes -/

section push
variable {past : List Connect.Op} {w : Connect.World}

/-- A record that a node consumes is written to the live members of its channel. -/
theorem onMessage_final (codecs : Codecs) (hinv : HubInvariant past w)
    (currentTimeMillis : Int64) (p : Published) (m : Message) : ∃ receivers : List ChannelClient,
      Java.finalState ((onMessage codecs currentTimeMillis (nodeRecord codecs p m)).run w) =
        { w with writes := w.writes ++ receivers.map fun client =>
          (client,⟨.message,currentTimeMillis,some m,none⟩) } ∧
      receivers.Nodup ∧
      ∀ client, client ∈ receivers ↔ client ∈ w.created ∧
        (liveSessions past).lookup client.session = some (handledAs codecs p).2.1 := by
  obtain ⟨receivers,hrun,hreceivers⟩ := hinv.membersReached.2 codecs.message.parseFrom
    currentTimeMillis (handledAs codecs p).1 (handledAs codecs p).2.1
    (codecs.message.toByteArray m) m (codecs.message.parseFrom_toByteArray m)
  refine ⟨receivers,?_,hreceivers⟩
  rw [onMessage,Java.finalState_tryCatch]
  exact congrArg Java.finalState hrun

/-- What a client sends is published for its own channel, under its own name. -/
theorem channelRead0_run (hinv : HubInvariant past w) {outside : Outside} {session : String}
    {msg : Message} {p : Published} {w' : Connect.World}
    (h : (channelRead0 outside session msg).run w = .ok p w') : ∃ client ∈ w.created, ∃ uid c,
      client.session = session ∧ client.handshakeData.first "uid" = some uid ∧
      (liveSessions past).lookup session = some c ∧ p = .message uid c msg := by
  cases hmap : w.hub.channelMap.lookup session with
  | none =>
    have hget : (Connect.ChannelsHub.getWebSocketClient session).run w.hub =
        .error .nullPointer w.hub := by
      simp [Connect.ChannelsHub.getWebSocketClient,hmap]
    simp [channelRead0,Connect.onHub_run_error hget] at h
  | some c =>
    obtain ⟨r,client,uid,hc,hlook,hsession,href,hcreated,huid⟩ := hinv.live hmap
    have hget := Connect.getWebSocketClient_run hmap hc
    rw [hlook] at hget
    have hid : client.getChannelId w.hub = c := (hinv.channel c _ (href ▸ hc)).2
    refine ⟨client,hcreated,uid,c,hsession,huid,hinv.mapped ▸ hmap,?_⟩
    simp only [channelRead0,EStateM.run_bind,Connect.onHub_run_ok hget,Java.run_nonNull_some,
      Connect.firstParameter_run huid,EStateM.run_get,hid] at h
    split at h
    · exact ((EStateM.Result.ok.injEq ..).mp h).1.symm
    · cases h

end push

end ImSingle.Delivery
