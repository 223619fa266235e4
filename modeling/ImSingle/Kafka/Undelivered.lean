import ImSingle.Kafka.DeliveryRun

/-! Delivery as the services are wired: no event gets to the registry, which then lists no node
for any channel, and so no message gets to a node. -/
namespace ImSingle.Delivery
open Library Proto Kafka Stat
open Connect (ChannelClient Outside)
open Message (ListsNamed)

section connect
open Connect

theorem keeps_firstParameter {σ τ : Type} {f : σ → τ} (parameters : JavaMap String (List String))
    (name : String) : Java.Keeps f (firstParameter parameters name : Java σ String) := by
  refine (Java.keeps_nonNull _).bind fun values => ?_
  cases values with
  | nil => exact Java.keeps_throw _
  | cons value rest => exact Java.keeps_pure value

theorem keeps_onHub {α : Type} (method : Java ChannelsHub α) :
    Java.Keeps World.writes (onHub method) := by
  intro w
  simp only [onHub,EStateM.run]
  split <;> rfl

theorem keeps_announce (outside : Outside) (type : EventType) (client : ChannelClient) :
    Java.Keeps World.writes (announce outside type client) := by
  refine (keeps_firstParameter _ _).bind fun uid => Java.keeps_get.bind fun w => ?_
  unfold Connect.sendEvent
  split
  · exact Java.keeps_modify fun _ => rfl
  · exact Java.keeps_throw _

/-- Opening and closing a session writes to no client, also when it throws. -/
theorem writes_step (w : World) (op : Connect.Op) : (w.step op).writes = w.writes := by
  suffices h : Java.Keeps World.writes op.call from h w
  cases op with
  | connectClient outside request session =>
    refine (keeps_firstParameter _ _).bind fun cid => (keeps_onHub _).bind fun websocketChannel =>
      Java.keeps_get.bind fun w => ?_
    refine Java.Keeps.bind ?_ fun _ => Java.Keeps.bind ?_ fun _ => keeps_announce _ _ _
    · exact Java.keeps_modify fun _ => rfl
    · exact Java.keeps_modify fun _ => rfl
  | channelInactive outside session =>
    refine (keeps_onHub _).bind fun webSocketClient => Java.Keeps.bind ?_ fun _ =>
      (keeps_onHub _).bind fun _ => (Java.keeps_nonNull _).bind fun client => ?_
    · exact (Java.keeps_nonNull _).bind fun client => keeps_announce _ _ _
    · exact Java.keeps_modify fun _ => rfl

end connect

/-- No node is listed for a channel, and nothing is on its way to a node. -/
structure Silent (codecs : Codecs) (s : System) : Prop where
  wellFormed : s.registry.WellFormed
  unlisted : ∀ c, s.registry.nodeIds c = []
  onTopic : ∀ x ∈ s.topic, ∃ (p : Published) (currentTimeMillis : Int64),
    x.2 = p.record codecs currentTimeMillis
  nodeTopics : ∀ topic, s.nodeTopics topic = []
  pushed : s.pushed = []
  writes : ∀ n, (s.nodes n).writes = []

section silent
variable {codecs : Codecs} {s : System}

theorem consumed_unlisted (codecs : Codecs) {r : Registry} (hwf : r.WellFormed)
    (hunlisted : ∀ c, r.nodeIds c = []) (p : Published) (currentTimeMillis : Int64) :
    (consumed codecs r (p.record codecs currentTimeMillis)).registry = r ∧
    ∀ topic, sentTo codecs topic
      (consumed codecs r (p.record codecs currentTimeMillis)).calls = [] := by
  have hnamed : ListsNamed r := fun c => by rw [hunlisted]; exact List.not_mem_nil
  rw [consumed,onChannelMessage_record,Java.finalState_tryCatch]
  cases hparse : parsed codecs p with
  | none =>
    have hskip : (imMessage codecs).handleMessage (handledAs codecs p).1
        (handledAs codecs p).2.1 (handledAs codecs p).2.2 = pure () := by
      rw [parsed] at hparse
      simp only [imMessage,Message.handleMessage,hparse]
    rw [hskip]
    exact ⟨rfl,fun _ => rfl⟩
  | some m =>
    obtain ⟨part,rest,hpart,hfinal,hrest,-⟩ := handleMessage_final codecs
      ⟨codecs.message.parseFrom,codecs.event.parseFrom⟩ (handledAs codecs p).1
      (handledAs codecs p).2.1 hwf hnamed hparse
    obtain rfl : part = [] := by
      rw [hunlisted] at hpart
      exact List.prefix_nil.mp hpart
    simp only [imMessage,hfinal,List.map_nil,List.nil_append,true_and]
    exact hrest

theorem Silent.publish (h : Silent codecs s) (currentTimeMillis : Int64) (p : Published) :
    Silent codecs (s.publish codecs currentTimeMillis p) := by
  refine ⟨h.wellFormed,h.unlisted,fun x hx => ?_,h.nodeTopics,h.pushed,h.writes⟩
  obtain hx | hx := List.mem_append.mp hx
  · exact h.onTopic x hx
  · exact ⟨p,currentTimeMillis,List.mem_singleton.mp hx ▸ rfl⟩

theorem Silent.publishEvents (h : Silent codecs s) (currentTimeMillis : Int64) (n : String)
    (events : List Event) : Silent codecs (events.foldl
      (fun s event => s.publish codecs currentTimeMillis (.event n event)) s) := by
  induction events generalizing s with
  | nil => exact h
  | cons event events ih => exact ih (h.publish ..)

/-- Only a connect lists a node. -/
theorem unlisted_step {r : Registry} (hunlisted : ∀ c, r.nodeIds c = [])
    {op : Stat.Op} (hop : ∀ n c u, op ≠ .connect n c u) (d : String) :
    (r.step op).nodeIds d = [] := by
  cases op with
  | start node => rw [Registry.nodeIds_congr d (channelNodeMap_start node),hunlisted]
  | stop ref => rw [Registry.nodeIds_congr d (channelNodeMap_stop ref),hunlisted]
  | connect n c u => exact absurd rfl (hop n c u)
  | disconnect n c u =>
    cases hr : r.availableNodes.lookup n with
    | none => rw [step_disconnect_unknown hr,hunlisted]
    | some ref =>
      rw [step_disconnect hr]
      change (dropFromChannel c (r.heap ref).id r).nodeIds d = []
      rw [Registry.nodeIds_dropFromChannel,hunlisted,hunlisted]
      split <;> rfl

theorem Silent.step (h : Silent codecs s) {op : Op}
    (hop : ∀ n c u, op ≠ .registry (.connect n c u)) :
    Silent codecs ((machine codecs).step s op) := by
  cases op with
  | registry op =>
    exact ⟨h.wellFormed.step op,unlisted_step h.unlisted fun n c u heq =>
      hop n c u (congrArg Op.registry heq),h.onTopic,h.nodeTopics,h.pushed,h.writes⟩
  | session m op publishedAt =>
    have hbase : Silent codecs
        { s with nodes := Function.update s.nodes m ((s.nodes m).step op) } := by
      refine ⟨h.wellFormed,h.unlisted,h.onTopic,h.nodeTopics,h.pushed,fun n => ?_⟩
      dsimp only
      rw [update_nodes]
      split
      · rw [writes_step,h.writes]
      · exact h.writes n
    exact hbase.publishEvents publishedAt m _
  | frame m session msg outside =>
    simp only [machine,System.frame]
    split
    · exact h.publish ..
    · exact h
  | consume i =>
    change Silent codecs (s.consume codecs i)
    cases hi : s.topic[i]? with
    | none =>
      simp only [System.consume,hi]
      exact h
    | some x =>
      obtain ⟨p,time,hrecord⟩ := h.onTopic _ (List.mem_of_getElem? hi)
      obtain ⟨serial,record⟩ := x
      obtain rfl : record = p.record codecs time := hrecord
      obtain ⟨hregistry,hsent⟩ :=
        consumed_unlisted codecs h.wellFormed h.unlisted p time
      rw [consume_some hi,hregistry]
      refine ⟨h.wellFormed,h.unlisted,fun y hy => h.onTopic y (List.mem_of_mem_eraseIdx hy),
        fun topic => ?_,h.pushed,h.writes⟩
      dsimp only
      rw [h.nodeTopics,hsent]
      rfl
  | push m i currentTimeMillis =>
    change Silent codecs (s.push codecs m i currentTimeMillis)
    simp only [System.push,h.nodeTopics]
    exact h

end silent

/-- The sender gives events the data type of messages, so no event makes im-message connect a
session. Then, whatever sessions open and whatever their clients send, and in every order in
which the records are consumed, nothing is sent to a node and nothing is written to a client. -/
theorem nothing_written (codecs : Codecs) {ops : List Op}
    (h : ∀ n c u, .registry (.connect n c u) ∉ ops) :
    (∀ topic, ((machine codecs).after ops).nodeTopics topic = []) ∧
      ∀ n, (((machine codecs).after ops).nodes n).writes = [] := by
  suffices hsilent : Silent codecs ((machine codecs).after ops) from
    ⟨hsilent.nodeTopics,hsilent.writes⟩
  induction ops using List.reverseRecOn with
  | nil =>
    refine ⟨Registry.wellFormed_empty,fun c => ?_,fun _ hx => absurd hx List.not_mem_nil,
      fun _ => rfl,rfl,fun _ => rfl⟩
    simp [machine,Registry.empty,Registry.nodeIds]
  | append_singleton ops op ih =>
    rw [Machine.after_snoc]
    refine Silent.step (ih fun n c u hmem => h n c u (List.mem_append_left _ hmem)) ?_
    rintro n c u rfl
    exact h n c u (List.mem_append_right _ (List.mem_singleton_self _))

/-- The node is started, its session opens and its client writes; both records are consumed. -/
theorem nothing_written_oneSession : (((machine protoCodecs).after
    [.registry (.start ⟨some "1",some "127.0.0.1",8080,18080,0⟩),
      .session "1" (.connectClient ⟨0,true⟩ (Connect.handshake "c" "u") "s") 0,
      .frame "1" "s" ⟨.text,"hi",0⟩ ⟨0,true⟩,.consume 0,.consume 0,.push "1" 0 0]).nodes
        "1").writes = [] :=
  (nothing_written protoCodecs (by simp)).2 "1"

end ImSingle.Delivery
