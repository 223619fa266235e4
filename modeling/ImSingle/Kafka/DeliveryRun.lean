import ImSingle.Kafka.Delivery

/-! What holds in every order of the steps: a client is written a message at most once, and only
one of its own channel; and a message reaches the listed nodes and their members. -/
namespace ImSingle.Delivery
open Library Proto Kafka Stat
open Connect (ChannelClient Outside SessionGuard HubInvariant liveSessions openedSessions)
open Message (ListsNamed sendLoop)

/-- The channel a published record is for. -/
def channelOf (codecs : Codecs) (p : Published) : String := (handledAs codecs p).2.1

/-- A message comes from a client of its channel; an event comes from a node. -/
def FromMember (s : System) : Published → Prop
  | .message uid c _ => ∃ n, ∃ sender ∈ (s.nodes n).created,
      sender.handshakeData.first "uid" = some uid ∧ sender.handshakeData.first "cid" = some c
  | .event _ _ => True

/-- What a node wrote for a record: the message to clients of the channel, each once, the ones
among them that live now included. -/
structure Push.Sound (codecs : Codecs) (past : List Op) (s : System) (push : Push) : Prop where
  writes : ∃ p m currentTimeMillis, ∃ receivers : List ChannelClient,
    s.published[push.serial]? = some p ∧ parsed codecs p = some m ∧
    push.writes = receivers.map (fun client =>
      (client,⟨.message,currentTimeMillis,some m,none⟩)) ∧ receivers.Nodup ∧
    (∀ client ∈ receivers, client ∈ push.created ∧
      client.handshakeData.first "cid" = some (channelOf codecs p)) ∧
    ∀ client ∈ push.created, (liveSessions (historyOf push.node past)).lookup client.session =
      some (channelOf codecs p) → client ∈ receivers
  created : push.created ⊆ (s.nodes push.node).created

/-- A live session's channel is the one its client asked for. -/
def Requested (past : List Connect.Op) (w : Connect.World) : Prop :=
  ∀ client ∈ w.created, ∀ c, (liveSessions past).lookup client.session = some c →
    client.handshakeData.first "cid" = some c

structure Inv (codecs : Codecs) (past : List Op) (s : System) : Prop where
  hub : ∀ n, HubInvariant (historyOf n past) (s.nodes n)
  requested : ∀ n, Requested (historyOf n past) (s.nodes n)
  wellFormed : s.registry.WellFormed
  listsNamed : ListsNamed s.registry
  fromMember : ∀ p ∈ s.published, FromMember s p
  onTopic : ∀ x ∈ s.topic, ∃ p currentTimeMillis, s.published[x.1]? = some p ∧
    x.2 = p.record codecs currentTimeMillis
  onNodeTopics : ∀ n, ∀ x ∈ s.nodeTopics (connectTopic n), ∃ p m,
    s.published[x.1]? = some p ∧ parsed codecs p = some m ∧ x.2 = nodeRecord codecs p m
  sound : ∀ push ∈ s.pushed, push.Sound codecs past s

section connect
variable {past : List Connect.Op} {w : Connect.World} {op : Connect.Op}

/-- The clients after a guarded step are the old ones and that of a new session. -/
theorem created_step (hinv : HubInvariant past w) (hop : SessionGuard past w op) :
    (w.step op).created = w.created ∨ ∃ outside request session cid,
      op = .connectClient outside request session ∧ session ∉ openedSessions past ∧
      request.first "cid" = some cid ∧
      (w.step op).created = w.created ++ [Connect.newClient w request cid session] := by
  cases op with
  | connectClient outside request session =>
    obtain ⟨hfresh,hsent,cid,uid,hcid,huid⟩ := hop.connectClient
    refine .inr ⟨outside,request,session,cid,rfl,hfresh,hcid,?_⟩
    rw [Connect.step_connectClient hsent hcid huid]
  | channelInactive outside session =>
    refine .inl ?_
    cases hmap : w.hub.channelMap.lookup session with
    | none => rw [Connect.step_channelInactive_unknown hmap]
    | some c =>
      obtain ⟨r,client,uid,hc,hlook,_,_,_,huid⟩ := hinv.live hmap
      rw [Connect.step_channelInactive hop hmap hc hlook huid]

/-- A step only closes sessions that had been opened. -/
theorem live_of_step (hop : SessionGuard past w op) {session c : String}
    (hopened : session ∈ openedSessions past)
    (h : (liveSessions (past ++ [op])).lookup session = some c) :
    (liveSessions past).lookup session = some c := by
  cases op with
  | connectClient outside request other =>
    obtain ⟨hfresh,-,cid,-,hcid,-⟩ := hop.connectClient
    have hne : session ≠ other := fun heq => hfresh (heq ▸ hopened)
    simp only [liveSessions,List.foldl_append,List.foldl_cons,List.foldl_nil,hcid] at h
    rwa [AList.lookup_insert_ne hne] at h
  | channelInactive outside other =>
    simp only [liveSessions,List.foldl_append,List.foldl_cons,List.foldl_nil] at h
    by_cases hne : session = other
    · rw [hne,AList.lookup_erase] at h
      cases h
    · rwa [AList.lookup_erase_ne hne] at h

theorem mem_opened (hinv : HubInvariant past w) {client : ChannelClient}
    (h : client ∈ w.created) : client.session ∈ openedSessions past :=
  hinv.created ▸ List.mem_map_of_mem h

theorem Requested.step (h : Requested past w) (hinv : HubInvariant past w)
    (hop : SessionGuard past w op) : Requested (past ++ [op]) (w.step op) := by
  intro client hclient c hlive
  obtain hsame | ⟨outside,request,session,cid,rfl,hfresh,hcid,hnew⟩ := created_step hinv hop
  · rw [hsame] at hclient
    exact h client hclient c (live_of_step hop (mem_opened hinv hclient) hlive)
  · rw [hnew] at hclient
    obtain hold | hclient := List.mem_append.mp hclient
    · exact h client hold c (live_of_step hop (mem_opened hinv hold) hlive)
    · obtain rfl := List.mem_singleton.mp hclient
      simp only [liveSessions,List.foldl_append,List.foldl_cons,List.foldl_nil,hcid] at hlive
      have hlookup : some cid = some c := by
        simpa [Connect.newClient] using hlive
      exact hcid.trans hlookup

end connect

section step
variable {codecs : Codecs} {past past' : List Op} {s s' : System} {n m : String}

theorem historyOf_session (op : Connect.Op) (publishedAt : Int64) :
    historyOf n (past ++ [.session m op publishedAt]) =
      if m = n then historyOf n past ++ [op] else historyOf n past := by
  by_cases h : m = n <;> simp [historyOf,h]

/-- Nothing that a later state builds on is taken back. -/
structure Grows (past : List Op) (s : System) (past' : List Op) (s' : System) : Prop where
  published : s.published <+: s'.published
  created : ∀ n, (s.nodes n).created ⊆ (s'.nodes n).created
  live : ∀ n, ∀ client ∈ (s.nodes n).created, ∀ c,
    (liveSessions (historyOf n past')).lookup client.session = some c →
      (liveSessions (historyOf n past)).lookup client.session = some c

theorem Grows.getElem? (h : Grows past s past' s') {k : ℕ} {p : Published}
    (hk : s.published[k]? = some p) : s'.published[k]? = some p := by
  obtain ⟨more,hmore⟩ := h.published
  rw [← hmore,List.getElem?_append_left (List.getElem?_eq_some_iff.mp hk).1,hk]

theorem FromMember.mono (h : Grows past s past' s') {p : Published} (hp : FromMember s p) :
    FromMember s' p := by
  cases p with
  | message uid c m =>
    obtain ⟨n,sender,hsender,hrest⟩ := hp
    exact ⟨n,sender,h.created n hsender,hrest⟩
  | event => trivial

theorem Push.Sound.mono {push : Push} (h : Grows past s past' s')
    (hpush : push.Sound codecs past s) : push.Sound codecs past' s' := by
  obtain ⟨⟨p,m,currentTimeMillis,receivers,hp,hm,hwrites,hnodup,hto,hall⟩,hcreated⟩ := hpush
  refine ⟨⟨p,m,currentTimeMillis,receivers,h.getElem? hp,hm,hwrites,hnodup,hto,?_⟩,
    fun client hclient => h.created _ (hcreated hclient)⟩
  intro client hclient hlive
  exact hall client hclient (h.live _ client (hcreated hclient) _ hlive)

theorem Grows.trans {past'' : List Op} {s'' : System} (h : Grows past s past' s')
    (h' : Grows past' s' past'' s'') : Grows past s past'' s'' where
  published := h.published.trans h'.published
  created n := List.Subset.trans (h.created n) (h'.created n)
  live n client hclient c hlive := h.live n client hclient c
    (h'.live n client (h.created n hclient) c hlive)

theorem grows_publish (currentTimeMillis : Int64) (p : Published) :
    Grows past s past (s.publish codecs currentTimeMillis p) :=
  ⟨List.prefix_append _ _,fun _ _ hclient => hclient,fun _ _ _ _ hlive => hlive⟩

theorem Inv.publish (h : Inv codecs past s) (currentTimeMillis : Int64) {p : Published}
    (hp : FromMember s p) : Inv codecs past (s.publish codecs currentTimeMillis p) := by
  have hgrows : Grows past s past (s.publish codecs currentTimeMillis p) := grows_publish ..
  refine ⟨h.hub,h.requested,h.wellFormed,h.listsNamed,?_,?_,?_,
    fun push hpush => (h.sound push hpush).mono hgrows⟩
  · intro q hq
    obtain hq | hq := List.mem_append.mp hq
    · exact (h.fromMember q hq).mono hgrows
    · exact List.mem_singleton.mp hq ▸ hp.mono hgrows
  · intro x hx
    obtain hx | hx := List.mem_append.mp hx
    · obtain ⟨q,time,hq,hrecord⟩ := h.onTopic x hx
      exact ⟨q,time,hgrows.getElem? hq,hrecord⟩
    · obtain rfl := List.mem_singleton.mp hx
      exact ⟨p,currentTimeMillis,by simp [System.publish],rfl⟩
  · intro n x hx
    obtain ⟨q,m,hq,hrest⟩ := h.onNodeTopics n x hx
    exact ⟨q,m,hgrows.getElem? hq,hrest⟩

theorem publishEvents (codecs : Codecs) (past : List Op) (currentTimeMillis : Int64)
    (n : String) (events : List Event) (s : System) : Grows past s past (events.foldl
      (fun s event => s.publish codecs currentTimeMillis (.event n event)) s) ∧
    (Inv codecs past s → Inv codecs past (events.foldl
      (fun s event => s.publish codecs currentTimeMillis (.event n event)) s)) ∧
    ∃ published topic, events.foldl
      (fun s event => s.publish codecs currentTimeMillis (.event n event)) s =
        { s with published, topic } := by
  induction events generalizing s with
  | nil =>
    exact ⟨⟨List.prefix_refl _,fun _ _ hclient => hclient,fun _ _ _ _ hlive => hlive⟩,id,
      s.published,s.topic,rfl⟩
  | cons event events ih =>
    obtain ⟨hgrows,hinv,published,topic,hframe⟩ :=
      ih (s.publish codecs currentTimeMillis (.event n event))
    exact ⟨(grows_publish ..).trans hgrows,fun h => hinv (h.publish currentTimeMillis trivial),
      published,topic,hframe⟩

section session
variable {op : Connect.Op}

theorem update_nodes (n : String) : Function.update s.nodes m ((s.nodes m).step op) n =
    if m = n then (s.nodes n).step op else s.nodes n := by
  by_cases hn : m = n
  · subst hn
    rw [Function.update_self,if_pos rfl]
  · rw [Function.update_of_ne (Ne.symm hn),if_neg hn]

theorem grows_nodes (h : Inv codecs past s) (publishedAt : Int64)
    (hop : SessionGuard (historyOf m past) (s.nodes m) op) :
    Grows past s (past ++ [.session m op publishedAt])
      { s with nodes := Function.update s.nodes m ((s.nodes m).step op) } := by
  refine ⟨List.prefix_refl _,fun n client hclient => ?_,fun n client hclient c hlive => ?_⟩
  · dsimp only
    rw [update_nodes]
    split
    · next heq =>
      subst heq
      obtain hsame | ⟨_,_,_,_,-,-,-,hnew⟩ := created_step (h.hub m) hop
      · exact hsame ▸ hclient
      · exact hnew ▸ List.mem_append_left _ hclient
    · exact hclient
  · rw [historyOf_session] at hlive
    split at hlive
    · next heq =>
      subst heq
      exact live_of_step hop (mem_opened (h.hub m) hclient) hlive
    · exact hlive

theorem grows_session (h : Inv codecs past s) (publishedAt : Int64)
    (hop : SessionGuard (historyOf m past) (s.nodes m) op) :
    Grows past s (past ++ [.session m op publishedAt]) (s.session codecs m op publishedAt) :=
  (grows_nodes h publishedAt hop).trans (publishEvents _ _ _ _ _ _).1

theorem Inv.session (h : Inv codecs past s) (publishedAt : Int64)
    (hop : SessionGuard (historyOf m past) (s.nodes m) op) :
    Inv codecs (past ++ [.session m op publishedAt]) (s.session codecs m op publishedAt) := by
  have hgrows := grows_nodes h publishedAt hop
  refine (publishEvents _ _ _ _ _ _).2.1 ⟨fun n => ?_,fun n => ?_,h.wellFormed,h.listsNamed,
    fun p hp => (h.fromMember p hp).mono hgrows,h.onTopic,h.onNodeTopics,
    fun push hpush => (h.sound push hpush).mono hgrows⟩
  · dsimp only
    rw [update_nodes,historyOf_session]
    split
    · next heq => subst heq; exact (h.hub m).step hop
    · exact h.hub n
  · dsimp only
    rw [update_nodes,historyOf_session]
    split
    · next heq => subst heq; exact (h.requested m).step (h.hub m) hop
    · exact h.requested n

end session

theorem frame_cases (h : Inv codecs past s) (session : String) (msg : Message)
    (outside : Outside) : s.frame codecs n session msg outside = s ∨
      ∃ p, FromMember s p ∧ s.frame codecs n session msg outside =
        s.publish codecs outside.currentTimeMillis p := by
  simp only [System.frame]
  split
  · next p w hrun =>
    obtain ⟨client,hclient,uid,c,hsession,huid,hlive,rfl⟩ := channelRead0_run (h.hub n) hrun
    subst hsession
    exact .inr ⟨.message uid c msg,
      ⟨n,client,hclient,huid,h.requested n client hclient c hlive⟩,rfl⟩
  · exact .inl rfl

theorem consume_some {i serial : ℕ} {record : Record}
    (hi : s.topic[i]? = some (serial,record)) : s.consume codecs i =
      { s with
        registry := (consumed codecs s.registry record).registry
        topic := s.topic.eraseIdx i
        nodeTopics := fun topic => s.nodeTopics topic ++
          (sentTo codecs topic (consumed codecs s.registry record).calls).map fun record =>
            (serial,record) } := by
  simp only [System.consume,hi]
  rfl

theorem grows_consume {i serial : ℕ} {record : Record}
    (hi : s.topic[i]? = some (serial,record)) : Grows past s past (s.consume codecs i) := by
  rw [consume_some hi]
  exact ⟨List.prefix_refl _,fun _ _ hclient => hclient,fun _ _ _ _ hlive => hlive⟩

theorem Inv.consume (h : Inv codecs past s) (i : ℕ) : Inv codecs past (s.consume codecs i) := by
  cases hi : s.topic[i]? with
  | none =>
    simp only [System.consume,hi]
    exact h
  | some x =>
    obtain ⟨serial,record⟩ := x
    obtain ⟨p,time,hp,hrecord⟩ := h.onTopic _ (List.mem_of_getElem? hi)
    obtain rfl : record = p.record codecs time := hrecord
    obtain ⟨hregistry,chosen,hsent,-,-⟩ :=
      consumed_eq codecs h.wellFormed h.listsNamed p time
    have hgrows : Grows past s past (s.consume codecs i) := grows_consume hi
    rw [consume_some hi] at hgrows ⊢
    rw [hregistry] at hgrows ⊢
    refine ⟨h.hub,h.requested,h.wellFormed,h.listsNamed,h.fromMember,
      fun x hx => h.onTopic x (List.mem_of_mem_eraseIdx hx),fun n x hx => ?_,
      fun push hpush => (h.sound push hpush).mono hgrows⟩
    obtain hx | hx := List.mem_append.mp hx
    · exact h.onNodeTopics n x hx
    · obtain ⟨y,hy,rfl⟩ := List.mem_map.mp hx
      rw [hsent n] at hy
      split at hy
      · obtain ⟨m,hm,rfl⟩ := Option.map_eq_some_iff.mp (Option.mem_toList.mp hy)
        exact ⟨p,m,hp,hm,rfl⟩
      · cases hy

/-- What consuming a record does to a node. -/
theorem push_some (h : Inv codecs past s) {i : ℕ} {x : ℕ × NodeRecord}
    (hi : (s.nodeTopics (connectTopic n))[i]? = some x) (currentTimeMillis : Int64) :
    ∃ writes, s.push codecs n i currentTimeMillis =
      { s with
        nodes := Function.update s.nodes n
          { s.nodes n with writes := (s.nodes n).writes ++ writes }
        nodeTopics := Function.update s.nodeTopics (connectTopic n)
          ((s.nodeTopics (connectTopic n)).eraseIdx i)
        pushed := s.pushed ++ [⟨x.1,n,writes,(s.nodes n).created⟩] } ∧
      Push.Sound codecs past s ⟨x.1,n,writes,(s.nodes n).created⟩ := by
  obtain ⟨p,m,hp,hm,hrecord⟩ := h.onNodeTopics n _ (List.mem_of_getElem? hi)
  obtain ⟨serial,record⟩ := x
  obtain rfl : record = nodeRecord codecs p m := hrecord
  obtain ⟨receivers,hfinal,hnodup,hreceivers⟩ :=
    onMessage_final codecs (h.hub n) currentTimeMillis p m
  refine ⟨_,?_,⟨p,m,currentTimeMillis,receivers,hp,hm,rfl,hnodup,fun client hclient => ?_,
    fun client hclient hlive => (hreceivers client).mpr ⟨hclient,hlive⟩⟩,
    List.Subset.refl _⟩
  · simp only [System.push,hi,hfinal,List.drop_left]
  · obtain ⟨hcreated,hlive⟩ := (hreceivers client).mp hclient
    exact ⟨hcreated,h.requested n client hcreated _ hlive⟩

/-- Writing changes nothing else of a node. -/
theorem update_writes (s : System) (n : String) (writes : List (ChannelClient × Packet))
    (k : String) : ∃ ws, Function.update s.nodes n { s.nodes n with writes } k =
      { s.nodes k with writes := ws } := by
  by_cases hk : k = n
  · subst hk
    exact ⟨_,Function.update_self ..⟩
  · exact ⟨(s.nodes k).writes,Function.update_of_ne hk _ _⟩

theorem grows_push (h : Inv codecs past s) (i : ℕ) (currentTimeMillis : Int64) :
    Grows past s past (s.push codecs n i currentTimeMillis) := by
  cases hi : (s.nodeTopics (connectTopic n))[i]? with
  | none =>
    simp only [System.push,hi]
    exact ⟨List.prefix_refl _,fun _ _ hclient => hclient,fun _ _ _ _ hlive => hlive⟩
  | some x =>
    obtain ⟨writes,hpush,-⟩ := push_some h hi currentTimeMillis
    rw [hpush]
    refine ⟨List.prefix_refl _,fun k client hclient => ?_,fun _ _ _ _ hlive => hlive⟩
    obtain ⟨ws,hws⟩ := update_writes s n ((s.nodes n).writes ++ writes) k
    dsimp only
    rw [hws]
    exact hclient

theorem Inv.push (h : Inv codecs past s) (i : ℕ) (currentTimeMillis : Int64) :
    Inv codecs past (s.push codecs n i currentTimeMillis) := by
  have hgrows : Grows past s past (s.push codecs n i currentTimeMillis) := grows_push h ..
  cases hi : (s.nodeTopics (connectTopic n))[i]? with
  | none =>
    simp only [System.push,hi]
    exact h
  | some x =>
    obtain ⟨writes,hpush,hsound⟩ := push_some h hi currentTimeMillis
    rw [hpush] at hgrows ⊢
    refine ⟨fun k => ?_,fun k => ?_,h.wellFormed,h.listsNamed,
      fun p hp => (h.fromMember p hp).mono hgrows,h.onTopic,fun k y hy => ?_,
      fun push hpush => ?_⟩
    · obtain ⟨ws,hws⟩ := update_writes s n ((s.nodes n).writes ++ writes) k
      obtain ⟨hmapped,hjoined,hchannel,hmember,hcreated,hdistinct,hnamed⟩ := h.hub k
      dsimp only
      rw [hws]
      exact ⟨hmapped,hjoined,hchannel,hmember,hcreated,hdistinct,hnamed⟩
    · obtain ⟨ws,hws⟩ := update_writes s n ((s.nodes n).writes ++ writes) k
      dsimp only
      rw [hws]
      exact h.requested k
    · refine h.onNodeTopics k y ?_
      dsimp only at hy
      by_cases hk : connectTopic k = connectTopic n
      · rw [hk] at hy ⊢
        rw [Function.update_self] at hy
        exact List.mem_of_mem_eraseIdx hy
      · rwa [Function.update_of_ne hk] at hy
    · obtain hpush | hpush := List.mem_append.mp hpush
      · exact (h.sound push hpush).mono hgrows
      · rw [List.mem_singleton.mp hpush]
        exact hsound.mono hgrows

theorem Grows.congr (h : Grows past s past s')
    (hhistory : ∀ n, historyOf n past' = historyOf n past) : Grows past s past' s' :=
  ⟨h.published,h.created,fun n client hclient c hlive =>
    h.live n client hclient c (hhistory n ▸ hlive)⟩

theorem Inv.congr (past : List Op) (h : Inv codecs past s)
    (hhistory : ∀ n, historyOf n past' = historyOf n past) : Inv codecs past' s := by
  have hgrows : Grows past s past s :=
    ⟨List.prefix_refl _,fun _ _ hclient => hclient,fun _ _ _ _ hlive => hlive⟩
  exact ⟨fun n => hhistory n ▸ h.hub n,fun n => hhistory n ▸ h.requested n,h.wellFormed,
    h.listsNamed,h.fromMember,h.onTopic,h.onNodeTopics,
    fun push hpush => (h.sound push hpush).mono (hgrows.congr hhistory)⟩

theorem grows_step (h : Inv codecs past s) {op : Op} (hop : Guard past s op) :
    Grows past s (past ++ [op]) ((machine codecs).step s op) := by
  have hrefl : Grows past s past s :=
    ⟨List.prefix_refl _,fun _ _ hclient => hclient,fun _ _ _ _ hlive => hlive⟩
  cases op with
  | session m op publishedAt => exact grows_session h publishedAt hop
  | registry op =>
    exact Grows.congr ⟨hrefl.published,hrefl.created,hrefl.live⟩ fun n => by simp [historyOf]
  | frame m session msg outside =>
    refine Grows.congr ?_ fun n => by simp [historyOf]
    change Grows past s past (s.frame codecs m session msg outside)
    obtain hsame | ⟨p,-,hpublish⟩ := frame_cases h session msg outside
    · rwa [hsame]
    · rw [hpublish]
      exact grows_publish ..
  | consume i =>
    refine Grows.congr ?_ fun n => by simp [historyOf]
    change Grows past s past (s.consume codecs i)
    cases hi : s.topic[i]? with
    | none =>
      simp only [System.consume,hi]
      exact hrefl
    | some x => exact grows_consume hi
  | push m i currentTimeMillis =>
    exact (grows_push h i currentTimeMillis).congr fun n => by simp [historyOf]

theorem Inv.step (h : Inv codecs past s) {op : Op} (hop : Guard past s op) :
    Inv codecs (past ++ [op]) ((machine codecs).step s op) := by
  cases op with
  | registry op =>
    refine Inv.congr past ?_ fun n => by simp [historyOf]
    exact ⟨h.hub,h.requested,h.wellFormed.step op,h.listsNamed.step h.wellFormed op,
      h.fromMember,h.onTopic,h.onNodeTopics,fun push hpush =>
        ⟨(h.sound push hpush).writes,(h.sound push hpush).created⟩⟩
  | session m op publishedAt => exact h.session publishedAt hop
  | frame m session msg outside =>
    refine Inv.congr past ?_ fun n => by simp [historyOf]
    change Inv codecs past (s.frame codecs m session msg outside)
    obtain hsame | ⟨p,hp,hpublish⟩ := frame_cases h session msg outside
    · rwa [hsame]
    · rw [hpublish]
      exact h.publish outside.currentTimeMillis hp
  | consume i => exact (h.consume i).congr past fun n => by simp [historyOf]
  | push m i currentTimeMillis =>
    exact (h.push i currentTimeMillis).congr past fun n => by simp [historyOf]

theorem inv_after {ops : List Op} (h : (machine codecs).Meets Guard ops) :
    Inv codecs ops ((machine codecs).after ops) := by
  refine Machine.invariant (P := Inv codecs) ?_ (fun _ _ _ hinv hop => hinv.step hop) h
  refine ⟨fun _ => Connect.hubInvariant_empty,fun _ _ hclient => absurd hclient List.not_mem_nil,
    Registry.wellFormed_empty,fun c => ?_,fun _ hp => absurd hp List.not_mem_nil,
    fun _ hx => absurd hx List.not_mem_nil,fun _ _ hx => absurd hx List.not_mem_nil,
    fun _ hpush => absurd hpush List.not_mem_nil⟩
  simp [machine,Registry.empty,Registry.nodeIds]

/-! ## The records as items of a relay -/

/-- im-message routes a record to nodes, and each of them serves it. -/
def relayOf (s : System) : Relay String where
  issued := s.published.length
  waiting := s.topic.map Prod.fst
  inbox n := (s.nodeTopics (connectTopic n)).map Prod.fst
  served n := s.pushed.filterMap fun push => if push.node = n then some push.serial else none

theorem relayOf_publish (currentTimeMillis : Int64) (p : Published) (s : System) :
    relayOf (s.publish codecs currentTimeMillis p) = (relayOf s).issue := by
  simp [relayOf,System.publish,Relay.issue]

theorem relayOf_publishEvents (codecs : Codecs) (currentTimeMillis : Int64) (n : String)
    (events : List Event) (s : System) : ∃ ops, relayOf (events.foldl
      (fun s event => s.publish codecs currentTimeMillis (.event n event)) s) =
        Relay.machine.runFrom (relayOf s) ops := by
  induction events generalizing s with
  | nil => exact ⟨[],rfl⟩
  | cons event events ih =>
    obtain ⟨ops,hops⟩ := ih (s.publish codecs currentTimeMillis (.event n event))
    refine ⟨.issue :: ops,hops.trans ?_⟩
    rw [relayOf_publish]
    rfl

theorem relayOf_consume (h : Inv codecs past s) (i : ℕ) :
    ∃ chosen, relayOf (s.consume codecs i) = (relayOf s).route i chosen := by
  cases hi : s.topic[i]? with
  | none =>
    have hwaiting : (relayOf s).waiting[i]? = none := by
      rw [relayOf,List.getElem?_map,hi]
      rfl
    exact ⟨fun _ => false,by simp only [System.consume,hi,Relay.route,hwaiting]⟩
  | some x =>
    obtain ⟨serial,record⟩ := x
    obtain ⟨p,time,hp,hrecord⟩ := h.onTopic _ (List.mem_of_getElem? hi)
    obtain rfl : record = p.record codecs time := hrecord
    obtain ⟨-,chosen,hsent,hchosen,-⟩ :=
      consumed_eq codecs h.wellFormed h.listsNamed p time
    have hwaiting : (relayOf s).waiting[i]? = some serial := by
      rw [relayOf,List.getElem?_map,hi]
      rfl
    refine ⟨chosen,?_⟩
    simp only [Relay.route,hwaiting]
    rw [consume_some hi]
    ext1
    · rfl
    · exact (List.eraseIdx_map ..).symm
    · funext n
      simp only [relayOf,List.map_append,hsent n]
      congr 1
      split
      · next hn =>
        obtain ⟨m,hm⟩ := Option.ne_none_iff_exists'.mp (hchosen n hn).1
        rw [hm]
        rfl
      · rfl
    · rfl

theorem relayOf_push (h : Inv codecs past s) (i : ℕ) (currentTimeMillis : Int64) :
    relayOf (s.push codecs n i currentTimeMillis) = (relayOf s).serve n i := by
  cases hi : (s.nodeTopics (connectTopic n))[i]? with
  | none =>
    have hinbox : ((relayOf s).inbox n)[i]? = none := by
      rw [relayOf,List.getElem?_map,hi]
      rfl
    simp only [System.push,hi,Relay.serve,hinbox]
  | some x =>
    obtain ⟨writes,hpush,-⟩ := push_some h hi currentTimeMillis
    have hinbox : ((relayOf s).inbox n)[i]? = some x.1 := by
      rw [relayOf,List.getElem?_map,hi]
      rfl
    simp only [Relay.serve,hinbox]
    rw [hpush]
    ext1
    · rfl
    · rfl
    · funext k
      by_cases hk : k = n
      · subst hk
        simp only [relayOf,Function.update_self]
        exact (List.eraseIdx_map ..).symm
      · simp only [relayOf,Function.update_of_ne hk,
          Function.update_of_ne (connectTopic_injective.ne hk)]
    · funext k
      by_cases hk : k = n
      · subst hk
        simp [relayOf]
      · simp [relayOf,Function.update_of_ne hk,Ne.symm hk]

/-- What a step does to the records, as a step of the relay. -/
theorem relay_step (h : Inv codecs past s) (op : Op) :
    ∃ ops, relayOf ((machine codecs).step s op) = Relay.machine.runFrom (relayOf s) ops := by
  cases op with
  | registry op => exact ⟨[],rfl⟩
  | session m op publishedAt =>
    obtain ⟨ops,hops⟩ := relayOf_publishEvents codecs publishedAt m
      (((s.nodes m).step op).events.drop (s.nodes m).events.length)
      { s with nodes := Function.update s.nodes m ((s.nodes m).step op) }
    exact ⟨ops,hops⟩
  | frame m session msg outside =>
    change ∃ ops, relayOf (s.frame codecs m session msg outside) = _
    obtain hsame | ⟨p,-,hpublish⟩ := frame_cases h session msg outside
    · exact ⟨[],congrArg relayOf hsame⟩
    · exact ⟨[.issue],(congrArg relayOf hpublish).trans (relayOf_publish ..)⟩
  | consume i =>
    obtain ⟨chosen,hroute⟩ := relayOf_consume h i
    exact ⟨[.route i chosen],hroute⟩
  | push m i currentTimeMillis => exact ⟨[.serve m i],relayOf_push h i currentTimeMillis⟩

/-! ## At most once -/

theorem served_nodup {ops : List Op} (h : (machine codecs).Meets Guard ops) (n : String) :
    ((relayOf ((machine codecs).after ops)).served n).Nodup := by
  have hrun : ∃ ops', Relay.machine.Meets (fun _ _ _ => True) ops' ∧
      relayOf ((machine codecs).after ops) = Relay.machine.after ops' := by
    refine Machine.simulation relayOf rfl (fun past op past' hmeets _ _ => ?_) h
    obtain ⟨ops',hstep⟩ := relay_step (inv_after hmeets) op
    exact ⟨ops',Machine.meetsFrom_of_forall fun _ _ _ => trivial,hstep⟩
  obtain ⟨ops',-,hrelay⟩ := hrun
  rw [hrelay]
  exact Relay.served_nodup ops' n

theorem pushed_pairwise (h : ∀ n, ((relayOf s).served n).Nodup) :
    s.pushed.Pairwise fun push later => push.serial = later.serial → push.node ≠ later.node := by
  refine List.pairwise_iff_forall_sublist.mpr fun {push later} hsub hserial hnode => ?_
  have hpair : ([push,later].filterMap fun push' =>
      if push'.node = later.node then some push'.serial else none).Nodup :=
    (hsub.filterMap _).nodup (h later.node)
  simp [hserial,hnode] at hpair

end step

/-- What the nodes have written: the record's number, the node and the client. -/
def System.written (s : System) : List (ℕ × String × ChannelClient) :=
  s.pushed.flatMap fun push => push.writes.map fun x => (push.serial,push.node,x.1)

/-- In every order of the steps, no client is written the same record twice, and what it is
written is the message of a member of its own channel. Only in the channel without a name it
may be an event, which is taken for a message. -/
theorem written_once (codecs : Codecs) {ops : List Op} (h : (machine codecs).Meets Guard ops) :
    ((machine codecs).after ops).written.Nodup ∧
    ∀ push ∈ ((machine codecs).after ops).pushed, ∀ x ∈ push.writes, ∃ p m,
      ((machine codecs).after ops).published[push.serial]? = some p ∧
      parsed codecs p = some m ∧ x.2.message = some m ∧
      x.1 ∈ (((machine codecs).after ops).nodes push.node).created ∧
      x.1.handshakeData.first "cid" = some (channelOf codecs p) ∧
      FromMember ((machine codecs).after ops) p := by
  have hinv := inv_after h
  have hserved := served_nodup h
  generalize (machine codecs).after ops = s at hinv hserved ⊢
  constructor
  · refine List.nodup_flatMap.mpr ⟨fun push hpush => ?_,?_⟩
    · obtain ⟨p,m,time,receivers,-,-,hwrites,hnodup,-⟩ := (hinv.sound push hpush).writes
      rw [hwrites,List.map_map]
      refine hnodup.map fun client other heq => ?_
      simpa using heq
    · refine (pushed_pairwise hserved).imp fun {push later} hne => ?_
      intro x hx hx'
      obtain ⟨y,-,rfl⟩ := List.mem_map.mp hx
      obtain ⟨z,-,heq⟩ := List.mem_map.mp hx'
      obtain ⟨hserial,hnode⟩ := Prod.ext_iff.mp heq
      exact hne hserial.symm (congrArg Prod.fst hnode).symm
  · intro push hpush x hx
    have hsound := hinv.sound push hpush
    obtain ⟨p,m,time,receivers,hp,hm,hwrites,-,hto,-⟩ := hsound.writes
    rw [hwrites] at hx
    obtain ⟨client,hclient,rfl⟩ := List.mem_map.mp hx
    obtain ⟨hcreated,hcid⟩ := hto client hclient
    exact ⟨p,m,hp,hm,rfl,hsound.created hcreated,hcid,
      hinv.fromMember p (List.mem_of_getElem? hp)⟩

/-- A node is listed for the channel of its one session, and the session's client writes. -/
def firstMessage : List Op :=
  [.registry (.start ⟨some "1",some "127.0.0.1",8080,18080,0⟩),
    .session "1" (.connectClient ⟨0,true⟩ (Connect.handshake "c" "u") "s") 0,
    .registry (.connect "1" "c" "u"),.frame "1" "s" ⟨.text,"hi",0⟩ ⟨0,true⟩]

/-- A second session opens and its client writes too. The node is handed the later message
first. -/
def twoMessages : List Op :=
  firstMessage ++ [.session "1" (.connectClient ⟨0,true⟩ (Connect.handshake "c" "v") "t") 0,
    .frame "1" "t" ⟨.text,"ho",0⟩ ⟨0,true⟩,.consume 1,.consume 2,.push "1" 1 0,.push "1" 0 0]

theorem written_once_twoMessages :
    ((machine protoCodecs).after twoMessages).written.length = 4 ∧
    ((machine protoCodecs).after twoMessages).written.Nodup :=
  ⟨by decide,(written_once protoCodecs (by decide)).1⟩

/-! ## At least once -/

/-- A node has a record before it, or it has written it while the clients were there. -/
def Reached (k : ℕ) (n : String) (clients : List ChannelClient) (s : System) : Prop :=
  clients ⊆ (s.nodes n).created ∧ ((∃ x ∈ s.nodeTopics (connectTopic n), x.1 = k) ∨
    ∃ push ∈ s.pushed, push.serial = k ∧ push.node = n ∧ clients ⊆ push.created)

section reached
variable {codecs : Codecs} {past : List Op} {s : System} {k : ℕ} {n : String}
  {clients : List ChannelClient}

/-- It is enough that a step keeps the clients, the node's records and the pushes. -/
theorem Reached.mono {s' : System} (h : Reached k n clients s)
    (hcreated : (s.nodes n).created ⊆ (s'.nodes n).created)
    (htopic : s.nodeTopics (connectTopic n) ⊆ s'.nodeTopics (connectTopic n))
    (hpushed : s.pushed ⊆ s'.pushed) : Reached k n clients s' := by
  refine ⟨fun client hclient => hcreated (h.1 hclient),?_⟩
  obtain ⟨x,hx,hk⟩ | ⟨push,hpush,hrest⟩ := h.2
  · exact .inl ⟨x,htopic hx,hk⟩
  · exact .inr ⟨push,hpushed hpush,hrest⟩

theorem Reached.push (h : Reached k n clients s) (hinv : Inv codecs past s) (m : String) (i : ℕ)
    (currentTimeMillis : Int64) :
    Reached k n clients (s.push codecs m i currentTimeMillis) := by
  cases hi : (s.nodeTopics (connectTopic m))[i]? with
  | none =>
    simp only [System.push,hi]
    exact h
  | some x =>
    obtain ⟨writes,hpush,-⟩ := push_some hinv hi currentTimeMillis
    rw [hpush]
    obtain ⟨hclients,hreached⟩ := h
    refine ⟨?_,?_⟩
    · dsimp only
      by_cases hn : n = m
      · subst hn
        rwa [Function.update_self]
      · rwa [Function.update_of_ne hn]
    · obtain ⟨y,hy,hk⟩ | ⟨push,hmem,hrest⟩ := hreached
      · by_cases hn : n = m
        · subst hn
          by_cases hserial : x.1 = k
          · exact .inr ⟨_,List.mem_append_right _ (List.mem_singleton_self _),hserial,rfl,hclients⟩
          · refine .inl ⟨y,?_,hk⟩
            dsimp only
            rw [Function.update_self]
            obtain ⟨hlt,rfl⟩ := List.getElem?_eq_some_iff.mp hi
            have hperm := (List.getElem_cons_eraseIdx_perm hlt).mem_iff.mpr hy
            exact (List.mem_cons.mp hperm).resolve_left fun heq => hserial (heq ▸ hk)
        · refine .inl ⟨y,?_,hk⟩
          dsimp only
          rwa [Function.update_of_ne (connectTopic_injective.ne hn)]
      · exact .inr ⟨push,List.mem_append_left _ hmem,hrest⟩

theorem Reached.step (h : Reached k n clients s) (hinv : Inv codecs past s) {op : Op}
    (hop : Guard past s op) : Reached k n clients ((machine codecs).step s op) := by
  have hcreated := (grows_step hinv hop).created n
  cases op with
  | registry op => exact h
  | session m op publishedAt =>
    obtain ⟨-,-,published,topic,hframe⟩ := publishEvents codecs past
      publishedAt m (((s.nodes m).step op).events.drop (s.nodes m).events.length)
      { s with nodes := Function.update s.nodes m ((s.nodes m).step op) }
    have hsession : (machine codecs).step s (.session m op publishedAt) = _ := hframe
    rw [hsession] at hcreated ⊢
    exact h.mono hcreated (List.Subset.refl _) (List.Subset.refl _)
  | frame m session msg outside =>
    change Reached k n clients (s.frame codecs m session msg outside)
    obtain hsame | ⟨p,-,hpublish⟩ := frame_cases hinv session msg outside
    · rwa [hsame]
    · rw [hpublish]
      exact h.mono (List.Subset.refl _) (List.Subset.refl _) (List.Subset.refl _)
  | consume i =>
    change Reached k n clients (s.consume codecs i)
    cases hi : s.topic[i]? with
    | none =>
      simp only [System.consume,hi]
      exact h
    | some x =>
      rw [consume_some hi]
      exact h.mono (List.Subset.refl _) (List.subset_append_left ..) (List.Subset.refl _)
  | push m i currentTimeMillis => exact h.push hinv m i currentTimeMillis

end reached

/-- As long as sessions have distinct ids, `cid` and `uid` and their events are taken, a message
that im-message consumes while all listed nodes are available reaches every listed node: once the
node has consumed the record, each client that was there when im-message did and is a live member
of the channel still has been written the message. -/
theorem delivered (codecs : Codecs) {past rest : List Op} {i : ℕ}
    (h : (machine codecs).Meets Guard (past ++ .consume i :: rest)) {k : ℕ} {record : Record}
    (hi : ((machine codecs).after past).topic[i]? = some (k,record)) {uid c : String}
    {m : Message}
    (hk : ((machine codecs).after past).published[k]? = some (.message uid c m))
    (havailable : ∀ id ∈ ((machine codecs).after past).registry.nodeIds c,
      ((machine codecs).after past).registry.available id ≠ none)
    {n : String} (hlisted : some n ∈ ((machine codecs).after past).registry.nodeIds c)
    (hdone : ∀ x ∈ ((machine codecs).after (past ++ .consume i :: rest)).nodeTopics
      (connectTopic n), x.1 ≠ k)
    {client : ChannelClient}
    (hclient : client ∈ (((machine codecs).after past).nodes n).created)
    (hlive : (liveSessions (historyOf n (past ++ .consume i :: rest))).lookup client.session =
      some c) :
    ∃ push ∈ ((machine codecs).after (past ++ .consume i :: rest)).pushed,
      push.serial = k ∧ push.node = n ∧
        ∃ currentTimeMillis, (client,⟨.message,currentTimeMillis,some m,none⟩) ∈ push.writes := by
  rw [← List.singleton_append,← List.append_assoc] at h hdone hlive ⊢
  have hconsume := (Machine.meetsFrom_append _ Guard [] _ _ _).mp h |>.1
  have hinv := inv_after (Machine.meets_snoc.mp hconsume).1
  have hlate := inv_after h
  -- right after the consumption the record is on the node's topic
  have hreached : Reached k n [client] ((machine codecs).after (past ++ [.consume i])) ∧
      ((machine codecs).after (past ++ [.consume i])).published[k]? =
        some (.message uid c m) := by
    rw [Machine.after_snoc]
    obtain ⟨p,time,hp,hrecord⟩ := hinv.onTopic _ (List.mem_of_getElem? hi)
    obtain rfl := Option.some.inj (hk.symm.trans hp)
    obtain rfl : record = _ := hrecord
    obtain ⟨-,chosen,hsent,-,hall⟩ := consumed_eq codecs hinv.wellFormed
      hinv.listsNamed (.message uid c m) time
    have hparsed : parsed codecs (.message uid c m) = some m :=
      codecs.message.parseFrom_toByteArray m
    have hchosen := hall (by rw [hparsed]; nofun) havailable n hlisted
    change Reached k n [client] (System.consume codecs _ i) ∧
      (System.consume codecs _ i).published[k]? = _
    rw [consume_some hi]
    refine ⟨⟨fun other hother => List.mem_singleton.mp hother ▸ hclient,
      .inl ⟨(k,nodeRecord codecs (.message uid c m) m),List.mem_append_right _ ?_,rfl⟩⟩,hk⟩
    rw [hsent n,if_pos hchosen,hparsed]
    exact List.mem_singleton_self _
  obtain ⟨⟨-,hend⟩,hk'⟩ := Machine.invariant_from
    (P := fun _ s => Reached k n [client] s ∧ s.published[k]? = some (.message uid c m)) hreached
    (fun past' op hmeets hP hop => ⟨hP.1.step (inv_after hmeets) hop,
      (grows_step (inv_after hmeets) hop).getElem? hP.2⟩) h
  obtain ⟨x,hx,hxk⟩ | ⟨push,hpush,rfl,rfl,hclients⟩ := hend
  · exact absurd hxk (hdone x hx)
  · obtain ⟨p,m',time,receivers,hp,hm,hwrites,-,-,hlives⟩ := (hlate.sound push hpush).writes
    obtain rfl := Option.some.inj (hk'.symm.trans hp)
    have hparsed : parsed codecs (.message uid c m) = some m :=
      codecs.message.parseFrom_toByteArray m
    obtain rfl := Option.some.inj (hparsed.symm.trans hm)
    refine ⟨push,hpush,rfl,rfl,time,?_⟩
    rw [hwrites]
    exact List.mem_map_of_mem (hlives client (hclients (List.mem_singleton_self _)) hlive)

theorem delivered_firstMessage : ∃ push ∈ ((machine protoCodecs).after
      (firstMessage ++ [.consume 1,.push "1" 0 0])).pushed, push.serial = 1 ∧ push.node = "1" ∧
    ∃ currentTimeMillis, ((⟨0,Connect.handshake "c" "u","s",0⟩ : ChannelClient),
      (⟨.message,currentTimeMillis,some ⟨.text,"hi",0⟩,none⟩ : Packet)) ∈ push.writes :=
  delivered protoCodecs (i := 1) (k := 1) (c := "c") (by decide) rfl rfl (by decide)
    (by decide) (by decide) (List.mem_singleton_self _) rfl

end ImSingle.Delivery
