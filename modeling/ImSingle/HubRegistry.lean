import ImSingle.Connect.Membership
import ImSingle.Message.Presence

/-! The hubs of the connect nodes against the registry of im-message. Each node hands its
presence events over in the order it emits them; they reach the registry after any delay and
in any interleaving with other nodes' events. -/
namespace ImSingle.HubRegistry
open Library Proto Message
open Stat (Registry ConnectNodeLoad)
open Connect (SessionGuard liveSessions openedSessions HubInvariant)

/-- The connect nodes by id, how many of each node's events have been handled, and the
registry. -/
structure System where
  nodes : String → Connect.World
  handled : String → ℕ
  registry : Registry

/-- The events of a node that have been handled. -/
def System.applied (s : System) (n : String) : List Event :=
  (s.nodes n).events.take (s.handled n)

/-- The events of a node that are on their way. -/
def System.pending (s : System) (n : String) : List Event :=
  (s.nodes n).events.drop (s.handled n)

/-- A node is registered, a session opens or closes at a node, or the next event of a node is
handled. -/
inductive Op
  | start (node : ConnectNodeLoad)
  | session (nodeId : String) (op : Connect.Op)
  | deliver (nodeId : String)

def System.step (s : System) : Op → System
  | .start node => { s with registry := s.registry.step (.start node) }
  | .session n op => { s with nodes := Function.update s.nodes n ((s.nodes n).step op) }
  | .deliver n =>
    match s.pending n with
    | [] => s
    | e :: _ => { s with
        handled := Function.update s.handled n (s.handled n + 1)
        registry := Message.handled n s.registry e }

def system : Machine System Op :=
  ⟨⟨fun _ => Connect.World.empty,fun _ => 0,Registry.empty⟩,System.step⟩

/-- The opens and closes at one node. -/
def historyOf (n : String) (past : List Op) : List Connect.Op :=
  past.filterMap fun
    | .session n' op => if n' = n then some op else none
    | _ => none

/-- Each node is started once, with load 0, before its first event is handled; sessions have
distinct ids, `cid` and `uid`, and their events are taken. -/
def Guard (past : List Op) (s : System) : Op → Prop
  | .start node => Stat.StartsFresh s.registry (.start node) ∧ node.load = 0
  | .session n op => SessionGuard (historyOf n past) (s.nodes n) op
  | .deliver n => n ∈ s.registry.availableNodes

instance (past : List Op) (s : System) : DecidablePred (Guard past s) := fun op => by
  cases op <;> unfold Guard <;> infer_instance

/-- The sessions opened so far, at all nodes. -/
def opens (past : List Op) : ℕ :=
  past.countP fun
    | .session _ (.connectClient _ _ _) => true
    | _ => false

/-- The sessions of a channel in a hub. -/
def sessionsIn (c : String) (w : Connect.World) : ℕ :=
  (JavaMap.values w.hub.channelMap).count c

def sessions (w : Connect.World) : ℕ := JavaMap.size w.hub.channelMap

/-- A node's hub holds the sessions that its history has opened and not closed. What the
registry holds of the node, with the node's events on their way, is what its hub holds; when
nothing is on its way, the registry counts exactly the live sessions. -/
structure Agrees (past : List Op) (s : System) : Prop where
  live : ∀ n, (s.nodes n).hub.channelMap = liveSessions (historyOf n past)
  channels : ∀ n c, s.registry.multiplicityIn n c + onlines c (s.pending n) =
    sessionsIn c (s.nodes n) + offlines c (s.pending n)
  loads : ∀ n l, s.registry.loadOf n = some l →
    l + (channelsOf .online (s.pending n)).length - (channelsOf .offline (s.pending n)).length =
      sessions (s.nodes n)
  settled : ∀ n, s.pending n = [] →
    (∀ c, s.registry.multiplicityIn n c = sessionsIn c (s.nodes n)) ∧
    ∀ l, s.registry.loadOf n = some l → l = sessions (s.nodes n)

/-! ## What a node emits -/

/-- The events of a node tell its live sessions, and no channel's OFFLINEs are ever ahead. -/
structure Emitted (past : List Connect.Op) (w : Connect.World) : Prop where
  channels : ∀ c, sessionsIn c w + offlines c w.events = onlines c w.events
  total : sessions w + (channelsOf .offline w.events).length =
    (channelsOf .online w.events).length
  opened : (channelsOf .online w.events).length = (openedSessions past).length
  bracketed : ∀ part, part <+: w.events → ∀ c, offlines c part ≤ onlines c part

section emitted
variable {past : List Connect.Op} {w : Connect.World} {outside : Connect.Outside}
  {request : Connect.HandshakeData} {session cid uid c : String}

theorem Emitted.empty : Emitted [] Connect.World.empty := by
  constructor <;>
    simp [Connect.World.empty,Connect.ChannelsHub.empty,sessionsIn,sessions,onlines,offlines,
      channelsOf,openedSessions,JavaMap.size]

lemma bracketed_snoc {events : List Event} {e : Event}
    (h : ∀ part, part <+: events → ∀ c, offlines c part ≤ onlines c part)
    (hlast : ∀ c, offlines c (events ++ [e]) ≤ onlines c (events ++ [e])) :
    ∀ part, part <+: events ++ [e] → ∀ c, offlines c part ≤ onlines c part := by
  intro part hpart
  rcases List.prefix_concat_iff.mp hpart with rfl | hpart
  · exact hlast
  · exact h part hpart

theorem Emitted.connectClient (h : Emitted past w) (hinv : HubInvariant past w)
    (hfresh : session ∉ openedSessions past) (hsent : outside.sent = true)
    (hcid : request.first "cid" = some cid) (huid : request.first "uid" = some uid) :
    Emitted (past ++ [.connectClient outside request session])
      (w.step (.connectClient outside request session)) := by
  have hvalues : JavaMap.values (w.hub.channelMap.insert session cid) =
      cid :: JavaMap.values w.hub.channelMap := by
    rw [JavaMap.values_insert,JavaMap.erase_of_lookup_eq_none (hinv.not_live hfresh)]
  have hsize := congrArg List.length hvalues
  rw [JavaMap.length_values,List.length_cons,JavaMap.length_values] at hsize
  rw [Connect.step_connectClient hsent hcid huid,hinv.newClient_channelId]
  have hchannels : ∀ c, sessionsIn c w + (if cid = c then 1 else 0) +
      offlines c w.events = onlines c w.events + if cid = c then 1 else 0 := by
    intro c
    have := h.channels c
    omega
  have htotal := h.total
  constructor
  · intro c
    simpa [sessionsIn,Connect.opened_channelMap,hvalues,onlines_snoc,offlines_snoc,
      List.count_cons] using hchannels c
  · simp [sessions,Connect.opened_channelMap,hsize,length_channelsOf_snoc]
    unfold sessions at htotal
    omega
  · simpa [length_channelsOf_snoc,openedSessions] using h.opened
  · refine bracketed_snoc h.bracketed fun c => ?_
    have := hchannels c
    simp [onlines_snoc,offlines_snoc]
    omega

theorem Emitted.channelInactive (h : Emitted past w) (hinv : HubInvariant past w)
    (hsent : outside.sent = true) :
    Emitted (past ++ [.channelInactive outside session])
      (w.step (.channelInactive outside session)) := by
  have hopened : openedSessions (past ++ [.channelInactive outside session]) =
      openedSessions past := by simp [openedSessions]
  cases hmap : w.hub.channelMap.lookup session with
  | none =>
    rw [Connect.step_channelInactive_unknown hmap]
    exact ⟨h.channels,h.total,hopened ▸ h.opened,h.bracketed⟩
  | some c =>
    obtain ⟨r,client,uid,hc,hlook,_,rfl,_,huid⟩ := hinv.live hmap
    have hid : client.getChannelId w.hub = c := (hinv.channel c _ hc).2
    rw [Connect.step_channelInactive hsent hmap hc hlook huid,hid]
    have hperm := JavaMap.values_perm_erase hmap
    have hsize := hperm.length_eq
    rw [JavaMap.length_values,List.length_cons,JavaMap.length_values] at hsize
    have hchannels : ∀ d, (JavaMap.values (w.hub.channelMap.erase session)).count d +
        (offlines d w.events + if c = d then 1 else 0) = onlines d w.events := by
      intro d
      have hcount := hperm.count_eq d
      have := h.channels d
      unfold sessionsIn at this
      rw [List.count_cons] at hcount
      simp only [beq_iff_eq] at hcount
      omega
    have htotal := h.total
    constructor
    · intro d
      simpa [sessionsIn,onlines_snoc,offlines_snoc] using hchannels d
    · simp [sessions,length_channelsOf_snoc]
      unfold sessions at htotal
      omega
    · rw [hopened,← h.opened]
      simp [length_channelsOf_snoc]
    · refine bracketed_snoc h.bracketed fun d => ?_
      have := hchannels d
      simp [onlines_snoc,offlines_snoc]
      omega

theorem Emitted.step (h : Emitted past w) (hinv : HubInvariant past w) {op : Connect.Op}
    (hop : SessionGuard past w op) : Emitted (past ++ [op]) (w.step op) := by
  cases op with
  | connectClient outside request session =>
    obtain ⟨hfresh,hsent,cid,uid,hcid,huid⟩ := hop.connectClient
    exact h.connectClient hinv hfresh hsent hcid huid
  | channelInactive outside session => exact h.channelInactive hinv hop

/-- A node never takes an event back. -/
theorem events_step (hinv : HubInvariant past w) {op : Connect.Op}
    (hop : SessionGuard past w op) : w.events <+: (w.step op).events := by
  cases op with
  | connectClient outside request session =>
    obtain ⟨_,hsent,cid,uid,hcid,huid⟩ := hop.connectClient
    rw [Connect.step_connectClient hsent hcid huid]
    exact List.prefix_append _ _
  | channelInactive outside session =>
    cases hmap : w.hub.channelMap.lookup session with
    | none => exact ⟨[],by simp [Connect.step_channelInactive_unknown hmap]⟩
    | some c =>
      obtain ⟨r,client,uid,hc,hlook,_,_,_,huid⟩ := hinv.live hmap
      rw [Connect.step_channelInactive hop hmap hc hlook huid]
      exact List.prefix_append _ _

end emitted

/-! ## Hubs and registry together -/

/-- The hubs are those of their own histories, and the registry is what handling the first
`handled n` events of each node `n` makes of it. -/
structure Joint (past : List Op) (s : System) : Prop where
  wellFormed : s.registry.WellFormed
  hub : ∀ n, HubInvariant (historyOf n past) (s.nodes n)
  emitted : ∀ n, Emitted (historyOf n past) (s.nodes n)
  handled_le : ∀ n, s.handled n ≤ (s.nodes n).events.length
  unknown : ∀ n, s.registry.loadOf n = none → s.handled n = 0
  channels : ∀ n c, s.registry.multiplicityIn n c + offlines c (s.applied n) =
    onlines c (s.applied n)
  loads : ∀ n l, s.registry.loadOf n = some l →
    l = (channelsOf .online (s.applied n)).length -
      (channelsOf .offline (s.applied n)).length

theorem joint_empty : Joint [] system.init where
  wellFormed := Stat.Registry.wellFormed_empty
  hub _ := Connect.hubInvariant_empty
  emitted _ := Emitted.empty
  handled_le _ := Nat.zero_le _
  unknown _ _ := rfl
  channels _ _ := rfl
  loads _ _ h := by cases h

section joint
variable {past : List Op} {s : System} {n m c : String}

theorem Joint.agrees (h : Joint past s) : Agrees past s := by
  have hsplit (n : String) : (s.nodes n).events = s.applied n ++ s.pending n :=
    (List.take_append_drop _ _).symm
  have hcount (n c : String) (type : EventType) : (channelsOf type (s.nodes n).events).count c =
      (channelsOf type (s.applied n)).count c +
        (channelsOf type (s.pending n)).count c := by
    rw [← List.count_append,← channelsOf_append,← hsplit]
  have hlength (n : String) (type : EventType) : (channelsOf type (s.nodes n).events).length =
      (channelsOf type (s.applied n)).length +
        (channelsOf type (s.pending n)).length := by
    rw [← List.length_append,← channelsOf_append,← hsplit]
  have hchannels : ∀ n c, s.registry.multiplicityIn n c + onlines c (s.pending n) =
      sessionsIn c (s.nodes n) + offlines c (s.pending n) := by
    intro n c
    have := h.channels n c
    have := (h.emitted n).channels c
    have := hcount n c .online
    have := hcount n c .offline
    unfold onlines offlines at *
    omega
  have hloads : ∀ n l, s.registry.loadOf n = some l →
      l + (channelsOf .online (s.pending n)).length -
        (channelsOf .offline (s.pending n)).length = sessions (s.nodes n) := by
    intro n l hl
    have := h.loads n l hl
    have := (h.emitted n).total
    have := hlength n .online
    have := hlength n .offline
    omega
  refine ⟨fun n => (h.hub n).mapped,hchannels,hloads,fun n hnil => ⟨fun c => ?_,fun l hl => ?_⟩⟩
  · simpa [hnil,onlines,offlines,channelsOf] using hchannels n c
  · simpa [hnil,channelsOf] using hloads n l hl

lemma historyOf_start (node : ConnectNodeLoad) :
    historyOf n (past ++ [.start node]) = historyOf n past := by simp [historyOf]

lemma historyOf_deliver : historyOf n (past ++ [.deliver m]) = historyOf n past := by
  simp [historyOf]

lemma historyOf_session (op : Connect.Op) : historyOf n (past ++ [.session m op]) =
    if m = n then historyOf n past ++ [op] else historyOf n past := by
  by_cases h : m = n <;> simp [historyOf,h]

theorem opened_le_opens (n : String) (past : List Op) :
    (openedSessions (historyOf n past)).length ≤ opens past := by
  induction past using List.reverseRecOn with
  | nil => exact le_rfl
  | append_singleton past op ih =>
    have hopens : opens past ≤ opens (past ++ [op]) := by simp [opens]
    cases op with
    | start node => rw [historyOf_start]; exact ih.trans hopens
    | deliver m => rw [historyOf_deliver]; exact ih.trans hopens
    | session m op =>
      rw [historyOf_session]
      split
      · cases op with
        | connectClient outside request session => simpa [openedSessions,opens] using ih
        | channelInactive outside session => simpa [openedSessions,opens] using ih
      · exact ih.trans hopens

theorem Joint.start (h : Joint past s) {node : ConnectNodeLoad}
    (hfresh : Stat.StartsFresh s.registry (.start node)) (hload : node.load = 0) :
    Joint (past ++ [.start node]) (s.step (.start node)) := by
  obtain ⟨m,hm,hnew⟩ := hfresh
  have hwf := h.wellFormed
  refine ⟨hwf.step _,fun n => ?_,fun n => ?_,h.handled_le,fun n hn => ?_,fun n c => ?_,
    fun n l hl => ?_⟩
  · rw [historyOf_start]; exact h.hub n
  · rw [historyOf_start]; exact h.emitted n
  · change (s.registry.step (.start node)).loadOf n = none at hn
    rw [Stat.loadOf_start hwf hm] at hn
    split at hn
    · cases hn
    · exact h.unknown n hn
  · change (s.registry.step (.start node)).multiplicityIn n c + _ = _
    unfold Registry.multiplicityIn
    rw [Registry.nodeIds_congr c (Stat.channelNodeMap_start node)]
    exact h.channels n c
  · change (s.registry.step (.start node)).loadOf n = some l at hl
    rw [Stat.loadOf_start hwf hm] at hl
    split at hl
    · next heq =>
      subst heq
      obtain rfl := Option.some.inj hl
      have hnil : s.applied m = [] := by
        rw [System.applied,h.unknown m (Stat.loadOf_eq_none.mpr hnew),List.take_zero]
      change node.load = (channelsOf .online (s.applied m)).length -
        (channelsOf .offline (s.applied m)).length
      rw [hnil,hload]
      rfl
    · exact h.loads n l hl

theorem Joint.session (h : Joint past s) {op : Connect.Op}
    (hop : SessionGuard (historyOf m past) (s.nodes m) op) :
    Joint (past ++ [.session m op]) (s.step (.session m op)) := by
  have hnodes (n : String) : (s.step (.session m op)).nodes n =
      if m = n then (s.nodes n).step op else s.nodes n := by
    by_cases hn : m = n
    · subst hn; simp [System.step]
    · simp [System.step,hn,Function.update_of_ne (Ne.symm hn)]
  have hevents (n : String) : (s.nodes n).events <+: ((s.step (.session m op)).nodes n).events := by
    rw [hnodes]
    split
    · next heq => exact heq ▸ events_step (h.hub m) hop
    · exact List.prefix_refl _
  have happlied (n : String) : (s.step (.session m op)).applied n = s.applied n := by
    obtain ⟨more,hmore⟩ := hevents n
    change ((s.step (.session m op)).nodes n).events.take (s.handled n) = _
    rw [← hmore,List.take_append_of_le_length (h.handled_le n),System.applied]
  refine ⟨h.wellFormed,fun n => ?_,fun n => ?_,fun n => ?_,h.unknown,fun n c => ?_,fun n l hl => ?_⟩
  · rw [hnodes,historyOf_session]
    split
    · next heq =>
      subst heq
      exact (h.hub m).step hop
    · exact h.hub n
  · rw [hnodes,historyOf_session]
    split
    · next heq => subst heq; exact (h.emitted m).step (h.hub m) hop
    · exact h.emitted n
  · exact (h.handled_le n).trans (hevents n).length_le
  · rw [happlied]; exact h.channels n c
  · rw [happlied]; exact h.loads n l hl

/-- Fewer than 2^31 sessions keep the counts of handled events within an `int`. -/
theorem Joint.length_le (h : Joint past s) (type : EventType)
    (htype : type = .online ∨ type = .offline) (part : List Event)
    (hpart : part <+: (s.nodes n).events) : (channelsOf type part).length ≤ opens past := by
  have hsub : (channelsOf type part).length ≤ (channelsOf type (s.nodes n).events).length :=
    (hpart.sublist.filterMap _).length_le
  have htotal := (h.emitted n).total
  have hopened := (h.emitted n).opened
  have hopens := opened_le_opens n past
  rcases htype with rfl | rfl <;> omega

theorem applied_deliver {e : Event} {rest : List Event} (hpending : s.pending m = e :: rest)
    (n : String) : (s.step (.deliver m)).applied n =
      if m = n then s.applied n ++ [e] else s.applied n := by
  simp only [System.step,hpending,System.applied]
  split
  · next heq =>
    subst heq
    have hget : (s.nodes m).events[s.handled m]? = some e := by
      rw [← List.head?_drop]
      exact congrArg List.head? hpending
    rw [Function.update_self,List.take_add_one,hget]
    rfl
  · next hne => rw [Function.update_of_ne (Ne.symm hne)]

theorem registry_deliver {e : Event} {rest : List Event} (hpending : s.pending m = e :: rest) :
    (s.step (.deliver m)).registry = Message.handled m s.registry e := by
  simp [System.step,hpending]

theorem handled_deliver {e : Event} {rest : List Event} (hpending : s.pending m = e :: rest)
    (n : String) : (s.step (.deliver m)).handled n =
      if m = n then s.handled n + 1 else s.handled n := by
  simp only [System.step,hpending]
  split
  · next heq => subst heq; exact Function.update_self _ _ _
  · next hne => exact Function.update_of_ne (Ne.symm hne) _ _

theorem nodes_deliver : (s.step (.deliver m)).nodes = s.nodes := by
  cases hpending : s.pending m <;> simp [System.step,hpending]

/-- The next event of a node extends the handled ones to a part of what the node emitted. -/
theorem applied_snoc_le {e : Event} {rest : List Event} (hpending : s.pending m = e :: rest) :
    s.applied m ++ [e] <+: (s.nodes m).events := by
  refine ⟨rest,?_⟩
  rw [List.append_assoc,List.singleton_append,← hpending]
  exact List.take_append_drop _ _

/-- An OFFLINE that is handled finds its channel listed, since its ONLINE was handled before. -/
theorem Joint.deliver_channels (h : Joint past s) {e : Event} {rest : List Event}
    (hpending : s.pending m = e :: rest) {l : ℤ} (hl : s.registry.loadOf m = some l)
    (n c : String) : (Message.handled m s.registry e).multiplicityIn n c +
      offlines c ((s.step (.deliver m)).applied n) =
      onlines c ((s.step (.deliver m)).applied n) := by
  rw [multiplicity_handled h.wellFormed hl,applied_deliver hpending]
  have hmult := h.channels n c
  by_cases hn : m = n
  · subst hn
    have hbracketed := (h.emitted m).bracketed _ (applied_snoc_le hpending) c
    rw [onlines_snoc,offlines_snoc] at hbracketed
    simp only [true_and,if_true,onlines_snoc,offlines_snoc]
    split_ifs at hbracketed ⊢ <;> omega
  · simpa [hn] using hmult

/-- The load stays within an `int`, so one event changes it by one. -/
theorem Joint.deliver_loads (h : Joint past s) {e : Event} {rest : List Event}
    (hpending : s.pending m = e :: rest) {l : ℤ} (hl : s.registry.loadOf m = some l)
    (hopens : opens past < 2^31) (n : String) (k : ℤ)
    (hk : (Message.handled m s.registry e).loadOf n = some k) :
    k = (channelsOf .online ((s.step (.deliver m)).applied n)).length -
      (channelsOf .offline ((s.step (.deliver m)).applied n)).length := by
  rw [loadOf_handled h.wellFormed hl] at hk
  rw [applied_deliver hpending]
  split at hk
  · next heq =>
    subst heq
    have hload := h.loads m l hl
    have hon := h.length_le .online (.inl rfl) _ (applied_snoc_le hpending)
    have hoff := h.length_le .offline (.inr rfl) _ (applied_snoc_le hpending)
    rw [length_channelsOf_snoc] at hon hoff
    rw [if_pos rfl,length_channelsOf_snoc,length_channelsOf_snoc]
    obtain rfl := Option.some.inj hk
    by_cases honline : e.type = .online
    · rw [if_pos honline] at hon
      rw [if_pos honline,toInt32_eq (by omega) (by omega)]
      simp [honline]
      omega
    · by_cases hoffline : e.type = .offline
      · rw [if_pos hoffline] at hoff
        rw [if_neg honline,if_pos hoffline,toInt32_eq (by omega) (by omega)]
        simp [hoffline]
        omega
      · simpa [honline,hoffline] using hload
  · next hne => rw [if_neg hne]; exact h.loads n k hk

theorem Joint.deliver (h : Joint past s) (hknown : m ∈ s.registry.availableNodes)
    (hopens : opens past < 2^31) : Joint (past ++ [.deliver m]) (s.step (.deliver m)) := by
  cases hpending : s.pending m with
  | nil =>
    have hsame : s.step (.deliver m) = s := by simp [System.step,hpending]
    rw [hsame]
    exact { h with
      hub := fun n => by rw [historyOf_deliver]; exact h.hub n
      emitted := fun n => by rw [historyOf_deliver]; exact h.emitted n }
  | cons e rest =>
    obtain ⟨r,hr⟩ := Registry.exists_object hknown
    have hl := Stat.loadOf_eq_some.mpr ⟨r,hr,rfl⟩
    have hregistry := registry_deliver hpending
    have hhandled := handled_deliver hpending
    constructor
    · rw [hregistry]; exact wellFormed_handled h.wellFormed
    · intro n; rw [nodes_deliver,historyOf_deliver]; exact h.hub n
    · intro n; rw [nodes_deliver,historyOf_deliver]; exact h.emitted n
    · intro n
      rw [hhandled,nodes_deliver]
      split
      · next heq =>
        subst heq
        have hlen := congrArg List.length hpending
        rw [System.pending,List.length_drop,List.length_cons] at hlen
        omega
      · exact h.handled_le n
    · intro n hn
      rw [hregistry,loadOf_handled h.wellFormed hl] at hn
      split at hn
      · cases hn
      · next hne => rw [hhandled,if_neg hne]; exact h.unknown n hn
    · intro n c; rw [hregistry]; exact h.deliver_channels hpending hl n c
    · intro n k hk
      rw [hregistry] at hk
      exact h.deliver_loads hpending hl hopens n k hk

end joint

lemma opens_mono {past ops : List Op} (h : past <+: ops) : opens past ≤ opens ops :=
  h.sublist.countP_le

/-- In every state of a run with fewer than 2^31 sessions, the registry and the events on their
way account for the live sessions of every hub. -/
theorem hub_registry_agree (ops : List Op) (h : system.Meets Guard ops)
    (hopens : opens ops < 2^31) : Agrees ops (system.after ops) := by
  have hprefix := h.and_prefix (Q := fun past _ => opens past < 2^31) (by
    rintro past op rest rfl
    exact Nat.lt_of_le_of_lt (opens_mono (List.prefix_append _ _)) hopens)
  suffices hjoint : Joint ops (system.after ops) from hjoint.agrees
  refine Machine.invariant joint_empty ?_ hprefix
  rintro past op _ hjoint ⟨hop,hlt⟩
  cases op with
  | start node => exact hjoint.start hop.1 hop.2
  | session n op => exact hjoint.session hop
  | deliver n => exact hjoint.deliver hop hlt

/-- A session opens at each of two nodes. One of them has closed, with its OFFLINE on its way. -/
def twoHubs : List Op :=
  [.start ⟨some "1",some "127.0.0.1",8080,18080,0⟩,
    .start ⟨some "2",some "127.0.0.1",8081,18081,0⟩,
    .session "1" (.connectClient ⟨0,true⟩ (Connect.handshake "c" "u") "s"),
    .session "2" (.connectClient ⟨0,true⟩ (Connect.handshake "c" "v") "t"),.deliver "2",
    .deliver "1",.session "1" (.channelInactive ⟨0,true⟩ "s")]

theorem hub_registry_agree_two : Agrees twoHubs (system.after twoHubs) :=
  hub_registry_agree _ (by decide) (by decide)

end ImSingle.HubRegistry
