import ImSingle.Message.Presence
import Mathlib.Data.List.Infix
import Mathlib.Data.List.Perm.Subperm

/-! The order in which im-message handles a node's registration and its presence events. An
event that comes before the registration is lost, and an OFFLINE that comes before its ONLINE
takes nothing out of the channel's list but still lowers the load. -/
namespace ImSingle.Message
open Library Proto Stat Registry

/-- A client's stay in a channel, with the times of its two events. -/
structure Session where
  channelId : String
  userId : String
  online : Int64
  offline : Option Int64
  deriving DecidableEq

def Session.events (session : Session) : List Event :=
  ⟨session.channelId,session.userId,.online,session.online⟩ ::
    (session.offline.map fun t => ⟨session.channelId,session.userId,.offline,t⟩).toList

inductive Notification
  | registration (node : ConnectNodeLoad)
  | event (event : Event)
  deriving DecidableEq

def Notification.handle (nodeId : String) : Notification → Java Registry Unit
  | .registration node => Op.call (.start node)
  | .event e => eventHandler nodeId e

/-- The notifications about one node, from a registry on. A handler that throws has its
notification dropped. -/
def presence (nodeId : String) (s : Registry) : Machine Registry Notification :=
  ⟨s,fun s notification => Java.finalState ((notification.handle nodeId).run s)⟩

def notifications (node : ConnectNodeLoad) (sessions : List Session) : List Notification :=
  .registration node :: (sessions.flatMap Session.events).map .event

/-- The sessions of a channel that have no OFFLINE. -/
def liveIn (c : String) (sessions : List Session) : ℕ :=
  sessions.countP fun session => session.channelId = c ∧ session.offline = none

def live (sessions : List Session) : ℕ := sessions.countP fun session => session.offline = none

/-- Two orders end with the same multiplicities and the same load of the node, which are the
numbers of its live sessions. -/
def OrderIndependent (nodeId : String) (s : Registry) (sessions : List Session)
    (order₁ order₂ : List Notification) : Prop :=
  let s₁ := (presence nodeId s).after order₁
  let s₂ := (presence nodeId s).after order₂
  (∀ c, s₁.multiplicityIn nodeId c = s₂.multiplicityIn nodeId c ∧
    s₁.multiplicityIn nodeId c = liveIn c sessions) ∧
  s₁.loadOf nodeId = s₂.loadOf nodeId ∧ s₁.loadOf nodeId = some (live sessions : ℤ)

/-! ## What an order loses -/

def Notification.event? : Notification → Option Event
  | .registration _ => none
  | .event e => some e

/-- The events handled before the registration. -/
def beforeStart (order : List Notification) : List Event :=
  (order.takeWhile fun x => x.event?.isSome).filterMap Notification.event?

def afterStart (order : List Notification) : List Event :=
  (order.dropWhile fun x => x.event?.isSome).filterMap Notification.event?

/-- The most by which the OFFLINEs for a channel are ahead of its ONLINEs on the way. -/
def overdrawn (c : String) (events : List Event) : ℕ :=
  events.inits.foldl (fun k part => max k (offlines c part - onlines c part)) 0

/-- The OFFLINEs that find nothing to remove after the registration make up, channel by
channel, for the sessions lost before it; the load, a 32-bit number, is not off by them. -/
structure Tolerated (order : List Notification) : Prop where
  channels : ∀ c, onlines c (beforeStart order) =
    offlines c (beforeStart order) + overdrawn c (afterStart order)
  load : (2^32 : ℤ) ∣ (channelsOf .online (beforeStart order)).length -
    (channelsOf .offline (beforeStart order)).length

section counting
variable {c : String} {order : List Notification} {events part : List Event}

theorem overdrawn_snoc (e : Event) : overdrawn c (events ++ [e]) =
    max (overdrawn c events) (offlines c (events ++ [e]) - onlines c (events ++ [e])) := by
  simp [overdrawn,List.inits_append]

theorem overdrawn_eq_zero : overdrawn c events = 0 ↔
    ∀ part, part <+: events → offlines c part ≤ onlines c part := by
  induction events using List.reverseRecOn with
  | nil => simp [overdrawn,offlines,onlines,channelsOf]
  | append_singleton events e ih =>
    rw [overdrawn_snoc,Nat.max_eq_zero_iff,ih,Nat.sub_eq_zero_iff_le]
    constructor
    · rintro ⟨hall,hlast⟩ part hpart
      rcases List.prefix_concat_iff.mp hpart with rfl | hpart
      · exact hlast
      · exact hall part hpart
    · intro hall
      exact ⟨fun part hpart => hall part (hpart.trans (List.prefix_append _ _)),
        hall _ (List.prefix_refl _)⟩

/-- A channel without OFFLINEs is never overdrawn. -/
theorem overdrawn_of_not_mem (h : c ∉ channelsOf .offline events) : overdrawn c events = 0 := by
  refine overdrawn_eq_zero.mpr fun part hpart => ?_
  have hnone : offlines c part = 0 :=
    List.count_eq_zero.mpr fun hmem => h ((hpart.sublist.filterMap _).subset hmem)
  omega

/-- For fewer than 2^32 notifications, an order loses nothing exactly if before the
registration every channel has as many OFFLINEs as ONLINEs, and after it no channel has more
OFFLINEs than ONLINEs at any time. -/
theorem tolerated_iff (hlen : order.length < 2^32) : Tolerated order ↔
    (∀ c, onlines c (beforeStart order) = offlines c (beforeStart order)) ∧
    ∀ c part, part <+: afterStart order → offlines c part ≤ onlines c part := by
  constructor
  · rintro ⟨hchannels,hload⟩
    have hsub : (channelsOf .offline (beforeStart order)).Subperm
        (channelsOf .online (beforeStart order)) := by
      rw [List.subperm_iff_count]
      intro c
      have := hchannels c
      unfold onlines offlines at this
      omega
    have hle := hsub.length_le
    have hlt : (channelsOf .online (beforeStart order)).length < 2^32 :=
      calc (channelsOf .online (beforeStart order)).length
          ≤ (beforeStart order).length := List.length_filterMap_le _ _
        _ ≤ (order.takeWhile _).length := List.length_filterMap_le _ _
        _ ≤ order.length := (List.takeWhile_sublist _).length_le
        _ < 2^32 := hlen
    have hperm := hsub.perm_of_length_le (by omega)
    have heq : ∀ c, onlines c (beforeStart order) = offlines c (beforeStart order) :=
      fun c => (hperm.count_eq c).symm
    refine ⟨heq,fun c => overdrawn_eq_zero.mp ?_⟩
    have := hchannels c
    have := heq c
    omega
  · rintro ⟨heq,hparts⟩
    refine ⟨fun c => ?_,?_⟩
    · rw [heq c,overdrawn_eq_zero.mpr (hparts c),Nat.add_zero]
    · have hperm : (channelsOf .online (beforeStart order)).Perm
          (channelsOf .offline (beforeStart order)) := List.perm_iff_count.mpr heq
      simp [hperm.length_eq]

theorem channelsOf_sessions (sessions : List Session) :
    (channelsOf .online (sessions.flatMap Session.events)).length =
      live sessions + (channelsOf .offline (sessions.flatMap Session.events)).length ∧
    onlines c (sessions.flatMap Session.events) =
      liveIn c sessions + offlines c (sessions.flatMap Session.events) := by
  induction sessions with
  | nil => simp [channelsOf,live,liveIn,onlines,offlines]
  | cons session sessions ih =>
    obtain ⟨htotal,hchannel⟩ := ih
    unfold onlines offlines liveIn at *
    unfold live at *
    rw [List.flatMap_cons,channelsOf_append,channelsOf_append,
      List.count_append,List.count_append,List.length_append,List.length_append,
      List.countP_cons,List.countP_cons,htotal,hchannel]
    obtain ⟨d,u,t,offline⟩ := session
    cases offline with
    | none => simp [Session.events,channelsOf,List.count_singleton]; omega
    | some t' => simp [Session.events,channelsOf]; omega

/-- Of the events of all sessions, handled in two parts, the live sessions' have no OFFLINE. -/
theorem split_counts {sessions : List Session}
    (h : (events ++ part).Perm (sessions.flatMap Session.events)) :
    (channelsOf .online events).length + (channelsOf .online part).length = live sessions +
      ((channelsOf .offline events).length + (channelsOf .offline part).length) ∧
    ∀ c, onlines c events + onlines c part =
      liveIn c sessions + (offlines c events + offlines c part) := by
  have hperm (type : EventType) : (channelsOf type events ++ channelsOf type part).Perm
      (channelsOf type (sessions.flatMap Session.events)) := by
    rw [← channelsOf_append]
    exact h.filterMap _
  constructor
  · rw [← List.length_append,← List.length_append,(hperm .online).length_eq,
      (hperm .offline).length_eq]
    exact (channelsOf_sessions (c := "") sessions).1
  · intro c
    unfold onlines offlines
    rw [← List.count_append,← List.count_append,(hperm .online).count_eq,
      (hperm .offline).count_eq]
    exact (channelsOf_sessions sessions).2

end counting

/-! ## What an order does -/

section run
variable {nodeId c : String} {s : Registry} {node : ConnectNodeLoad} {sessions : List Session}
  {order : List Notification}

/-- While the node is unknown, every event about it is dropped. -/
theorem presence_unknown (events : List Event) (h : s.availableNodes.lookup nodeId = none) :
    (presence nodeId s).after (events.map .event) = s := by
  induction events using List.reverseRecOn with
  | nil => rfl
  | append_singleton events e ih =>
    rw [List.map_append,List.map_singleton,Machine.after_snoc,ih]
    exact handled_unknown h

/-- From the registration on, every event counts; an OFFLINE too many lowers the load only. -/
theorem presence_known (events : List Event) (hwf : s.WellFormed) (hload : s.loadOf nodeId = some 0)
    (hlist : ∀ c, s.multiplicityIn nodeId c = 0) :
    ((presence nodeId s).after (events.map .event)).WellFormed ∧
    ((presence nodeId s).after (events.map .event)).loadOf nodeId = some (toInt32
      ((channelsOf .online events).length - (channelsOf .offline events).length)) ∧
    ∀ c, ((presence nodeId s).after (events.map .event)).multiplicityIn nodeId c +
      offlines c events = onlines c events + overdrawn c events := by
  induction events using List.reverseRecOn with
  | nil => exact ⟨hwf,hload,fun c => by
      simp [presence,hlist,onlines,offlines,channelsOf,overdrawn]⟩
  | append_singleton events e ih =>
    obtain ⟨hwf,hload,hlist⟩ := ih
    rw [List.map_append,List.map_singleton,Machine.after_snoc]
    set t := (presence nodeId s).after (events.map .event)
    change (handled nodeId t e).WellFormed ∧ (handled nodeId t e).loadOf nodeId = _ ∧
      ∀ c, (handled nodeId t e).multiplicityIn nodeId c + _ = _
    refine ⟨wellFormed_handled hwf,?_,fun c => ?_⟩
    · rw [loadOf_handled hwf hload,if_pos rfl,toInt32_add,toInt32_sub,length_channelsOf_snoc,
        length_channelsOf_snoc]
      congr 1
      split
      · next hon => simp [hon]; congr 1; omega
      · split
        · next hoff => simp; congr 1; omega
        · simp
    · rw [multiplicity_handled hwf hload,overdrawn_snoc,onlines_snoc,offlines_snoc]
      have := hlist c
      by_cases hon : e.type = .online ∧ e.channelId = c
      · simp [hon]; omega
      · by_cases hoff : e.type = .offline ∧ e.channelId = c
        · simp [hoff]; omega
        · simp [hon,hoff]; omega

lemma map_events {part : List Notification} (h : ∀ x ∈ part, x.event?.isSome) :
    (part.filterMap Notification.event?).map .event = part := by
  induction part with
  | nil => rfl
  | cons x part ih =>
    cases x with
    | registration node => simpa [Notification.event?] using h (.registration node)
    | event e => simpa [Notification.event?] using ih fun y hy => h y (by simp [hy])

/-- An order is the events before the registration, the registration and the events after. -/
theorem order_split (h : order.Perm (notifications node sessions)) :
    order = (beforeStart order).map .event ++ .registration node ::
      (afterStart order).map .event ∧
    (beforeStart order ++ afterStart order).Perm (sessions.flatMap Session.events) := by
  obtain ⟨pre,post,rfl⟩ := List.append_of_mem (h.mem_iff.mpr (List.mem_cons_self ..))
  have hperm := (List.perm_middle.symm.trans h).cons_inv
  have hevent : ∀ x ∈ pre ++ post, x.event?.isSome := by
    intro x hx
    obtain ⟨e,_,rfl⟩ := List.mem_map.mp (hperm.mem_iff.mp hx)
    rfl
  have hpre : ∀ x ∈ pre, x.event?.isSome := fun x hx => hevent x (by simp [hx])
  have hbefore : beforeStart (pre ++ .registration node :: post) =
      pre.filterMap Notification.event? := by
    rw [beforeStart,List.takeWhile_append_of_pos hpre]
    simp [Notification.event?]
  have hafter : afterStart (pre ++ .registration node :: post) =
      post.filterMap Notification.event? := by
    rw [afterStart,List.dropWhile_append_of_pos hpre,List.dropWhile_cons_of_neg]
    · rfl
    · simp [Notification.event?]
  rw [hbefore,hafter,map_events hpre,map_events fun x hx => hevent x (by simp [hx])]
  refine ⟨rfl,?_⟩
  rw [← List.filterMap_append]
  have hall := hperm.filterMap Notification.event?
  have hid : ((sessions.flatMap Session.events).map Notification.event).filterMap
      Notification.event? = sessions.flatMap Session.events := by
    rw [List.filterMap_map]
    exact List.filterMap_some
  rwa [hid] at hall

/-- Only the registration and what comes after it are felt. -/
theorem presence_after (hnew : s.availableNodes.lookup nodeId = none)
    (h : order.Perm (notifications node sessions)) : (presence nodeId s).after order =
      (presence nodeId (s.step (.start node))).after ((afterStart order).map .event) := by
  have hlost := presence_unknown (beforeStart order) hnew
  conv_lhs => rw [(order_split h).1]
  simp only [Machine.after,Machine.runFrom,List.foldl_append,List.foldl_cons] at hlost ⊢
  rw [hlost]
  rfl

/-- One order ends with the numbers of live sessions exactly if they fit and it loses nothing. -/
theorem counts_live_iff (hwf : s.WellFormed) (hnew : s.availableNodes.lookup nodeId = none)
    (hlist : ∀ c, s.multiplicityIn nodeId c = 0) (hid : node.id = some nodeId)
    (hload : node.load = 0) (h : order.Perm (notifications node sessions)) :
    ((∀ c, ((presence nodeId s).after order).multiplicityIn nodeId c = liveIn c sessions) ∧
      ((presence nodeId s).after order).loadOf nodeId = some (live sessions : ℤ)) ↔
    live sessions < 2^31 ∧ Tolerated order := by
  have hafter := presence_after hnew h
  have hperm := (order_split h).2
  set pre := beforeStart order
  set post := afterStart order
  have hstart : (s.step (.start node)).loadOf nodeId = some 0 := by
    rw [loadOf_start hwf hid,if_pos rfl,hload]
  have hunlisted : ∀ c, (s.step (.start node)).multiplicityIn nodeId c = 0 := by
    intro c
    unfold multiplicityIn at hlist ⊢
    rw [nodeIds_congr c (channelNodeMap_start node)]
    exact hlist c
  obtain ⟨-,hloadOf,hmult⟩ := presence_known post (hwf.start hid) hstart hunlisted
  obtain ⟨htotal,hchannel⟩ := split_counts hperm
  have hlost : (live sessions : ℤ) -
      ((channelsOf .online post).length - (channelsOf .offline post).length) =
      (channelsOf .online pre).length - (channelsOf .offline pre).length := by omega
  rw [hafter,hloadOf,Option.some_inj,toInt32_eq_iff,hlost]
  constructor
  · rintro ⟨hlive,_,hlt,hdvd⟩
    refine ⟨by omega,fun c => ?_,hdvd⟩
    change onlines c pre = offlines c pre + overdrawn c post
    have := hmult c
    have := hchannel c
    have := hlive c
    omega
  · rintro ⟨hlt,htol⟩
    refine ⟨fun c => ?_,by omega,by omega,htol.load⟩
    have := hmult c
    have := hchannel c
    have : onlines c pre = offlines c pre + overdrawn c post := htol.channels c
    omega

end run

/-- From a registry that has run in any way and has not seen the node, two orders of the same
notifications agree on the live sessions exactly if neither order loses anything that is not
made up for and an `int` holds the number of live sessions. -/
theorem order_independent_iff (nodeId : String) (history : List Op) (node : ConnectNodeLoad)
    (sessions : List Session) (order₁ order₂ : List Notification)
    (hnew : (registry.after history).availableNodes.lookup nodeId = none)
    (hlist : ∀ c, (registry.after history).multiplicityIn nodeId c = 0)
    (hid : node.id = some nodeId) (hload : node.load = 0)
    (h₁ : order₁.Perm (notifications node sessions))
    (h₂ : order₂.Perm (notifications node sessions)) :
    OrderIndependent nodeId (registry.after history) sessions order₁ order₂ ↔
      live sessions < 2^31 ∧ Tolerated order₁ ∧ Tolerated order₂ := by
  have hwf := wellFormed_after history
  have hfirst := counts_live_iff hwf hnew hlist hid hload h₁
  have hsecond := counts_live_iff hwf hnew hlist hid hload h₂
  constructor
  · rintro ⟨hlists,hloads,hlive⟩
    obtain ⟨hlt,htol₁⟩ := hfirst.mp ⟨fun c => (hlists c).2,hlive⟩
    obtain ⟨_,htol₂⟩ := hsecond.mp
      ⟨fun c => (hlists c).1.symm.trans (hlists c).2,hloads.symm.trans hlive⟩
    exact ⟨hlt,htol₁,htol₂⟩
  · rintro ⟨hlt,htol₁,htol₂⟩
    obtain ⟨hlists₁,hload₁⟩ := hfirst.mpr ⟨hlt,htol₁⟩
    obtain ⟨hlists₂,hload₂⟩ := hsecond.mpr ⟨hlt,htol₂⟩
    exact ⟨fun c => ⟨(hlists₁ c).trans (hlists₂ c).symm,hlists₁ c⟩,
      hload₁.trans hload₂.symm,hload₁⟩

/-- One session that has come online, and its node's registration. -/
def oneSession : List Session := [⟨"c","u",0,none⟩]
def oneNode : ConnectNodeLoad := ⟨some "1",some "127.0.0.1",8080,18080,0⟩

def registeredFirst : List Notification :=
  [.registration oneNode,.event ⟨"c","u",.online,0⟩]

def registeredLast : List Notification :=
  [.event ⟨"c","u",.online,0⟩,.registration oneNode]

/-- When the ONLINE comes first it is dropped for good. -/
theorem registeredLast_loses : registeredFirst.Perm (notifications oneNode oneSession) ∧
    registeredLast.Perm (notifications oneNode oneSession) ∧
    ((presence "1" Registry.empty).after registeredFirst).multiplicityIn "1" "c" = 1 ∧
    ((presence "1" Registry.empty).after registeredLast).multiplicityIn "1" "c" = 0 ∧
    ¬ OrderIndependent "1" Registry.empty oneSession registeredFirst registeredLast := by
  refine ⟨by decide,by decide,by decide,by decide,fun h => ?_⟩
  exact absurd (h.1 "c").1 (by decide)

/-- Two clients of one channel, of whom one has gone again. -/
def twoSessions : List Session := [⟨"c","u",0,none⟩,⟨"c","v",0,some 1⟩]

def stayingFirst : List Notification :=
  [.registration oneNode,.event ⟨"c","u",.online,0⟩,.event ⟨"c","v",.online,0⟩,
    .event ⟨"c","v",.offline,1⟩]

def stayingLast : List Notification :=
  [.registration oneNode,.event ⟨"c","v",.online,0⟩,.event ⟨"c","v",.offline,1⟩,
    .event ⟨"c","u",.online,0⟩]

theorem order_independent_twoSessions : OrderIndependent "1" (registry.after []) twoSessions
    stayingFirst stayingLast := by
  have htol : ∀ order ∈ [stayingFirst,stayingLast], Tolerated order := by
    intro order horder
    have hbefore : beforeStart order = [] := by
      revert order
      decide
    have hafter : channelsOf .offline (afterStart order) = ["c"] := by
      revert order
      decide
    constructor
    · intro c
      rw [hbefore]
      by_cases hc : c = "c"
      · subst hc
        revert order
        decide
      · rw [overdrawn_of_not_mem (by simp [hafter,hc])]
        rfl
    · rw [hbefore]
      exact ⟨0,rfl⟩
  exact (order_independent_iff "1" [] oneNode twoSessions _ _ rfl (fun _ => rfl) rfl rfl
    (by decide) (by decide)).mpr ⟨by decide,htol _ (by decide),htol _ (by decide)⟩

end ImSingle.Message
