import ImSingle.Message.MessageService
import ImSingle.Stat.Counters

/-! Presence events: how many ONLINEs and OFFLINEs a list of events has, and what one event
does to the counters of the registry. -/
namespace ImSingle.Message
open Library Proto Stat Registry

/-- The channels of the events of one type. -/
def channelsOf (type : EventType) (events : List Event) : List String :=
  events.filterMap fun e => if e.type = type then some e.channelId else none

def onlines (c : String) (events : List Event) : ℕ := (channelsOf .online events).count c

def offlines (c : String) (events : List Event) : ℕ := (channelsOf .offline events).count c

section counting
variable {c : String} {events part : List Event} (e : Event)

theorem channelsOf_append (type : EventType) :
    channelsOf type (events ++ part) = channelsOf type events ++ channelsOf type part :=
  List.filterMap_append

theorem length_channelsOf_snoc (type : EventType) : (channelsOf type (events ++ [e])).length =
    (channelsOf type events).length + if e.type = type then 1 else 0 := by
  by_cases he : e.type = type <;> simp [channelsOf,he]

theorem onlines_snoc : onlines c (events ++ [e]) =
    onlines c events + if e.type = .online ∧ e.channelId = c then 1 else 0 := by
  by_cases he : e.type = .online
  · simp [onlines,channelsOf,he,List.count_singleton]
  · simp [onlines,channelsOf,he]

theorem offlines_snoc : offlines c (events ++ [e]) =
    offlines c events + if e.type = .offline ∧ e.channelId = c then 1 else 0 := by
  by_cases he : e.type = .offline
  · simp [offlines,channelsOf,he,List.count_singleton]
  · simp [offlines,channelsOf,he]

end counting

/-- The registry after an event was handled. When the handler throws, the event is dropped. -/
def handled (nodeId : String) (s : Registry) (e : Event) : Registry :=
  Java.finalState ((eventHandler nodeId e).run s)

section handled
variable {s : Registry} {n m c : String} {e : Event} {l : ℤ}

theorem handled_eq : handled n s e =
    if e.type = .online then s.step (.connect n e.channelId e.userId)
    else if e.type = .offline then s.step (.disconnect n e.channelId e.userId) else s := by
  obtain ⟨d,u,type,time⟩ := e
  cases type <;> rfl

theorem handled_unknown (h : s.availableNodes.lookup n = none) : handled n s e = s := by
  rw [handled_eq,step_connect_unknown h,step_disconnect_unknown h]
  simp

theorem wellFormed_handled (hwf : s.WellFormed) : (handled n s e).WellFormed := by
  rw [handled_eq]
  split
  · exact hwf.step _
  · split
    · exact hwf.step _
    · exact hwf

theorem loadOf_handled (hwf : s.WellFormed) (h : s.loadOf n = some l) :
    (handled n s e).loadOf m = if n = m then some (if e.type = .online then toInt32 (l+1)
      else if e.type = .offline then toInt32 (l-1) else l) else s.loadOf m := by
  rw [handled_eq]
  split
  · exact loadOf_connect hwf h
  · split
    · exact loadOf_disconnect hwf h
    · split
      · next heq => exact heq ▸ h
      · rfl

theorem multiplicity_handled (hwf : s.WellFormed) (h : s.loadOf n = some l) :
    (handled n s e).multiplicityIn m c =
      s.multiplicityIn m c + (if n = m ∧ e.type = .online ∧ e.channelId = c then 1 else 0) -
        (if n = m ∧ e.type = .offline ∧ e.channelId = c then 1 else 0) := by
  rw [handled_eq]
  split
  · next hon => simp [multiplicity_connect hwf h,hon,eq_comm]
  · next hon =>
    split
    · next hoff => simp [multiplicity_disconnect hwf h,hoff,eq_comm]
    · next hoff => simp [hon,hoff]

end handled
end ImSingle.Message
