import ImSingle.Connect.ClosedConnections

/-! What the two handlers do with an exception. Both look the connection up in the hub before
they close it, and the lookup throws for a connection that is not in the hub: one that has not
completed its handshake, whose handshake had no `cid`, or that was destroyed. -/
namespace ImSingle.Connect
open Library ChannelsHub

variable {Throwable : Type}

/-- A call made by `exceptionCaught`: of the listener, whose client may be null, or of
`ctx.close()`. -/
inductive ExceptionCall (Throwable : Type)
  | onException (client : Option ChannelClient) (cause : Throwable)
  | close

/-- The hub and the calls made so far. -/
structure ExceptionWorld (Throwable : Type) where
  hub : ChannelsHub
  calls : List (ExceptionCall Throwable)

def ExceptionWorld.record (call : ExceptionCall Throwable) (w : ExceptionWorld Throwable) :
    ExceptionWorld Throwable :=
  { w with calls := w.calls ++ [call] }

/-- `channelsHub.getWebSocketClient(..)`, called by a handler. -/
def lookUp (session : String) : Java (ExceptionWorld Throwable) (Option ChannelClient) := fun w =>
  match getWebSocketClient session w.hub with
  | .ok client h => .ok client { w with hub := h }
  | .error e h => .error e { w with hub := h }

/-- The body that both handlers have. -/
def exceptionCaught (session : String) (cause : Throwable) :
    Java (ExceptionWorld Throwable) Unit := do
  let client ← lookUp session
  modify (ExceptionWorld.record (.onException client cause))
  modify (ExceptionWorld.record .close)

def WebsocketHandler.exceptionCaught (session : String) (cause : Throwable) :
    Java (ExceptionWorld Throwable) Unit :=
  Connect.exceptionCaught session cause

def MessageHandler.exceptionCaught (session : String) (cause : Throwable) :
    Java (ExceptionWorld Throwable) Unit :=
  Connect.exceptionCaught session cause

/-- The listener is called, then the connection is closed, and nothing is thrown. -/
def ClosesConnection (method : Java (ExceptionWorld Throwable) Unit) (cause : Throwable)
    (w : ExceptionWorld Throwable) : Prop :=
  ∃ client, method.run w = .ok () { w with calls :=
    w.calls ++ [.onException client cause,.close] }

section calls
variable {w : ExceptionWorld Throwable} {session : String} {cause : Throwable}

theorem exceptionCaught_run {client : Option ChannelClient}
    (h : (getWebSocketClient session).run w.hub = .ok client w.hub) :
    (exceptionCaught session cause).run w = .ok () { w with calls :=
      w.calls ++ [.onException client cause,.close] } := by
  have hlook : (lookUp session).run w = .ok client w := by
    have h : getWebSocketClient session w.hub = .ok client w.hub := h
    simp [lookUp,EStateM.run,h]
  simp [exceptionCaught,hlook,ExceptionWorld.record]

theorem exceptionCaught_throws {e : Exn}
    (h : (getWebSocketClient session).run w.hub = .error e w.hub) :
    (exceptionCaught session cause).run w = .error e w := by
  have hlook : (lookUp session).run w = .error e w := by
    have h : getWebSocketClient session w.hub = .error e w.hub := h
    simp [lookUp,EStateM.run,h]
  simp [exceptionCaught,hlook]

/-- In a hub whose sessions all have their channels, the session map decides. -/
theorem Linked.closesConnection_iff (hlinked : Linked w.hub) :
    ClosesConnection (exceptionCaught session cause) cause w ↔ session ∈ w.hub.channelMap := by
  cases hmap : w.hub.channelMap.lookup session with
  | none =>
    have hget : (getWebSocketClient session).run w.hub = .error .nullPointer w.hub := by
      simp [getWebSocketClient,hmap]
    refine iff_of_false ?_ (AList.lookup_eq_none.mp hmap)
    rintro ⟨client,hrun⟩
    rw [exceptionCaught_throws hget] at hrun
    cases hrun
  | some c =>
    obtain ⟨r,client,hc,hlook⟩ := hlinked.joined session c hmap
    have hget := getWebSocketClient_run hmap hc
    refine iff_of_true ⟨_,exceptionCaught_run hget⟩ ?_
    rw [← AList.lookup_isSome,hmap]
    rfl

end calls

/-- After any run of opens and closes an exception closes its connection, in either handler,
exactly if the connection's session is in the session map. -/
theorem exceptionCaught_closes_iff (ops : List Op) (session : String) (cause : Throwable)
    (calls : List (ExceptionCall Throwable)) :
    (ClosesConnection (WebsocketHandler.exceptionCaught session cause) cause
        ⟨(hub.after ops).hub,calls⟩ ↔ session ∈ (hub.after ops).hub.channelMap) ∧
    (ClosesConnection (MessageHandler.exceptionCaught session cause) cause
        ⟨(hub.after ops).hub,calls⟩ ↔ session ∈ (hub.after ops).hub.channelMap) :=
  ⟨Linked.closesConnection_iff (w := ⟨_,calls⟩) (linked_after ops),
    Linked.closesConnection_iff (w := ⟨_,calls⟩) (linked_after ops)⟩

/-- An exception before the handshake reaches neither the listener nor `ctx.close()`. -/
theorem exception_before_handshake :
    let w : ExceptionWorld Unit := ⟨(hub.after []).hub,[]⟩
    (Java.finalState ((WebsocketHandler.exceptionCaught "s" ()).run w)).calls = [] ∧
    Java.returned ((WebsocketHandler.exceptionCaught "s" ()).run w) = false ∧
    ¬ ClosesConnection (WebsocketHandler.exceptionCaught "s" ()) () w := by
  refine ⟨rfl,rfl,?_⟩
  rintro ⟨client,hrun⟩
  have hthrown : Java.returned ((WebsocketHandler.exceptionCaught "s" ()).run
      ⟨(hub.after []).hub,[]⟩) = false := rfl
  rw [hrun] at hthrown
  cases hthrown

end ImSingle.Connect
