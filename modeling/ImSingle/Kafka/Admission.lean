import ImSingle.Connect.AuthorizeHandler
import ImSingle.Connect.Erasure
import ImSingle.Kafka.Delivery

/-! How a connection gets in: the gate asks the listener, the handshake succeeds or not, and the
client is connected. The listener there is by default lets everyone in, so what a request carries
besides `cid` and `uid` makes no difference anywhere, not even the token and the time that
`init` has handed out. -/
namespace ImSingle.Delivery
open Library Proto Kafka
open Connect (ChannelClient FullHttpRequest HandshakeData Outside World maps_handlerMessage
  maps_onHub maps_getWebSocketClient maps_firstParameter)

/-- `DefaultAuthorization.authorize`. -/
def authorize (_ : HandshakeData) : Connect.AuthorizationResult := .success

/-- What the nodes' front doors have in common: the configured path, and the query decoder, none
where it throws. -/
structure Door where
  websocketPath : String
  parameters : String → Option (JavaMap String (List String))

namespace Door

/-- A request comes in at a node, with the outcome of its handshake, or anything else happens.
`session` is the id of the Netty channel. -/
inductive Op
  | request (nodeId : String) (outside : Outside) (request : FullHttpRequest) (handshake : Bool)
      (session : String) (publishedAt : Int64)
  | close (nodeId : String) (outside : Outside) (session : String) (publishedAt : Int64)
  | registry (op : Stat.Op)
  | frame (nodeId session : String) (msg : Message) (outside : Outside)
  | consume (i : ℕ)
  | push (nodeId : String) (i : ℕ) (currentTimeMillis : Int64)

variable (d : Door)

/-- What a request is connected with: `AuthorizeHandler` has forwarded it, and the handshake of
`WebsocketHandler` has succeeded. -/
def admitted (request : FullHttpRequest) (handshake : Bool) : Option HandshakeData :=
  match (Connect.channelRead d.websocketPath d.parameters authorize (.request request)).run [] with
  | .ok _ [.fireChannelRead (.request request)] =>
    if handshake then (d.parameters request.uri).map fun parameters => ⟨parameters,request.uri⟩
    else none
  | _ => none

def step (codecs : Codecs) (s : System) : Op → System
  | .request nodeId outside request handshake session publishedAt =>
    match d.admitted request handshake with
    | some data => s.session codecs nodeId (.connectClient outside data session) publishedAt
    | none => s
  | .close nodeId outside session publishedAt =>
    s.session codecs nodeId (.channelInactive outside session) publishedAt
  | .registry op => { s with registry := s.registry.step op }
  | .frame nodeId session msg outside => s.frame codecs nodeId session msg outside
  | .consume i => s.consume codecs i
  | .push nodeId i currentTimeMillis => s.push codecs nodeId i currentTimeMillis

/-- The system of `Delivery.machine` behind its doors. -/
def machine (codecs : Codecs) : Machine System Op := ⟨(Delivery.machine codecs).init,d.step codecs⟩

/-- The requests agree on the request line up to the query, and on `cid` and `uid` in it. -/
structure SameRequest (r r' : FullHttpRequest) : Prop where
  decoderResult : r.decoderResult = r'.decoderResult
  method : r.method = r'.method
  path : d.websocketPath.toList.isPrefixOf r.uri.toList =
    d.websocketPath.toList.isPrefixOf r'.uri.toList
  query : (d.parameters r.uri).map (fun p => (p.lookup "cid",p.lookup "uid")) =
    (d.parameters r'.uri).map (fun p => (p.lookup "cid",p.lookup "uid"))

inductive SameButToken : Op → Op → Prop
  | request (nodeId : String) (outside : Outside) {r r' : FullHttpRequest} (handshake : Bool)
      (session : String) (publishedAt : Int64) (h : d.SameRequest r r') :
      SameButToken (.request nodeId outside r handshake session publishedAt)
        (.request nodeId outside r' handshake session publishedAt)
  | same (op : Op) : SameButToken op op

end Door

/-! ## Forgetting the tokens -/

@[simps] def Push.erase (p : Push) : Push :=
  { p with
    writes := p.writes.map (Prod.map ChannelClient.erase id)
    created := p.created.map ChannelClient.erase }

@[simps] def System.erase (s : System) : System :=
  { s with nodes := fun n => (s.nodes n).erase, pushed := s.pushed.map Push.erase }

/-- What a consumed record has shown the clients. -/
def Push.seen (p : Push) : ℕ × String × List (String × Packet) :=
  (p.serial,p.node,p.writes.map fun x => (x.1.session,x.2))

theorem Push.seen_erase (p : Push) : p.erase.seen = p.seen := by
  simp only [seen,erase,List.map_map]
  rfl

section erase
variable {codecs : Codecs} (s : System)

theorem System.nodes_update (n : String) (w : World) :
    (fun n' => (Function.update s.nodes n w n').erase) =
      Function.update (fun n' => (s.nodes n').erase) n w.erase := by
  funext n'
  exact Function.apply_update (fun _ => World.erase) s.nodes n w n'

theorem System.publishEvents_erase (publishedAt : Int64) (nodeId : String) (events : List Event) :
    (events.foldl (fun s event => s.publish codecs publishedAt (.event nodeId event)) s).erase =
      events.foldl (fun s event => s.publish codecs publishedAt (.event nodeId event)) s.erase := by
  induction events generalizing s with
  | nil => rfl
  | cons event events ih => exact ih _

theorem System.session_erase (nodeId : String) (op : Connect.Op) (publishedAt : Int64) :
    (s.session codecs nodeId op publishedAt).erase =
      s.erase.session codecs nodeId op.erase publishedAt := by
  have hstep := (s.nodes nodeId).step_erase op
  have hevents : ((s.nodes nodeId).erase.step op.erase).events =
      ((s.nodes nodeId).step op).events := by
    rw [← hstep]
    rfl
  simp only [session]
  rw [publishEvents_erase]
  simp only [erase,nodes_update,hevents,hstep]
  rfl

theorem maps_channelRead0 (outside : Outside) (session : String) (msg : Message) :
    Java.Maps World.erase id (channelRead0 outside session msg)
      (channelRead0 outside session msg) := by
  apply (maps_onHub (maps_getWebSocketClient session)).bind
  intro webSocketClient
  apply (Java.maps_nonNull rfl).bind
  intro client
  apply (maps_firstParameter client.handshakeData (.inr rfl)).bind
  intro uid
  apply Java.maps_get.bind
  intro w
  dsimp only
  split_ifs
  · exact Java.maps_pure _
  · exact Java.maps_throw _

theorem System.frame_erase (nodeId session : String) (msg : Message) (outside : Outside) :
    (s.frame codecs nodeId session msg outside).erase =
      s.erase.frame codecs nodeId session msg outside := by
  have hrun := maps_channelRead0 outside session msg (s.nodes nodeId)
  simp only [frame,erase_nodes]
  rw [hrun]
  cases (channelRead0 outside session msg).run (s.nodes nodeId) <;> rfl

theorem System.consume_erase (i : ℕ) :
    (s.consume codecs i).erase = s.erase.consume codecs i := by
  simp only [consume,erase_topic]
  cases s.topic[i]? <;> rfl

theorem maps_onMessage (codecs : Codecs) (currentTimeMillis : Int64) (record : NodeRecord)
    (w : World) :
    Java.finalState ((onMessage codecs currentTimeMillis record).run w.erase) =
      (Java.finalState ((onMessage codecs currentTimeMillis record).run w)).erase := by
  rw [onMessage,Java.finalState_tryCatch,Java.finalState_tryCatch]
  exact (maps_handlerMessage _ _ _ _ _).finalState w

theorem System.push_erase (nodeId : String) (i : ℕ) (currentTimeMillis : Int64) :
    (s.push codecs nodeId i currentTimeMillis).erase =
      s.erase.push codecs nodeId i currentTimeMillis := by
  simp only [push,erase_nodeTopics]
  cases (s.nodeTopics (connectTopic nodeId))[i]? with
  | none => rfl
  | some record =>
    obtain ⟨serial,record⟩ := record
    have hfinal := maps_onMessage codecs currentTimeMillis record (s.nodes nodeId)
    simp only [erase_nodes,hfinal]
    simp only [erase,nodes_update,List.map_append,List.map_singleton,Push.erase,List.map_drop,
      World.erase_writes,World.erase_created,List.length_map]

end erase

/-! ## The door -/

namespace Door
variable (d : Door)

/-- With the default listener the gate forwards by the request line alone. -/
theorem admitted_eq (request : FullHttpRequest) (handshake : Bool) :
    d.admitted request handshake =
      if request.decoderResult = true ∧ request.method = "GET" ∧
        d.websocketPath.toList.isPrefixOf request.uri.toList = true ∧ handshake = true then
        (d.parameters request.uri).map fun parameters => ⟨parameters,request.uri⟩
      else none := by
  have hrefused (status : Connect.HttpResponseStatus) (hstatus : status.code ≠ 200)
      (hrun : (Connect.channelRead d.websocketPath d.parameters authorize (.request request)).run
        [] = (Connect.sendHttpResponse request
          (Connect.defaultFullHttpResponse request.protocolVersion status)).run []) :
      d.admitted request handshake = none := by
    obtain ⟨response,hresponse,-⟩ := Connect.sendHttpResponse_run request hstatus
    rw [admitted,hrun,hresponse]
  cases hdecoded : request.decoderResult with
  | false =>
    rw [hrefused .BAD_REQUEST (by decide) (Connect.channelRead_badRequest hdecoded)]
    simp
  | true =>
    by_cases hmethod : request.method = "GET"
    · cases hquery : d.parameters request.uri with
      | none =>
        rw [admitted,Connect.channelRead_malformed hdecoded hmethod hquery]
        simp
      | some query =>
        have hanswer : Connect.answer d.parameters (fun _ => .success) request =
            some .success := by rw [Connect.answer,hquery,Option.map_some]
        cases hpath : d.websocketPath.toList.isPrefixOf request.uri.toList with
        | true =>
          have hrun := Connect.channelRead_forwards hdecoded hmethod
            ⟨List.isPrefixOf_iff_prefix.mp hpath,hanswer⟩
          have hauthorize : authorize = fun _ => Connect.Answer.success.result := rfl
          rw [admitted,hauthorize,hrun]
          simp [hmethod,hquery]
        | false =>
          have hnot : ¬ Connect.Admitted d.websocketPath d.parameters (fun _ => .success)
              request := fun hadmitted => by
            rw [List.isPrefixOf_iff_prefix.mpr hadmitted.1] at hpath
            cases hpath
          have hrun := Connect.channelRead_switch hdecoded hmethod hquery hnot
          have hauthorize : authorize = fun _ => Connect.Answer.success.result := rfl
          rw [admitted,hauthorize,hrun]
          simp
    · rw [hrefused .FORBIDDEN (by decide) (Connect.channelRead_forbidden hdecoded hmethod)]
      simp [hmethod]

theorem SameRequest.admitted {r r' : FullHttpRequest} (h : d.SameRequest r r')
    (handshake : Bool) : (d.admitted r handshake).map HandshakeData.erase =
      (d.admitted r' handshake).map HandshakeData.erase := by
  rw [admitted_eq,admitted_eq,h.decoderResult,h.method,h.path]
  have hquery := h.query
  split_ifs
  · cases hr : d.parameters r.uri with
    | none =>
      rw [hr] at hquery
      rw [Option.map_eq_none_iff.mp hquery.symm]
      rfl
    | some query =>
      rw [hr] at hquery
      obtain ⟨query',hr',hsame⟩ := Option.map_eq_some_iff.mp hquery.symm
      obtain ⟨hcid,huid⟩ := Prod.mk.inj hsame
      rw [hr']
      simp only [Option.map_some,HandshakeData.erase,List.foldl_cons,List.foldl_nil,hcid,huid]
  · rfl

theorem step_erase {codecs : Codecs} {s s' : System} {op op' : Op} (hs : s.erase = s'.erase)
    (hop : d.SameButToken op op') :
    (d.step codecs s op).erase = (d.step codecs s' op').erase := by
  cases hop with
  | request nodeId outside handshake session publishedAt h =>
    rename_i r r'
    have hadmitted := h.admitted d handshake
    simp only [step]
    cases hr : d.admitted r handshake with
    | none =>
      rw [hr] at hadmitted
      rw [Option.map_eq_none_iff.mp hadmitted.symm]
      exact hs
    | some data =>
      rw [hr] at hadmitted
      obtain ⟨data',hr',hsame⟩ := Option.map_eq_some_iff.mp hadmitted.symm
      rw [hr']
      simp only [System.session_erase,Connect.Op.erase,hs,hsame]
  | same op =>
    cases op with
    | request nodeId outside request handshake session publishedAt =>
      simp only [step]
      cases d.admitted request handshake with
      | none => exact hs
      | some data => simp only [System.session_erase,hs]
    | close => simp only [step,System.session_erase,hs]
    | registry op =>
      exact congrArg (fun s : System => { s with registry := s.registry.step op }) hs
    | frame => simp only [step,System.frame_erase,hs]
    | consume => simp only [step,System.consume_erase,hs]
    | push => simp only [step,System.push_erase,hs]

end Door

/-- What a client presents besides `cid` and `uid` changes nothing: two runs of the system whose
requests differ only there publish the same records, leave the same registry and the same open
sessions, and show every session the same packets. So no token is ever refused or needed. -/
theorem token_ignored (d : Door) (codecs : Codecs) {ops ops' : List Door.Op}
    (h : List.Forall₂ d.SameButToken ops ops') :
    let s := (d.machine codecs).after ops
    let s' := (d.machine codecs).after ops'
    s.registry = s'.registry ∧ s.published = s'.published ∧ s.topic = s'.topic ∧
      s.nodeTopics = s'.nodeTopics ∧ s.pushed.map Push.seen = s'.pushed.map Push.seen ∧
      ∀ n, (s.nodes n).hub.channelMap = (s'.nodes n).hub.channelMap := by
  intro s s'
  have herase : s.erase = s'.erase :=
    Machine.runFrom_forall₂ (M := d.machine codecs) (R := fun s s' => s.erase = s'.erase)
      (fun _ _ _ _ hs hop => d.step_erase hs hop) h rfl
  have hseen (s : System) : s.erase.pushed.map Push.seen = s.pushed.map Push.seen := by
    rw [System.erase_pushed,List.map_map]
    exact List.map_congr_left fun p _ => p.seen_erase
  have hpart {α : Type} (f : System → α) : f s.erase = f s'.erase := congrArg f herase
  refine ⟨hpart System.registry,hpart System.published,hpart System.topic,
    hpart System.nodeTopics,?_,fun n => ?_⟩
  · rw [← hseen s,← hseen s',herase]
  · exact hpart fun s => (s.nodes n).hub.channelMap

/-- A door for two URIs, one of them with a token. -/
def sampleDoor : Door where
  websocketPath := "/ws"
  parameters uri :=
    if uri = "/ws?cid=c&uid=u" then some (Connect.handshake "c" "u").parameters
    else if uri = "/ws?cid=c&uid=u&t=00&tm=0" then
      some (((Connect.handshake "c" "u").parameters.insert "t" ["00"]).insert "tm" ["0"])
    else none

/-- One client connects and sends itself a message. -/
def visit (uri : String) : List Door.Op :=
  [.registry (.start ⟨some "1",some "127.0.0.1",8080,18080,0⟩),
    .request "1" ⟨0,true⟩ ⟨true,"GET",uri,"HTTP/1.1",true⟩ true "s" 0,
    .registry (.connect "1" "c" "u"),.frame "1" "s" ⟨.text,"hi",0⟩ ⟨0,true⟩,.consume 1,
    .push "1" 0 0]

theorem token_ignored_visit :
    ((sampleDoor.machine protoCodecs).after (visit "/ws?cid=c&uid=u")).pushed.map Push.seen =
      ((sampleDoor.machine protoCodecs).after (visit "/ws?cid=c&uid=u&t=00&tm=0")).pushed.map
        Push.seen ∧
    (sampleDoor.admitted ⟨true,"GET","/ws?cid=c&uid=u","HTTP/1.1",true⟩ true).isSome = true := by
  have hsame : sampleDoor.SameRequest ⟨true,"GET","/ws?cid=c&uid=u","HTTP/1.1",true⟩
      ⟨true,"GET","/ws?cid=c&uid=u&t=00&tm=0","HTTP/1.1",true⟩ :=
    ⟨rfl,rfl,by decide,by decide⟩
  have hvisits : List.Forall₂ sampleDoor.SameButToken (visit "/ws?cid=c&uid=u")
      (visit "/ws?cid=c&uid=u&t=00&tm=0") :=
    .cons (.same _) (.cons (.request "1" ⟨0,true⟩ true "s" 0 hsame)
      (List.forall₂_same.mpr fun op _ => .same op))
  obtain ⟨-,-,-,-,hseen,-⟩ := token_ignored sampleDoor protoCodecs hvisits
  refine ⟨hseen,?_⟩
  rw [Door.admitted_eq]
  decide

end ImSingle.Delivery
