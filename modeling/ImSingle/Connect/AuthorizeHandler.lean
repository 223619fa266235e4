import ImSingle.Connect.ChannelsHub

/-! The gate before the handshake (`AuthorizeHandler`): a request is forwarded or refused, by its
decoder result, its method, its path and the answer of the authorization listener. The refusal
is chosen by the answer's error type, which `AuthorizationResult.fail` drops. -/
namespace ImSingle.Connect
open Library

/-! ## The listener's answer -/

inductive ErrorType
  | tokenInvalid
  | tokenExpires
  | roomThrottling
  deriving DecidableEq, Repr

structure AuthorizationResult where
  isSuccess : Bool
  errorType : Option ErrorType
  deriving DecidableEq

def AuthorizationResult.success : AuthorizationResult := ⟨true,none⟩

/-- The argument is not used. -/
def AuthorizationResult.fail (_errorType : ErrorType) : AuthorizationResult := ⟨false,none⟩

/-- What a listener decides, built into a result by one of the two factory methods. -/
inductive Answer
  | success
  | fail (errorType : ErrorType)
  deriving DecidableEq

def Answer.result : Answer → AuthorizationResult
  | .success => AuthorizationResult.success
  | .fail errorType => AuthorizationResult.fail errorType

/-! ## Requests and responses -/

structure HttpResponseStatus where
  code : ℕ
  reasonPhrase : String
  deriving DecidableEq

namespace HttpResponseStatus

def BAD_REQUEST : HttpResponseStatus := ⟨400,"Bad Request"⟩
def UNAUTHORIZED : HttpResponseStatus := ⟨401,"Unauthorized"⟩
def FORBIDDEN : HttpResponseStatus := ⟨403,"Forbidden"⟩
def TOO_MANY_REQUESTS : HttpResponseStatus := ⟨429,"Too Many Requests"⟩

def text (status : HttpResponseStatus) : String :=
  toString status.code ++ " " ++ status.reasonPhrase

end HttpResponseStatus

/-- `keepAlive` is `HttpUtil.isKeepAlive(req)`. -/
structure FullHttpRequest where
  decoderResult : Bool
  method : String
  uri : String
  protocolVersion : String
  keepAlive : Bool

/-- `keepAlive` is what `HttpUtil.setKeepAlive` was told. -/
structure FullHttpResponse where
  protocolVersion : String
  status : HttpResponseStatus
  content : String
  contentLength : Option ℕ
  keepAlive : Bool

/-- `new DefaultFullHttpResponse(..)` with an empty buffer. -/
def defaultFullHttpResponse (protocolVersion : String) (status : HttpResponseStatus) :
    FullHttpResponse :=
  ⟨protocolVersion,status,"",none,true⟩

/-- A message in the pipeline. -/
inductive Msg
  | request (request : FullHttpRequest)
  | other

/-- What the handler does to its context; `closeWhenWritten` is the close listener on the future
of the write before it. -/
inductive Action
  | fireChannelRead (msg : Msg)
  | write (response : FullHttpResponse)
  | closeWhenWritten

def act (action : Action) : Java (List Action) Unit := modify fun actions => actions ++ [action]

/-! ## The handler -/

def sendHttpResponse (req : FullHttpRequest) (res : FullHttpResponse) :
    Java (List Action) Unit := do
  let res := if res.status.code ≠ 200 then
      { res with
        content := res.content ++ res.status.text
        contentLength := some (res.content ++ res.status.text).utf8ByteSize }
    else res
  let keepAlive := req.keepAlive && res.status.code = 200
  act (.write { res with keepAlive := keepAlive })
  if !keepAlive then act .closeWhenWritten

section handler
variable (websocketPath : String) (parameters : String → Option (JavaMap String (List String)))
  (authorize : HandshakeData → AuthorizationResult)

/-- `parameters uri` is `new QueryStringDecoder(uri).parameters()`, none where it throws. The
switch on a null error type throws. -/
def channelRead : Msg → Java (List Action) Unit
  | .other => act (.fireChannelRead .other)
  | .request request => do
    if !request.decoderResult then
      sendHttpResponse request (defaultFullHttpResponse request.protocolVersion .BAD_REQUEST)
    else if request.method ≠ "GET" then
      sendHttpResponse request (defaultFullHttpResponse request.protocolVersion .FORBIDDEN)
    else
      match parameters request.uri with
      | none => throw .external
      | some parameters =>
        let authorize := authorize ⟨parameters,request.uri⟩
        if !websocketPath.toList.isPrefixOf request.uri.toList || !authorize.isSuccess then
          match ← Java.nonNull authorize.errorType with
          | .tokenInvalid =>
            sendHttpResponse request (defaultFullHttpResponse request.protocolVersion .UNAUTHORIZED)
          | .tokenExpires =>
            sendHttpResponse request (defaultFullHttpResponse request.protocolVersion .FORBIDDEN)
          | .roomThrottling =>
            sendHttpResponse request
              (defaultFullHttpResponse request.protocolVersion .TOO_MANY_REQUESTS)
        else act (.fireChannelRead (.request request))

end handler

/-! ## The gate -/

/-- The status that refuses a listener's failure. -/
def ErrorType.status : ErrorType → ℕ
  | .tokenInvalid => 401
  | .tokenExpires => 403
  | .roomThrottling => 429

section gate
variable (websocketPath : String) (parameters : String → Option (JavaMap String (List String)))
  (listener : HandshakeData → Answer) (request : FullHttpRequest)

/-- The listener's answer to a request whose query can be decoded. -/
def answer : Option Answer :=
  (parameters request.uri).map fun parameters => listener ⟨parameters,request.uri⟩

/-- The path is the configured one and the listener lets the request through. -/
def Admitted : Prop :=
  websocketPath.toList <+: request.uri.toList ∧ answer parameters listener request = some .success

def Accepted : Prop :=
  request.decoderResult = true ∧ request.method = "GET" ∧
    Admitted websocketPath parameters listener request

/-- An accepted request is forwarded. For any other one error response is queued, with a listener
that closes the connection once the response is out, and its status is that of the listener's
failure, if that was the reason. No handler of the pipeline flushes what is queued here. -/
structure Gated : Prop where
  accepted : Accepted websocketPath parameters listener request →
    (channelRead websocketPath parameters (fun data => (listener data).result)
      (.request request)).run [] = .ok () [.fireChannelRead (.request request)]
  refused : ¬ Accepted websocketPath parameters listener request → ∃ response,
    (channelRead websocketPath parameters (fun data => (listener data).result)
      (.request request)).run [] = .ok () [.write response,.closeWhenWritten] ∧
    400 ≤ response.status.code ∧
    ∀ errorType, request.decoderResult = true → request.method = "GET" →
      answer parameters listener request = some (.fail errorType) →
      response.status.code = errorType.status

end gate

section runs
variable {websocketPath : String} {parameters : String → Option (JavaMap String (List String))}
  {listener : HandshakeData → Answer} {authorize : HandshakeData → AuthorizationResult}
  {request : FullHttpRequest}

/-- A response whose status is not 200 closes the connection, also one kept alive. -/
theorem sendHttpResponse_run (request : FullHttpRequest) {status : HttpResponseStatus}
    (h : status.code ≠ 200) : ∃ response,
      (sendHttpResponse request (defaultFullHttpResponse request.protocolVersion status)).run [] =
        .ok () [.write response,.closeWhenWritten] ∧ response.status = status := by
  refine ⟨⟨request.protocolVersion,status,"" ++ status.text,
    some ("" ++ status.text).utf8ByteSize,false⟩,?_,rfl⟩
  simp [sendHttpResponse,defaultFullHttpResponse,h,act]

theorem channelRead_badRequest (h : request.decoderResult = false) :
    (channelRead websocketPath parameters authorize (.request request)).run [] =
      (sendHttpResponse request
        (defaultFullHttpResponse request.protocolVersion .BAD_REQUEST)).run [] := by
  simp [channelRead,h]

theorem channelRead_forbidden (h : request.decoderResult = true)
    (hmethod : request.method ≠ "GET") :
    (channelRead websocketPath parameters authorize (.request request)).run [] =
      (sendHttpResponse request
        (defaultFullHttpResponse request.protocolVersion .FORBIDDEN)).run [] := by
  simp [channelRead,h,hmethod]

theorem channelRead_malformed (h : request.decoderResult = true) (hmethod : request.method = "GET")
    (hquery : parameters request.uri = none) :
    (channelRead websocketPath parameters authorize (.request request)).run [] =
      .error .external [] := by
  simp only [channelRead,h,hmethod,hquery]
  rfl

theorem channelRead_forwards (h : request.decoderResult = true) (hmethod : request.method = "GET")
    (hadmitted : Admitted websocketPath parameters listener request) :
    (channelRead websocketPath parameters (fun data => (listener data).result)
      (.request request)).run [] = .ok () [.fireChannelRead (.request request)] := by
  obtain ⟨hpath,hanswer⟩ := hadmitted
  obtain ⟨query,hquery,hlistener⟩ := Option.map_eq_some_iff.mp hanswer
  have hpath : websocketPath.toList.isPrefixOf request.uri.toList = true :=
    List.isPrefixOf_iff_prefix.mpr hpath
  simp [channelRead,h,hmethod,hquery,hlistener,hpath,Answer.result,AuthorizationResult.success,act]

/-- Neither factory method sets an error type, so the switch over it throws. -/
theorem channelRead_switch (h : request.decoderResult = true) (hmethod : request.method = "GET")
    {query : JavaMap String (List String)} (hquery : parameters request.uri = some query)
    (hadmitted : ¬ Admitted websocketPath parameters listener request) :
    (channelRead websocketPath parameters (fun data => (listener data).result)
      (.request request)).run [] = .error .nullPointer [] := by
  have hnull : (listener ⟨query,request.uri⟩).result.errorType = none := by
    cases listener ⟨query,request.uri⟩ <;> rfl
  have hguard : (!websocketPath.toList.isPrefixOf request.uri.toList ||
      !(listener ⟨query,request.uri⟩).result.isSuccess) = true := by
    by_contra hpass
    refine hadmitted ⟨?_,?_⟩
    · simp only [Bool.or_eq_true,Bool.not_eq_true',not_or,Bool.not_eq_false] at hpass
      exact List.isPrefixOf_iff_prefix.mp hpass.1
    · cases hlistener : listener ⟨query,request.uri⟩ with
      | success => simp [answer,hquery,hlistener]
      | fail errorType =>
        simp [hlistener,Answer.result,AuthorizationResult.fail] at hpass
  simp only [channelRead,h,hmethod,hquery,hguard,hnull]
  rfl

/-- A response before the listener is asked. -/
theorem gated_of_response {status : HttpResponseStatus} (hstatus : 400 ≤ status.code)
    (hrefused : ¬ (request.decoderResult = true ∧ request.method = "GET"))
    (hrun : (channelRead websocketPath parameters (fun data => (listener data).result)
      (.request request)).run [] = (sendHttpResponse request
        (defaultFullHttpResponse request.protocolVersion status)).run []) :
    Gated websocketPath parameters listener request := by
  obtain ⟨response,hwritten,hcode⟩ := sendHttpResponse_run request
    (show status.code ≠ 200 by omega)
  constructor
  · exact fun h => absurd ⟨h.1,h.2.1⟩ hrefused
  · refine fun _ => ⟨response,hrun.trans hwritten,by rwa [hcode],?_⟩
    exact fun _ hdecoded hget => absurd ⟨hdecoded,hget⟩ hrefused

end runs

/-- The gate works exactly for a request that was not decoded, is not a GET, or is admitted by
path and listener; refusing any other throws. -/
theorem gated_iff (websocketPath : String)
    (parameters : String → Option (JavaMap String (List String)))
    (listener : HandshakeData → Answer) (request : FullHttpRequest) :
    Gated websocketPath parameters listener request ↔
      request.decoderResult = false ∨ request.method ≠ "GET" ∨
        Admitted websocketPath parameters listener request := by
  cases hdecoded : request.decoderResult with
  | false =>
    refine iff_of_true ?_ (.inl rfl)
    exact gated_of_response (by decide) (by simp [hdecoded]) (channelRead_badRequest hdecoded)
  | true =>
    by_cases hmethod : request.method = "GET"
    · by_cases hadmitted : Admitted websocketPath parameters listener request
      · refine iff_of_true ⟨fun _ => ?_,fun h => ?_⟩ (.inr (.inr hadmitted))
        · exact channelRead_forwards hdecoded hmethod hadmitted
        · exact absurd ⟨hdecoded,hmethod,hadmitted⟩ h
      · refine iff_of_false (fun hgated => ?_) (by simp [hmethod,hadmitted])
        obtain ⟨response,hrun,-⟩ := hgated.refused fun h => hadmitted h.2.2
        cases hquery : parameters request.uri with
        | none =>
          rw [channelRead_malformed hdecoded hmethod hquery] at hrun
          cases hrun
        | some query =>
          rw [channelRead_switch hdecoded hmethod hquery hadmitted] at hrun
          cases hrun
    · refine iff_of_true ?_ (.inr (.inl hmethod))
      exact gated_of_response (by decide) (by simp [hmethod])
        (channelRead_forbidden hdecoded hmethod)

/-- A GET for the configured path, which has no query. -/
def upgradeRequest : FullHttpRequest := ⟨true,"GET","/ws","HTTP/1.1",true⟩

/-- When the listener refuses the token, nothing is written. -/
theorem invalidToken_unanswered :
    let listener : HandshakeData → Answer := fun _ => .fail .tokenInvalid
    Java.returned ((channelRead "/ws" (fun _ => some ∅) (fun data => (listener data).result)
      (.request upgradeRequest)).run []) = false ∧
    ¬ Gated "/ws" (fun _ => some ∅) listener upgradeRequest := by
  refine ⟨rfl,fun hgated => ?_⟩
  obtain ⟨response,hrun,-⟩ := hgated.refused (by rintro ⟨_,_,_,h⟩; cases h)
  have hthrown : Java.returned ((channelRead "/ws" (fun _ => some ∅)
      (fun _ => (Answer.fail .tokenInvalid).result) (.request upgradeRequest)).run []) = false :=
    rfl
  rw [hrun] at hthrown
  cases hthrown

end ImSingle.Connect
