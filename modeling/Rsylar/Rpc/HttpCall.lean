import Rsylar.Foundations.RegexResiduals
import Rsylar.Http.Exchange

/-!
# Remote calls over a connection

`MprpcChannel::CallMethod` on the bytes of its connection, and the servlet that `RpcProvider::Run`
registers. A client makes calls one after the other until one fails; the requests that it writes are
what the server receives, and what the server writes is what the client receives.

`rpcCalls_exactlyOnce` closes the circle: what the client can receive depends on what the server has
received before, and the other way round. Round after round, each call that is offered is executed
once, on what the calls before it have left, and the client has its result.
-/

set_option autoImplicit false
set_option relaxedAutoImplicit false

namespace Rsylar.Http.Rpc

open ActionRegex Scanner

variable {M σ : Type}

/-- The serialization library for messages of all kinds. `parseFromString` is of a message, the kind
of which decides what the text is read as: what the message then holds, and whether the text is one
of its kind. -/
structure MessageLibrary (M : Type) where
  serializeToString : M → Option (List Byte)
  parseFromString : M → List Byte → M × Bool

/-- A message comes through its text when that is parsed into a message of the kind. -/
def MessageLibrary.Carries (lib : MessageLibrary M) (kind message : M) : Prop :=
  ∃ text, lib.serializeToString message = some text ∧ text.length < 2 ^ 63 ∧
    lib.parseFromString kind text = (message, true)

/-! ### The provider -/

/-- A method of a published service: the prototypes of its messages, and what the call makes of a
request, a response and what the services keep. -/
structure RpcMethod (M σ : Type) where
  requestPrototype : M
  responsePrototype : M
  callMethod : M → M → σ → M × σ

/-- `m_serviceMap` and `m_methodMap` -/
structure RpcProvider (M σ : Type) where
  serviceMap : AList fun _ : List Byte ↦ AList fun _ : List Byte ↦ RpcMethod M σ := ∅

/-- `insert` of a map, which leaves an entry that is there. -/
def insertNew {β : Type} (m : AList fun _ : List Byte ↦ β) (key : List Byte) (value : β) :
    AList fun _ : List Byte ↦ β :=
  if key ∈ m then m else m.insert key value

namespace RpcProvider

def notifyService (provider : RpcProvider M σ) (serviceName : List Byte)
    (methods : List (List Byte × RpcMethod M σ)) : RpcProvider M σ where
  serviceMap := insertNew provider.serviceMap serviceName
    (methods.foldl (fun m method ↦ insertNew m method.1 method.2) ∅)

/-- The method of a service, as the servlet looks for it. -/
def find (provider : RpcProvider M σ) (serviceName methodName : List Byte) :
    Option (RpcMethod M σ) :=
  (provider.serviceMap.lookup serviceName).bind fun methodMap ↦ methodMap.lookup methodName

def pathStart : List Byte := bytesOf "/rpc/"

/-- The service and the method, separated by the first slash. -/
def splitPath (rest : List Byte) : Option (List Byte × List Byte) :=
  match rest.dropWhile (· ≠ 47#8) with
  | [] => none
  | _ :: methodName => some (rest.takeWhile (· ≠ 47#8), methodName)

def servlet (lib : MessageLibrary M) (provider : RpcProvider M σ) : Servlet σ :=
    fun req rsp shared ↦
  if req.method ≠ .post then
    (req, { rsp with status := 405, body := bytesOf "Only POST allowed\n" }, shared)
  else if req.path.length ≤ pathStart.length ∨ req.path.take pathStart.length ≠ pathStart then
    (req, { rsp with
      status := 400, body := bytesOf "invalid rpc path, expected /rpc/<Service>/<Method>" }, shared)
  else
    match splitPath (req.path.drop pathStart.length) with
    | none =>
      (req, { rsp with status := 400, body := bytesOf "invalid rpc path, missing method" }, shared)
    | some (serviceName, methodName) =>
      match provider.serviceMap.lookup serviceName with
      | none => (req, { rsp with status := 404, body := bytesOf "service not found" }, shared)
      | some methodMap =>
        match methodMap.lookup methodName with
        | none => (req, { rsp with status := 404, body := bytesOf "method not found" }, shared)
        | some method =>
          match lib.parseFromString method.requestPrototype req.body with
          | (_, false) =>
            (req, { rsp with status := 400, body := bytesOf "request parse error" }, shared)
          | (request, true) =>
            let (response, shared) := method.callMethod request method.responsePrototype shared
            match lib.serializeToString response with
            | some responseStr =>
              (req, { rsp with
                status := 200
                headers := rsp.headers.setHeader (bytesOf "Content-Type")
                  (bytesOf "application/octet-stream")
                body := responseStr }, shared)
            | none =>
              (req, { rsp with status := 500, body := bytesOf "serialize response error" }, shared)

/-- The server of `Run`, before it is bound to its address. -/
def server (lib : MessageLibrary M) (provider : RpcProvider M σ) : HttpServer σ :=
  let server := ({ isKeepalive := true } : HttpServer σ).setName (bytesOf "sylar_rpc_server")
  { server with
    dispatch := server.dispatch.addGlobServlet (bytesOf "/rpc/*") (some (provider.servlet lib)) }

end RpcProvider

/-! ### The channel -/

structure MprpcController where
  failed : Bool := false
  errText : List Byte := []

def MprpcController.setFailed (_ : MprpcController) (reason : String) : MprpcController where
  failed := true
  errText := bytesOf reason

structure MethodDescriptor where
  serviceName : List Byte
  methodName : List Byte

/-- The request that carries the arguments of a call. -/
def MethodDescriptor.httpRequest (method : MethodDescriptor) (reqStr : List Byte) :
    HttpRequest where
  method := .post
  path := bytesOf "/rpc/" ++ method.serviceName ++ bytesOf "/" ++ method.methodName
  headers := (Headers.setHeader ⟨[], Headers.sorted_nil⟩ (bytesOf "Content-Type")
    (bytesOf "application/octet-stream")).setHeader (bytesOf "Content-Length")
      (decimal reqStr.length)
  close := false
  body := reqStr

/-- `m_isConnected`, and the two sides of `m_httpconn`. -/
structure MprpcChannel where
  isConnected : Bool := false
  stream : SocketStream
  sink : SocketSink

namespace MprpcChannel

/-- `dial` is the connection that is made when there is none, if it can be made. -/
def connect (dial : Option (SocketStream × SocketSink)) (ch : MprpcChannel) : MprpcChannel × Bool :=
  if ch.isConnected && ch.stream.connected then (ch, true)
  else
    match dial with
    | none => (ch, false)
    | some (stream, sink) => ({ isConnected := true, stream, sink }, true)

/-- What is left of a call: the channel, and the controller and the response. -/
def callMethod (lib : MessageLibrary M) (behindCut : BitVec 32) (b : BufferSize)
    (dial : Option (SocketStream × SocketSink)) (method : MethodDescriptor)
    (controller : MprpcController) (request response : M) (ch : MprpcChannel) :
    MprpcChannel × Except ResponseError (MprpcController × M) :=
  let (ch, connected) := ch.connect dial
  if !connected then (ch, .ok (controller.setFailed "connect to server failed!", response))
  else
    match lib.serializeToString request with
    | none => (ch, .ok (controller.setFailed "serialize request error!", response))
    | some reqStr =>
      let (_, sink) := HttpConnection.sendRequest ch.stream (method.httpRequest reqStr) ch.sink
      let ch := { ch with sink }
      match HttpConnection.recvResponse behindCut b ch.stream with
      | .error (.receive .closed) =>
        ({ ch with isConnected := false, stream := ch.stream.close },
          .ok (controller.setFailed "recv response error!", response))
      | .error e => (ch, .error e)
      | .ok (rsp, stream) =>
        ({ ch with stream }, .ok (controller, (lib.parseFromString response rsp.body).1))

end MprpcChannel

/-- A call of a stub, with the message that its response is parsed into. -/
structure RpcCall (M : Type) where
  method : MethodDescriptor
  request : M
  response : M

/-- Calls one after the other, up to one that fails: the responses and the channel. -/
def MprpcChannel.callMethods (lib : MessageLibrary M) (behindCut : BitVec 32) (b : BufferSize)
    (dial : Option (SocketStream × SocketSink)) :
    List (RpcCall M) → MprpcChannel → List M × MprpcChannel
  | [], ch => ([], ch)
  | call :: calls, ch =>
    match ch.callMethod lib behindCut b dial call.method {} call.request call.response with
    | (ch, .error _) => ([], ch)
    | (ch, .ok (controller, response)) =>
      if controller.failed then ([], ch)
      else
        let (responses, ch) := callMethods lib behindCut b dial calls ch
        (response :: responses, ch)

/-! ### What the calls mean -/

namespace RpcProvider

/-- The calls, executed one after the other where the service is: the results, and what the
services keep. A method that is not there has no result. -/
def invoke (provider : RpcProvider M σ) : List (RpcCall M) → σ → List M × σ
  | [], shared => ([], shared)
  | call :: calls, shared =>
    match provider.find call.method.serviceName call.method.methodName with
    | none => ([], shared)
    | some method =>
      let (response, shared) := method.callMethod call.request method.responsePrototype shared
      let (responses, shared) := invoke provider calls shared
      (response :: responses, shared)

/-- A letter, a digit or an underscore. -/
def identifierChars : CharSet :=
  .union HttpParser.alpha (.union HttpParser.digit (.range 95 95))

/-- A call of a method that is published, the messages of which come through. -/
structure Offers (lib : MessageLibrary M) (provider : RpcProvider M σ) (call : RpcCall M)
    (method : RpcMethod M σ) : Prop where
  found : provider.find call.method.serviceName call.method.methodName = some method
  service : ∀ c ∈ call.method.serviceName, identifierChars.mem c.toNat
  name : ∀ c ∈ call.method.methodName, identifierChars.mem c.toNat
  request : lib.Carries method.requestPrototype call.request
  response : ∀ shared, lib.Carries call.response
    (method.callMethod call.request method.responsePrototype shared).1

end RpcProvider

/-! ### The messages of a call -/

section

variable {relaxed : Bool} {text : List Byte}

/-- The path grammar inside a segment. -/
def inSegment (relaxed : Bool) : RequestExpr :=
  (HttpParser.pathAbsolute relaxed).residual ((bytesOf "/r").map BitVec.toNat)

/-- The path grammar behind a slash. -/
def behindSlash (relaxed : Bool) : RequestExpr :=
  (HttpParser.pathAbsolute relaxed).residual ((bytesOf "/rpc/").map BitVec.toNat)

theorem residual_segments (relaxed : Bool) :
    (∀ c : Byte, RpcProvider.identifierChars.mem c.toNat →
      (inSegment relaxed).residual [c.toNat] = inSegment relaxed ∧
        (behindSlash relaxed).residual [c.toNat] = inSegment relaxed) ∧
      (inSegment relaxed).residual [47] = behindSlash relaxed ∧
      (behindSlash relaxed).residual [47] = behindSlash relaxed ∧
      (inSegment relaxed).nullable ∧ (behindSlash relaxed).nullable := by
  cases relaxed <;> decide +kernel

theorem residual_identifier {name : List Byte} {r : RequestExpr}
    (hr : r = inSegment relaxed ∨ r = behindSlash relaxed)
    (hname : ∀ c ∈ name, RpcProvider.identifierChars.mem c.toNat) :
    r.residual (name.map BitVec.toNat) = inSegment relaxed ∨
      r.residual (name.map BitVec.toNat) = behindSlash relaxed := by
  induction name generalizing r with
  | nil => exact hr
  | cons c name ih =>
    obtain ⟨hc, hrest⟩ := List.forall_mem_cons.mp hname
    obtain ⟨hinside, hbehind⟩ := (residual_segments relaxed).1 c hc
    have hnext : (r.deriv c.toNat).1 = inSegment relaxed := by
      rcases hr with rfl | rfl
      · exact hinside
      · exact hbehind
    rw [List.map_cons, Expr.residual_cons]
    exact ih (.inl hnext) hrest

/-- The path of a call is one that the grammar allows. -/
theorem accepts_path {serviceName methodName : List Byte}
    (hservice : ∀ c ∈ serviceName, RpcProvider.identifierChars.mem c.toNat)
    (hname : ∀ c ∈ methodName, RpcProvider.identifierChars.mem c.toNat) :
    (HttpParser.pathAbsolute relaxed).accepts
      ((bytesOf "/rpc/" ++ serviceName ++ bytesOf "/" ++ methodName).map BitVec.toNat) := by
  obtain ⟨-, hslash, hslash', hnull, hnull'⟩ := residual_segments relaxed
  have hcut : ((HttpParser.pathAbsolute relaxed).residual
      ((bytesOf "/rpc/").map BitVec.toNat ++ serviceName.map BitVec.toNat ++ [47])) =
        behindSlash relaxed := by
    rw [Expr.residual_append, Expr.residual_append]
    rcases residual_identifier (.inr rfl) hservice with hend | hend
    · exact (congrArg (Expr.residual · [47]) hend).trans hslash
    · exact (congrArg (Expr.residual · [47]) hend).trans hslash'
  have hslashText : (bytesOf "/").map BitVec.toNat = [47] := by decide
  rw [Expr.accepts, List.map_append, List.map_append, List.map_append, hslashText,
    Expr.residual_append, hcut]
  rcases residual_identifier (.inr rfl) hname with hend | hend
  · rw [hend, hnull]
  · rw [hend, hnull']

theorem headers_httpRequest (method : MethodDescriptor) :
    (method.httpRequest text).headers.list =
      [⟨bytesOf "Content-Length", decimal text.length⟩,
        ⟨bytesOf "Content-Type", bytesOf "application/octet-stream"⟩] := by
  rfl

theorem httpRequest_sendable {method : MethodDescriptor} (hlength : text.length < 2 ^ 63)
    (hservice : ∀ c ∈ method.serviceName, RpcProvider.identifierChars.mem c.toNat)
    (hname : ∀ c ∈ method.methodName, RpcProvider.identifierChars.mem c.toNat) :
    (method.httpRequest text).Sendable relaxed := by
  have hwritten : ∀ h ∈ (method.httpRequest text).writtenHeaders,
      h = ⟨bytesOf "Content-Length", decimal text.length⟩ ∨
        h = ⟨bytesOf "Content-Type", bytesOf "application/octet-stream"⟩ := by
    intro h hmem
    have hlist := (List.mem_filter.mp hmem).1
    rw [headers_httpRequest] at hlist
    simpa using hlist
  have hnames : ∀ name ∈ [bytesOf "Content-Length", bytesOf "Content-Type"],
      name ≠ [] ∧ ∀ c ∈ name, HttpParser.nameChars.mem c.toNat := by
    decide +kernel
  have htype : (∀ c ∈ bytesOf "application/octet-stream", HttpParser.valueChars.mem c.toNat) ∧
      (bytesOf "application/octet-stream").head? ≠ some 32#8 ∧
      caseKey (bytesOf "Content-Type") ≠ caseKey (bytesOf "content-length") := by
    decide +kernel
  constructor
  · exact fun h ↦ by cases h
  · rfl
  · exact .inl rfl
  · exact accepts_path hservice hname
  · show (HttpParser.queryChars relaxed).nullable = true
    rfl
  · show (HttpParser.fragmentChars relaxed).nullable = true
    rfl
  · intro h hmem
    rcases hwritten h hmem with rfl | rfl
    · exact hnames _ (by simp)
    · exact hnames _ (by simp)
  · intro h hmem hkey
    rcases hwritten h hmem with rfl | rfl
    · rfl
    · exact absurd hkey htype.2.2
  · intro h hmem
    rcases hwritten h hmem with rfl | rfl
    · refine ⟨fun c hc ↦ (HttpRequest.valueChars_decimal c hc).1, fun hfirst ↦ ?_⟩
      exact (HttpRequest.valueChars_decimal _ (List.mem_of_head? hfirst)).2 rfl
    · exact ⟨htype.1, htype.2.1⟩
  · exact hlength

/-- The answer of the servlet to a call. -/
def callResponse (text : List Byte) : HttpResponse where
  headers := (Headers.setHeader ⟨[], Headers.sorted_nil⟩ (bytesOf "Server")
    (bytesOf "sylar_rpc_server")).setHeader (bytesOf "Content-Type")
      (bytesOf "application/octet-stream")
  close := false
  body := text

theorem callResponse_writable (h : text.length < 2 ^ 63) : (callResponse text).Writable where
  websocket := rfl
  version := .inl rfl
  reason := fun _ hc ↦ absurd hc List.not_mem_nil
  names := by
    show ∀ h ∈ (callResponse []).writtenHeaders, _
    decide +kernel
  others := by
    show ∀ h ∈ (callResponse []).writtenHeaders, _
    decide +kernel
  values := by
    show ∀ h ∈ (callResponse []).writtenHeaders, _
    decide +kernel
  cookies := fun _ hc ↦ absurd hc List.not_mem_nil
  body := h

end

/-! ### What the server makes of the calls -/

def RpcCall.httpRequest (lib : MessageLibrary M) (call : RpcCall M) : HttpRequest :=
  call.method.httpRequest ((lib.serializeToString call.request).getD [])

/-- The texts of the results of the calls. -/
def RpcProvider.answerTexts (lib : MessageLibrary M) (provider : RpcProvider M σ) :
    List (RpcCall M) → σ → List (List Byte)
  | [], _ => []
  | call :: calls, shared =>
    match provider.find call.method.serviceName call.method.methodName with
    | none => []
    | some method =>
      let (response, shared) := method.callMethod call.request method.responsePrototype shared
      (lib.serializeToString response).getD [] :: answerTexts lib provider calls shared

/-- The star of the pattern of `Run` matches every text behind the slash. -/
def MatchesPath (fnmatch : List Byte → List Byte → Bool) : Prop :=
  ∀ rest, 0#8 ∉ rest → fnmatch (bytesOf "/rpc/*") (bytesOf "/rpc/" ++ rest)

section

variable {lib : MessageLibrary M} {provider : RpcProvider M σ} {call : RpcCall M}
  {method : RpcMethod M σ} {fnmatch : List Byte → List Byte → Bool} {text : List Byte}

theorem not_mem_of_identifier {name : List Byte} {c : Byte}
    (hname : ∀ c ∈ name, RpcProvider.identifierChars.mem c.toNat)
    (hc : RpcProvider.identifierChars.mem c.toNat = false) : c ∉ name := by
  intro hmem
  rw [hname c hmem] at hc
  cases hc

/-- The servlet finds in the path what the channel has put there. -/
theorem splitPath_append {serviceName : List Byte} (methodName : List Byte)
    (hservice : 47#8 ∉ serviceName) :
    RpcProvider.splitPath (serviceName ++ 47#8 :: methodName) = some (serviceName, methodName) := by
  have hne : ∀ c ∈ serviceName, decide (c ≠ 47#8) = true := by
    intro c hc
    rw [decide_eq_true_eq]
    rintro rfl
    exact hservice hc
  rw [RpcProvider.splitPath, List.takeWhile_append_of_pos hne, List.dropWhile_append_of_pos hne]
  simp

theorem bytesOf_slash : bytesOf "/" = [47#8] := by decide

/-- How the servlet reads a path that asks for a method. -/
theorem path_asked {path serviceName methodName : List Byte} (hservice : 47#8 ∉ serviceName)
    (hpath : path = bytesOf "/rpc/" ++ serviceName ++ bytesOf "/" ++ methodName) :
    ¬(path.length ≤ RpcProvider.pathStart.length ∨
        path.take RpcProvider.pathStart.length ≠ RpcProvider.pathStart) ∧
      RpcProvider.splitPath (path.drop RpcProvider.pathStart.length) =
        some (serviceName, methodName) := by
  have hcons : path = RpcProvider.pathStart ++ (serviceName ++ 47#8 :: methodName) := by
    rw [hpath, bytesOf_slash, RpcProvider.pathStart]
    simp only [List.append_assoc, List.singleton_append]
  rw [hcons, List.take_left, List.drop_left, splitPath_append methodName hservice]
  refine ⟨?_, rfl⟩
  simp only [List.length_append, List.length_cons, ne_eq, not_true_eq_false, or_false]
  omega

/-- A path that the pattern does not match is for the servlet of the status 404. -/
theorem getMatchedServlet_any (path : List Byte) :
    (provider.server lib).dispatch.getMatchedServlet path fnmatch =
      some (if fnmatch (bytesOf "/rpc/*") (cString path) then provider.servlet lib
        else NotFoundServlet (bytesOf "sylar_rpc_server")) := by
  have hpattern : cString (bytesOf "/rpc/*") = bytesOf "/rpc/*" := by decide
  have hglobs : (provider.server lib).dispatch.globs =
      [(bytesOf "/rpc/*", .hold (some (provider.servlet lib)))] := rfl
  have hdatas : (provider.server lib).dispatch.datas.lookup path = none := rfl
  rw [ServletDispatch.getMatchedServlet, hdatas, hglobs]
  by_cases hmatch : fnmatch (bytesOf "/rpc/*") (cString path) = true
  · simp only [List.find?_cons, hpattern, hmatch, if_true]
    rfl
  · simp only [List.find?_cons, List.find?_nil, hpattern, hmatch]
    rfl

/-- The servlet is the one that answers a call. -/
theorem getMatchedServlet_server (lib : MessageLibrary M) (provider : RpcProvider M σ)
    (hmatch : MatchesPath fnmatch) {path rest : List Byte}
    (hpath : path = bytesOf "/rpc/" ++ rest) (hrest : 0#8 ∉ rest) :
    (provider.server lib).dispatch.getMatchedServlet path fnmatch =
      some (provider.servlet lib) := by
  have hstart : ∀ c ∈ bytesOf "/rpc/", c ≠ 0#8 := by decide
  have hstring : cString path = path := by
    refine List.takeWhile_eq_self_iff.mpr fun c hc ↦ ?_
    rw [hpath, List.mem_append] at hc
    rcases hc with hc | hc
    · simpa using hstart c hc
    · rw [decide_eq_true_eq]
      rintro rfl
      exact hrest hc
  have hfound : fnmatch (bytesOf "/rpc/*") (cString path) = true := by
    rw [hstring, hpath]
    exact hmatch rest hrest
  rw [getMatchedServlet_any, if_pos hfound]

/-- What the server answers to a call that is offered. -/
theorem answer_offered (h : provider.Offers lib call method) (hmatch : MatchesPath fnmatch)
    (shared : σ) :
    (provider.server lib).answer fnmatch (call.httpRequest lib).arrived shared =
      ((call.httpRequest lib).arrived,
        callResponse ((lib.serializeToString
          (method.callMethod call.request method.responsePrototype shared).1).getD []),
        (method.callMethod call.request method.responsePrototype shared).2) := by
  obtain ⟨text, htext, -, hparse⟩ := h.request
  obtain ⟨responseStr, hresponse, -, -⟩ := h.response shared
  have hslash := not_mem_of_identifier (c := 47#8) h.service (by decide)
  have hpath : (call.httpRequest lib).arrived.path = bytesOf "/rpc/" ++
      call.method.serviceName ++ bytesOf "/" ++ call.method.methodName := rfl
  have hbody : (call.httpRequest lib).arrived.body = text := by
    show (lib.serializeToString call.request).getD [] = text
    rw [htext]
    rfl
  have hzero : 0#8 ∉ call.method.serviceName ++ (bytesOf "/" ++ call.method.methodName) := by
    have hservice := not_mem_of_identifier (c := 0#8) h.service (by decide)
    have hname := not_mem_of_identifier (c := 0#8) h.name (by decide)
    simp [hservice, hname, bytesOf_slash]
  have hmatched := getMatchedServlet_server lib provider hmatch
    (hpath.trans (by simp only [List.append_assoc])) hzero
  have hmethod : (call.httpRequest lib).arrived.method = .post := rfl
  have hversion : (call.httpRequest lib).arrived.version = 0x11#8 := rfl
  have hclose : (call.httpRequest lib).arrived.close = false := rfl
  obtain ⟨hlong, hsplit⟩ := path_asked hslash hpath
  obtain ⟨methodMap, hmap, hfind⟩ := Option.bind_eq_some_iff.mp h.found
  rw [HttpServer.answer, ServletDispatch.handle, hmatched]
  simp only [RpcProvider.servlet, hmethod, hbody, hversion, hclose]
  rw [if_neg (fun hne ↦ hne rfl), if_neg hlong, hsplit]
  simp only [hmap, hfind, hparse, hresponse]
  rfl

/-- The calls are of published methods, and their messages come through. -/
def RpcProvider.OffersAll (lib : MessageLibrary M) (provider : RpcProvider M σ)
    (calls : List (RpcCall M)) : Prop :=
  ∀ call ∈ calls, ∃ method, provider.Offers lib call method

/-- What is served of the calls. -/
theorem serve_calls (hmatch : MatchesPath fnmatch) {calls : List (RpcCall M)}
    (h : provider.OffersAll lib calls) (shared : σ) :
    (provider.server lib).serve fnmatch
        ((calls.map (RpcCall.httpRequest lib)).map fun r ↦ .ok r.arrived) shared =
      ((provider.answerTexts lib calls shared).map callResponse,
        (provider.invoke calls shared).2) := by
  induction calls generalizing shared with
  | nil => rfl
  | cons call calls ih =>
    obtain ⟨⟨method, hmethod⟩, hrest⟩ := List.forall_mem_cons.mp h
    have hkept : (!(provider.server lib).isKeepalive || (call.httpRequest lib).arrived.close) =
        false := rfl
    rw [List.map_cons, List.map_cons, HttpServer.serve, answer_offered hmethod hmatch]
    simp only [hkept, Bool.false_eq_true, if_false, ih hrest, RpcProvider.answerTexts,
      RpcProvider.invoke, hmethod.found, List.map_cons]

theorem answerTexts_take {calls : List (RpcCall M)} (h : provider.OffersAll lib calls) (shared : σ)
    (j : ℕ) : provider.answerTexts lib (calls.take j) shared =
      (provider.answerTexts lib calls shared).take j := by
  induction calls generalizing shared j with
  | nil => simp [RpcProvider.answerTexts]
  | cons call calls ih =>
    obtain ⟨⟨method, hmethod⟩, hrest⟩ := List.forall_mem_cons.mp h
    cases j with
    | zero => rfl
    | succ j =>
      simp only [List.take_succ_cons, RpcProvider.answerTexts, hmethod.found, ih hrest]

theorem callResponse_answerTexts {calls : List (RpcCall M)} (h : provider.OffersAll lib calls)
    (shared : σ) : ∀ rsp ∈ (provider.answerTexts lib calls shared).map callResponse,
      rsp.Writable := by
  induction calls generalizing shared with
  | nil => exact fun _ hrsp ↦ absurd hrsp List.not_mem_nil
  | cons call calls ih =>
    obtain ⟨⟨method, hmethod⟩, hrest⟩ := List.forall_mem_cons.mp h
    obtain ⟨text, htext, hlength, -⟩ := hmethod.response shared
    simp only [RpcProvider.answerTexts, hmethod.found, List.map_cons]
    refine List.forall_mem_cons.mpr ⟨?_, ih hrest _⟩
    rw [htext]
    exact callResponse_writable hlength

theorem httpRequest_offered {relaxed : Bool} {calls : List (RpcCall M)}
    (h : provider.OffersAll lib calls) :
    ∀ r ∈ calls.map (RpcCall.httpRequest lib), r.Sendable relaxed := by
  refine List.forall_mem_map.mpr fun call hcall ↦ ?_
  obtain ⟨method, hmethod⟩ := h call hcall
  obtain ⟨text, htext, hlength, -⟩ := hmethod.request
  rw [RpcCall.httpRequest, htext]
  exact httpRequest_sendable hlength hmethod.service hmethod.name

end

/-! ### The rounds of the client -/

section

variable {lib : MessageLibrary M} {provider : RpcProvider M σ} {behindCut : BitVec 32}
  {b : BufferSize} {dial : Option (SocketStream × SocketSink)}

/-- A call on a channel that is connected, when its request can be serialized. -/
theorem callMethod_connected {call : RpcCall M} {text : List Byte} {ch : MprpcChannel}
    (hch : ch.isConnected) (hs : ch.stream.connected)
    (htext : lib.serializeToString call.request = some text) :
    ch.callMethod lib behindCut b dial call.method {} call.request call.response =
      match HttpConnection.recvResponse behindCut b ch.stream with
      | .error (.receive .closed) =>
        (⟨false, ch.stream.close, (ch.sink.writeFixSize true (call.httpRequest lib).dump).2⟩,
          .ok (MprpcController.setFailed {} "recv response error!", call.response))
      | .error e => (⟨true, ch.stream, (ch.sink.writeFixSize true (call.httpRequest lib).dump).2⟩,
          .error e)
      | .ok (rsp, stream) => (⟨true, stream,
          (ch.sink.writeFixSize true (call.httpRequest lib).dump).2⟩,
          .ok ({}, (lib.parseFromString call.response rsp.body).1)) := by
  have hrequest : call.httpRequest lib = call.method.httpRequest text := by
    rw [RpcCall.httpRequest, htext]
    rfl
  obtain ⟨isConnected, stream, sink⟩ := ch
  obtain rfl : isConnected = true := hch
  have hconnect : MprpcChannel.connect dial ⟨true, stream, sink⟩ = (⟨true, stream, sink⟩, true) :=
    if_pos (Bool.and_eq_true_iff.mpr ⟨rfl, hs⟩)
  rw [MprpcChannel.callMethod, hconnect]
  simp only [htext, HttpConnection.sendRequest, hrequest, Bool.not_true, Bool.false_eq_true,
    if_false]
  have hopen : stream.connected = true := hs
  rw [hopen]

variable (behindCut dial)

/-- Further calls only add to what is written. -/
theorem written_callMethods {calls : List (RpcCall M)} (ch : MprpcChannel)
    (hcalls : ∀ call ∈ calls, (lib.serializeToString call.request).isSome)
    (hch : ch.isConnected) (hs : ch.stream.connected) (hw : ch.sink.Sends) :
    ∃ more, (ch.callMethods lib behindCut b dial calls).2.sink.written = ch.sink.written ++
      ((calls.take 1).map (RpcCall.httpRequest lib)).flatMap HttpRequest.dump ++ more := by
  induction calls generalizing ch with
  | nil => exact ⟨[], by simp [MprpcChannel.callMethods]⟩
  | cons call calls ih =>
    obtain ⟨hcall, hrest⟩ := List.forall_mem_cons.mp hcalls
    obtain ⟨text, htext⟩ := Option.isSome_iff_exists.mp hcall
    obtain ⟨-, hwritten, hsends⟩ :=
      SocketSink.writeFixSize_of_sends (call.httpRequest lib).dump hw
    have hfirst : ((List.take 1 (call :: calls)).map (RpcCall.httpRequest lib)).flatMap
        HttpRequest.dump = (call.httpRequest lib).dump := by
      simp
    rw [MprpcChannel.callMethods, callMethod_connected hch hs htext, hfirst, ← hwritten]
    generalize (ch.sink.writeFixSize true (call.httpRequest lib).dump).2 = sink at *
    cases hrecv : HttpConnection.recvResponse behindCut b ch.stream with
    | error e =>
      refine ⟨[], ?_⟩
      rw [List.append_nil]
      rcases e with (_ | _) | _
      · rfl
      · rfl
      · rfl
    | ok received =>
      obtain ⟨rsp, stream⟩ := received
      have hopen : stream.connected := (HttpConnection.connected_recvResponse hrecv).trans hs
      obtain ⟨more, hmore⟩ := ih ⟨true, stream, sink⟩ hrest rfl hopen hsends
      refine ⟨((calls.take 1).map (RpcCall.httpRequest lib)).flatMap HttpRequest.dump ++ more, ?_⟩
      simp only [Bool.false_eq_true, if_false]
      rw [hmore, List.append_assoc]

/-- When the answers to the first calls have come back, the calls behind them have gone out up to
one, and with the answers to all calls the client has their results. -/
theorem callMethods_rounds {calls : List (RpcCall M)} (ch : MprpcChannel) {tail : List Byte}
    (h : provider.OffersAll lib calls) (shared : σ) (j : ℕ) (hch : ch.isConnected)
    (hs : ch.stream.connected) (hw : ch.sink.Sends)
    (hbytes : ch.stream.bytes = (((provider.answerTexts lib calls shared).take j).map
      callResponse).flatMap HttpResponse.dump ++ tail)
    (horderly : OrderlyResponses b ((provider.answerTexts lib calls shared).map callResponse)
      ch.stream) :
    (∃ more, (ch.callMethods lib behindCut b dial calls).2.sink.written = ch.sink.written ++
      ((calls.take (j + 1)).map (RpcCall.httpRequest lib)).flatMap HttpRequest.dump ++ more) ∧
      (calls.length ≤ j →
        (ch.callMethods lib behindCut b dial calls).1 = (provider.invoke calls shared).1 ∧
        (ch.callMethods lib behindCut b dial calls).2.sink.written = ch.sink.written ++
          (calls.map (RpcCall.httpRequest lib)).flatMap HttpRequest.dump) := by
  induction calls generalizing j shared ch with
  | nil => exact ⟨⟨[], by simp [MprpcChannel.callMethods]⟩, fun _ ↦ ⟨rfl, (List.append_nil _).symm⟩⟩
  | cons call calls ih =>
    obtain ⟨⟨method, hmethod⟩, hrest⟩ := List.forall_mem_cons.mp h
    obtain ⟨text, htext, -, -⟩ := hmethod.request
    cases j with
    | zero =>
      refine ⟨written_callMethods behindCut dial ch (fun call hcall ↦ ?_) hch hs hw,
        fun hlength ↦ ?_⟩
      · obtain ⟨method, hmethod⟩ := h call hcall
        obtain ⟨text, htext, -, -⟩ := hmethod.request
        exact Option.isSome_iff_exists.mpr ⟨text, htext⟩
      · cases hlength
    | succ j =>
      obtain ⟨responseStr, hresponse, hlength, hparse⟩ := hmethod.response shared
      simp only [RpcProvider.answerTexts, hmethod.found, hresponse, Option.getD_some,
        List.take_succ_cons, List.map_cons, List.flatMap_cons, List.append_assoc] at hbytes horderly
      obtain ⟨hreads, hothers⟩ := horderly
      have hwritable := callResponse_writable hlength
      have hrecv := hwritable.recvResponse_eq behindCut hs hbytes hreads
      obtain ⟨-, hwritten, hsends⟩ :=
        SocketSink.writeFixSize_of_sends (call.httpRequest lib).dump hw
      have hbehind : (ch.stream.skip (callResponse responseStr).dump.length).bytes =
          (((provider.answerTexts lib calls (method.callMethod call.request
            method.responsePrototype shared).2).take j).map callResponse).flatMap
              HttpResponse.dump ++ tail := by
        rw [SocketStream.bytes_skip, hbytes, List.drop_left]
      have hbody : (callResponse responseStr).body = responseStr := rfl
      rw [MprpcChannel.callMethods, callMethod_connected hch hs htext, hrecv]
      simp only [Bool.false_eq_true, if_false, hbody, hparse]
      generalize (ch.sink.writeFixSize true (call.httpRequest lib).dump).2 = sink at *
      obtain ⟨⟨more, hmore⟩, hall⟩ := ih
        ⟨true, ch.stream.skip (callResponse responseStr).dump.length, sink⟩
        hrest _ j rfl hs hsends hbehind hothers
      refine ⟨⟨more, ?_⟩, fun hlength ↦ ?_⟩
      · rw [hmore, hwritten, List.take_succ_cons, List.map_cons, List.flatMap_cons]
        simp only [List.append_assoc]
      · obtain ⟨hresults, hsent⟩ := hall (Nat.le_of_succ_le_succ hlength)
        rw [hresults, hsent, hwritten, RpcProvider.invoke, hmethod.found, List.map_cons,
          List.flatMap_cons]
        exact ⟨rfl, List.append_assoc ..⟩

end

/-! ### The closed circle -/

theorem length_invoke {lib : MessageLibrary M} {provider : RpcProvider M σ}
    {calls : List (RpcCall M)} (h : provider.OffersAll lib calls) (shared : σ) :
    (provider.invoke calls shared).1.length = calls.length := by
  induction calls generalizing shared with
  | nil => rfl
  | cons call calls ih =>
    obtain ⟨⟨method, hmethod⟩, hrest⟩ := List.forall_mem_cons.mp h
    simp only [RpcProvider.invoke, hmethod.found, List.length_cons, ih hrest]

/-- Each of the calls that a client makes over its connection is executed once, in the order of the
calls, and has the result of its execution. -/
theorem rpcCalls_exactlyOnce (lib : MessageLibrary M) (provider : RpcProvider M σ)
    (fnmatch : List Byte → List Byte → Bool) (hmatch : MatchesPath fnmatch) (relaxed : Bool)
    (b : BufferSize) (behindCut : BitVec 32) (dial : Option (SocketStream × SocketSink))
    (calls : List (RpcCall M)) (hcalls : provider.OffersAll lib calls) (shared : σ)
    (c : SocketStream) (v : SocketSink) (hc : c.connected) (hv : v.Sends) (hnew : v.written = [])
    (s : HttpSession) (w : SocketSink) (hw : w.Sends) (hnew' : w.written = [])
    (hup : Carries
      (MprpcChannel.callMethods lib behindCut b dial calls ⟨true, c, v⟩).2.sink s)
    (hdown : ∀ result, (provider.server lib).handleClient fnmatch relaxed b s w shared =
      some result → Carries result.2.1 c)
    (hrequests : OrderlyRequests relaxed b (calls.map (RpcCall.httpRequest lib)) s)
    (hresponses : OrderlyResponses b ((provider.answerTexts lib calls shared).map callResponse) c) :
    (MprpcChannel.callMethods lib behindCut b dial calls ⟨true, c, v⟩).1 =
        (provider.invoke calls shared).1 ∧
      (provider.invoke calls shared).1.length = calls.length ∧
      ∃ s' w', (provider.server lib).handleClient fnmatch relaxed b s w shared =
        some (s', w', (provider.invoke calls shared).2) ∧ s'.connected = false := by
  -- round after round, with the answers to the first calls there is one request more
  have hround : ∀ j, ∃ tail, c.bytes = (((provider.answerTexts lib calls shared).take j).map
      callResponse).flatMap HttpResponse.dump ++ tail := by
    intro j
    induction j with
    | zero => exact ⟨c.bytes, rfl⟩
    | succ j ih =>
      obtain ⟨tail, htail⟩ := ih
      obtain ⟨⟨more, hmore⟩, -⟩ := callMethods_rounds behindCut dial
        ⟨true, c, v⟩ hcalls shared j rfl hc hv htail hresponses
      have hsome : provider.OffersAll lib (calls.take (j + 1)) :=
        fun call hcall ↦ hcalls call (List.mem_of_mem_take hcall)
      have hreads : OrderlyRequests relaxed b
          ((calls.take (j + 1)).map (RpcCall.httpRequest lib)) s := by
        rw [List.map_take]
        exact hrequests.take (j + 1)
      have hbytes : s.bytes = ((calls.take (j + 1)).map (RpcCall.httpRequest lib)).flatMap
          HttpRequest.dump ++ more := by
        rw [hup.bytes, hmore, hnew, List.nil_append]
      obtain ⟨s', w', shared', hresult, more', hwritten⟩ :=
        (provider.server lib).handleClient_written fnmatch (httpRequest_offered hsome)
          hup.connected hbytes hreads hw shared
      rw [serve_calls hmatch hsome, answerTexts_take hcalls, hnew', List.nil_append] at hwritten
      exact ⟨more', (hdown _ hresult).bytes.trans hwritten⟩
  obtain ⟨tail, htail⟩ := hround calls.length
  obtain ⟨-, hall⟩ := callMethods_rounds behindCut dial
    ⟨true, c, v⟩ hcalls shared calls.length rfl hc hv htail hresponses
  obtain ⟨hresults, hsent⟩ := hall (Nat.le_refl _)
  refine ⟨hresults, length_invoke hcalls shared, ?_⟩
  have hbytes : s.bytes = (calls.map (RpcCall.httpRequest lib)).flatMap HttpRequest.dump := by
    rw [hup.bytes, hsent, hnew, List.nil_append]
  obtain ⟨s', w', hresult, hclosed, -⟩ := (provider.server lib).handleClient_orderly fnmatch
    (httpRequest_offered hcalls) hup.connected hbytes hrequests hw shared
  rw [serve_calls hmatch hcalls] at hresult
  exact ⟨s', w', hresult, hclosed⟩

/-! ### A counter -/

/-- Messages with a number of one byte in their first field, which is left out when it is zero. -/
def numberLibrary : MessageLibrary Byte where
  serializeToString := fun n ↦ some (if n = 0#8 then [] else [8#8, n])
  parseFromString := fun _ text ↦
    match text with
    | [] => (0#8, true)
    | [tag, n] => if tag = 8#8 then (n, true) else (0#8, false)
    | _ => (0#8, false)

theorem numberLibrary_carries (kind n : Byte) : numberLibrary.Carries kind n := by
  by_cases hn : n = 0#8
  · subst hn
    exact ⟨[], rfl, by decide, rfl⟩
  · exact ⟨[8#8, n], congrArg some (if_neg hn), by simp, rfl⟩

/-- A pattern that ends with a star matches what begins like it, any other matches itself. -/
def matchesStar (pattern text : List Byte) : Bool :=
  if pattern.getLast? = some 42#8 then pattern.dropLast.isPrefixOf text else decide (pattern = text)

theorem matchesStar_path : MatchesPath matchesStar := by
  intro rest _
  have hpattern : (bytesOf "/rpc/*").getLast? = some 42#8 ∧
      (bytesOf "/rpc/*").dropLast = bytesOf "/rpc/" := by
    decide
  rw [matchesStar, if_pos hpattern.1, hpattern.2, List.isPrefixOf_iff_prefix]
  exact List.prefix_append _ _

/-- A service that adds what it is sent. -/
def addMethod : RpcMethod Byte Byte where
  requestPrototype := 0#8
  responsePrototype := 0#8
  callMethod := fun request _ total ↦ (total + request, total + request)

def counterProvider : RpcProvider Byte Byte :=
  ({} : RpcProvider Byte Byte).notifyService (bytesOf "Counter") [(bytesOf "Add", addMethod)]

def counterCalls : List (RpcCall Byte) :=
  [⟨⟨bytesOf "Counter", bytesOf "Add"⟩, 3#8, 0#8⟩, ⟨⟨bytesOf "Counter", bytesOf "Add"⟩, 4#8, 0#8⟩]

theorem counterProvider_offers : counterProvider.OffersAll numberLibrary counterCalls := by
  have hnames : ∀ call ∈ counterCalls,
      (∀ c ∈ call.method.serviceName, RpcProvider.identifierChars.mem c.toNat) ∧
        ∀ c ∈ call.method.methodName, RpcProvider.identifierChars.mem c.toNat := by
    decide +kernel
  have hfound : counterProvider.find (bytesOf "Counter") (bytesOf "Add") = some addMethod := by
    rfl
  intro call hcall
  refine ⟨addMethod, ?_, (hnames call hcall).1, (hnames call hcall).2,
    numberLibrary_carries _ _, fun _ ↦ numberLibrary_carries _ _⟩
  rcases List.mem_pair.mp hcall with rfl | rfl
  · exact hfound
  · exact hfound

/-- The answers, and the requests, each in a segment of its own. -/
def counterDown : SocketStream :=
  inSegments (((counterProvider.answerTexts numberLibrary counterCalls 10#8).map callResponse).map
    HttpResponse.dump)

def counterUp : SocketStream :=
  inSegments ((counterCalls.map (RpcCall.httpRequest numberLibrary)).map HttpRequest.dump)

theorem rpcCalls_exactlyOnce_counter :
    (MprpcChannel.callMethods numberLibrary 0 defaultBuffer none counterCalls
      ⟨true, counterDown, taking 99⟩).1 = [13#8, 17#8] ∧
      ∃ s' w', (counterProvider.server numberLibrary).handleClient matchesStar false defaultBuffer
        counterUp (taking 0) 10#8 = some (s', w', 17#8) ∧ s'.connected = false := by
  have hfits : (∀ r ∈ counterCalls.map (RpcCall.httpRequest numberLibrary),
        r.dump.length ≤ defaultBuffer.size) ∧
      ∀ r ∈ (counterProvider.answerTexts numberLibrary counterCalls 10#8).map callResponse,
        r.dump.length ≤ defaultBuffer.size := by
    decide +kernel
  have hinvoke : counterProvider.invoke counterCalls 10#8 = ([13#8, 17#8], 17#8) := by
    rfl
  have hsendable : ∀ r ∈ counterCalls.map (RpcCall.httpRequest numberLibrary),
      r.Sendable false :=
    httpRequest_offered counterProvider_offers
  have hrequests := orderlyRequests_inSegments hsendable hfits.1
  have hresponses := orderlyResponses_inSegments
    (callResponse_answerTexts counterProvider_offers 10#8) hfits.2
  have hup : Carries (MprpcChannel.callMethods numberLibrary 0 defaultBuffer none counterCalls
      ⟨true, counterDown, taking 99⟩).2.sink counterUp := by
    refine ⟨rfl, ?_⟩
    have hbytes : counterDown.bytes =
        (((counterProvider.answerTexts numberLibrary counterCalls 10#8).take 2).map
          callResponse).flatMap HttpResponse.dump ++ [] := by
      rw [List.append_nil, List.take_of_length_le (by decide)]
      exact (bytes_inSegments _).trans List.flatMap_def.symm
    obtain ⟨-, hall⟩ := callMethods_rounds 0 none ⟨true, counterDown, taking 99⟩
      counterProvider_offers 10#8 2 rfl rfl (sends_taking 99) hbytes hresponses
    rw [(hall (Nat.le_refl _)).2, counterUp, bytes_inSegments, ← List.flatMap_def]
    rfl
  have hdown : ∀ result, (counterProvider.server numberLibrary).handleClient matchesStar false
      defaultBuffer counterUp (taking 0) 10#8 = some result → Carries result.2.1 counterDown := by
    intro result hresult
    obtain ⟨s', w', hserved, -, hwritten⟩ :=
      (counterProvider.server numberLibrary).handleClient_orderly matchesStar (s := counterUp)
        (httpRequest_offered counterProvider_offers) rfl
        ((bytes_inSegments _).trans List.flatMap_def.symm) hrequests (sends_taking 0) 10#8
    obtain rfl := Option.some.inj (hserved.symm.trans hresult)
    refine ⟨rfl, ?_⟩
    rw [hwritten, serve_calls matchesStar_path counterProvider_offers, counterDown,
      bytes_inSegments, ← List.flatMap_def]
    rfl
  obtain ⟨hresults, -, hstate⟩ := rpcCalls_exactlyOnce numberLibrary counterProvider matchesStar
    matchesStar_path false defaultBuffer 0 none counterCalls counterProvider_offers 10#8 counterDown
    (taking 99) rfl (sends_taking 99) rfl counterUp (taking 0) (sends_taking 0) rfl hup hdown
    hrequests hresponses
  rw [hinvoke] at hresults hstate
  exact ⟨hresults, hstate⟩

end Rsylar.Http.Rpc
