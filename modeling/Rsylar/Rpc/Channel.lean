import Rsylar.Raft.ServerSpec

/-!
# What a remote call reports

`MprpcChannel.callMethod` is one call of a method over HTTP, `RaftRpcUtil` what the Raft node makes
of it and `RpcProvider.handle` the other side. What the socket does during a call is a `Network`:
the results of connecting and of the calls of `send`, and what `recvResponse` has made of the bytes
that came back. Messages are turned into text and back by a library, which is a parameter
(`Protobuf`).

The channel looks at three results: whether it is connected, whether the request can be serialized
and whether there is a response. What `sendRequest` returns, the status of the response and the
result of parsing its body are not looked at. So a call reports a failure exactly when it should if
nothing is wrong with a response whenever there is one (`reportsFailure_iff`), and the error answers
of a provider are taken for answers of the method (`callMethod_handle`).
-/

set_option autoImplicit false
set_option relaxedAutoImplicit false

namespace Rsylar

variable {α β : Type} {n : ℕ}

/-- The serialization library for one kind of message. `parseFromString` is what the message holds
after the call, whatever it held before, and whether the text was one of a message. -/
structure Protobuf (α : Type) where
  serializeToString : α → Option String
  parseFromString : String → α × Bool

/-! ### HTTP -/

abbrev HttpStatus := ℕ

namespace HttpStatus

def ok : HttpStatus := 200
def badRequest : HttpStatus := 400
def notFound : HttpStatus := 404
def methodNotAllowed : HttpStatus := 405
def internalServerError : HttpStatus := 500

end HttpStatus

inductive HttpMethod
  | post
  | other (name : String)
deriving DecidableEq

def HttpMethod.toString : HttpMethod → String
  | post => "POST"
  | other name => name

structure HttpRequest where
  method : HttpMethod
  path : String
  close : Bool
  /-- in the order of the keys, which `dump` follows -/
  headers : List (String × String)
  body : String

/-- A response starts as the server creates it. -/
structure HttpResponse where
  status : HttpStatus := HttpStatus.ok
  headers : List (String × String) := []
  body : String := ""

def HttpRequest.dump (req : HttpRequest) : String :=
  req.method.toString ++ " " ++ req.path ++ " HTTP/1.1\r\n" ++
    "connection: " ++ (if req.close then "close" else "keep-alive") ++ "\r\n" ++
    String.join (req.headers.map fun header ↦ header.1 ++ ": " ++ header.2 ++ "\r\n") ++
    if req.body = "" then "\r\n"
    else "content-length: " ++ toString req.body.utf8ByteSize ++ "\r\n\r\n" ++ req.body

/-- What the network does during one call. -/
structure Network where
  /-- what `isConnected` says of the socket of the connection there is -/
  socketConnected : Bool
  lookupAnyIPAddress : Bool
  connect : Bool
  /-- the results of `send`, one for every call -/
  sends : List ℤ
  /-- what `recvResponse` returns, `none` when the connection is closed, when what comes back is not
  a response or when it does not fit -/
  recvResponse : Option HttpResponse

/-- `writeFixSize` with `left` bytes to go, which returns `length` when all are out. -/
def writeFixSize (length : ℤ) : ℤ → List ℤ → ℤ
  | left, [] => if 0 < left then -1 else length
  | left, len :: sends =>
    if 0 < left then
      if len ≤ 0 then len else writeFixSize length (left - len) sends
    else length

/-- The bytes that the calls of `send` have taken before one of them failed. -/
def bytesSent : List ℤ → ℤ
  | [] => 0
  | len :: sends => if len ≤ 0 then 0 else len + bytesSent sends

def Network.sendRequest (net : Network) (req : HttpRequest) : ℤ :=
  writeFixSize req.dump.utf8ByteSize req.dump.utf8ByteSize net.sends

/-- The whole request has been sent. -/
def Network.SendsWhole (net : Network) (req : HttpRequest) : Prop :=
  (req.dump.utf8ByteSize : ℤ) ≤ bytesSent net.sends

/-! ### The channel -/

structure MprpcController where
  failed : Bool := false
  errText : String := ""

def MprpcController.setFailed (_ : MprpcController) (reason : String) : MprpcController where
  failed := true
  errText := reason

structure MethodDescriptor where
  serviceName : String
  methodName : String

/-- The request that carries the arguments of a call. -/
def MethodDescriptor.httpRequest (method : MethodDescriptor) (reqStr : String) : HttpRequest where
  method := .post
  path := "/rpc/" ++ method.serviceName ++ "/" ++ method.methodName
  close := false
  headers := [("Content-Length", toString reqStr.utf8ByteSize),
    ("Content-Type", "application/octet-stream")]
  body := reqStr

structure MprpcChannel where
  isConnected : Bool := false

namespace MprpcChannel

def connect (ch : MprpcChannel) (net : Network) : MprpcChannel × Bool :=
  if ch.isConnected && net.socketConnected then (ch, true)
  else if !net.lookupAnyIPAddress then (ch, false)
  else if !net.connect then (ch, false)
  else ({ isConnected := true }, true)

/-- What is left of a call: the channel, the controller and the response. -/
def callMethod (requests : Protobuf α) (responses : Protobuf β) (ch : MprpcChannel) (net : Network)
    (method : MethodDescriptor) (controller : MprpcController) (request : α) (response : β) :
    MprpcChannel × MprpcController × β :=
  let (ch, connected) := ch.connect net
  if !connected then (ch, controller.setFailed "connect to server failed!", response)
  else
    match requests.serializeToString request with
    | none => (ch, controller.setFailed "serialize request error!", response)
    | some reqStr =>
      let _ := net.sendRequest (method.httpRequest reqStr)
      match net.recvResponse with
      | none =>
        ({ ch with isConnected := false }, controller.setFailed "recv response error!", response)
      | some rsp =>
        -- neither the status nor the second component is looked at
        (ch, controller, (responses.parseFromString rsp.body).1)

end MprpcChannel

namespace RaftRpcUtil

/-- A call of the stub with a controller of its own: the channel, the response and whether the call
is taken to have succeeded. -/
def call (requests : Protobuf α) (responses : Protobuf β) (ch : MprpcChannel) (net : Network)
    (methodName : String) (args : α) (response : β) : MprpcChannel × β × Bool :=
  let (ch, controller, response) :=
    ch.callMethod requests responses net ⟨"raftRpc", methodName⟩ {} args response
  (ch, response, !controller.failed)

def appendEntries (requests : Protobuf (AppendEntriesArgs n))
    (responses : Protobuf AppendEntriesReply) (ch : MprpcChannel) (net : Network)
    (args : AppendEntriesArgs n) (response : AppendEntriesReply) :
    MprpcChannel × AppendEntriesReply × Bool :=
  call requests responses ch net "AppendEntries" args response

def installSnapshot (requests : Protobuf (InstallSnapshotRequest n))
    (responses : Protobuf InstallSnapshotResponse) (ch : MprpcChannel) (net : Network)
    (args : InstallSnapshotRequest n) (response : InstallSnapshotResponse) :
    MprpcChannel × InstallSnapshotResponse × Bool :=
  call requests responses ch net "InstallSnapshot" args response

def requestVote (requests : Protobuf (RequestVoteArgs n)) (responses : Protobuf RequestVoteReply)
    (ch : MprpcChannel) (net : Network) (args : RequestVoteArgs n) (response : RequestVoteReply) :
    MprpcChannel × RequestVoteReply × Bool :=
  call requests responses ch net "RequestVote" args response

end RaftRpcUtil

/-! ### The provider -/

/-- A published method as a function of the text of its request: the outer `none` when the text
cannot be parsed, the inner one when the response cannot be serialized. -/
abbrev RpcMethod := String → Option (Option String)

def RpcMethod.of (requests : Protobuf α) (responses : Protobuf β) (run : α → β) : RpcMethod :=
  fun argsStr ↦
    match requests.parseFromString argsStr with
    | (_, false) => none
    | (request, true) => some (responses.serializeToString (run request))

structure RpcProvider where
  serviceMap : List (String × List (String × RpcMethod)) := []

namespace RpcProvider

/-- The service and the method, separated by the first slash. -/
def splitPath (rest : List Char) : Option (String × String) :=
  if '/' ∈ rest then
    some (String.ofList (rest.takeWhile (· ≠ '/')), String.ofList ((rest.dropWhile (· ≠ '/')).drop 1))
  else none

def handle (provider : RpcProvider) (req : HttpRequest) : HttpResponse :=
  if req.method ≠ .post then
    { status := .methodNotAllowed, body := "Only POST allowed\n" }
  else if req.path.toList.length ≤ "/rpc/".toList.length ∨ ¬"/rpc/".toList <+: req.path.toList then
    { status := .badRequest, body := "invalid rpc path, expected /rpc/<Service>/<Method>" }
  else
    match splitPath (req.path.toList.drop "/rpc/".toList.length) with
    | none => { status := .badRequest, body := "invalid rpc path, missing method" }
    | some (serviceName, methodName) =>
      match provider.serviceMap.lookup serviceName with
      | none => { status := .notFound, body := "service not found" }
      | some methodMap =>
        match methodMap.lookup methodName with
        | none => { status := .notFound, body := "method not found" }
        | some method =>
          match method req.body with
          | none => { status := .badRequest, body := "request parse error" }
          | some none => { status := .internalServerError, body := "serialize response error" }
          | some (some responseStr) =>
            { status := .ok, headers := [("Content-Type", "application/octet-stream")]
              body := responseStr }

/-- The method that a channel asks for. -/
def find (provider : RpcProvider) (method : MethodDescriptor) : Option RpcMethod :=
  (provider.serviceMap.lookup method.serviceName).bind fun methodMap ↦
    methodMap.lookup method.methodName

end RpcProvider

/-! ### The property -/

/-- The whole request has been sent, and a response has come back that is one of the method. -/
structure Delivered (requests : Protobuf α) (responses : Protobuf β) (net : Network)
    (method : MethodDescriptor) (request : α) : Prop where
  sent : ∃ reqStr, requests.serializeToString request = some reqStr ∧
    net.SendsWhole (method.httpRequest reqStr)
  answered : ∃ rsp, net.recvResponse = some rsp ∧ rsp.status = .ok ∧
    (responses.parseFromString rsp.body).2 = true

/-- The controller is not failed, and a handler of the Raft node goes on, only with the response of
the peer. -/
structure ReportsFailure (requests : Protobuf α) (responses : Protobuf β) (ch : MprpcChannel)
    (net : Network) (method : MethodDescriptor) (request : α) (response : β) : Prop where
  controller :
    (ch.callMethod requests responses net method {} request response).2.1.failed = false →
      Delivered requests responses net method request
  util : method.serviceName = "raftRpc" →
    (RaftRpcUtil.call requests responses ch net method.methodName request response).2.2 = true →
      Delivered requests responses net method request

/-- Nothing is wrong with the response when there is one: the request has been sent, the status is
200 and the body can be parsed. -/
def ResponsesFit (requests : Protobuf α) (responses : Protobuf β) (ch : MprpcChannel)
    (net : Network) (method : MethodDescriptor) (request : α) : Prop :=
  (ch.connect net).2 = true → ∀ reqStr ∈ requests.serializeToString request,
    ∀ rsp ∈ net.recvResponse,
      net.SendsWhole (method.httpRequest reqStr) ∧ rsp.status = .ok ∧
        (responses.parseFromString rsp.body).2 = true

section Calls

variable {requests : Protobuf α} {responses : Protobuf β} {ch : MprpcChannel} {net : Network}
  {method : MethodDescriptor} {controller : MprpcController} {request : α} {response : β}

theorem writeFixSize_eq_iff {length left : ℤ} (hlength : 0 < length) {sends : List ℤ} :
    writeFixSize length left sends = length ↔ left ≤ bytesSent sends := by
  induction sends generalizing left with
  | nil =>
    unfold writeFixSize bytesSent
    split <;> omega
  | cons len sends ih =>
    have hnonneg : 0 ≤ bytesSent sends := by
      clear ih
      induction sends with
      | nil => exact le_refl _
      | cons len sends ih =>
        unfold bytesSent
        split <;> omega
    unfold writeFixSize bytesSent
    split
    · split
      · omega
      · rw [ih]
        omega
    · split <;> omega

/-- `sendRequest` knows whether the request is out. -/
theorem Network.sendRequest_eq_iff (net : Network) (req : HttpRequest)
    (hsize : 0 < req.dump.utf8ByteSize) :
    net.sendRequest req = req.dump.utf8ByteSize ↔ net.SendsWhole req :=
  writeFixSize_eq_iff (by exact_mod_cast hsize)

theorem MprpcChannel.callMethod_failed_iff (hcontroller : controller.failed = false) :
    (ch.callMethod requests responses net method controller request response).2.1.failed = false ↔
      (ch.connect net).2 = true ∧ (requests.serializeToString request).isSome ∧
        net.recvResponse.isSome := by
  unfold MprpcChannel.callMethod
  cases hconnect : (ch.connect net).2 with
  | false => simp [hconnect, MprpcController.setFailed]
  | true =>
    cases requests.serializeToString request with
    | none => simp [hconnect, MprpcController.setFailed]
    | some reqStr =>
      cases net.recvResponse with
      | none => simp [hconnect, MprpcController.setFailed]
      | some rsp => simp [hconnect, hcontroller]

/-- RPC failure reporting. A call reports every failure exactly when nothing is wrong with a
response that is received. -/
theorem reportsFailure_iff (requests : Protobuf α) (responses : Protobuf β) (ch : MprpcChannel)
    (net : Network) (method : MethodDescriptor) (request : α) (response : β) :
    ReportsFailure requests responses ch net method request response ↔
      ResponsesFit requests responses ch net method request := by
  constructor
  · intro h hconnect reqStr hserialize rsp hrecv
    obtain ⟨⟨reqStr', hserialize', hsent⟩, ⟨rsp', hrecv', hstatus, hparse⟩⟩ :=
      h.controller ((MprpcChannel.callMethod_failed_iff rfl).mpr
        ⟨hconnect, Option.isSome_iff_exists.mpr ⟨reqStr, hserialize⟩,
          Option.isSome_iff_exists.mpr ⟨rsp, hrecv⟩⟩)
    obtain rfl : reqStr = reqStr' := Option.some.inj (hserialize.symm.trans hserialize')
    obtain rfl : rsp = rsp' := Option.some.inj (hrecv.symm.trans hrecv')
    exact ⟨hsent, hstatus, hparse⟩
  · intro h
    have hdelivered : (ch.callMethod requests responses net method {} request response).2.1.failed =
        false → Delivered requests responses net method request := by
      intro hfailed
      obtain ⟨hconnect, hserialize, hrecv⟩ := (MprpcChannel.callMethod_failed_iff rfl).mp hfailed
      obtain ⟨reqStr, hserialize⟩ := Option.isSome_iff_exists.mp hserialize
      obtain ⟨rsp, hrecv⟩ := Option.isSome_iff_exists.mp hrecv
      obtain ⟨hsent, hstatus, hparse⟩ := h hconnect reqStr hserialize rsp hrecv
      exact ⟨⟨reqStr, hserialize, hsent⟩, ⟨rsp, hrecv, hstatus, hparse⟩⟩
    refine ⟨hdelivered, fun hservice hok ↦ hdelivered ?_⟩
    obtain ⟨serviceName, methodName⟩ := method
    obtain rfl : serviceName = "raftRpc" := hservice
    exact Bool.not_eq_true' _ ▸ hok

end Calls

/-! ### Error answers -/

namespace RpcProvider

variable {provider : RpcProvider} {method : MethodDescriptor} {reqStr : String}

/-- A provider finds in the path what the channel has put there. -/
theorem splitPath_httpRequest (hservice : '/' ∉ method.serviceName.toList) :
    splitPath ((method.httpRequest reqStr).path.toList.drop "/rpc/".toList.length) =
      some (method.serviceName, method.methodName) := by
  have hpath : (method.httpRequest reqStr).path.toList.drop "/rpc/".toList.length =
      method.serviceName.toList ++ '/' :: method.methodName.toList := by
    unfold MethodDescriptor.httpRequest
    simp only [String.toList_append, List.append_assoc, List.drop_left]
    rfl
  have hne : ∀ c ∈ method.serviceName.toList, (decide (c ≠ '/')) = true := by
    intro c hc
    simp only [ne_eq, decide_eq_true_eq]
    rintro rfl
    exact hservice hc
  rw [hpath]
  unfold splitPath
  rw [if_pos (by simp), List.takeWhile_append_of_pos hne, List.dropWhile_append_of_pos hne]
  simp

/-- A channel gets status 200 from a provider that offers the method, when it can make an answer. -/
theorem handle_status_iff (hservice : '/' ∉ method.serviceName.toList) :
    (provider.handle (method.httpRequest reqStr)).status = .ok ↔
      ∃ run responseStr, provider.find method = some run ∧ run reqStr = some (some responseStr) := by
  have hpath : ¬((method.httpRequest reqStr).path.toList.length ≤ "/rpc/".toList.length ∨
      ¬"/rpc/".toList <+: (method.httpRequest reqStr).path.toList) := by
    unfold MethodDescriptor.httpRequest
    simp only [String.toList_append, List.append_assoc, List.length_append]
    refine not_or.mpr ⟨?_, not_not.mpr (List.prefix_append _ _)⟩
    have hslash : "/".toList.length = 1 := rfl
    omega
  unfold handle find
  rw [if_neg (by simp [MethodDescriptor.httpRequest]), if_neg hpath,
    splitPath_httpRequest hservice]
  cases hmap : provider.serviceMap.lookup method.serviceName with
  | none => simp [hmap, HttpStatus.notFound, HttpStatus.ok]
  | some methodMap =>
    cases hrun : methodMap.lookup method.methodName with
    | none => simp [hmap, hrun, HttpStatus.notFound, HttpStatus.ok]
    | some run =>
      have hbody : (method.httpRequest reqStr).body = reqStr := rfl
      simp only [hmap, hrun, hbody, Option.bind_some, Option.some.injEq, exists_and_left,
        exists_eq_left']
      cases run reqStr with
      | none => simp [HttpStatus.badRequest, HttpStatus.ok]
      | some answer =>
        cases answer with
        | none => simp [HttpStatus.internalServerError, HttpStatus.ok]
        | some responseStr => simp

end RpcProvider

section Leader

variable [TextArchive.Codec LogEntry] [TextArchive.Codec (BoostPersistRaftNode n)]

/-- `leaderSendSnapShot` after the call. -/
def Raft.leaderSendSnapShotReturn (r : Raft n) (server : Fin n) (args : InstallSnapshotRequest n)
    (reply : InstallSnapshotResponse) (ok : Bool) : Raft n :=
  if !ok then r else r.leaderSendSnapShotReply server args reply

/-- Whatever the response is, a leader takes the snapshot to be installed, unless the text of the
response reads like a later term. -/
theorem leaderSendSnapShotReturn_of_response {requests : Protobuf (InstallSnapshotRequest n)}
    {responses : Protobuf InstallSnapshotResponse} {ch : MprpcChannel} {net : Network} {r : Raft n}
    {server : Fin n} {args : InstallSnapshotRequest n} {rsp : HttpResponse} {reqStr : String}
    (hconnect : (ch.connect net).2 = true)
    (hserialize : requests.serializeToString args = some reqStr)
    (hrecv : net.recvResponse = some rsp) (hleader : r.status = .leader)
    (hargs : r.currentTerm = args.term)
    (hreply : (responses.parseFromString rsp.body).1.term ≤ r.currentTerm) :
    let result := RaftRpcUtil.installSnapshot requests responses ch net args {}
    r.leaderSendSnapShotReturn server args result.2.1 result.2.2 =
      r.setMatchIndex server args.lastSnapshotIncludeIndex := by
  have hresult : (RaftRpcUtil.installSnapshot requests responses ch net args {}).2 =
      ((responses.parseFromString rsp.body).1, true) := by
    simp [RaftRpcUtil.installSnapshot, RaftRpcUtil.call, MprpcChannel.callMethod, hconnect,
      hserialize, hrecv]
  simp only [hresult, Raft.leaderSendSnapShotReturn, Raft.leaderSendSnapShotReply, Bool.not_true,
    Bool.false_eq_true, if_false]
  rw [if_neg (by simp [hleader, hargs]), if_neg (not_lt.mpr hreply)]

end Leader

/-! ### A service that is not there -/

/-- A field of a message: its tag and a value of one byte, or nothing for the default. -/
def varintField (number value : ℕ) : String :=
  if value = 0 then "" else String.ofList [Char.ofNat (8 * number), Char.ofNat value]

/-- Snapshot requests with short fields and no data, which the calls of a leader only write. -/
def snapshotRequests : Protobuf (InstallSnapshotRequest 3) where
  serializeToString := fun args ↦ some (varintField 1 args.leaderId ++ varintField 2 args.term ++
    varintField 3 args.lastSnapshotIncludeIndex ++ varintField 4 args.lastSnapshotIncludeTerm)
  parseFromString := fun _ ↦ (⟨0, 0, 0, 0, ""⟩, false)

/-- Answers with a short term. -/
def snapshotResponses : Protobuf InstallSnapshotResponse where
  serializeToString := fun reply ↦ some (varintField 1 reply.term)
  parseFromString := fun str ↦
    match str.toList with
    | [] => ({}, true)
    | [tag, term] => if tag.toNat = 8 then ({ term := term.toNat }, true) else ({}, false)
    | _ => ({}, false)

def installSnapshotMethod : MethodDescriptor where
  serviceName := "raftRpc"
  methodName := "InstallSnapshot"

def sentSnapshot : InstallSnapshotRequest 3 where
  leaderId := 1
  term := 2
  lastSnapshotIncludeIndex := 7
  lastSnapshotIncludeTerm := 2
  data := ""

/-- The peer runs a provider that has published nothing. -/
def missingService : Network where
  socketConnected := true
  lookupAnyIPAddress := true
  connect := true
  sends := [200]
  recvResponse := some (({} : RpcProvider).handle (installSnapshotMethod.httpRequest
    ((snapshotRequests.serializeToString sentSnapshot).getD "")))

/-- An answer with status 404 is taken for the answer of the method. -/
theorem reportsFailure_missingService :
    ¬ReportsFailure snapshotRequests snapshotResponses { isConnected := true } missingService
      installSnapshotMethod sentSnapshot {} := by
  intro h
  obtain ⟨-, rsp, hrecv, hstatus, -⟩ :=
    h.controller ((MprpcChannel.callMethod_failed_iff rfl).mpr ⟨rfl, rfl, rfl⟩)
  obtain rfl := Option.some.inj hrecv
  obtain ⟨run, responseStr, hfind, -⟩ := (RpcProvider.handle_status_iff (by decide)).mp hstatus
  cases hfind

end Rsylar
