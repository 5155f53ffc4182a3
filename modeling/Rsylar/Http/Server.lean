import Rsylar.Http.RequestStream
import Rsylar.Http.Servlet
import Rsylar.Sylar.SocketSink

/-!
# The HTTP server

`HttpServer::handleClient`: the loop that receives a request, lets the dispatch make the response,
sends it and goes on until a request cannot be received or the connection is not to be kept.

`handleClient_eq` is about whatever arrives: the loop ends with the connection closed, and what it
has executed and answered are the requests that successive calls of `recvRequest` return, up to the
first that fails or closes. The result of sending a response is not looked at: a request is executed
although the response before it was cut off.
-/

set_option autoImplicit false
set_option relaxedAutoImplicit false

namespace Rsylar.Http

open ActionRegex Scanner

/-! ### Requests take bytes -/

section

variable {κ φ σ : Type} [DecidableEq κ] [DecidableEq φ] {cb : Callbacks κ φ σ}
  {p p' : MessageParser κ φ σ} {data data' : List Byte} {s s' : SocketStream}

/-- A head takes a byte at least. -/
theorem Callbacks.length_bytes_recvHead {buffSize fuel : ℕ}
    (h : cb.recvHead buffSize fuel p data s = .ok (p', data', s')) :
    s'.connected = s.connected ∧ s'.bytes.length < s.bytes.length := by
  induction fuel generalizing p data s with
  | zero => cases h
  | succ fuel ih =>
    simp only [recvHead] at h
    cases hs : s.connected with
    | false => simp [SocketStream.read, hs] at h
    | true =>
      rw [SocketStream.read_eq hs] at h
      split at h
      · cases h
      · rename_i hsome
        have hread : (s.skip (s.readSize (buffSize - data.length))).bytes.length <
            s.bytes.length := by
          have hpos := List.length_pos_iff.mpr hsome
          rw [List.length_take] at hpos
          rw [SocketStream.bytes_skip, List.length_drop]
          omega
        split at h
        · cases h
        · split at h
          · cases h
          · split at h
            · cases h
              exact ⟨hs, hread⟩
            · obtain ⟨hconnected, hlength⟩ := ih h
              exact ⟨hconnected.trans hs, hlength.trans hread⟩

end

namespace HttpSession

variable {relaxed : Bool} {b : BufferSize} {p : HttpRequestParser} {data : List Byte}
  {s s' : HttpSession} {r : HttpRequest}

theorem length_bytes_recvBody (hs : s.connected) (h : recvBody p data s = .ok (r, s')) :
    s'.connected ∧ s'.bytes.length ≤ s.bytes.length := by
  rw [recvBody] at h
  generalize p.data.request.headers.contentLength = length at h
  by_cases hnone : length ≤ 0
  · simp only [hnone, if_true, Except.ok.injEq, Prod.mk.injEq] at h
    obtain ⟨-, rfl⟩ := h
    exact ⟨hs, Nat.le_refl _⟩
  · by_cases hall : length ≤ data.length
    · simp only [hnone, hall, if_true, if_false, Except.ok.injEq, Prod.mk.injEq] at h
      obtain ⟨-, rfl⟩ := h
      exact ⟨hs, Nat.le_refl _⟩
    · simp only [hnone, hall, if_false] at h
      generalize length.toNat - data.length = rest at h
      by_cases hread : rest ≤ s.bytes.length ∧ 0 < (BitVec.ofNat 32 rest).toInt
      · rw [SocketStream.readFixSize_eq hs hread.1 hread.2] at h
        simp only [Except.ok.injEq, Prod.mk.injEq] at h
        obtain ⟨-, rfl⟩ := h
        refine ⟨hs, ?_⟩
        rw [SocketStream.bytes_skip, List.length_drop]
        exact Nat.sub_le ..
      · rw [SocketStream.readFixSize_eq_none (by omega)] at h
        cases h

/-- A request that is received takes a byte at least, and the connection stays open. -/
theorem length_bytes_recvRequest (h : recvRequest relaxed b s = (.ok r, s')) :
    s'.connected ∧ s'.bytes.length < s.bytes.length := by
  rw [recvRequest] at h
  cases hhead : requestCallbacks.recvHead b.size (s.bytes.length + 1) (newRequestParser relaxed) []
      s with
  | error e =>
    simp only [hhead, bind, Except.bind] at h
    cases h
  | ok result =>
    obtain ⟨p, data, behind⟩ := result
    simp only [hhead, bind, Except.bind] at h
    obtain ⟨hconnected, hless⟩ := Callbacks.length_bytes_recvHead hhead
    cases hbody : recvBody p data behind with
    | error e =>
      simp only [hbody] at h
      cases h
    | ok result =>
      obtain ⟨r', s''⟩ := result
      simp only [hbody, Prod.mk.injEq, Except.ok.injEq] at h
      obtain ⟨rfl, rfl⟩ := h
      have hopen : s.connected := by
        cases hs : s.connected with
        | true => rfl
        | false => simp [Callbacks.recvHead, SocketStream.read, hs] at hhead
      obtain ⟨hkept, hle⟩ := length_bytes_recvBody (hconnected.trans hopen) hbody
      exact ⟨hkept, Nat.lt_of_le_of_lt hle hless⟩

/-- A request that is not received leaves the connection closed. -/
theorem connected_of_recvRequest {e : ReceiveError} (h : recvRequest relaxed b s = (.error e, s')) :
    s'.connected = false := by
  rw [recvRequest] at h
  split at h
  · cases h
  · cases h
    rfl

end HttpSession

/-! ### The loop -/

/-- The members of `HttpServer` and of `TcpServer` that serving a client uses. -/
structure HttpServer (σ : Type) where
  name : List Byte := bytesOf "sylar/1.0.0"
  isKeepalive : Bool := false
  dispatch : ServletDispatch σ := {}

namespace HttpServer

variable {σ : Type} (server : HttpServer σ) (fnmatch : List Byte → List Byte → Bool)

def setName (v : List Byte) : HttpServer σ :=
  { server with name := v, dispatch := server.dispatch.setDefault (some (NotFoundServlet v)) }

/-- What a turn of the loop makes of a request. -/
def answer (req : HttpRequest) (shared : σ) : HttpRequest × HttpResponse × σ :=
  server.dispatch.handle fnmatch req
    { version := req.version
      close := req.close || !server.isKeepalive
      headers := Headers.setHeader ⟨[], Headers.sorted_nil⟩ (bytesOf "Server") server.name } shared

/-- `HttpSession::sendResponse` -/
def sendResponse (s : HttpSession) (rsp : HttpResponse) (w : SocketSink) : ℤ × SocketSink :=
  w.writeFixSize s.connected rsp.dump

/-- The loop of `handleClient`; `none` when it has not ended in so many turns. -/
def handleLoop (relaxed : Bool) (b : BufferSize) :
    ℕ → HttpSession → SocketSink → σ → Option (HttpSession × SocketSink × σ)
  | 0, _, _, _ => none
  | turns + 1, s, w, shared =>
    match HttpSession.recvRequest relaxed b s with
    | (.error _, s) => some (s.close, w, shared)
    | (.ok req, s) =>
      let (req, rsp, shared) := server.answer fnmatch req shared
      let (_, w) := sendResponse s rsp w
      if !server.isKeepalive || req.close then some (s.close, w, shared)
      else handleLoop relaxed b turns s w shared

/-- A turn takes a byte at least, so that the loop ends in one turn more than there are bytes. -/
def handleClient (relaxed : Bool) (b : BufferSize) (s : HttpSession) (w : SocketSink) (shared : σ) :
    Option (HttpSession × SocketSink × σ) :=
  server.handleLoop fnmatch relaxed b (s.bytes.length + 1) s w shared

/-- The responses to requests that are received one after the other: up to one that fails, and to
the first behind which the connection is not kept. -/
def serve : List (Except ReceiveError HttpRequest) → σ → List HttpResponse × σ
  | [], shared => ([], shared)
  | .error _ :: _, shared => ([], shared)
  | .ok req :: received, shared =>
    let (req, rsp, shared) := server.answer fnmatch req shared
    if !server.isKeepalive || req.close then ([rsp], shared)
    else
      let (rsps, shared) := serve received shared
      (rsp :: rsps, shared)

end HttpServer

/-- The client has been served with the responses: the connection is closed, and of each response
in its turn at least a beginning has gone out, or all of it when no call of `send` fails. -/
def Served {σ : Type} (rsps : List HttpResponse) (w : SocketSink) (shared : σ)
    (result : Option (HttpSession × SocketSink × σ)) : Prop :=
  ∃ s' w' sent, result = some (s', w', shared) ∧ s'.connected = false ∧
    List.Forall₂ (fun part rsp ↦ part <+: HttpResponse.dump rsp) sent rsps ∧
    w'.written = w.written ++ sent.flatten ∧
    (w.Sends → w'.Sends ∧ sent = rsps.map HttpResponse.dump)

section

variable {σ : Type} (server : HttpServer σ) (fnmatch : List Byte → List Byte → Bool)
  (relaxed : Bool) (b : BufferSize)

theorem handleLoop_eq (turns : ℕ) (s : HttpSession) (w : SocketSink) (shared : σ)
    (hturns : s.bytes.length < turns) :
    Served (server.serve fnmatch (HttpSession.recvRequests relaxed b turns s) shared).1 w
      (server.serve fnmatch (HttpSession.recvRequests relaxed b turns s) shared).2
      (server.handleLoop fnmatch relaxed b turns s w shared) := by
  induction turns generalizing s w shared with
  | zero => exact absurd hturns (Nat.not_lt_zero _)
  | succ turns ih =>
    rw [HttpSession.recvRequests, HttpServer.handleLoop]
    obtain ⟨received, s', hrecv⟩ : ∃ received s',
      HttpSession.recvRequest relaxed b s = (received, s') := ⟨_, _, rfl⟩
    rw [hrecv]
    cases received with
    | error e => exact ⟨_, w, [], rfl, rfl, .nil, (List.append_nil _).symm, fun hw ↦ ⟨hw, rfl⟩⟩
    | ok req =>
      obtain ⟨hopen, hless⟩ := HttpSession.length_bytes_recvRequest hrecv
      simp only [HttpServer.serve, HttpServer.sendResponse, hopen]
      obtain ⟨part, hpart, hwritten⟩ := SocketSink.written_writeFixSize true
        (server.answer fnmatch req shared).2.1.dump w
      have hsends := fun hw : w.Sends ↦ SocketSink.writeFixSize_of_sends
        (server.answer fnmatch req shared).2.1.dump hw
      generalize w.writeFixSize true (server.answer fnmatch req shared).2.1.dump = sent at *
      have hall : w.Sends → part = (server.answer fnmatch req shared).2.1.dump := by
        intro hw
        have hsame := (hsends hw).2.1
        rw [hwritten] at hsame
        exact List.append_cancel_left hsame
      split
      · refine ⟨_, _, [part], rfl, rfl, .cons hpart .nil, ?_, fun hw ↦ ⟨(hsends hw).2.2, ?_⟩⟩
        · rw [hwritten, List.flatten_singleton]
        · rw [hall hw]
          rfl
      · obtain ⟨s'', w'', parts, hresult, hclosed, hparts, hrest, hfull⟩ :=
          ih s' sent.2 (server.answer fnmatch req shared).2.2 (by omega)
        refine ⟨s'', w'', part :: parts, hresult, hclosed, .cons hpart hparts, ?_, fun hw ↦ ?_⟩
        · rw [hrest, hwritten, List.flatten_cons, List.append_assoc]
        · obtain ⟨hsends', hparts'⟩ := hfull (hsends hw).2.2
          exact ⟨hsends', by rw [hparts', hall hw]; rfl⟩

/-- Whatever a client sends, and whatever becomes of the responses, the requests that are executed
are those that can be received, in their order. -/
theorem handleClient_eq (s : HttpSession) (w : SocketSink) (shared : σ) :
    Served
      (server.serve fnmatch (HttpSession.recvRequests relaxed b (s.bytes.length + 1) s) shared).1 w
      (server.serve fnmatch (HttpSession.recvRequests relaxed b (s.bytes.length + 1) s) shared).2
      (server.handleClient fnmatch relaxed b s w shared) :=
  handleLoop_eq server fnmatch relaxed b _ s w shared (Nat.lt_succ_self _)

end

end Rsylar.Http
