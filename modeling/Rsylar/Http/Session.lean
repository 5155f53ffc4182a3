import Rsylar.Http.MessageParser
import Rsylar.Http.Request
import Rsylar.Http.RequestGrammar

/-!
# Receiving requests

The callbacks of `HttpRequestParser`, `HttpSession::recvRequest` and the loop of calls that
`HttpServer::handleClient` makes on one session.
-/

set_option autoImplicit false
set_option relaxedAutoImplicit false

namespace Rsylar.Http

open ActionRegex Scanner

/-- `m_error` and `m_data`, and whether the constructor of a string has thrown. -/
structure RequestData where
  error : ℕ := 0
  request : HttpRequest := {}
  threw : Bool := false
deriving DecidableEq

namespace RequestData

variable (d : RequestData)

/-- The comparison with the methods ends at the latest with the byte after the method, which is a
blank. -/
def onRequestMethod (text : List Byte) (next : Byte) : RequestData :=
  match charsToHttpMethod (text ++ [next]) with
  | none => { d with error := 1000 }
  | some m => { d with request := { d.request with method := m } }

def onRequestFragment (text : List Byte) : RequestData :=
  { d with request := { d.request with fragment := text } }

def onRequestPath (text : List Byte) : RequestData :=
  { d with request := { d.request with path := text } }

/-- A length below zero is one beyond the longest string. -/
def onRequestQuery : Option (List Byte) → RequestData
  | none => { d with threw := true }
  | some text => { d with request := { d.request with query := text } }

def onRequestVersion (text : List Byte) : RequestData :=
  if strncmp text (bytesOf "HTTP/1.1") text.length then
    { d with request := { d.request with version := 0x11 } }
  else if strncmp text (bytesOf "HTTP/1.0") text.length then
    { d with request := { d.request with version := 0x10 } }
  else { d with error := 1001 }

def onRequestHttpField (name value : List Byte) : RequestData :=
  if name = [] then d
  else { d with request := { d.request with headers := d.request.headers.setHeader name value } }

def onCall : ScanCall RequestToken Empty → RequestData
  | .token .requestMethod text next => d.onRequestMethod text next
  | .token .fragment text _ => d.onRequestFragment text
  | .token .requestPath text _ => d.onRequestPath text
  | .token .httpVersion text _ => d.onRequestVersion text
  | .queryString text => d.onRequestQuery text
  | .field name value => d.onRequestHttpField name value

def failure : Option ReceiveError :=
  if d.threw then some .lengthError else if d.error ≠ 0 then some .closed else none

theorem failure_eq_none : d.failure = none ↔ d.threw = false ∧ d.error = 0 := by
  rw [failure]
  split
  · simp_all
  · split
    · simp_all
    · simp_all

/-- No callback takes an error back. -/
theorem sticky (call : ScanCall RequestToken Empty) (h : d.failure.isSome) :
    (d.onCall call).failure.isSome := by
  rw [Option.isSome_iff_ne_none, ne_eq, failure_eq_none] at h ⊢
  cases call with
  | token k text next =>
    cases k with
    | requestMethod =>
      simp only [onCall, onRequestMethod]
      split
      · simp
      · exact h
    | fragment => exact h
    | requestPath => exact h
    | httpVersion =>
      simp only [onCall, onRequestVersion]
      split
      · exact h
      · split
        · exact h
        · simp
  | queryString text =>
    cases text with
    | none => simp [onCall, onRequestQuery]
    | some text => exact h
  | field name value =>
    simp only [onCall, onRequestHttpField]
    split
    · exact h
    · exact h
  | flag f => exact f.elim

end RequestData

/-- The callbacks that the constructor of `HttpRequestParser` sets. -/
def requestCallbacks : Callbacks RequestToken Empty RequestData where
  onCall := RequestData.onCall
  failure := RequestData.failure
  sticky := RequestData.sticky

abbrev HttpRequestParser := MessageParser RequestToken Empty RequestData

/-- `new HttpRequestParser`. -/
def newRequestParser (relaxed : Bool) : HttpRequestParser where
  cs := HttpParser.start relaxed
  data := {}

/-- `m_session` of the server. -/
abbrev HttpSession := SocketStream

namespace HttpSession

/-- The part of `recvRequest` after the loop; `data` is what the buffer still holds. -/
def recvBody (p : HttpRequestParser) (data : List Byte) (s : HttpSession) :
    Except ReceiveError (HttpRequest × HttpSession) :=
  let length := p.data.request.headers.contentLength
  if length ≤ 0 then .ok (p.data.request.init, s)
  else if length ≤ data.length then
    .ok ({ p.data.request with body := data.take length.toNat }.init, s)
  else
    match s.readFixSize (length.toNat - data.length) with
    | none => .error .closed
    | some (rest, s) => .ok ({ p.data.request with body := data ++ rest }.init, s)

/-- The null pointer is returned with the connection closed. -/
def recvRequest (relaxed : Bool) (b : BufferSize) (s : HttpSession) :
    Except ReceiveError HttpRequest × HttpSession :=
  let received := do
    let (p, data, s) ←
      requestCallbacks.recvHead b.size (s.bytes.length + 1) (newRequestParser relaxed) [] s
    recvBody p data s
  match received with
  | .ok (r, s) => (.ok r, s)
  | .error e => (.error e, s.close)

/-- The results of `n` calls in a row. -/
def recvRequests (relaxed : Bool) (b : BufferSize) :
    ℕ → HttpSession → List (Except ReceiveError HttpRequest)
  | 0, _ => []
  | n + 1, s => (recvRequest relaxed b s).1 :: recvRequests relaxed b n (recvRequest relaxed b s).2

end HttpSession

end Rsylar.Http
