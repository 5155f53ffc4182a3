import Mathlib.Algebra.Group.Int.Defs
import Rsylar.Foundations.GroupText
import Rsylar.Http.MessageParser
import Rsylar.Http.Response
import Rsylar.Http.ResponseGrammar

/-!
# Receiving responses

The callbacks of `HttpResponseParser` and `HttpConnection::recvResponse`. The loop for the head and
the loop for the line in front of a chunk are one definition: the second begins with what is in the
buffer, and every turn of it begins with `httpclient_parser_init`. The assertions of
`httpclient_parser_execute` are left out.

Where a read ends behind the digits of a status, `atoi` begins at the blank and goes on in the
buffer of the next read, which the callback is not given here: `behindCut` is what it finds. The name
of a field ends before the byte of the callback, also where its length is that of a name on the line
above.
-/

set_option autoImplicit false
set_option relaxedAutoImplicit false

namespace Rsylar.Http

open ActionRegex Scanner

/-- The number of digits; the machine has read nothing else. -/
def digitsNumber (base : ℕ) (text : List Byte) : ℕ :=
  text.foldl (fun n c ↦ base * n + (GroupText.digitValue (charOf c)).getD 0) 0

/-- `strtol`: a number that is too large is the largest `long`. -/
def strtol (base : ℕ) (text : List Byte) : ℕ := min (digitsNumber base text) (2 ^ 63 - 1)

/-- `m_error` and `m_data`, and of `m_parser` what `recvResponse` reads. -/
structure ResponseData where
  error : ℕ := 0
  response : HttpResponse := {}
  contentLen : BitVec 32 := -1
  chunked : Bool := false
  chunksDone : Bool := false
deriving DecidableEq

namespace ResponseData

variable (behindCut : BitVec 32) (d : ResponseData)

def onResponseReason (text : List Byte) : ResponseData :=
  { d with response := { d.response with reason := text } }

def onResponseStatus (text : List Byte) : ResponseData :=
  { d with
    response := { d.response with
      status := if text = [] then behindCut else BitVec.ofNat 32 (strtol 10 text) } }

def onResponseVersion (text : List Byte) : ResponseData :=
  if strncmp text (bytesOf "HTTP/1.1") text.length then
    { d with response := { d.response with version := 0x11 } }
  else if strncmp text (bytesOf "HTTP/1.0") text.length then
    { d with response := { d.response with version := 0x10 } }
  else { d with error := 1001 }

def onResponseHttpField (name value : List Byte) : ResponseData :=
  if name = [] then d
  else { d with response := { d.response with headers := d.response.headers.setHeader name value } }

/-- The action `write_content_len`. -/
def writeContentLen (text : List Byte) : ResponseData :=
  { d with contentLen := BitVec.ofNat 32 (strtol 10 text) }

/-- The action `chunk_size`; its callbacks are empty. -/
def chunkSize (text : List Byte) : ResponseData :=
  { d with
    chunked := true
    contentLen := BitVec.ofNat 32 (strtol 16 text)
    chunksDone := (BitVec.ofNat 32 (strtol 16 text)).toInt ≤ 0 }

/-- `httpclient_parser_init` -/
def init : ResponseData := { d with contentLen := -1, chunked := false, chunksDone := false }

def onCall : ScanCall ResponseToken ResponseFlag → ResponseData
  | .token .reasonPhrase text _ => d.onResponseReason text
  | .token .statusCode text _ => d.onResponseStatus behindCut text
  | .token .httpVersion text _ => d.onResponseVersion text
  | .token .chunkSize text _ => d.chunkSize text
  | .token .contentLen text _ => d.writeContentLen text
  | .queryString _ => d
  | .field name value => d.onResponseHttpField name value
  | .flag .transChunked => { d with chunked := true }

def failure : Option ReceiveError := if d.error ≠ 0 then some .closed else none

theorem failure_eq_none : d.failure = none ↔ d.error = 0 := by
  rw [failure]
  split
  · simp_all
  · simp_all

/-- No callback takes an error back. -/
theorem sticky (call : ScanCall ResponseToken ResponseFlag) (h : d.failure.isSome) :
    (d.onCall behindCut call).failure.isSome := by
  rw [Option.isSome_iff_ne_none, ne_eq, failure_eq_none] at h ⊢
  cases call with
  | token k text next =>
    cases k with
    | httpVersion =>
      simp only [onCall, onResponseVersion]
      split
      · exact h
      · split
        · exact h
        · exact Nat.succ_ne_zero 1000
    | reasonPhrase | statusCode | chunkSize | contentLen => exact h
  | queryString text => exact h
  | field name value =>
    simp only [onCall, onResponseHttpField]
    split
    · exact h
    · exact h
  | flag f => exact h

end ResponseData

/-- The callbacks that the constructor of `HttpResponseParser` sets, and the actions on
`m_parser`. -/
def responseCallbacks (behindCut : BitVec 32) :
    Callbacks ResponseToken ResponseFlag ResponseData where
  onCall := ResponseData.onCall behindCut
  failure := ResponseData.failure
  sticky := ResponseData.sticky behindCut

abbrev HttpResponseParser := MessageParser ResponseToken ResponseFlag ResponseData

/-- `new HttpResponseParser`. -/
def newResponseParser : HttpResponseParser where
  cs := HttpClientParser.start
  data := {}

/-- How receiving a response fails: as other messages do, or by an `int` that overflows. -/
inductive ResponseError
  | receive (e : ReceiveError)
  | overflow
deriving DecidableEq

namespace HttpConnection

/-- `execute`, with `httpclient_parser_init` when it is for a chunk. -/
def execute (behindCut : BitVec 32) (chunck : Bool) (p : HttpResponseParser) (data : List Byte) :
    HttpResponseParser × List Byte :=
  (responseCallbacks behindCut).execute
    (if chunck then { cs := HttpClientParser.start, data := p.data.init } else p) data

/-- The loop until the parser is finished; `data` is what is in the buffer. The first turn for a
chunk does not read when there is something; every other turn reads a byte at least. -/
def recvLine (behindCut : BitVec 32) (chunck : Bool) (buffSize : ℕ) :
    ℕ → Bool → HttpResponseParser → List Byte → SocketStream →
      Except ReceiveError (HeadResult ResponseToken ResponseFlag ResponseData)
  | 0, _, _, _, _ => .error .closed
  | fuel + 1, begin, p, data, s =>
    let (bytes, s) := if begin && data ≠ [] then ([], s) else s.read (buffSize - data.length)
    if bytes = [] && !(begin && data ≠ []) then .error .closed
    else
      let (p, data) := execute behindCut chunck p (data ++ bytes)
      match (responseCallbacks behindCut).error p with
      | some e => .error e
      | none =>
        if data.length = buffSize then .error .closed
        else if HttpClientParser.isFirstFinal p.cs then .ok (p, data, s)
        else recvLine behindCut chunck buffSize fuel false p data s

/-- The loop for what is left of a chunk and its line end, into a buffer of its own. -/
def readLeft (buffSize : ℕ) : ℕ → ℕ → SocketStream → Option (List Byte × SocketStream)
  | _, 0, s => some ([], s)
  | 0, _ + 1, _ => none
  | fuel + 1, left + 1, s =>
    let (bytes, s') := s.read (min (left + 1) buffSize)
    if bytes = [] then none
    else
      (readLeft buffSize fuel (left + 1 - bytes.length) s').map fun (rest, s'') ↦
        (bytes ++ rest, s'')

/-- A chunk behind its line: the body, what is then in the buffer, and the connection. A length
below zero is one beyond the longest string. -/
def recvChunk (buffSize : ℕ) (contentLen : BitVec 32) (body data : List Byte) (s : SocketStream) :
    Except ResponseError (List Byte × List Byte × SocketStream) :=
  let n := contentLen.toInt
  if 2 ^ 31 ≤ n + 2 then .error .overflow
  else if n + 2 ≤ data.length then
    if n < 0 then .error (.receive .lengthError)
    else .ok (body ++ data.take n.toNat, data.drop (n.toNat + 2), s)
  else
    let left := (n - data.length + 2).toNat
    match readLeft buffSize left left s with
    | none => .error (.receive .closed)
    | some (rest, s) =>
      let body := body ++ data ++ rest
      if body.length < 2 then .error (.receive .lengthError)
      else .ok (body.take (body.length - 2), [], s)

/-- The loop for the chunks. Every turn takes a byte at least from the buffer or the connection. -/
def recvChunks (behindCut : BitVec 32) (buffSize : ℕ) :
    ℕ → HttpResponseParser → List Byte → List Byte → SocketStream →
      Except ResponseError (HttpResponseParser × List Byte × SocketStream)
  | 0, _, _, _, _ => .error (.receive .closed)
  | fuel + 1, p, data, body, s => do
    let (p, data, s) ←
      (recvLine behindCut true buffSize (s.bytes.length + 2) true p data s).mapError .receive
    let (body, data, s) ← recvChunk buffSize p.data.contentLen body data s
    if p.data.chunksDone then .ok (p, body, s)
    else recvChunks behindCut buffSize fuel p data body s

/-- The body by its length. -/
def recvBody (p : HttpResponseParser) (data : List Byte) (s : SocketStream) :
    Except ResponseError (List Byte × SocketStream) :=
  let length := p.data.response.headers.contentLength
  if length ≤ 0 then .ok ([], s)
  else if length ≤ data.length then .ok (data.take length.toNat, s)
  else
    match s.readFixSize (length.toNat - data.length) with
    | none => .error (.receive .closed)
    | some (rest, s) => .ok (data ++ rest, s)

/-- The null pointer, with the connection closed, is the error `closed`. What is in the buffer at
the end is lost. -/
def recvResponse (behindCut : BitVec 32) (b : BufferSize) (s : SocketStream) :
    Except ResponseError (HttpResponse × SocketStream) := do
  let (p, data, s) ←
    (recvLine behindCut false b.size (s.bytes.length + 1) false newResponseParser [] s).mapError
      .receive
  let (p, body, s) ←
    if p.data.chunked then
      recvChunks behindCut b.size (data.length + s.bytes.length + 1) p data [] s
    else (recvBody p data s).map fun (body, s) ↦ (p, body, s)
  .ok (if body = [] then p.data.response else { p.data.response with body }, s)

end HttpConnection

end Rsylar.Http
