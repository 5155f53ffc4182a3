import Rsylar.Http.Session

/-!
# The requests of one session

A request on the wire is a head that the machine accepts in one piece, with the body that the head
announces. `requestStream` is when successive calls of `recvRequest` return exactly the requests
that were sent: when the reads are `Orderly`. A read may end between two elements of a head (the
method, the path, the query, the fragment, the version, a header), but not inside one: the marks
count from the beginning of the buffer of one read. And the read that completes a head must not
return bytes behind the request: they are lost with the buffer of the call.
-/

set_option autoImplicit false
set_option relaxedAutoImplicit false

namespace Rsylar.Http

open ActionRegex Scanner

/-- What the callbacks make of a head in one piece. -/
def RequestData.parsed (relaxed : Bool) (head : List Byte) : RequestData :=
  (exec [] head (HttpParser.start relaxed) {}).calls.foldl RequestData.onCall
    (newRequestParser relaxed).data

/-- A well-formed request: the machine accepts the head, its method and version are known, and the
body is as long as the head says. -/
structure WireRequest (relaxed : Bool) where
  head : List Byte
  body : List Byte
  whole : ReadsWhole (HttpParser.start relaxed) head
  lawful : (RequestData.parsed relaxed head).failure = none
  framed : body.length = (RequestData.parsed relaxed head).request.headers.contentLength.toNat

namespace WireRequest

variable {relaxed : Bool} (r : WireRequest relaxed)

def bytes : List Byte := r.head ++ r.body

def request : HttpRequest :=
  { (RequestData.parsed relaxed r.head).request with body := r.body }.init

/-- The reads that return the request: none of the head ends inside an element, and the one that
completes the head ends in the request, with a rest whose length is a positive `int`. -/
structure OrderlyReads (b : BufferSize) (s : HttpSession) : Prop where
  head : HeadReads (HttpParser.start relaxed) b r.head s
  body : ∀ i, s.readEnd b.size i < r.head.length → r.head.length ≤ s.readEnd b.size (i + 1) →
    s.readEnd b.size (i + 1) = r.bytes.length ∨ s.readEnd b.size (i + 1) < r.bytes.length ∧
      0 < (BitVec.ofNat 32 (r.bytes.length - s.readEnd b.size (i + 1))).toInt

end WireRequest

/-- Each request arrives in orderly reads, behind the requests before it. -/
def Orderly {relaxed : Bool} (b : BufferSize) : List (WireRequest relaxed) → HttpSession → Prop
  | [], _ => True
  | r :: rs, s => r.OrderlyReads b s ∧ Orderly b rs (s.skip r.bytes.length)

section

variable {relaxed : Bool} {b : BufferSize} {s : HttpSession} {tail : List Byte}

theorem RequestData.body_foldl (calls : List (ScanCall RequestToken Empty)) (d : RequestData) :
    (calls.foldl RequestData.onCall d).request.body = d.request.body := by
  induction calls generalizing d with
  | nil => rfl
  | cons call calls ih =>
    rw [List.foldl_cons, ih]
    cases call with
    | token k text next =>
      cases k with
      | requestMethod => simp only [onCall, onRequestMethod]; split <;> rfl
      | fragment => rfl
      | requestPath => rfl
      | httpVersion =>
        simp only [onCall, onRequestVersion]
        split
        · rfl
        · split <;> rfl
    | queryString text => cases text <;> rfl
    | field name value => simp only [onCall, onRequestHttpField]; split <;> rfl
    | flag f => exact f.elim

theorem HttpParser.atStart (relaxed : Bool) : AtStart (HttpParser.start relaxed) where
  finishes := .inr ⟨_, _, rfl⟩
  notNullable := by revert relaxed; decide +kernel
  notVoid := rfl

/-- The body from what the buffer holds and what is still to be read. -/
theorem recvBody_eq (r : WireRequest relaxed) {p : HttpRequestParser} {k : ℕ} (hs : s.connected)
    (hdata : p.data = RequestData.parsed relaxed r.head) (hk : k ≤ r.body.length)
    (hbytes : s.bytes = r.body.drop k ++ tail)
    (hrest : k = r.body.length ∨ 0 < (BitVec.ofNat 32 (r.body.length - k)).toInt) :
    HttpSession.recvBody p (r.body.take k) s = .ok (r.request, s.skip (r.body.length - k)) := by
  have hframed := r.framed
  rw [← hdata] at hframed
  have hrequest : r.request = { p.data.request with body := r.body }.init := by
    rw [WireRequest.request, hdata]
  have hlength : (r.body.take k).length = k := List.length_take_of_le hk
  simp only [HttpSession.recvBody, hlength]
  generalize p.data.request.headers.contentLength = length at *
  by_cases hnone : length ≤ 0
  · have hempty : r.body = [] := List.eq_nil_of_length_eq_zero (by omega)
    have hbody : p.data.request.body = [] := by
      rw [hdata]
      exact RequestData.body_foldl _ (newRequestParser relaxed).data
    have hsame : { p.data.request with body := r.body } = p.data.request := by rw [hempty, ← hbody]
    rw [if_pos hnone, hrequest, hsame, hempty, List.length_nil, Nat.zero_sub,
      SocketStream.skip_zero]
  · rw [if_neg hnone]
    by_cases hall : length ≤ k
    · have hkeq : k = r.body.length := by omega
      rw [if_pos hall, hrequest, hkeq, List.take_length, ← hframed, List.take_length, Nat.sub_self,
        SocketStream.skip_zero]
    · have hpos : 0 < (BitVec.ofNat 32 (r.body.length - k)).toInt := by
        refine hrest.resolve_left ?_
        omega
      have hfit : r.body.length - k ≤ s.bytes.length := by
        rw [hbytes, List.length_append, List.length_drop]
        exact Nat.le_add_right ..
      have hread : s.bytes.take (r.body.length - k) = r.body.drop k := by
        rw [hbytes]
        exact List.take_left' List.length_drop
      rw [if_neg hall, ← hframed, SocketStream.readFixSize,
        SocketStream.readLoop_eq hs (Nat.le_refl _) hfit, hread,
        Option.filter_some_pos (by simpa using hpos)]
      simp only [List.take_append_drop]
      rw [hrequest]

theorem recvRequest_eq (r : WireRequest relaxed) (hs : s.connected)
    (hbytes : s.bytes = r.bytes ++ tail) (h : r.OrderlyReads b s) :
    HttpSession.recvRequest relaxed b s = (.ok r.request, s.skip r.bytes.length) := by
  rw [WireRequest.bytes, List.append_assoc] at hbytes
  have hlawful : requestCallbacks.failure ((exec [] r.head (newRequestParser relaxed).cs {}).calls.foldl
      requestCallbacks.onCall (newRequestParser relaxed).data) = none := r.lawful
  obtain ⟨i, hbefore, hafter, p, hp, hloop⟩ :=
    recvHead_eq (HttpParser.atStart relaxed) rfl r.whole hlawful hs hbytes h.head
  have hend := h.body i hbefore hafter
  have hlength : r.bytes.length = r.head.length + r.body.length := List.length_append
  generalize s.readEnd b.size (i + 1) = e at *
  have hk : e - r.head.length ≤ r.body.length := by omega
  have hskip : (s.skip e).bytes = r.body.drop (e - r.head.length) ++ tail := by
    rw [SocketStream.bytes_skip, hbytes, List.drop_append, List.drop_of_length_le hafter,
      List.nil_append, List.drop_append_of_le_length hk]
  have hsub : r.body.length - (e - r.head.length) = r.bytes.length - e := by omega
  have hbody := recvBody_eq r (s := s.skip e) hs hp.data hk hskip (by rw [hsub]; omega)
  rw [hsub, SocketStream.skip_skip, show e + (r.bytes.length - e) = r.bytes.length by omega] at hbody
  rw [List.take_append_of_le_length hk] at hloop
  rw [HttpSession.recvRequest, hloop]
  simp only [bind, Except.bind, hbody]

end

/-- Successive calls return the requests in their order, each as its head and body say, when the
reads are orderly. -/
theorem requestStream (relaxed : Bool) (b : BufferSize) (requests : List (WireRequest relaxed))
    (s : HttpSession) (hs : s.connected) (hbytes : s.bytes = requests.flatMap WireRequest.bytes)
    (h : Orderly b requests s) :
    HttpSession.recvRequests relaxed b requests.length s =
      requests.map fun r ↦ .ok r.request := by
  induction requests generalizing s with
  | nil => rfl
  | cons r requests ih =>
    obtain ⟨hr, hrest⟩ := h
    rw [List.flatMap_cons] at hbytes
    rw [List.length_cons, HttpSession.recvRequests, recvRequest_eq r hs hbytes hr, List.map_cons]
    rw [ih (s.skip r.bytes.length) hs _ hrest]
    rw [SocketStream.bytes_skip, hbytes, List.drop_left]

/-! ### Runs -/

def defaultBuffer : BufferSize := ⟨4 * 1024, by decide, by decide⟩

/-- A connection over which the texts arrive, each in a segment. -/
def arriving (texts : List String) : SocketStream where
  segments := texts.filterMap fun text ↦
    if h : bytesOf text ≠ [] then some ⟨bytesOf text, h⟩ else none

def getRoot : WireRequest false where
  head := bytesOf "GET / HTTP/1.1\r\n\r\n"
  body := []
  whole := ⟨by decide +kernel, by decide +kernel, by decide +kernel⟩
  lawful := by decide +kernel
  framed := by decide +kernel

def getPage : WireRequest false where
  head := bytesOf "GET /page HTTP/1.1\r\nhost: h\r\n\r\n"
  body := []
  whole := ⟨by decide +kernel, by decide +kernel, by decide +kernel⟩
  lawful := by decide +kernel
  framed := by decide +kernel

def putText : WireRequest false where
  head := bytesOf "PUT / HTTP/1.1\r\ncontent-length: 2\r\n\r\n"
  body := bytesOf "ab"
  whole := ⟨by decide +kernel, by decide +kernel, by decide +kernel⟩
  lawful := by decide +kernel
  framed := by decide +kernel

/-- A head that arrives in two reads, a body that arrives in two reads, and a second request. -/
def betweenElements : SocketStream :=
  arriving ["PUT / HTTP/1.1\r\n", "content-length: 2\r\n\r\na", "b", "GET / HTTP/1.1\r\n\r\n"]

theorem betweenElements_putText : putText.OrderlyReads defaultBuffer betweenElements := by
  have hend : betweenElements.readEnd defaultBuffer.size 2 = 38 := by decide +kernel
  have hlater : ∀ i, ¬betweenElements.readEnd defaultBuffer.size (i + 2) < putText.head.length := by
    intro i hlt
    have hmono := SocketStream.readEnd_mono betweenElements defaultBuffer.size (Nat.le_add_left 2 i)
    rw [hend] at hmono
    exact absurd (Nat.lt_of_le_of_lt hmono hlt) (by decide +kernel)
  refine ⟨fun i hi ↦ ?_, fun i hi hafter ↦ ?_⟩
  · match i with
    | 0 => exact UncutAt.zero
    | 1 =>
      unfold UncutAt
      decide +kernel
    | i + 2 => exact absurd hi (hlater i)
  · match i with
    | 0 => exact absurd hafter (by decide +kernel)
    | 1 => decide +kernel
    | i + 2 => exact absurd hi (hlater i)

theorem betweenElements_getRoot :
    getRoot.OrderlyReads defaultBuffer (betweenElements.skip putText.bytes.length) := by
  have hend : (betweenElements.skip putText.bytes.length).readEnd defaultBuffer.size 1 = 18 := by
    decide +kernel
  have hlater : ∀ i, ¬(betweenElements.skip putText.bytes.length).readEnd defaultBuffer.size (i + 1) <
      getRoot.head.length := by
    intro i hlt
    have hmono := SocketStream.readEnd_mono (betweenElements.skip putText.bytes.length)
      defaultBuffer.size (Nat.le_add_left 1 i)
    rw [hend] at hmono
    exact absurd (Nat.lt_of_le_of_lt hmono hlt) (by decide +kernel)
  refine ⟨fun i hi ↦ ?_, fun i hi hafter ↦ ?_⟩
  · match i with
    | 0 => exact UncutAt.zero
    | i + 1 => exact absurd hi (hlater i)
  · match i with
    | 0 => decide +kernel
    | i + 1 => exact absurd hi (hlater i)

theorem requestStream_betweenElements :
    HttpSession.recvRequests false defaultBuffer 2 betweenElements =
      [.ok putText.request, .ok getRoot.request] :=
  requestStream false defaultBuffer [putText, getRoot] betweenElements rfl (by decide +kernel)
    ⟨betweenElements_putText, betweenElements_getRoot, trivial⟩

/-- Two requests in one segment, a read that ends in the path, and a read that ends in a header. -/
theorem requestStream_cutElements :
    HttpSession.recvRequests false defaultBuffer 2
        (arriving ["GET / HTTP/1.1\r\n\r\nGET / HTTP/1.1\r\n\r\n"]) =
      [.ok getRoot.request, .error .closed] ∧
    HttpSession.recvRequests false defaultBuffer 1
        (arriving ["GET /pa", "ge HTTP/1.1\r\nhost: h\r\n\r\n"]) =
      [.ok { getPage.request with path := bytesOf "ge" }] ∧
    HttpSession.recvRequests false defaultBuffer 1
        (arriving ["GET /page HTTP/1.1\r\nhost:", " h\r\n\r\n"]) =
      [.ok { getPage.request with headers := {} }] := by
  decide +kernel

end Rsylar.Http
