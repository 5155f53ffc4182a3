import Rsylar.Http.RequestArrival
import Rsylar.Http.Server

/-!
# A client and a server

The requests that a client writes go through `HttpServer::handleClient`, and what the server writes
comes back to the client. `httpExchange` is what the client has of it: the answers of the servlets
to its own requests, each once and in their order, and behind the last a closed connection.
-/

set_option autoImplicit false
set_option relaxedAutoImplicit false

namespace Rsylar.Http

open ActionRegex Scanner

/-- What is written on one side arrives on the other, in segments of any size. -/
structure Carries (w : SocketSink) (s : SocketStream) : Prop where
  connected : s.connected
  bytes : s.bytes = w.written

theorem read_of_empty {s : SocketStream} (hbytes : s.bytes = []) (n : ℕ) : (s.read n).1 = [] := by
  rw [SocketStream.read]
  split
  · simp [hbytes]
  · rfl

namespace HttpConnection

def sendRequest (s : SocketStream) (req : HttpRequest) (w : SocketSink) : ℤ × SocketSink :=
  w.writeFixSize s.connected req.dump

/-- The requests one after the other, whatever the results are. -/
def sendRequests (s : SocketStream) (requests : List HttpRequest) (w : SocketSink) : SocketSink :=
  requests.foldl (fun w req ↦ (sendRequest s req w).2) w

/-- The results of `n` calls in a row; a call that fails closes the connection. -/
def recvResponses (behindCut : BitVec 32) (b : BufferSize) :
    ℕ → SocketStream → List (Except ResponseError HttpResponse)
  | 0, _ => []
  | n + 1, s =>
    match recvResponse behindCut b s with
    | .ok (rsp, s) => .ok rsp :: recvResponses behindCut b n s
    | .error e => .error e :: recvResponses behindCut b n s.close

variable {s : SocketStream} {requests : List HttpRequest} {w : SocketSink}

theorem written_sendRequests (hs : s.connected) (hw : w.Sends) :
    (sendRequests s requests w).written = w.written ++ requests.flatMap HttpRequest.dump := by
  induction requests generalizing w with
  | nil => exact (List.append_nil _).symm
  | cons req requests ih =>
    have hsend : sendRequest s req w = w.writeFixSize true req.dump := by rw [sendRequest, hs]
    obtain ⟨-, hwritten, hsends⟩ :=
      SocketSink.writeFixSize_of_sends req.dump hw
    have hrest : (sendRequests s requests (w.writeFixSize true req.dump).2).written =
        (w.writeFixSize true req.dump).2.written ++ requests.flatMap HttpRequest.dump := ih hsends
    rw [sendRequests, List.foldl_cons, hsend, List.flatMap_cons, ← List.append_assoc, ← hwritten]
    exact hrest

/-- On a connection over which nothing is left to come a call fails. -/
theorem recvResponse_of_empty (behindCut : BitVec 32) (b : BufferSize) (hbytes : s.bytes = []) :
    recvResponse behindCut b s = .error (.receive .closed) := by
  simp [recvResponse, recvLine, read_of_empty hbytes, Except.mapError, bind, Except.bind]

end HttpConnection

/-- On a connection over which nothing is left to come a call fails. -/
theorem HttpSession.recvRequest_of_empty (relaxed : Bool) (b : BufferSize) {s : HttpSession}
    (hbytes : s.bytes = []) :
    HttpSession.recvRequest relaxed b s = (.error .closed, s.close) := by
  simp [HttpSession.recvRequest, Callbacks.recvHead, read_of_empty hbytes, bind, Except.bind]

/-! ### Receiving leaves a connection open -/

namespace HttpConnection

variable {behindCut : BitVec 32} {buffSize fuel left : ℕ} {s s' : SocketStream}

theorem connected_recvLine {chunck begin : Bool} {p p' : HttpResponseParser}
    {data data' : List Byte}
    (h : recvLine behindCut chunck buffSize fuel begin p data s = .ok (p', data', s')) :
    s'.connected = s.connected := by
  induction fuel generalizing begin p data s with
  | zero => cases h
  | succ fuel ih =>
    simp only [recvLine] at h
    have hread : (if begin && data ≠ [] then ([], s)
        else s.read (buffSize - data.length)).2.connected = s.connected := by
      split
      · rfl
      · exact SocketStream.connected_read s _
    generalize (if begin && data ≠ [] then ([], s) else s.read (buffSize - data.length)) = read at *
    split at h
    · cases h
    · split at h
      · cases h
      · split at h
        · cases h
        · split at h
          · cases h
            exact hread
          · exact (ih h).trans hread

theorem connected_readLeft {bytes : List Byte}
    (h : readLeft buffSize fuel left s = some (bytes, s')) : s'.connected = s.connected := by
  induction fuel generalizing left s bytes with
  | zero =>
    cases left with
    | zero =>
      cases h
      rfl
    | succ left => cases h
  | succ fuel ih =>
    cases left with
    | zero =>
      cases h
      rfl
    | succ left =>
      simp only [readLeft] at h
      split at h
      · cases h
      · obtain ⟨⟨rest, s''⟩, hrest, heq⟩ := Option.map_eq_some_iff.mp h
        cases heq
        exact (ih hrest).trans (SocketStream.connected_read s _)

theorem connected_recvChunk {contentLen : BitVec 32} {body body' data data' : List Byte}
    (h : recvChunk buffSize contentLen body data s = .ok (body', data', s')) :
    s'.connected = s.connected := by
  simp only [recvChunk] at h
  split at h
  · cases h
  · split at h
    · split at h
      · cases h
      · cases h
        rfl
    · split at h
      · cases h
      · rename_i hleft
        split at h
        · cases h
        · cases h
          exact connected_readLeft hleft

theorem connected_recvChunks {p p' : HttpResponseParser} {data body body' : List Byte}
    (h : recvChunks behindCut buffSize fuel p data body s = .ok (p', body', s')) :
    s'.connected = s.connected := by
  induction fuel generalizing p data body s with
  | zero => cases h
  | succ fuel ih =>
    rw [recvChunks] at h
    cases hline : recvLine behindCut true buffSize (s.bytes.length + 2) true p data s with
    | error e => simp [hline, Except.mapError, bind, Except.bind] at h
    | ok line =>
      obtain ⟨p₁, data₁, s₁⟩ := line
      simp only [hline, Except.mapError, bind, Except.bind] at h
      cases hchunk : recvChunk buffSize p₁.data.contentLen body data₁ s₁ with
      | error e => simp [hchunk] at h
      | ok chunk =>
        obtain ⟨body₂, data₂, s₂⟩ := chunk
        simp only [hchunk] at h
        have hconnected := (connected_recvChunk hchunk).trans (connected_recvLine hline)
        split at h
        · cases h
          exact hconnected
        · exact (ih h).trans hconnected

theorem connected_recvBody {p : HttpResponseParser} {data body : List Byte}
    (h : recvBody p data s = .ok (body, s')) : s'.connected = s.connected := by
  rw [recvBody] at h
  split at h
  · cases h
    rfl
  · split at h
    · cases h
      rfl
    · split at h
      · cases h
      · rename_i hread
        cases h
        exact SocketStream.connected_readFixSize hread

/-- A response that is received leaves the connection open. -/
theorem connected_recvResponse {b : BufferSize} {rsp : HttpResponse}
    (h : recvResponse behindCut b s = .ok (rsp, s')) : s'.connected = s.connected := by
  rw [recvResponse] at h
  cases hline : recvLine behindCut false b.size (s.bytes.length + 1) false newResponseParser []
    s with
  | error e => simp [hline, Except.mapError, bind, Except.bind] at h
  | ok line =>
    obtain ⟨p₁, data₁, s₁⟩ := line
    simp only [hline, Except.mapError, bind, Except.bind] at h
    have hconnected := connected_recvLine hline
    by_cases hchunked : p₁.data.chunked
    · simp only [hchunked, if_true] at h
      cases hchunks : recvChunks behindCut b.size (data₁.length + s₁.bytes.length + 1) p₁ data₁ []
        s₁ with
      | error e => simp [hchunks] at h
      | ok chunks =>
        obtain ⟨p₂, body₂, s₂⟩ := chunks
        simp only [hchunks, Except.ok.injEq, Prod.mk.injEq] at h
        obtain ⟨-, rfl⟩ := h
        exact (connected_recvChunks hchunks).trans hconnected
    · simp only [hchunked, Bool.false_eq_true, if_false] at h
      cases hbody : recvBody p₁ data₁ s₁ with
      | error e => simp [hbody, Except.map] at h
      | ok result =>
        obtain ⟨body, s₂⟩ := result
        simp only [hbody, Except.map, Except.ok.injEq, Prod.mk.injEq] at h
        obtain ⟨-, rfl⟩ := h
        exact (connected_recvBody hbody).trans hconnected

end HttpConnection

/-! ### Orderly arrival -/

/-- Each request arrives in orderly reads, behind the requests before it. -/
def OrderlyRequests (relaxed : Bool) (b : BufferSize) : List HttpRequest → SocketStream → Prop
  | [], _ => True
  | r :: rs, s => r.OrderlyReads relaxed b s ∧ OrderlyRequests relaxed b rs (s.skip r.dump.length)

/-- Each response arrives in orderly reads, behind the responses before it. -/
def OrderlyResponses (b : BufferSize) : List HttpResponse → SocketStream → Prop
  | [], _ => True
  | r :: rs, s => r.OrderlyReads b s ∧ OrderlyResponses b rs (s.skip r.dump.length)

section

variable {relaxed : Bool} {b : BufferSize} {tail : List Byte}

/-- What the server receives. -/
theorem recvRequests_orderly {requests : List HttpRequest} {s : HttpSession}
    (hsendable : ∀ r ∈ requests, r.Sendable relaxed) (hs : s.connected)
    (hbytes : s.bytes = requests.flatMap HttpRequest.dump ++ tail)
    (horderly : OrderlyRequests relaxed b requests s) (n : ℕ) :
    HttpSession.recvRequests relaxed b (requests.length + n) s =
      (requests.map fun r ↦ .ok r.arrived) ++ HttpSession.recvRequests relaxed b n
        (s.skip (requests.flatMap HttpRequest.dump).length) := by
  induction requests generalizing s with
  | nil =>
    rw [List.length_nil, Nat.zero_add, List.flatMap_nil, List.length_nil, SocketStream.skip_zero]
    rfl
  | cons r requests ih =>
    obtain ⟨hr, hrest⟩ := List.forall_mem_cons.mp hsendable
    obtain ⟨hfirst, hothers⟩ := horderly
    rw [List.flatMap_cons, List.append_assoc] at hbytes
    have hbehind : (s.skip r.dump.length).bytes =
        requests.flatMap HttpRequest.dump ++ tail := by
      rw [SocketStream.bytes_skip, hbytes, List.drop_left]
    rw [List.length_cons, Nat.add_right_comm, HttpSession.recvRequests,
      hr.recvRequest_eq hs hbytes hfirst]
    simp only
    rw [ih (s := s.skip r.dump.length) hrest hs hbehind hothers, SocketStream.skip_skip,
      List.flatMap_cons, List.length_append]
    rfl

theorem OrderlyRequests.take {requests : List HttpRequest}
    {s : SocketStream} (h : OrderlyRequests relaxed b requests s) (j : ℕ) :
    OrderlyRequests relaxed b (requests.take j) s := by
  induction requests generalizing s j with
  | nil => simpa using h
  | cons r requests ih =>
    cases j with
    | zero => trivial
    | succ j => exact ⟨h.1, ih h.2 j⟩

/-- What the client receives. -/
theorem recvResponses_orderly (behindCut : BitVec 32) {answers : List HttpResponse}
    {s : SocketStream} (hwritable : ∀ r ∈ answers, r.Writable) (hs : s.connected)
    (hbytes : s.bytes = answers.flatMap HttpResponse.dump ++ tail)
    (horderly : OrderlyResponses b answers s) (n : ℕ) :
    ∃ received, List.Forall₂ HttpResponse.ReceivedAs answers received ∧
      HttpConnection.recvResponses behindCut b (answers.length + n) s =
        received.map Except.ok ++
          HttpConnection.recvResponses behindCut b n
            (s.skip (answers.flatMap HttpResponse.dump).length) := by
  induction answers generalizing s with
  | nil =>
    refine ⟨[], .nil, ?_⟩
    rw [List.length_nil, Nat.zero_add, List.flatMap_nil, List.length_nil, SocketStream.skip_zero]
    rfl
  | cons r answers ih =>
    obtain ⟨hr, hrest⟩ := List.forall_mem_cons.mp hwritable
    obtain ⟨hfirst, hothers⟩ := horderly
    rw [List.flatMap_cons, List.append_assoc] at hbytes
    have hbehind : (s.skip r.dump.length).bytes = answers.flatMap HttpResponse.dump ++ tail := by
      rw [SocketStream.bytes_skip, hbytes, List.drop_left]
    obtain ⟨received, harrive, hrecv⟩ := ih (s := s.skip r.dump.length) hrest hs hbehind hothers
    refine ⟨_ :: received, .cons hr.receivedAs harrive, ?_⟩
    rw [List.length_cons, Nat.add_right_comm, HttpConnection.recvResponses,
      hr.recvResponse_eq behindCut hs hbytes hfirst]
    simp only
    rw [hrecv, SocketStream.skip_skip, List.flatMap_cons, List.length_append]
    rfl

end

/-! ### Each message in a segment of its own -/

/-- The messages, each in a segment. -/
def inSegments (messages : List (List Byte)) : SocketStream where
  segments := messages.filterMap fun text ↦ if h : text ≠ [] then some ⟨text, h⟩ else none

section

variable {text : List Byte} {messages : List (List Byte)} {n : ℕ}

theorem bytes_inSegments (messages : List (List Byte)) :
    (inSegments messages).bytes = messages.flatten := by
  unfold inSegments SocketStream.bytes
  induction messages with
  | nil => rfl
  | cons text messages ih =>
    by_cases h : text = []
    · simpa [h] using ih
    · simpa [h] using ih

theorem segments_inSegments (h : text ≠ []) :
    (inSegments (text :: messages)).segments = ⟨text, h⟩ :: (inSegments messages).segments := by
  simp [inSegments, h]

theorem skip_inSegments (h : text ≠ []) :
    (inSegments (text :: messages)).skip text.length = inSegments messages := by
  have hzero := SocketStream.skip_zero (s := inSegments messages)
  rw [SocketStream.skip] at hzero ⊢
  rw [segments_inSegments h, SocketStream.skipSegments, dif_neg (Nat.lt_irrefl _), Nat.sub_self]
  exact hzero

/-- The first read takes the first message. -/
theorem readEnd_inSegments (h : text ≠ []) (hn : text.length ≤ n) :
    (inSegments (text :: messages)).readEnd n 1 = text.length := by
  rw [SocketStream.readEnd, SocketStream.readEnd, SocketStream.skip_zero, Nat.zero_add,
    SocketStream.readSize, segments_inSegments h]
  exact Nat.min_eq_right hn

/-- Only the first read begins in the first message. -/
theorem eq_zero_of_inSegments (h : text ≠ []) (hn : text.length ≤ n) {i k : ℕ}
    (hk : k ≤ text.length) (hi : (inSegments (text :: messages)).readEnd n i < k) : i = 0 := by
  by_contra hne
  have hmono := (inSegments (text :: messages)).readEnd_mono n (Nat.one_le_iff_ne_zero.mpr hne)
  rw [readEnd_inSegments h hn] at hmono
  omega

end

theorem HttpRequest.dump_ne_nil (r : HttpRequest) : r.dump ≠ [] := by
  have hblank : bytesOf " " ≠ [] := by decide
  simp [HttpRequest.dump, hblank]

theorem HttpResponse.dump_ne_nil (r : HttpResponse) : r.dump ≠ [] := by
  have hblank : bytesOf " " ≠ [] := by decide
  simp [HttpResponse.dump, hblank]

/-- Requests that arrive one by one are read in order. -/
theorem orderlyRequests_inSegments {relaxed : Bool} {b : BufferSize} {requests : List HttpRequest}
    (hsendable : ∀ r ∈ requests, r.Sendable relaxed)
    (hfits : ∀ r ∈ requests, r.dump.length ≤ b.size) :
    OrderlyRequests relaxed b requests (inSegments (requests.map HttpRequest.dump)) := by
  induction requests with
  | nil => trivial
  | cons r requests ih =>
    obtain ⟨hr, hrest⟩ := List.forall_mem_cons.mp hsendable
    obtain ⟨hfit, hfits⟩ := List.forall_mem_cons.mp hfits
    have hhead : r.sentHead.length ≤ r.dump.length := by
      rw [hr.dump_eq, List.length_append]
      exact Nat.le_add_right ..
    rw [List.map_cons]
    refine ⟨⟨fun i hi ↦ ?_, fun i hi _ ↦ .inl ?_⟩, ?_⟩
    · rw [eq_zero_of_inSegments r.dump_ne_nil hfit hhead hi]
      exact UncutAt.zero
    · rw [eq_zero_of_inSegments r.dump_ne_nil hfit hhead hi, readEnd_inSegments r.dump_ne_nil hfit]
    · rw [skip_inSegments r.dump_ne_nil]
      exact ih hrest hfits

/-- Responses that arrive one by one are read in order. -/
theorem orderlyResponses_inSegments {b : BufferSize} {answers : List HttpResponse}
    (hwritable : ∀ r ∈ answers, r.Writable) (hfits : ∀ r ∈ answers, r.dump.length ≤ b.size) :
    OrderlyResponses b answers (inSegments (answers.map HttpResponse.dump)) := by
  induction answers with
  | nil => trivial
  | cons r answers ih =>
    obtain ⟨hr, hrest⟩ := List.forall_mem_cons.mp hwritable
    obtain ⟨hfit, hfits⟩ := List.forall_mem_cons.mp hfits
    have hdump : r.dump.length = r.headText.length + r.body.length := by
      rw [hr.dump_eq, List.length_append]
    have hhead : r.headText.length ≤ r.dump.length := by omega
    rw [List.map_cons]
    refine ⟨⟨fun i hi ↦ ?_, fun i hi _ ↦ ?_⟩, ?_⟩
    · rw [eq_zero_of_inSegments r.dump_ne_nil hfit hhead hi]
      exact UncutAt.zero
    · rw [eq_zero_of_inSegments r.dump_ne_nil hfit hhead hi, readEnd_inSegments r.dump_ne_nil hfit,
        hdump, Nat.add_sub_cancel_left]
      exact ⟨hr.body, .inl rfl⟩
    · rw [skip_inSegments r.dump_ne_nil]
      exact ih hrest hfits

/-! ### The exchange -/

section

variable {σ : Type} (server : HttpServer σ) (fnmatch : List Byte → List Byte → Bool)

/-- Nothing is served behind a request that cannot be received. -/
theorem HttpServer.serve_append_error (received rest : List (Except ReceiveError HttpRequest))
    (e : ReceiveError) (shared : σ) :
    server.serve fnmatch (received ++ .error e :: rest) shared =
      server.serve fnmatch received shared := by
  induction received generalizing shared with
  | nil => rfl
  | cons result received ih =>
    cases result with
    | error e => rfl
    | ok req => simp only [List.cons_append, HttpServer.serve, ih]

theorem length_le_flatMap_dump (requests : List HttpRequest) :
    requests.length ≤ (requests.flatMap HttpRequest.dump).length := by
  induction requests with
  | nil => exact Nat.le_refl _
  | cons r requests ih =>
    have hpos : 0 < r.dump.length := by
      simp only [HttpRequest.dump, List.length_append]
      have hblank : (bytesOf " ").length = 1 := by decide
      omega
    rw [List.length_cons, List.flatMap_cons, List.length_append]
    omega

/-- What is served first does not depend on what comes behind. -/
theorem HttpServer.serve_append (received rest : List (Except ReceiveError HttpRequest))
    (shared : σ) :
    ∃ more, (server.serve fnmatch (received ++ rest) shared).1 =
      (server.serve fnmatch received shared).1 ++ more := by
  induction received generalizing shared with
  | nil => exact ⟨_, rfl⟩
  | cons result received ih =>
    cases result with
    | error e => exact ⟨[], rfl⟩
    | ok req =>
      simp only [List.cons_append, HttpServer.serve]
      split
      · exact ⟨[], rfl⟩
      · obtain ⟨more, hmore⟩ := ih (server.answer fnmatch req shared).2.2
        refine ⟨more, ?_⟩
        simp only [hmore]
        rfl

/-- What is served when requests arrive in orderly reads and anything behind them. -/
theorem HttpServer.handleClient_received {relaxed : Bool} {b : BufferSize}
    {requests : List HttpRequest} {s : HttpSession} {tail : List Byte}
    (hsendable : ∀ r ∈ requests, r.Sendable relaxed) (hs : s.connected)
    (hbytes : s.bytes = requests.flatMap HttpRequest.dump ++ tail)
    (horderly : OrderlyRequests relaxed b requests s) (w : SocketSink) (shared : σ) :
    ∃ rest, Served
      (server.serve fnmatch ((requests.map fun r ↦ .ok r.arrived) ++
        HttpSession.recvRequests relaxed b (rest + 1)
          (s.skip (requests.flatMap HttpRequest.dump).length)) shared).1 w
      (server.serve fnmatch ((requests.map fun r ↦ .ok r.arrived) ++
        HttpSession.recvRequests relaxed b (rest + 1)
          (s.skip (requests.flatMap HttpRequest.dump).length)) shared).2
      (server.handleClient fnmatch relaxed b s w shared) := by
  have hturns : requests.length ≤ s.bytes.length := by
    rw [hbytes, List.length_append]
    exact Nat.le_add_right_of_le (length_le_flatMap_dump requests)
  obtain ⟨rest, hrest⟩ := Nat.exists_eq_add_of_le hturns
  have hserved := handleLoop_eq server fnmatch relaxed b (s.bytes.length + 1) s w shared
    (Nat.lt_succ_self _)
  rw [hrest, Nat.add_assoc, recvRequests_orderly hsendable hs hbytes horderly (rest + 1)] at hserved
  refine ⟨rest, ?_⟩
  rw [HttpServer.handleClient, hrest, Nat.add_assoc]
  exact hserved

/-- The answers to the first requests go out, whatever arrives behind them. -/
theorem HttpServer.handleClient_written {relaxed : Bool} {b : BufferSize}
    {requests : List HttpRequest} {s : HttpSession} {w : SocketSink} {tail : List Byte}
    (hsendable : ∀ r ∈ requests, r.Sendable relaxed) (hs : s.connected)
    (hbytes : s.bytes = requests.flatMap HttpRequest.dump ++ tail)
    (horderly : OrderlyRequests relaxed b requests s) (hw : w.Sends) (shared : σ) :
    ∃ s' w' shared', server.handleClient fnmatch relaxed b s w shared = some (s', w', shared') ∧
      ∃ more, w'.written = w.written ++
        (server.serve fnmatch (requests.map fun r ↦ .ok r.arrived) shared).1.flatMap
          HttpResponse.dump ++ more := by
  obtain ⟨rest, s', w', sent, hresult, -, -, hwritten, hall⟩ :=
    server.handleClient_received fnmatch hsendable hs hbytes horderly w shared
  obtain ⟨-, rfl⟩ := hall hw
  obtain ⟨more, hmore⟩ := server.serve_append fnmatch (requests.map fun r ↦ .ok r.arrived)
    (HttpSession.recvRequests relaxed b (rest + 1)
      (s.skip (requests.flatMap HttpRequest.dump).length)) shared
  refine ⟨s', w', _, hresult, more.flatMap HttpResponse.dump, ?_⟩
  rw [hwritten, hmore, List.map_append, List.flatten_append, List.append_assoc]
  rfl

/-- The requests that are sent are served, and the answers go out. -/
theorem HttpServer.handleClient_orderly {relaxed : Bool} {b : BufferSize}
    {requests : List HttpRequest} {s : HttpSession} {w : SocketSink}
    (hsendable : ∀ r ∈ requests, r.Sendable relaxed) (hs : s.connected)
    (hbytes : s.bytes = requests.flatMap HttpRequest.dump)
    (horderly : OrderlyRequests relaxed b requests s) (hw : w.Sends) (shared : σ) :
    ∃ s' w', server.handleClient fnmatch relaxed b s w shared =
        some (s', w', (server.serve fnmatch (requests.map fun r ↦ .ok r.arrived) shared).2) ∧
      s'.connected = false ∧
      w'.written = w.written ++
        (server.serve fnmatch (requests.map fun r ↦ .ok r.arrived) shared).1.flatMap
          HttpResponse.dump := by
  have hend : (s.skip (requests.flatMap HttpRequest.dump).length).bytes = [] := by
    rw [SocketStream.bytes_skip, hbytes, List.drop_length]
  obtain ⟨rest, hserved⟩ := server.handleClient_received fnmatch hsendable hs
    (hbytes.trans (List.append_nil _).symm) horderly w shared
  rw [HttpSession.recvRequests, HttpSession.recvRequest_of_empty relaxed b hend,
    HttpServer.serve_append_error] at hserved
  obtain ⟨s', w', sent, hresult, hclosed, -, hwritten, hall⟩ := hserved
  obtain ⟨-, rfl⟩ := hall hw
  exact ⟨s', w', hresult, hclosed, hwritten⟩

end

/-! ### Two requests -/

/-- Every call of `send` takes at most so many bytes and one more. -/
def taking (n : ℕ) : SocketSink where
  sends := fun _ ↦ n + 1

theorem sends_taking (n : ℕ) : (taking n).Sends :=
  fun _ ↦ Int.natCast_pos.mpr (Nat.succ_pos n)

/-- A server that counts the requests for one page. -/
def countingServer : HttpServer ℕ where
  isKeepalive := true
  dispatch := ({} : ServletDispatch ℕ).addServlet (bytesOf "/count") (some fun req rsp n ↦
    (req, { rsp with body := decimal (n + 1) }, n + 1))

/-- The page, another one and the page again, for the last time. -/
def countRequests : List HttpRequest :=
  [{ path := bytesOf "/count", close := false, headers := ⟨[], Headers.sorted_nil⟩ },
    { path := bytesOf "/other", close := false, headers := ⟨[], Headers.sorted_nil⟩ },
    { path := bytesOf "/count", headers := ⟨[], Headers.sorted_nil⟩ }]

def countAnswers : List HttpResponse :=
  [{ body := bytesOf "8", close := false
     headers := Headers.setHeader ⟨[], Headers.sorted_nil⟩ (bytesOf "Server")
       (bytesOf "sylar/1.0.0") },
    { status := 404, body := notFoundContent (bytesOf "sylar/1.0"), close := false
      headers := (Headers.setHeader ⟨[], Headers.sorted_nil⟩ (bytesOf "Server")
        (bytesOf "sylar/1.0.0")).setHeader (bytesOf "Content-Type") (bytesOf "text/html") },
    { body := bytesOf "9"
      headers := Headers.setHeader ⟨[], Headers.sorted_nil⟩ (bytesOf "Server")
       (bytesOf "sylar/1.0.0") }]

theorem countRequests_sendable : ∀ r ∈ countRequests, r.Sendable false := by
  intro r hr
  refine ⟨?_, ?_, ?_, ?_, ?_, ?_, ?_, ?_, ?_, ?_⟩ <;> revert r <;> decide +kernel

theorem countAnswers_writable : ∀ rsp ∈ countAnswers, rsp.Writable := by
  intro r hr
  refine ⟨?_, ?_, ?_, ?_, ?_, ?_, ?_, ?_⟩ <;> revert r <;> decide +kernel

theorem countingServer_serve : countingServer.serve (fun _ _ ↦ false)
    (countRequests.map fun r ↦ .ok r.arrived) 7 = (countAnswers, 9) := by
  decide +kernel

end Rsylar.Http
