import Rsylar.Http.ChunkStream
import Rsylar.Http.ContentLength

/-!
# Decoding a response

A response on the wire is a head that the machine accepts in one piece, and the body that it
announces, by its length or in chunks. `responseDecoding` is when `recvResponse` returns that body
and takes the bytes of the response and no others: when the reads are `OrderlyReads`.

The marks of the parser count from the beginning of the buffer of one read, so a read that ends
inside an element of the head loses it; with the line of a chunk the state of the machine is lost as
well. The bytes behind a response that a read returns go with the buffer. And of the final states of
the machine `isFinished` knows the first only: the head is read on when its last header is a
connection, content-length or transfer-encoding header without a value.
-/

set_option autoImplicit false
set_option relaxedAutoImplicit false

namespace Rsylar.Http

open ActionRegex Scanner

namespace ResponseData

/-! ### What the callbacks make of a head -/

/-- Of a head in one piece. -/
def parsed (behindCut : BitVec 32) (head : List Byte) : ResponseData :=
  (exec [] head HttpClientParser.start {}).calls.foldl (onCall behindCut) {}

def withStatus (d : ResponseData) (status : BitVec 32) : ResponseData :=
  { d with response := { d.response with status } }

variable (behindCut : BitVec 32) (d : ResponseData)

theorem onCall_withStatus (status : BitVec 32) (call : ScanCall ResponseToken ResponseFlag) :
    ∃ status', (d.withStatus status).onCall behindCut call =
      (d.onCall 0 call).withStatus status' := by
  cases call with
  | token k text next =>
    cases k with
    | httpVersion =>
      refine ⟨status, ?_⟩
      simp only [onCall, onResponseVersion]
      split
      · rfl
      · split
        · rfl
        · rfl
    | statusCode => exact ⟨_, rfl⟩
    | reasonPhrase | chunkSize | contentLen => exact ⟨status, rfl⟩
  | queryString text => exact ⟨status, rfl⟩
  | field name value =>
    refine ⟨status, ?_⟩
    simp only [onCall, onResponseHttpField]
    split
    · rfl
    · rfl
  | flag f => exact ⟨status, rfl⟩

theorem foldl_withStatus (calls : List (ScanCall ResponseToken ResponseFlag)) (status : BitVec 32) :
    ∃ status', calls.foldl (onCall behindCut) (d.withStatus status) =
      (calls.foldl (onCall 0) d).withStatus status' := by
  induction calls generalizing d status with
  | nil => exact ⟨status, rfl⟩
  | cons call calls ih =>
    obtain ⟨status', hcall⟩ := d.onCall_withStatus behindCut status call
    rw [List.foldl_cons, List.foldl_cons, hcall]
    exact ih (d.onCall 0 call) status'

/-- Only the status depends on what is behind a cut. -/
theorem parsed_eq (head : List Byte) :
    ∃ status, parsed behindCut head = (parsed 0 head).withStatus status :=
  foldl_withStatus behindCut {} _ 200

theorem body_foldl (calls : List (ScanCall ResponseToken ResponseFlag)) :
    (calls.foldl (onCall behindCut) d).response.body = d.response.body := by
  induction calls generalizing d with
  | nil => rfl
  | cons call calls ih =>
    rw [List.foldl_cons, ih]
    cases call with
    | token k text next =>
      cases k with
      | httpVersion =>
        simp only [onCall, onResponseVersion]
        split
        · rfl
        · split
          · rfl
          · rfl
      | reasonPhrase | statusCode | chunkSize | contentLen => rfl
    | queryString text => rfl
    | field name value =>
      simp only [onCall, onResponseHttpField]
      split
      · rfl
      · rfl
    | flag f => rfl

end ResponseData

/-! ### Responses -/

/-- A body by its length, or chunks with data and a last one without. -/
inductive WireBody
  | byLength (body : List Byte)
  | inChunks (chunks : List WireChunk) (last : WireChunk)

namespace WireBody

def bytes : WireBody → List Byte
  | byLength body => body
  | inChunks chunks last => chunks.flatMap WireChunk.bytes ++ last.bytes

def body : WireBody → List Byte
  | byLength body => body
  | inChunks chunks _ => chunks.flatMap WireChunk.data

/-- The head announces the body: its length by a header in decimal digits, or that it is chunked. -/
def Announced (d : ResponseData) : WireBody → Prop
  | byLength body => d.chunked = false ∧
      ∃ h, d.response.headers.find (bytesOf "content-length") = some h ∧
        digitsValue h.value = some body.length
  | inChunks chunks last => d.chunked ∧ (∀ c ∈ chunks, c.data ≠ []) ∧ last.data = []

/-- With `e` bytes of the body in the buffer behind the head: the rest has a length that is a
positive `int`, or the chunks arrive in orderly reads. -/
def OrderlyReads (b : BufferSize) (e : ℕ) (s : SocketStream) : WireBody → Prop
  | byLength body => body.length < 2 ^ 63 ∧
      (e = body.length ∨ e < body.length ∧ 0 < (BitVec.ofNat 32 (body.length - e)).toInt)
  | inChunks chunks last => OrderlyChunks b (chunks ++ [last]) e s

end WireBody

/-- A response: the machine accepts the head, its version is known, and it announces the body. -/
structure WireResponse where
  head : List Byte
  body : WireBody
  whole : ReadsWhole HttpClientParser.start head
  lawful : (ResponseData.parsed 0 head).failure = none
  framed : body.Announced (ResponseData.parsed 0 head)

namespace WireResponse

variable (r : WireResponse)

def bytes : List Byte := r.head ++ r.body.bytes

/-- The call returns a response with the body, and takes the bytes of this response. -/
def DecodedBy (behindCut : BitVec 32) (b : BufferSize) (s : SocketStream) : Prop :=
  ∃ response, HttpConnection.recvResponse behindCut b s = .ok (response, s.skip r.bytes.length) ∧
    response.body = r.body.body

/-- The head ends in the state `first_final`, no read ends inside an element of it, and what comes
behind it is orderly. -/
structure OrderlyReads (b : BufferSize) (s : SocketStream) : Prop where
  finished : HttpClientParser.isFirstFinal (exec [] r.head HttpClientParser.start {}).cs
  head : HeadReads HttpClientParser.start b r.head s
  body : ∀ i, s.readEnd b.size i < r.head.length → r.head.length ≤ s.readEnd b.size (i + 1) →
    r.body.OrderlyReads b (s.readEnd b.size (i + 1) - r.head.length) (s.skip r.head.length)

end WireResponse

/-! ### The head -/

namespace HttpConnection

section Head

variable {behindCut : BitVec 32} {n fuel e : ℕ} {p p' : HttpResponseParser}
  {data data' tail : List Byte} {b : BufferSize} {s s' rest : SocketStream}

theorem execute_of_not_chunck :
    execute behindCut false p data = (responseCallbacks behindCut).execute p data := rfl

/-- A head that the machine reads to the state `first_final`: in no state before it may it stop. -/
theorem recvLine_of_recvHead
    (h : (responseCallbacks behindCut).recvHead n fuel p data s = .ok (p', data', s'))
    (hfinal : HttpClientParser.isFirstFinal p'.cs) :
    recvLine behindCut false n fuel false p data s = .ok (p', data', s') := by
  induction fuel generalizing p data s with
  | zero => cases h
  | succ fuel ih =>
    simp only [Callbacks.recvHead] at h
    simp only [recvLine, Bool.false_and, Bool.false_eq_true, if_false, Bool.not_false,
      Bool.and_true, execute_of_not_chunck, decide_eq_true_eq]
    split at h
    · cases h
    · rename_i hne
      rw [if_neg hne]
      split at h
      · cases h
      · rename_i herror
        rw [herror]
        simp only
        split at h
        · cases h
        · rename_i hlength
          rw [if_neg hlength]
          split at h
          · cases h
            rw [if_pos hfinal]
          · rename_i hnull
            have hnot : ¬HttpClientParser.isFirstFinal ((responseCallbacks behindCut).execute p
                (data ++ (s.read (n - data.length)).1)).1.cs := by
              rw [HttpClientParser.isFirstFinal, Bool.and_eq_true]
              exact fun h ↦ hnull h.1
            rw [if_neg hnot]
            exact ih h

/-! ### Bodies by their length -/

theorem contentLength_of_digits {hs : Headers} {h : Header} {length : ℕ}
    (hfind : hs.find (bytesOf "content-length") = some h)
    (hdigits : digitsValue h.value = some length) (hlt : length < 2 ^ 63) :
    hs.contentLength = length := by
  have hvalue : integerValue h.value = some (length : ℤ) := by
    unfold integerValue
    split
    · rename_i heq
      rw [heq] at hdigits
      cases hdigits
    · rename_i heq
      rw [heq] at hdigits
      cases hdigits
    · rw [hdigits]
      rfl
  have hfit : (length : ℤ).natAbs < 2 ^ 64 := by omega
  rw [contentLength_eq hfind, hvalue, Option.filter_some, if_pos (decide_eq_true hfit),
    Option.elim_some]
  exact Int.bmod_eq_of_le (by omega) (by omega)

/-- The body with `k` bytes of it in the buffer. -/
theorem recvBody_eq {body : List Byte} {k : ℕ} (hs : s.connected)
    (hlength : p.data.response.headers.contentLength = body.length) (hk : k ≤ body.length)
    (hbytes : s.bytes = body.drop k ++ tail)
    (hrest : k = body.length ∨ 0 < (BitVec.ofNat 32 (body.length - k)).toInt) :
    recvBody p (body.take k) s = .ok (body, s.skip (body.length - k)) := by
  have hbuffered : (body.take k).length = k := List.length_take_of_le hk
  simp only [recvBody, hlength, hbuffered]
  by_cases hnone : (body.length : ℤ) ≤ 0
  · have hempty : body = [] := List.eq_nil_of_length_eq_zero (by omega)
    rw [if_pos hnone, hempty, List.length_nil, Nat.zero_sub, SocketStream.skip_zero]
  · rw [if_neg hnone, Int.toNat_natCast]
    by_cases hall : (body.length : ℤ) ≤ k
    · obtain rfl : k = body.length := by omega
      rw [if_pos hall, List.take_length, List.take_length, Nat.sub_self, SocketStream.skip_zero]
    · have hpos := hrest.resolve_left (by omega)
      have hcome : body.length - k ≤ s.bytes.length := by
        rw [hbytes, List.length_append, List.length_drop]
        exact Nat.le_add_right ..
      have hread : s.bytes.take (body.length - k) = body.drop k := by
        rw [hbytes]
        exact List.take_left' List.length_drop
      rw [if_neg hall, SocketStream.readFixSize_eq hs hcome hpos, hread]
      simp only [List.take_append_drop]

/-! ### Behind the head -/

/-- What the loop for the head leaves: the connection is at the head's end, but for `e` bytes that
are in the buffer. -/
structure HeadRead (behindCut : BitVec 32) (b : BufferSize) (s rest : SocketStream) (e : ℕ)
    (p : HttpResponseParser) : Prop where
  loop : recvLine behindCut false b.size (s.bytes.length + 1) false newResponseParser [] s =
    .ok (p, rest.bytes.take e, rest.skip e)
  connected : rest.connected
  buffer : e ≤ b.size
  fit : e ≤ rest.bytes.length
  body : p.data.response.body = []

/-- A response whose body has a length. -/
theorem HeadRead.recvResponse_eq (h : HeadRead behindCut b s rest e p) {body : List Byte}
    (hchunked : p.data.chunked = false)
    (hlength : p.data.response.headers.contentLength = body.length)
    (hbytes : rest.bytes = body ++ tail)
    (horderly : (WireBody.byLength body).OrderlyReads b e rest) :
    recvResponse behindCut b s = .ok ({ p.data.response with body }, rest.skip body.length) := by
  have hend := horderly.2
  have hk : e ≤ body.length := by omega
  have htake : rest.bytes.take e = body.take e := by
    rw [hbytes, List.take_append_of_le_length hk]
  have hdrop : (rest.skip e).bytes = body.drop e ++ tail := by
    rw [SocketStream.bytes_skip, hbytes, List.drop_append_of_le_length hk]
  have hbody := recvBody_eq (SocketStream.connected_skip.trans h.connected) hlength hk hdrop
    (hend.imp_right And.right)
  rw [SocketStream.skip_skip, Nat.add_sub_cancel' hk] at hbody
  have hresponse : (if body = [] then p.data.response else { p.data.response with body }) =
      { p.data.response with body } := by
    split
    · rename_i hnil
      rw [hnil, ← h.body]
    · rfl
  rw [recvResponse, h.loop, htake]
  simp only [Except.mapError, bind, Except.bind, hchunked, Bool.false_eq_true, if_false, hbody,
    Except.map, hresponse]

theorem HeadRead.byLength (h : HeadRead behindCut b s rest e p) {body : List Byte}
    (hchunked : p.data.chunked = false)
    (hlength : p.data.response.headers.contentLength = body.length)
    (hbytes : rest.bytes = body ++ tail)
    (horderly : (WireBody.byLength body).OrderlyReads b e rest) :
    ∃ response, recvResponse behindCut b s = .ok (response, rest.skip body.length) ∧
      response.body = body :=
  ⟨_, h.recvResponse_eq hchunked hlength hbytes horderly, rfl⟩

theorem HeadRead.inChunks (h : HeadRead behindCut b s rest e p) {chunks : List WireChunk}
    {last : WireChunk} (hchunked : p.data.chunked) (herror : p.data.error = 0)
    (hnonempty : ∀ c ∈ chunks, c.data ≠ []) (hlast : last.data = [])
    (hbytes : rest.bytes = (WireBody.inChunks chunks last).bytes ++ tail)
    (horderly : (WireBody.inChunks chunks last).OrderlyReads b e rest) :
    ∃ response, recvResponse behindCut b s =
        .ok (response, rest.skip (WireBody.inChunks chunks last).bytes.length) ∧
      response.body = chunks.flatMap WireChunk.data := by
  have hcount := WireChunk.length_le_flatMap chunks
  rw [WireBody.bytes, List.append_assoc] at hbytes
  have htotal : (chunks.flatMap WireChunk.bytes).length ≤ rest.bytes.length := by
    rw [hbytes, List.length_append]
    exact Nat.le_add_right ..
  have hfuel : chunks.length < (rest.bytes.take e).length + (rest.skip e).bytes.length + 1 := by
    have hfit := h.fit
    rw [List.length_take_of_le hfit, SocketStream.bytes_skip, List.length_drop]
    omega
  obtain ⟨p', hbody, hloop⟩ := recvChunks_eq behindCut _ b last hlast chunks hnonempty [] herror
    h.connected hbytes h.buffer h.fit horderly hfuel
  rw [recvResponse, h.loop, WireBody.bytes, List.length_append]
  simp only [Except.mapError, bind, Except.bind, hchunked, if_true, hloop, List.nil_append]
  refine ⟨_, rfl, ?_⟩
  split
  · rename_i hnil
    rw [hbody, h.body, hnil]
  · rfl

end Head

end HttpConnection

theorem HttpClientParser.atStart : AtStart HttpClientParser.start where
  finishes := .inr ⟨_, _, rfl⟩
  notNullable := by decide +kernel
  notVoid := rfl

/-- A head that no read cuts in an element. -/
theorem HttpConnection.headRead_of_reads (behindCut : BitVec 32) {b : BufferSize}
    {s : SocketStream} {head tail : List Byte} (hs : s.connected) (hbytes : s.bytes = head ++ tail)
    (hwhole : ReadsWhole HttpClientParser.start head)
    (hlawful : (ResponseData.parsed behindCut head).failure = none)
    (hfinished :
      HttpClientParser.isFirstFinal (exec [] head HttpClientParser.start {}).cs)
    (hreads : HeadReads HttpClientParser.start b head s) :
    ∃ i p, s.readEnd b.size i < head.length ∧ head.length ≤ s.readEnd b.size (i + 1) ∧
      HeadRead behindCut b s (s.skip head.length) (s.readEnd b.size (i + 1) - head.length) p ∧
      p.data = ResponseData.parsed behindCut head := by
  have hlawful' : (responseCallbacks behindCut).failure
      ((exec [] head newResponseParser.cs {}).calls.foldl (responseCallbacks behindCut).onCall
        newResponseParser.data) = none := hlawful
  obtain ⟨i, hbefore, hafter, p, hp, hloop⟩ :=
    recvHead_eq HttpClientParser.atStart rfl hwhole hlawful' hs hbytes hreads
  have hbehind : (s.skip head.length).bytes = tail := by
    rw [SocketStream.bytes_skip, hbytes, List.drop_left]
  have hskip : s.skip (s.readEnd b.size (i + 1)) = (s.skip head.length).skip
      (s.readEnd b.size (i + 1) - head.length) := by
    rw [SocketStream.skip_skip, Nat.add_sub_cancel' hafter]
  have hread : (s.skip (s.readEnd b.size i)).readSize b.size ≤ b.size := SocketStream.readSize_le
  have hreadFit : (s.skip (s.readEnd b.size i)).readSize b.size ≤
      (s.skip (s.readEnd b.size i)).bytes.length := SocketStream.readSize_le_length
  have hheadFit : head.length ≤ s.bytes.length := by
    rw [hbytes, List.length_append]
    exact Nat.le_add_right ..
  have hend : s.readEnd b.size (i + 1) =
      s.readEnd b.size i + (s.skip (s.readEnd b.size i)).readSize b.size := rfl
  rw [← hbehind, hskip] at hloop
  rw [SocketStream.bytes_skip, List.length_drop] at hreadFit
  refine ⟨i, p, hbefore, hafter, ⟨HttpConnection.recvLine_of_recvHead hloop (hp.cs ▸ hfinished), hs,
    ?_, ?_, ?_⟩, hp.data⟩
  · omega
  · rw [SocketStream.bytes_skip, List.length_drop]
    omega
  · rw [hp.data]
    exact ResponseData.body_foldl behindCut _ _

/-- A head that arrives in orderly reads. -/
theorem WireResponse.headRead (behindCut : BitVec 32) {b : BufferSize} {r : WireResponse}
    {s : SocketStream} {tail : List Byte} (hs : s.connected) (hbytes : s.bytes = r.bytes ++ tail)
    (h : r.OrderlyReads b s) :
    ∃ e p status, HttpConnection.HeadRead behindCut b s (s.skip r.head.length) e p ∧
      p.data = (ResponseData.parsed 0 r.head).withStatus status ∧
      r.body.OrderlyReads b e (s.skip r.head.length) := by
  rw [bytes, List.append_assoc] at hbytes
  obtain ⟨status, hparsed⟩ := ResponseData.parsed_eq behindCut r.head
  have hlawful : (ResponseData.parsed behindCut r.head).failure = none :=
    (congrArg ResponseData.failure hparsed).trans r.lawful
  obtain ⟨i, p, hbefore, hafter, hhead, hdata⟩ :=
    HttpConnection.headRead_of_reads behindCut hs hbytes r.whole hlawful h.finished h.head
  exact ⟨_, p, status, hhead, hdata.trans hparsed, h.body i hbefore hafter⟩

/-- A response that arrives in orderly reads is decoded: the body is the one that was sent, and its
bytes are those that the call takes. -/
theorem responseDecoding (behindCut : BitVec 32) (b : BufferSize) (r : WireResponse)
    (s : SocketStream) (tail : List Byte) (hs : s.connected) (hbytes : s.bytes = r.bytes ++ tail)
    (h : r.OrderlyReads b s) : r.DecodedBy behindCut b s := by
  obtain ⟨e, p, status, hhead, hdata, horderly⟩ := WireResponse.headRead behindCut hs hbytes h
  have hbehind : (s.skip r.head.length).bytes = r.body.bytes ++ tail := by
    rw [SocketStream.bytes_skip, hbytes, WireResponse.bytes, List.append_assoc, List.drop_left]
  have hframed := r.framed
  rw [WireResponse.DecodedBy, WireResponse.bytes, List.length_append, ← SocketStream.skip_skip]
  cases hcase : r.body with
  | byLength body =>
    rw [hcase] at hframed horderly hbehind
    obtain ⟨hchunked, header, hfind, hdigits⟩ := hframed
    apply hhead.byLength _ _ hbehind horderly
    · rw [hdata]
      exact hchunked
    · rw [hdata]
      exact HttpConnection.contentLength_of_digits hfind hdigits horderly.1
  | inChunks chunks last =>
    rw [hcase] at hframed horderly hbehind
    obtain ⟨hchunked, hnonempty, hlast⟩ := hframed
    apply hhead.inChunks _ _ hnonempty hlast hbehind horderly
    · rw [hdata]
      exact hchunked
    · rw [hdata]
      exact (ResponseData.failure_eq_none _).mp r.lawful

/-! ### Runs -/

instance (cs : ResponseExpr) (text : List Byte) : Decidable (ReadsWhole cs text) :=
  decidable_of_iff (((exec [] text cs {}).outcome = .done ∧ (exec [] text cs {}).left = []) ∧
      (exec [] text cs {}).cs.nullable)
    ⟨fun h ↦ ⟨h.1.1, h.1.2, h.2⟩, fun h ↦ ⟨⟨h.outcome, h.left⟩, h.finished⟩⟩

def chunkedHead : List Byte := bytesOf "HTTP/1.1 200 OK\r\nTransfer-Encoding: chunked\r\n\r\n"

def lengthHead : List Byte := bytesOf "HTTP/1.1 200 OK\r\ncontent-length: 2\r\n\r\n"

/-- Its last header has no value. -/
def emptyHeaderHead : List Byte :=
  bytesOf "HTTP/1.1 200 OK\r\ncontent-length: 2\r\nconnection:\r\n\r\n"

theorem reads_heads :
    (ReadsWhole HttpClientParser.start chunkedHead ∧
      (ResponseData.parsed 0 chunkedHead).failure = none ∧
      (ResponseData.parsed 0 chunkedHead).chunked) ∧
    ∀ head ∈ [lengthHead, emptyHeaderHead], ReadsWhole HttpClientParser.start head ∧
      (ResponseData.parsed 0 head).failure = none ∧
      (ResponseData.parsed 0 head).chunked = false ∧
      (ResponseData.parsed 0 head).response.headers.find (bytesOf "content-length") =
        some ⟨bytesOf "content-length", bytesOf "2"⟩ := by
  decide +kernel

/-- Sixteen bytes in one chunk. -/
def chunkedPage : WireResponse where
  head := chunkedHead
  body := .inChunks
    [.sized (bytesOf "10") (bytesOf "abcdefghijklmnop") (by decide) (by decide) (by decide)]
    (.sized (bytesOf "0") [] (by decide) (by decide) (by decide))
  whole := reads_heads.1.1
  lawful := reads_heads.1.2.1
  framed := ⟨reads_heads.1.2.2, List.forall_mem_singleton.mpr (by decide), rfl⟩

/-- Two bytes by their length. -/
def twoBytes : WireResponse where
  head := lengthHead
  body := .byLength (bytesOf "ab")
  whole := (reads_heads.2 _ List.mem_cons_self).1
  lawful := (reads_heads.2 _ List.mem_cons_self).2.1
  framed := ⟨(reads_heads.2 _ List.mem_cons_self).2.2.1, _,
    (reads_heads.2 _ List.mem_cons_self).2.2.2, by decide⟩

theorem emptyHeaderHead_mem : emptyHeaderHead ∈ [lengthHead, emptyHeaderHead] :=
  List.mem_cons_of_mem lengthHead List.mem_cons_self

def twoBytesEmptyHeader : WireResponse where
  head := emptyHeaderHead
  body := .byLength (bytesOf "ab")
  whole := (reads_heads.2 _ emptyHeaderHead_mem).1
  lawful := (reads_heads.2 _ emptyHeaderHead_mem).2.1
  framed := ⟨(reads_heads.2 _ emptyHeaderHead_mem).2.2.1, _,
    (reads_heads.2 _ emptyHeaderHead_mem).2.2.2, by decide⟩

/-- The head in two reads, the second with the beginning of the chunk; the rest of the chunk in two
reads; the last chunk in two reads; and bytes of another response. -/
def chunkedPieces : SocketStream :=
  arriving ["HTTP/1.1 200 OK\r\n", "Transfer-Encoding: chunked\r\n\r\n10\r\nabcde", "fghijklmnop\r",
    "\n0\r\n\r", "\n", "HTTP/1.1"]

theorem chunkedPieces_orderlyReads : chunkedPage.OrderlyReads defaultBuffer chunkedPieces := by
  have hend : chunkedPieces.readEnd defaultBuffer.size 2 = 56 := by decide +kernel
  have hlater : ∀ i,
      ¬chunkedPieces.readEnd defaultBuffer.size (i + 2) < chunkedPage.head.length := by
    intro i hlt
    have hmono := SocketStream.readEnd_mono chunkedPieces defaultBuffer.size (Nat.le_add_left 2 i)
    rw [hend] at hmono
    exact absurd (Nat.lt_of_le_of_lt hmono hlt) (by decide +kernel)
  refine ⟨by decide +kernel, fun i hi ↦ ?_, fun i hi hafter ↦ ?_⟩
  · match i with
    | 0 => exact UncutAt.zero
    | 1 =>
      unfold UncutAt
      decide +kernel
    | i + 2 => exact absurd hi (hlater i)
  · match i with
    | 0 => exact absurd hafter (by decide +kernel)
    | 1 =>
      refine ⟨by decide +kernel, by decide, by decide +kernel, by decide, ?_⟩
      rw [OrderlyChunks]
      decide +kernel
    | i + 2 => exact absurd hi (hlater i)

theorem responseDecoding_chunkedPieces :
    chunkedPage.DecodedBy 0 defaultBuffer chunkedPieces :=
  responseDecoding 0 defaultBuffer chunkedPage chunkedPieces (bytesOf "HTTP/1.1") rfl
    (by decide +kernel) chunkedPieces_orderlyReads

theorem WireResponse.not_decodedBy {behindCut : BitVec 32} {b : BufferSize} {r : WireResponse}
    {s : SocketStream}
    (h : (HttpConnection.recvResponse behindCut b s).map (fun result ↦ result.1.body) ≠
      .ok r.body.body) : ¬r.DecodedBy behindCut b s := by
  rintro ⟨response, hrecv, hbody⟩
  rw [hrecv] at h
  exact h (congrArg Except.ok hbody)

/-- A read that ends in the line of a chunk, a read that ends in a header, and a head that is not
taken for finished. -/
theorem not_decodedBy_cutElements :
    ¬chunkedPage.DecodedBy 0 defaultBuffer
        (arriving ["HTTP/1.1 200 OK\r\nTransfer-Encoding: chunked\r\n\r\n", "1",
          "0\r\nabcdefghijklmnop\r\n0\r\n\r\n"]) ∧
    ¬twoBytes.DecodedBy 0 defaultBuffer
        (arriving ["HTTP/1.1 200 OK\r\ncontent-", "length: 2\r\n\r\nab"]) ∧
    ¬twoBytesEmptyHeader.DecodedBy 0 defaultBuffer
        (arriving ["HTTP/1.1 200 OK\r\ncontent-length: 2\r\nconnection:\r\n\r\nab"]) := by
  refine ⟨WireResponse.not_decodedBy ?_, WireResponse.not_decodedBy ?_,
    WireResponse.not_decodedBy ?_⟩ <;> decide +kernel

end Rsylar.Http
