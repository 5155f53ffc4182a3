import Rsylar.Http.Connection
import Rsylar.Http.ScannedText

/-!
# The chunks of a response

A chunk on the wire is a line with the length of its data, the data, and a line end. Each turn of
the chunk loop of `recvResponse` begins the line anew with what is then in the buffer: the part of a
line that an earlier read returned is forgotten. `OrderlyChunks` is when that does not happen, and
`recvChunks_eq` what the loop then returns: the data of the chunks, with their bytes taken and no
others.
-/

set_option autoImplicit false
set_option relaxedAutoImplicit false

namespace Rsylar.Http

open ActionRegex Scanner

/-! ### Lines -/

/-- The callback of a header, or of an extension of a chunk. -/
def isField : ScanCall ResponseToken ResponseFlag → Bool
  | .field _ _ => true
  | .token _ _ _ | .queryString _ | .flag _ => false

/-- The machine accepts the line, which is the length of the data in hexadecimal digits, perhaps
with extensions. -/
structure WireChunk where
  line : List Byte
  size : List Byte
  next : Byte
  extensions : List (ScanCall ResponseToken ResponseFlag)
  data : List Byte
  whole : ReadsWhole HttpClientParser.start line
  finished : HttpClientParser.isFirstFinal (exec [] line HttpClientParser.start {}).cs
  calls : (exec [] line HttpClientParser.start {}).calls = .token .chunkSize size next :: extensions
  fields : extensions.all isField
  announced : digitsNumber 16 size = data.length

def WireChunk.bytes (c : WireChunk) : List Byte := c.line ++ c.data ++ bytesOf "\r\n"

namespace WireChunk

variable (c : WireChunk)

theorem line_ne_nil : c.line ≠ [] := by
  intro hnil
  have hdone := c.whole.outcome
  rw [hnil] at hdone
  cases hdone

theorem length_bytes : c.bytes.length = c.line.length + (c.data.length + 2) := by
  rw [bytes, List.append_assoc, List.length_append, List.length_append]
  rfl

theorem length_le_flatMap (chunks : List WireChunk) :
    chunks.length ≤ (chunks.flatMap bytes).length := by
  induction chunks with
  | nil => exact Nat.le_refl 0
  | cons c chunks ih =>
    rw [List.flatMap_cons, List.length_append, List.length_cons, length_bytes]
    omega

/-- The `content_len` of the parser behind the line. -/
theorem toInt_size (h : c.data.length + 2 < 2 ^ 31) :
    (BitVec.ofNat 32 (strtol 16 c.size)).toInt = c.data.length := by
  have hvalue : strtol 16 c.size = c.data.length := by
    rw [strtol, c.announced]
    omega
  rw [hvalue, BitVec.toInt_eq_toNat_of_lt (by rw [BitVec.toNat_ofNat]; omega), BitVec.toNat_ofNat,
    Nat.mod_eq_of_lt (by omega)]

end WireChunk

namespace HttpClientParser

open Expr CharSet

/-- The machine behind a text. -/
def behind (text : String) : ResponseExpr := start.residual ((bytesOf text).map BitVec.toNat)

/-- The line of a chunk does not tell the bytes between two neighbours apart. -/
def lineBounds : List ℕ := [0, 10, 11, 13, 14, 48, 58, 59, 60, 65, 71, 72, 73, 97, 103, 256]

theorem passes_chunkSize :
    passes lineBounds 20 chunkSize start [.mark] [⟨13, behind "0\r", [.token .chunkSize]⟩] := by
  decide +kernel

theorem goes_lineEnd :
    Goes (behind "0\r") 10#8 (behind "0\r\n") [.done] ∧ isFirstFinal (behind "0\r\n") := by
  decide +kernel

/-- A line without extensions. -/
theorem exec_sizeLine {size : List Byte} (hne : size ≠ [])
    (hdigits : ∀ c ∈ size, HttpParser.xdigit.mem c.toNat) :
    ∃ m spans, exec [] (size ++ bytesOf "\r\n") start {} =
      ⟨.done, behind "0\r\n", m, [.token .chunkSize size 13#8], [], spans⟩ := by
  have haccepts : chunkSize.accepts (size.map BitVec.toNat) := by
    cases size with
    | nil => exact absurd rfl hne
    | cons c size =>
      obtain ⟨hc, hsize⟩ := List.forall_mem_cons.mp hdigits
      have hrest : ∀ d ∈ size.map BitVec.toNat, HttpParser.xdigit.mem d :=
        List.forall_mem_map.mpr hsize
      rw [chunkSize, Expr.plus, List.map_cons, accepts_cat_chars hc]
      exact accepts_star_chars hrest
  have hsize : Reaches [] (size ++ [13#8]) start {} (behind "0\r") _ _ :=
    reaches_element ⟨rfl, rfl⟩ passes_chunkSize List.mem_cons_self rfl rfl (by decide) hne haccepts
  obtain ⟨⟨hstep, hvoid⟩, -⟩ := goes_lineEnd
  obtain ⟨houtcome, hstate, -, hcalls⟩ := hsize
  have hline : size ++ bytesOf "\r\n" = size ++ [13#8] ++ [10#8] := by
    rw [List.append_assoc]
    rfl
  rw [hline, exec_append houtcome, hstate]
  simp only [exec, hstep, hvoid, Bool.false_eq_true, if_false, List.mem_singleton, if_true,
    followedBy, hcalls]
  exact ⟨_, _, rfl⟩

end HttpClientParser

/-- A chunk whose line has no extensions. -/
def WireChunk.sized (size data : List Byte) (hne : size ≠ [])
    (hdigits : ∀ c ∈ size, HttpParser.xdigit.mem c.toNat)
    (announced : digitsNumber 16 size = data.length) : WireChunk where
  line := size ++ bytesOf "\r\n"
  size
  next := 13#8
  extensions := []
  data
  whole := by
    obtain ⟨m, spans, hexec⟩ := HttpClientParser.exec_sizeLine hne hdigits
    have hnull := (Bool.and_eq_true_iff.mp HttpClientParser.goes_lineEnd.2).1
    exact ⟨by rw [hexec], by rw [hexec], by rw [hexec]; exact hnull⟩
  finished := by
    obtain ⟨m, spans, hexec⟩ := HttpClientParser.exec_sizeLine hne hdigits
    rw [hexec]
    exact HttpClientParser.goes_lineEnd.2
  calls := by
    obtain ⟨m, spans, hexec⟩ := HttpClientParser.exec_sizeLine hne hdigits
    rw [hexec]
  fields := rfl
  announced

/-- How much the buffer holds when the parser is executed for the next chunk, with `e` bytes from
here on in the buffer before. -/
def buffered (b : BufferSize) (e : ℕ) (s : SocketStream) : ℕ :=
  if e = 0 then s.readSize b.size else e

/-- Whenever the parser is executed the whole line of the chunk is in the buffer, no length
overflows an `int`, and no read returns bytes behind the last chunk. -/
def OrderlyChunks (b : BufferSize) : List WireChunk → ℕ → SocketStream → Prop
  | [], e, _ => e = 0
  | c :: cs, e, s =>
    c.line.length ≤ buffered b e s ∧ c.data.length + 2 < 2 ^ 31 ∧
      OrderlyChunks b cs (buffered b e s - c.bytes.length) (s.skip c.bytes.length)

/-! ### The loops -/

/-- The fields of extensions change the headers only. -/
theorem ResponseData.foldl_fields (behindCut : BitVec 32)
    {calls : List (ScanCall ResponseToken ResponseFlag)} (h : calls.all isField)
    (d : ResponseData) :
    ∃ headers, calls.foldl (ResponseData.onCall behindCut) d =
      { d with response := { d.response with headers } } := by
  induction calls generalizing d with
  | nil => exact ⟨d.response.headers, rfl⟩
  | cons call calls ih =>
    obtain ⟨hcall, hcalls⟩ := Bool.and_eq_true_iff.mp h
    cases call with
    | field name value =>
      rw [List.foldl_cons, onCall, onResponseHttpField]
      split
      · exact ih hcalls d
      · exact ih hcalls _
    | token | queryString | flag => cases hcall

namespace HttpConnection

section Loops

variable (behindCut : BitVec 32) {n : ℕ} (fuel : ℕ) {p : HttpResponseParser} {data : List Byte}
  {s s' : SocketStream}

/-- The loop for a remainder takes it when it arrives. -/
theorem readLeft_eq {left : ℕ} (hn : 0 < n) (hs : s.connected) (hfuel : left ≤ fuel)
    (hleft : left ≤ s.bytes.length) :
    readLeft n fuel left s = some (s.bytes.take left, s.skip left) := by
  induction fuel generalizing left s with
  | zero =>
    obtain rfl : left = 0 := Nat.le_zero.mp hfuel
    rw [readLeft, SocketStream.skip_zero, List.take_zero]
  | succ fuel ih =>
    cases left with
    | zero => rw [readLeft, SocketStream.skip_zero, List.take_zero]
    | succ left =>
      have hne : s.bytes ≠ [] := List.ne_nil_of_length_pos (by omega)
      have hpos : 0 < s.readSize (min (left + 1) n) := SocketStream.readSize_pos (by omega) hne
      have hle : s.readSize (min (left + 1) n) ≤ min (left + 1) n := SocketStream.readSize_le
      have hlength : (s.bytes.take (s.readSize (min (left + 1) n))).length =
        s.readSize (min (left + 1) n) := SocketStream.length_take_readSize
      have hread := SocketStream.read_eq hs (min (left + 1) n)
      generalize s.readSize (min (left + 1) n) = k at *
      have hnonempty : s.bytes.take k ≠ [] := List.ne_nil_of_length_pos (by omega)
      have hrest : left + 1 - k ≤ (s.skip k).bytes.length := by
        rw [SocketStream.bytes_skip, List.length_drop]
        omega
      simp only [readLeft, hread, hnonempty, if_false, hlength]
      rw [ih (SocketStream.connected_skip.trans hs) (by omega) hrest, Option.map_some,
        SocketStream.bytes_skip, SocketStream.skip_skip, ← List.take_add,
        show k + (left + 1 - k) = left + 1 by omega]

/-- The parser on a buffer that begins with the line of a chunk. -/
theorem execute_line (c : WireChunk) (p : HttpResponseParser) (more : List Byte) :
    ∃ p', execute behindCut true p (c.line ++ more) = (p', more) ∧
      p'.cs = (exec [] c.line HttpClientParser.start {}).cs ∧
      ∃ headers, p'.data = { p.data.init.chunkSize c.size with
        response := { p.data.response with headers } } := by
  have hstart : HasRead (responseCallbacks behindCut)
      { cs := HttpClientParser.start, data := p.data.init } []
      { cs := HttpClientParser.start, data := p.data.init } := ⟨rfl, rfl, fun _ ↦ rfl⟩
  have hwhole : ReadsWhole HttpClientParser.start ([] ++ (c.line ++ [])) := by
    rw [List.nil_append, List.append_nil]
    exact c.whole
  obtain ⟨hread, hleft⟩ := hstart.execute more hwhole c.line_ne_nil UncutAt.zero (.inr rfl)
  refine ⟨_, Prod.ext rfl hleft, hread.cs, ?_⟩
  have hdata := hread.data
  rw [List.nil_append, c.calls, List.foldl_cons] at hdata
  obtain ⟨headers, hfields⟩ := ResponseData.foldl_fields behindCut c.fields
    (p.data.init.chunkSize c.size)
  exact ⟨headers, hdata.trans hfields⟩

theorem isVoid_of_isFirstFinal {cs : ResponseExpr} (h : HttpClientParser.isFirstFinal cs) :
    cs.isVoid = false := by
  cases cs with
  | void => cases h
  | _ => rfl

/-- The line of a chunk, from what is in the buffer or from the next read. -/
theorem recvLine_line (c : WireChunk) {more : List Byte} (herror : p.data.error = 0)
    (hmore : more.length ≠ n)
    (hbuffer : data = c.line ++ more ∧ s' = s ∨ data = [] ∧ s.read n = (c.line ++ more, s')) :
    ∃ p', recvLine behindCut true n (fuel + 1) true p data s = .ok (p', more, s') ∧
      ∃ headers, p'.data = { p.data.init.chunkSize c.size with
        response := { p.data.response with headers } } := by
  obtain ⟨p', hexecute, hcs, headers, hdata⟩ := execute_line behindCut c p more
  have hfinal : HttpClientParser.isFirstFinal p'.cs := hcs ▸ c.finished
  have hfailure : (responseCallbacks behindCut).failure p'.data = none := by
    rw [hdata]
    exact (ResponseData.failure_eq_none _).mpr herror
  have hnone : (responseCallbacks behindCut).error p' = none := by
    rw [Callbacks.error, hfailure, isVoid_of_isFirstFinal hfinal]
    rfl
  refine ⟨p', ?_, headers, hdata⟩
  rcases hbuffer with ⟨rfl, rfl⟩ | ⟨rfl, hread⟩
  · have hne : c.line ++ more ≠ [] := List.append_ne_nil_of_left_ne_nil c.line_ne_nil more
    simp [recvLine, hne, hexecute, hnone, hmore, hfinal]
  · have hne : c.line ++ more ≠ [] := List.append_ne_nil_of_left_ne_nil c.line_ne_nil more
    simp [recvLine, hread, hne, hexecute, hnone, hmore, hfinal]

/-- The data of a chunk behind its line, with what is behind the chunk in the buffer. -/
theorem recvChunk_eq (c : WireChunk) (body : List Byte) {e : ℕ} {tail : List Byte} (hn : 0 < n)
    (hs : s.connected) (hbytes : s.bytes = c.bytes ++ tail) (hline : c.line.length ≤ e)
    (he : e ≤ s.bytes.length) (hsize : c.data.length + 2 < 2 ^ 31) :
    recvChunk n (BitVec.ofNat 32 (strtol 16 c.size)) body ((s.bytes.take e).drop c.line.length)
        (s.skip e) =
      .ok (body ++ c.data, (s.skip c.bytes.length).bytes.take (e - c.bytes.length),
        (s.skip c.bytes.length).skip (e - c.bytes.length)) := by
  have hlength := c.length_bytes
  have hcrlf : (bytesOf "\r\n").length = 2 := rfl
  have hrest : s.bytes.drop c.line.length = c.data ++ (bytesOf "\r\n" ++ tail) := by
    rw [hbytes, WireChunk.bytes, List.append_assoc, List.append_assoc, List.drop_left]
  have hbehind : (s.skip c.bytes.length).bytes = tail := by
    rw [SocketStream.bytes_skip, hbytes, List.drop_left]
  have hskip : (s.skip e).bytes = (s.bytes.drop c.line.length).drop (e - c.line.length) := by
    rw [SocketStream.bytes_skip, List.drop_drop, Nat.add_sub_cancel' hline]
  have hbuffered : ((s.bytes.drop c.line.length).take (e - c.line.length)).length =
      e - c.line.length := by
    apply List.length_take_of_le
    rw [List.length_drop]
    omega
  have htotal : s.bytes.length = c.line.length + (c.data.length + 2) + tail.length := by
    rw [hbytes, List.length_append, hlength]
  rw [List.drop_take, hbehind]
  simp only [recvChunk, c.toInt_size hsize, hbuffered]
  rw [if_neg (by omega)]
  by_cases hall : c.data.length + 2 ≤ e - c.line.length
  · -- the chunk and its line end are in the buffer
    rw [if_pos (by omega), if_neg (by omega), Int.toNat_natCast, List.take_take, List.drop_take,
      List.drop_drop, SocketStream.skip_skip, Nat.min_eq_left (by omega), hrest, List.take_left,
      show c.bytes.length + (e - c.bytes.length) = e by omega]
    have hdrop : s.bytes.drop (c.line.length + (c.data.length + 2)) = tail := by
      rw [← hlength, hbytes, List.drop_left]
    rw [hdrop, hlength, Nat.sub_sub]
  · -- what is missing is read, up to the line end
    have hleft : ((c.data.length : ℤ) - (e - c.line.length : ℕ) + 2).toNat =
        c.data.length + 2 - (e - c.line.length) := by omega
    have hcome : c.data.length + 2 - (e - c.line.length) ≤ (s.skip e).bytes.length := by
      rw [SocketStream.bytes_skip, List.length_drop]
      omega
    have hread := readLeft_eq _ (s := s.skip e) hn hs (Nat.le_refl _) hcome
    rw [if_neg (by omega), hleft, hread, hskip]
    have hwhole : (s.bytes.drop c.line.length).take (e - c.line.length) ++
        ((s.bytes.drop c.line.length).drop (e - c.line.length)).take
          (c.data.length + 2 - (e - c.line.length)) = c.data ++ bytesOf "\r\n" := by
      rw [← List.take_add, hrest, ← List.append_assoc,
        show e - c.line.length + (c.data.length + 2 - (e - c.line.length)) =
          (c.data ++ bytesOf "\r\n").length by rw [List.length_append, hcrlf]; omega,
        List.take_left]
    simp only [List.append_assoc, hwhole]
    have hbody : (body ++ (c.data ++ bytesOf "\r\n")).length = (body ++ c.data).length + 2 := by
      rw [← List.append_assoc, List.length_append, hcrlf]
    rw [if_neg (by omega), hbody, Nat.add_sub_cancel, ← List.append_assoc, List.take_left,
      SocketStream.skip_skip, SocketStream.skip_skip,
      show e - c.bytes.length = 0 by omega, List.take_zero,
      show e + (c.data.length + 2 - (e - c.line.length)) = c.bytes.length + 0 by omega]

theorem buffered_le {b : BufferSize} {e : ℕ} (he : e ≤ b.size) (hfit : e ≤ s.bytes.length) :
    buffered b e s ≤ b.size ∧ buffered b e s ≤ s.bytes.length := by
  rw [buffered]
  split
  · exact ⟨SocketStream.readSize_le, SocketStream.readSize_le_length⟩
  · exact ⟨he, hfit⟩

/-- One turn of the loop, with `e` bytes in the buffer. -/
theorem recvChunks_succ (b : BufferSize) (c : WireChunk) (body : List Byte) {e : ℕ}
    {tail : List Byte} (herror : p.data.error = 0) (hs : s.connected)
    (hbytes : s.bytes = c.bytes ++ tail) (he : e ≤ b.size) (hfit : e ≤ s.bytes.length)
    (hline : c.line.length ≤ buffered b e s) (hsize : c.data.length + 2 < 2 ^ 31) :
    ∃ p', p'.data.error = 0 ∧ p'.data.response.body = p.data.response.body ∧
      recvChunks behindCut b.size (fuel + 1) p (s.bytes.take e) body (s.skip e) =
        let left := buffered b e s - c.bytes.length
        if c.data = [] then .ok (p', body ++ c.data, (s.skip c.bytes.length).skip left)
        else recvChunks behindCut b.size fuel p' ((s.skip c.bytes.length).bytes.take left)
          (body ++ c.data) ((s.skip c.bytes.length).skip left) := by
  obtain ⟨hbuffer, hfit'⟩ := buffered_le he hfit
  have hstart : buffered b e s = e ∨
      e = 0 ∧ s.read b.size = (s.bytes.take (buffered b e s), s.skip (buffered b e s)) := by
    rw [buffered]
    by_cases hzero : e = 0
    · rw [if_pos hzero]
      exact .inr ⟨hzero, SocketStream.read_eq hs b.size⟩
    · exact .inl (if_neg hzero)
  generalize buffered b e s = k at *
  have hpos := List.length_pos_iff.mpr c.line_ne_nil
  have hsplit : s.bytes.take k = c.line ++ (s.bytes.take k).drop c.line.length := by
    have hfirst : (s.bytes.take k).take c.line.length = c.line := by
      rw [List.take_take, Nat.min_eq_left hline, hbytes, WireChunk.bytes, List.append_assoc,
        List.append_assoc, List.take_left]
    conv_lhs => rw [← List.take_append_drop c.line.length (s.bytes.take k), hfirst]
  have hmore : ((s.bytes.take k).drop c.line.length).length ≠ b.size := by
    rw [List.length_drop, List.length_take]
    omega
  have hread : s.bytes.take e = c.line ++ (s.bytes.take k).drop c.line.length ∧
        s.skip k = s.skip e ∨
      s.bytes.take e = [] ∧ (s.skip e).read b.size =
        (c.line ++ (s.bytes.take k).drop c.line.length, s.skip k) := by
    rw [← hsplit]
    rcases hstart with rfl | ⟨rfl, hread⟩
    · exact .inl ⟨rfl, rfl⟩
    · refine .inr ⟨rfl, ?_⟩
      rw [SocketStream.skip_zero]
      exact hread
  obtain ⟨p', hloop, headers, hdata⟩ :=
    recvLine_line behindCut ((s.skip e).bytes.length + 1) c herror hmore hread
  have hchunk := recvChunk_eq c body b.pos hs hbytes hline hfit' hsize
  have hdone : p'.data.chunksDone = decide (c.data = []) := by
    have hiff : (c.data.length : ℤ) ≤ 0 ↔ c.data = [] := by
      rw [← List.length_eq_zero_iff]
      omega
    rw [hdata]
    simp only [ResponseData.chunkSize, c.toInt_size hsize, hiff]
  have hlength : p'.data.contentLen = BitVec.ofNat 32 (strtol 16 c.size) := by
    rw [hdata]
    rfl
  refine ⟨p', by rw [hdata]; exact herror, by rw [hdata], ?_⟩
  rw [recvChunks, hloop]
  simp only [Except.mapError, bind, Except.bind, hlength, hchunk, hdone, decide_eq_true_eq]

/-- The loop for chunks that arrive in orderly reads. -/
theorem recvChunks_eq (b : BufferSize) (last : WireChunk) (hlast : last.data = [])
    (chunks : List WireChunk) (hdata : ∀ c ∈ chunks, c.data ≠ []) (body : List Byte) {e : ℕ}
    {tail : List Byte} (herror : p.data.error = 0) (hs : s.connected)
    (hbytes : s.bytes = chunks.flatMap WireChunk.bytes ++ (last.bytes ++ tail)) (he : e ≤ b.size)
    (hfit : e ≤ s.bytes.length) (horderly : OrderlyChunks b (chunks ++ [last]) e s)
    (hfuel : chunks.length < fuel) :
    ∃ p', p'.data.response.body = p.data.response.body ∧
      recvChunks behindCut b.size fuel p (s.bytes.take e) body (s.skip e) =
        .ok (p', body ++ chunks.flatMap WireChunk.data,
          s.skip ((chunks.flatMap WireChunk.bytes).length + last.bytes.length)) := by
  induction chunks generalizing fuel p s e body with
  | nil =>
    cases fuel with
    | zero => exact absurd hfuel (Nat.not_lt_zero _)
    | succ fuel =>
      obtain ⟨hline, hsize, hnone⟩ := horderly
      rw [OrderlyChunks] at hnone
      obtain ⟨p', -, hbody, hturn⟩ :=
        recvChunks_succ behindCut fuel b last body herror hs hbytes he hfit hline hsize
      refine ⟨p', hbody, ?_⟩
      rw [hturn]
      simp only [hnone, hlast, if_true, SocketStream.skip_zero, List.flatMap_nil, List.length_nil,
        Nat.zero_add]
  | cons c chunks ih =>
    cases fuel with
    | zero => exact absurd hfuel (Nat.not_lt_zero _)
    | succ fuel =>
      obtain ⟨hc, hchunks⟩ := List.forall_mem_cons.mp hdata
      obtain ⟨hline, hsize, hrest⟩ := horderly
      rw [List.flatMap_cons, List.append_assoc] at hbytes
      obtain ⟨p₁, herror₁, hbody₁, hturn⟩ :=
        recvChunks_succ behindCut fuel b c body herror hs hbytes he hfit hline hsize
      obtain ⟨hbuffer, hfit'⟩ := buffered_le he hfit
      have hbehind : (s.skip c.bytes.length).bytes =
          chunks.flatMap WireChunk.bytes ++ (last.bytes ++ tail) := by
        rw [SocketStream.bytes_skip, hbytes, List.drop_left]
      have hfits : buffered b e s - c.bytes.length ≤ (s.skip c.bytes.length).bytes.length := by
        rw [SocketStream.bytes_skip, List.length_drop]
        omega
      obtain ⟨p', hbody, hloop⟩ := ih fuel hchunks (body ++ c.data) herror₁
        (SocketStream.connected_skip.trans hs) hbehind (by omega) hfits hrest
        (Nat.lt_of_succ_lt_succ hfuel)
      refine ⟨p', hbody.trans hbody₁, ?_⟩
      rw [hturn]
      simp only [if_neg hc]
      rw [hloop, SocketStream.skip_skip, List.flatMap_cons, List.flatMap_cons, List.length_append,
        List.append_assoc, Nat.add_assoc]

end Loops

end HttpConnection

end Rsylar.Http
