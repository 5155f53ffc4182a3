import Rsylar.Http.ContentLength
import Rsylar.Http.Response

/-!
# The length that a message announces

What `dump` writes about the size of the body. The header `connection` of the caller is left out in
favour of the line that `dump` writes, but the header `content-length` is not: it is written as it
stands, and for a body that is not empty `dump` writes a line of its own.

The law is on the text, read by lines: `LengthUnambiguous` looks at all fields in front of the body.
It holds when the texts of the caller have no such field, or none but zeros for an empty body
(`dumpedLength`). The requests of the RPC channel have one, so they announce the length twice
(`lengthFields_rpcRequest`).
-/

set_option autoImplicit false
set_option relaxedAutoImplicit false

namespace Rsylar.Http

/-! ### Fields of a text -/

def lowered (s : List Byte) : List ℕ := s.map fun c ↦ toLower c.toNat

/-- Blanks, tabs and the carriage return of a line. -/
def isBlank (c : Byte) : Bool := c = 32#8 ∨ c = 9#8 ∨ c = 13#8

/-- A text without the blanks around it. -/
def trimmed (s : List Byte) : List Byte :=
  ((s.dropWhile isBlank).reverse.dropWhile isBlank).reverse

/-- The value of a line that is a content-length field, in any spelling. -/
def lengthField (line : List Byte) : Option (List Byte) :=
  if 58#8 ∈ line ∧ lowered (line.takeWhile (· ≠ 58#8)) = lowered (bytesOf "content-length") then
    some (trimmed ((line.dropWhile (· ≠ 58#8)).drop 1))
  else none

/-- The values of the content-length fields in a text, in their order. -/
def lengthFields (lines : List (List Byte)) : List (List Byte) := lines.filterMap lengthField

/-- The lines of the head of a message, which is all that is in front of the body. -/
def headLines (dump body : List Byte) : List (List Byte) :=
  (dump.take (dump.length - body.length)).splitOn 10#8

/-- The fields in the head, which begin behind the first line, announce the body: one with its size,
or none but zeros when it is empty. -/
def LengthUnambiguous (dump body : List Byte) : Prop :=
  if body = [] then
    ∀ value ∈ lengthFields (headLines dump body).tail, digitsValue value = some 0
  else
    ∃ value, lengthFields (headLines dump body).tail = [value] ∧
      digitsValue value = some body.length

/-- The same of the fields that the caller has written. -/
def CallerSilent (callerLines : List (List Byte)) (body : List Byte) : Prop :=
  if body = [] then ∀ value ∈ lengthFields callerLines, digitsValue value = some 0
  else lengthFields callerLines = []

section Fields

variable {s t line name value : List Byte} {n : ℕ}

theorem headLines_append_crlf (s t : List Byte) :
    (s ++ bytesOf "\r\n" ++ t).splitOn 10#8 = (s ++ [13#8]).splitOn 10#8 ++ t.splitOn 10#8 := by
  rw [show s ++ bytesOf "\r\n" ++ t = (s ++ [13#8]) ++ 10#8 :: t by simp [bytesOf, byteOf]]
  exact List.splitOn_append_cons_self _ _

theorem dropWhile_isBlank (hs : ∀ c ∈ s, ¬isBlank c) (t : List Byte) :
    (s ++ t).dropWhile isBlank = if s = [] then t.dropWhile isBlank else s ++ t := by
  cases s with
  | nil => rfl
  | cons c s =>
    rw [if_neg (List.cons_ne_nil c s), List.cons_append,
      List.dropWhile_cons_of_neg (hs c List.mem_cons_self)]

/-- Blanks around a text are cut. -/
theorem trimmed_eq (hs : ∀ c ∈ s, ¬isBlank c) (hne : s ≠ []) :
    trimmed (32#8 :: s ++ [13#8]) = s := by
  have hfront : (32#8 :: s ++ [13#8]).dropWhile isBlank = s ++ [13#8] := by
    rw [List.cons_append, List.dropWhile_cons_of_pos (by decide), dropWhile_isBlank hs, if_neg hne]
  have hback : ((s ++ [13#8]).reverse).dropWhile isBlank = s.reverse := by
    rw [List.reverse_append, List.reverse_singleton, List.singleton_append,
      List.dropWhile_cons_of_pos (by decide), ← List.append_nil s.reverse,
      dropWhile_isBlank (fun c hc ↦ hs c (List.mem_reverse.mp hc)),
      if_neg (List.reverse_ne_nil_iff.mpr hne)]
  rw [trimmed, hfront, hback, List.reverse_reverse]

theorem isBlank_of_mem_decimal {c : Byte} (h : c ∈ decimal n) : ¬isBlank c := by
  intro hblank
  have hdigit := isDigit_of_mem_decimal h
  rw [isBlank, decide_eq_true_eq] at hblank
  obtain rfl | rfl | rfl := hblank
  · exact absurd hdigit (by decide)
  · exact absurd hdigit (by decide)
  · exact absurd hdigit (by decide)

theorem decimal_ne_nil (n : ℕ) : decimal n ≠ [] := by
  rw [decimal, ne_eq, List.map_eq_nil_iff]
  exact Nat.toDigits_ne_nil

theorem digitsValue_decimal (n : ℕ) : digitsValue (decimal n) = some n := by
  rw [digitsValue, if_pos ⟨decimal_ne_nil n, List.all_eq_true.mpr fun c ↦ isDigit_of_mem_decimal⟩,
    ofDigits_decimal]

/-- The name of a field ends at the first colon. -/
theorem lengthField_eq (hname : 58#8 ∉ name) (value : List Byte) :
    lengthField (name ++ bytesOf ": " ++ value ++ [13#8]) =
      if lowered name = lowered (bytesOf "content-length") then
        some (trimmed (32#8 :: value ++ [13#8]))
      else none := by
  have hline : name ++ bytesOf ": " ++ value ++ [13#8] =
      name ++ 58#8 :: (32#8 :: value ++ [13#8]) := by
    simp [bytesOf, byteOf]
  have hstop : ∀ c ∈ name, c ≠ 58#8 := fun c hc heq ↦ hname (heq ▸ hc)
  have htake : (name ++ 58#8 :: (32#8 :: value ++ [13#8])).takeWhile (· ≠ 58#8) = name := by
    rw [List.takeWhile_append_of_pos (by simpa using hstop), List.takeWhile_cons_of_neg (by simp),
      List.append_nil]
  have hdrop : (name ++ 58#8 :: (32#8 :: value ++ [13#8])).dropWhile (· ≠ 58#8) =
      58#8 :: (32#8 :: value ++ [13#8]) := by
    rw [List.dropWhile_append_of_pos (by simpa using hstop), List.dropWhile_cons_of_neg (by simp)]
  rw [hline, lengthField, htake, hdrop, List.drop_one, List.tail_cons]
  simp

/-- The line that `dump` writes. -/
theorem lengthField_decimal (n : ℕ) :
    lengthField (bytesOf "content-length" ++ bytesOf ": " ++ decimal n ++ [13#8]) =
      some (decimal n) := by
  rw [lengthField_eq (by decide), if_pos rfl,
    trimmed_eq (fun c ↦ isBlank_of_mem_decimal) (decimal_ne_nil n)]

/-- What the law says of a head whose fields are those of the caller and, for a body that is not
empty, one with its size. -/
theorem lengthUnambiguous_iff {dump body : List Byte} {callerLines : List (List Byte)}
    (h : lengthFields (headLines dump body).tail =
      lengthFields callerLines ++ if body = [] then [] else [decimal body.length]) :
    LengthUnambiguous dump body ↔ CallerSilent callerLines body := by
  rw [LengthUnambiguous, CallerSilent, h]
  split
  · rw [List.append_nil]
  · constructor
    · rintro ⟨value, hvalues, -⟩
      exact (List.append_eq_singleton_iff.mp hvalues |>.resolve_right (by simp)).1
    · intro hnil
      exact ⟨decimal body.length, by rw [hnil, List.nil_append], digitsValue_decimal _⟩

end Fields

/-! ### Messages -/

/-- What `dump` writes in front of the lines of fields, the fields without the one for the length
that it adds, and the body. -/
structure MessageText where
  startLine : List Byte
  fields : List Header
  body : List Byte

namespace MessageText

def dump (m : MessageText) : List Byte :=
  m.startLine ++ bytesOf "\r\n" ++
    m.fields.flatMap (fun h ↦ HttpRequest.dumpHeader h.name h.value) ++
    (if m.body = [] then bytesOf "\r\n"
      else HttpRequest.dumpHeader (bytesOf "content-length") (decimal m.body.length) ++
        bytesOf "\r\n" ++ m.body)

end MessageText

/-- The lines of a header: more than one when its texts contain a line feed. -/
def Header.lines (h : Header) : List (List Byte) :=
  (h.name ++ bytesOf ": " ++ h.value ++ [13#8]).splitOn 10#8

/-- The lines behind the first one of the text in front of the headers. -/
def startRest (startLine : List Byte) : List (List Byte) :=
  ((startLine ++ [13#8]).splitOn 10#8).tail

namespace MessageText

theorem splitOn_fields (fields : List Header) (t : List Byte) :
    (fields.flatMap (fun h ↦ HttpRequest.dumpHeader h.name h.value) ++ t).splitOn 10#8 =
      fields.flatMap Header.lines ++ t.splitOn 10#8 := by
  induction fields with
  | nil => rfl
  | cons h fields ih =>
    rw [List.flatMap_cons, List.flatMap_cons, List.append_assoc, HttpRequest.dumpHeader,
      headLines_append_crlf, ih]
    exact (List.append_assoc h.lines _ _).symm

/-- The lines of the head behind the first one. -/
theorem tail_headLines (m : MessageText) :
    (headLines m.dump m.body).tail = startRest m.startLine ++ m.fields.flatMap Header.lines ++
      (if m.body = [] then [] else
        Header.lines ⟨bytesOf "content-length", decimal m.body.length⟩) ++ [[13#8], []] := by
  set own : List Byte := if m.body = [] then []
    else HttpRequest.dumpHeader (bytesOf "content-length") (decimal m.body.length) with hown
  have hdump : m.dump = (m.startLine ++ bytesOf "\r\n" ++
      (m.fields.flatMap (fun h ↦ HttpRequest.dumpHeader h.name h.value) ++
        (own ++ bytesOf "\r\n"))) ++ m.body := by
    rw [dump, hown]
    split
    · rename_i hbody
      simp [hbody]
    · simp
  have hlast : (own ++ bytesOf "\r\n").splitOn 10#8 = (if m.body = [] then [] else
      Header.lines ⟨bytesOf "content-length", decimal m.body.length⟩) ++ [[13#8], []] := by
    rw [hown]
    split
    · decide
    · rw [HttpRequest.dumpHeader, headLines_append_crlf]
      rfl
  rw [headLines, hdump, List.length_append, Nat.add_sub_cancel, List.take_left,
    headLines_append_crlf, splitOn_fields, hlast, startRest,
    List.tail_append_of_ne_nil (List.splitOn_ne_nil _ _)]
  simp

/-- The fields of the dump: those of the caller and one for a body that is not empty. -/
theorem lengthFields_headLines (m : MessageText) :
    lengthFields (headLines m.dump m.body).tail =
      lengthFields (startRest m.startLine ++ m.fields.flatMap Header.lines) ++
        if m.body = [] then [] else [decimal m.body.length] := by
  have hline : 10#8 ∉ bytesOf "content-length" ++ bytesOf ": " ++ decimal m.body.length ++
      [13#8] := by
    have hdigits : 10#8 ∉ decimal m.body.length := fun h ↦
      absurd (isDigit_of_mem_decimal h) (by decide)
    have htext : 10#8 ∉ bytesOf "content-length" ++ bytesOf ": " := by decide
    simp only [List.mem_append, not_or] at htext ⊢
    exact ⟨⟨htext, hdigits⟩, by decide⟩
  have hown : lengthFields (if m.body = [] then [] else
      Header.lines ⟨bytesOf "content-length", decimal m.body.length⟩) =
        if m.body = [] then [] else [decimal m.body.length] := by
    split
    · rfl
    · rw [Header.lines, List.splitOn_eq_singleton hline, lengthFields, List.filterMap_cons,
        lengthField_decimal, List.filterMap_nil]
  have hblank : lengthFields [[13#8], []] = [] := by decide
  rw [tail_headLines, lengthFields, List.filterMap_append, List.filterMap_append]
  change lengthFields _ ++ lengthFields _ ++ lengthFields _ = _
  rw [hown, hblank, List.append_nil]

end MessageText

/-- `HttpMethodToString`, `none` being `INVALID_METHOD`. -/
def httpMethodToString (method : Option HttpMethod) : String :=
  (method.map HttpMethod.text).getD "<unknown>"

namespace HttpRequest

def startLine (method : Option HttpMethod) (r : HttpRequest) : List Byte :=
  bytesOf (httpMethodToString method) ++ bytesOf " " ++ r.path ++
    (if r.query = [] then [] else bytesOf "?") ++ r.query ++
    (if r.fragment = [] then [] else bytesOf "#") ++ r.fragment ++
    bytesOf " HTTP/" ++ decimal (r.version.toNat / 16) ++ bytesOf "." ++
    decimal (r.version.toNat % 16)

/-- `dump` for all values of `m_method`. -/
def dumpAs (method : Option HttpMethod) (r : HttpRequest) : List Byte :=
  r.startLine method ++ bytesOf "\r\n" ++
    (if r.websocket then []
      else dumpHeader (bytesOf "connection")
        (bytesOf (if r.close then "close" else "keep-alive"))) ++
    r.headers.list.flatMap (fun h ↦
      if !r.websocket && strcasecmp h.name (bytesOf "connection") then []
      else dumpHeader h.name h.value) ++
    (if r.body = [] then bytesOf "\r\n"
      else dumpHeader (bytesOf "content-length") (decimal r.body.length) ++ bytesOf "\r\n" ++
        r.body)

theorem dump_eq_dumpAs (r : HttpRequest) : r.dump = r.dumpAs (some r.method) := rfl

end HttpRequest

/-- The headers that are written. -/
def Headers.written (hs : Headers) (websocket : Bool) : List Header :=
  hs.list.filter fun h ↦ !(!websocket && strcasecmp h.name (bytesOf "connection"))

/-- The line that `dump` writes in place of the header. -/
def connectionFields (websocket close : Bool) : List Header :=
  if websocket then []
  else [⟨bytesOf "connection", bytesOf (if close then "close" else "keep-alive")⟩]

/-- The lines with texts of the caller. -/
def HttpRequest.callerLines (method : Option HttpMethod) (r : HttpRequest) : List (List Byte) :=
  startRest (r.startLine method) ++ (r.headers.written r.websocket).flatMap Header.lines

namespace HttpResponse

def startLine (r : HttpResponse) : List Byte :=
  bytesOf "HTTP/" ++ decimal (r.version.toNat / 16) ++ bytesOf "." ++
    decimal (r.version.toNat % 16) ++ bytesOf " " ++ decimal r.status.toNat ++ bytesOf " " ++
    if r.reason = [] then bytesOf (httpStatusToString r.status) else r.reason

def cookieFields (r : HttpResponse) : List Header :=
  r.cookies.map fun cookie ↦ ⟨bytesOf "Set-Cookie", cookie⟩

def callerLines (r : HttpResponse) : List (List Byte) :=
  startRest r.startLine ++ (r.headers.written r.websocket).flatMap Header.lines ++
    r.cookieFields.flatMap Header.lines

end HttpResponse

section Messages

theorem flatMap_written (hs : Headers) (websocket : Bool) :
    hs.list.flatMap (fun h ↦
        if !websocket && strcasecmp h.name (bytesOf "connection") then []
        else HttpRequest.dumpHeader h.name h.value) =
      (hs.written websocket).flatMap fun h ↦ HttpRequest.dumpHeader h.name h.value := by
  rw [Headers.written]
  induction hs.list with
  | nil => rfl
  | cons h list ih =>
    rw [List.flatMap_cons, ih, List.filter_cons]
    cases !websocket && strcasecmp h.name (bytesOf "connection") with
    | true => simp
    | false => simp

theorem flatMap_connectionFields (websocket close : Bool) :
    (connectionFields websocket close).flatMap (fun h ↦ HttpRequest.dumpHeader h.name h.value) =
      if websocket then []
      else HttpRequest.dumpHeader (bytesOf "connection")
        (bytesOf (if close then "close" else "keep-alive")) := by
  rw [connectionFields]
  split
  · rfl
  · exact List.append_nil _

theorem lengthFields_connectionFields (websocket close : Bool) :
    lengthFields ((connectionFields websocket close).flatMap Header.lines) = [] := by
  cases websocket with
  | true => rfl
  | false =>
    cases close with
    | true => decide
    | false => decide

/-- The fields of a request: those of the caller and one for a body that is not empty. -/
theorem HttpRequest.lengthFields_dumpAs (method : Option HttpMethod) (r : HttpRequest) :
    lengthFields (headLines (r.dumpAs method) r.body).tail =
      lengthFields (r.callerLines method) ++
        if r.body = [] then [] else [decimal r.body.length] := by
  have hdump : r.dumpAs method = MessageText.dump ⟨r.startLine method,
      connectionFields r.websocket r.close ++ r.headers.written r.websocket, r.body⟩ := by
    rw [dumpAs, MessageText.dump, List.flatMap_append, flatMap_written, flatMap_connectionFields]
    simp only [List.append_assoc]
  have hfields : lengthFields (startRest (r.startLine method) ++
      (connectionFields r.websocket r.close ++ r.headers.written r.websocket).flatMap
        Header.lines) = lengthFields (r.callerLines method) := by
    have hconnection := lengthFields_connectionFields r.websocket r.close
    simp only [callerLines, lengthFields, List.flatMap_append, List.filterMap_append] at *
    rw [hconnection, List.nil_append]
  rw [hdump, ← hfields]
  exact MessageText.lengthFields_headLines _

theorem HttpResponse.lengthFields_dump (r : HttpResponse) :
    lengthFields (headLines r.dump r.body).tail =
      lengthFields r.callerLines ++ if r.body = [] then [] else [decimal r.body.length] := by
  have hcookies : r.cookies.flatMap (HttpRequest.dumpHeader (bytesOf "Set-Cookie")) =
      r.cookieFields.flatMap fun h ↦ HttpRequest.dumpHeader h.name h.value := by
    rw [cookieFields, List.flatMap_map]
  have hdump : r.dump = MessageText.dump ⟨r.startLine, r.headers.written r.websocket ++
      r.cookieFields ++ connectionFields r.websocket r.close, r.body⟩ := by
    rw [dump, MessageText.dump, List.flatMap_append, List.flatMap_append, flatMap_written,
      flatMap_connectionFields, hcookies, startLine]
    simp only [List.append_assoc]
  have hfields : lengthFields (startRest r.startLine ++ (r.headers.written r.websocket ++
      r.cookieFields ++ connectionFields r.websocket r.close).flatMap Header.lines) =
        lengthFields r.callerLines := by
    have hconnection := lengthFields_connectionFields r.websocket r.close
    simp only [callerLines, lengthFields, List.flatMap_append, List.filterMap_append] at *
    rw [hconnection, List.append_nil, List.append_assoc]
  rw [hdump, ← hfields]
  exact MessageText.lengthFields_headLines _

end Messages

/-- The length of a message is unambiguous exactly when the caller has not announced it, except as
0 for an empty body. -/
theorem dumpedLength (method : Option HttpMethod) (r : HttpRequest) (response : HttpResponse) :
    (LengthUnambiguous (r.dumpAs method) r.body ↔ CallerSilent (r.callerLines method) r.body) ∧
      (LengthUnambiguous response.dump response.body ↔
        CallerSilent response.callerLines response.body) :=
  ⟨lengthUnambiguous_iff (r.lengthFields_dumpAs method),
    lengthUnambiguous_iff response.lengthFields_dump⟩

/-! ### Texts of one line -/

/-- A header that stays on its line and whose name is the name of its field. -/
structure Header.Plain (h : Header) : Prop where
  name : 10#8 ∉ h.name
  value : 10#8 ∉ h.value
  colon : 58#8 ∉ h.name

/-- The values in the headers for the length. -/
def lengthHeaders (headers : List Header) : List (List Byte) :=
  (headers.filter fun h ↦ lowered h.name = lowered (bytesOf "content-length")).map fun h ↦
    trimmed (32#8 :: h.value ++ [13#8])

theorem lengthFields_lines {headers : List Header} (hplain : ∀ h ∈ headers, h.Plain) :
    lengthFields (headers.flatMap Header.lines) = lengthHeaders headers := by
  induction headers with
  | nil => rfl
  | cons h headers ih =>
    obtain ⟨hhead, hrest⟩ := List.forall_mem_cons.mp hplain
    have hline : 10#8 ∉ h.name ++ bytesOf ": " ++ h.value ++ [13#8] := by
      have hseparator : 10#8 ∉ bytesOf ": " := by decide
      simp only [List.mem_append, not_or]
      exact ⟨⟨⟨hhead.name, hseparator⟩, hhead.value⟩, by decide⟩
    rw [List.flatMap_cons, Header.lines, List.splitOn_eq_singleton hline, List.singleton_append,
      lengthFields, List.filterMap_cons, lengthField_eq hhead.colon, lengthHeaders,
      List.filter_cons]
    by_cases hname : lowered h.name = lowered (bytesOf "content-length")
    · rw [if_pos hname, if_pos (by simpa using hname), List.map_cons]
      exact congrArg _ (ih hrest)
    · rw [if_neg hname, if_neg (by simpa using hname)]
      exact ih hrest

theorem startRest_of_not_mem {s : List Byte} (h : 10#8 ∉ s) : startRest s = [] := by
  have hline : 10#8 ∉ s ++ [13#8] := by
    simp only [List.mem_append, not_or]
    exact ⟨h, by decide⟩
  rw [startRest, List.splitOn_eq_singleton hline, List.tail_cons]

/-- On one line the caller announces a length by a header only. -/
theorem HttpRequest.lengthFields_callerLines {method : Option HttpMethod} {r : HttpRequest}
    (hstart : 10#8 ∉ r.startLine method)
    (hplain : ∀ h ∈ r.headers.written r.websocket, h.Plain) :
    lengthFields (r.callerLines method) = lengthHeaders (r.headers.written r.websocket) := by
  rw [callerLines, startRest_of_not_mem hstart, List.nil_append, lengthFields_lines hplain]

/-- The request of `MprpcChannel::CallMethod`. -/
def rpcRequest (serviceName methodName reqStr : List Byte) : HttpRequest where
  method := .post
  path := bytesOf "/rpc/" ++ serviceName ++ bytesOf "/" ++ methodName
  close := false
  body := reqStr
  headers := (Headers.setHeader ⟨[], Headers.sorted_nil⟩ (bytesOf "Content-Type")
    (bytesOf "application/octet-stream")).setHeader (bytesOf "Content-Length")
      (decimal reqStr.length)

theorem written_rpcRequest (serviceName methodName reqStr : List Byte) :
    (rpcRequest serviceName methodName reqStr).headers.written false =
      [⟨bytesOf "Content-Length", decimal reqStr.length⟩,
        ⟨bytesOf "Content-Type", bytesOf "application/octet-stream"⟩] := by
  rfl

/-- The RPC channel announces the length of every body that is not empty twice. -/
theorem lengthFields_rpcRequest {serviceName methodName : List Byte} (reqStr : List Byte)
    (hservice : 10#8 ∉ serviceName) (hmethod : 10#8 ∉ methodName) :
    lengthFields (headLines (rpcRequest serviceName methodName reqStr).dump reqStr).tail =
      decimal reqStr.length :: if reqStr = [] then [] else [decimal reqStr.length] := by
  have hstart : 10#8 ∉ (rpcRequest serviceName methodName reqStr).startLine (some .post) := by
    have hfront : 10#8 ∉ bytesOf "POST" ++ bytesOf " " ++ bytesOf "/rpc/" := by decide
    have hback : 10#8 ∉ bytesOf " HTTP/" ++ decimal 1 ++ bytesOf "." ++ decimal 1 := by decide
    have hslash : 10#8 ∉ bytesOf "/" := by decide
    have hline : (rpcRequest serviceName methodName reqStr).startLine (some .post) =
        bytesOf "POST" ++ bytesOf " " ++ bytesOf "/rpc/" ++ (serviceName ++ bytesOf "/" ++
          methodName) ++ (bytesOf " HTTP/" ++ decimal 1 ++ bytesOf "." ++ decimal 1) := by
      simp [HttpRequest.startLine, rpcRequest, httpMethodToString, HttpMethod.text]
    rw [hline]
    simp only [List.mem_append, not_or] at hfront hback ⊢
    exact ⟨⟨hfront, ⟨hservice, hslash⟩, hmethod⟩, hback⟩
  have hdigits : 10#8 ∉ decimal reqStr.length := fun h ↦
    absurd (isDigit_of_mem_decimal h) (by decide)
  have hplain : ∀ h ∈ (rpcRequest serviceName methodName reqStr).headers.written false,
      h.Plain := by
    intro h hmem
    rw [written_rpcRequest, List.mem_cons, List.mem_singleton] at hmem
    have hname : 10#8 ∉ bytesOf "Content-Length" ∧ 58#8 ∉ bytesOf "Content-Length" := by decide
    obtain rfl | rfl := hmem
    · exact ⟨hname.1, hdigits, hname.2⟩
    · exact ⟨by decide, by decide, by decide⟩
  have hfields := HttpRequest.lengthFields_callerLines hstart hplain
  have hvalues : lengthHeaders ((rpcRequest serviceName methodName reqStr).headers.written false) =
      [decimal reqStr.length] := by
    have hvalue : trimmed (32#8 :: decimal reqStr.length ++ [13#8]) = decimal reqStr.length :=
      trimmed_eq (fun c ↦ isBlank_of_mem_decimal) (decimal_ne_nil _)
    have hname : lowered (bytesOf "Content-Length") = lowered (bytesOf "content-length") := by
      decide
    rw [written_rpcRequest, lengthHeaders, List.filter_cons, if_pos (decide_eq_true hname),
      List.filter_cons_of_neg (by decide), List.filter_nil, List.map_singleton, hvalue]
  rw [HttpRequest.dump_eq_dumpAs]
  refine (HttpRequest.lengthFields_dumpAs _ _).trans ?_
  rw [show (rpcRequest serviceName methodName reqStr).method = .post from rfl, hfields]
  exact congrArg (· ++ _) hvalues

/-- The request of a call with a body of two bytes. -/
def callTwo : HttpRequest := rpcRequest (bytesOf "kvServerRpc") (bytesOf "Get") (bytesOf "ab")

theorem not_lengthUnambiguous_callTwo :
    ¬ ∀ (method : Option HttpMethod) (r : HttpRequest),
      LengthUnambiguous (r.dumpAs method) r.body := by
  intro h
  have hcall := h (some .post) callTwo
  have hfields : lengthFields (headLines (callTwo.dumpAs (some .post)) callTwo.body).tail =
      [decimal 2, decimal 2] :=
    lengthFields_rpcRequest (bytesOf "ab") (by decide) (by decide)
  rw [LengthUnambiguous, if_neg (by decide)] at hcall
  obtain ⟨value, hvalue, -⟩ := hcall
  rw [hfields] at hvalue
  cases hvalue

end Rsylar.Http
