import Rsylar.Http.ResponseRoundTrip

/-!
# Requests as a client writes them

What `recvRequest` makes of a request whose map of headers may itself have the connection, for which
`dump` writes a line of its own, or the length of the body, which is then written twice. Every
header is found that is in the map or in a line of its own (`HttpRequest.ArrivesAs`).
-/

set_option autoImplicit false
set_option relaxedAutoImplicit false

namespace Rsylar.Http

open ActionRegex Scanner

namespace HttpRequest

/-- The headers that are written as they are. -/
def writtenHeaders (r : HttpRequest) : List Header :=
  r.headers.list.filter fun h ↦ !strcasecmp h.name (bytesOf "connection")

/-- A request whose parts the grammar allows, and whose headers announce its body or none. -/
structure Sendable (relaxed : Bool) (r : HttpRequest) : Prop where
  method : r.method ≠ .msearch
  websocket : r.websocket = false
  version : r.version = 0x11#8 ∨ r.version = 0x10#8
  path : (HttpParser.pathAbsolute relaxed).accepts (r.path.map BitVec.toNat)
  query : (HttpParser.queryChars relaxed).accepts (r.query.map BitVec.toNat)
  fragment : (HttpParser.fragmentChars relaxed).accepts (r.fragment.map BitVec.toNat)
  names : ∀ h ∈ r.writtenHeaders,
    h.name ≠ [] ∧ ∀ c ∈ h.name, HttpParser.nameChars.mem c.toNat
  lengths : ∀ h ∈ r.writtenHeaders,
    h.key = caseKey (bytesOf "content-length") → h.value = decimal r.body.length
  values : ∀ h ∈ r.writtenHeaders,
    (∀ c ∈ h.value, HttpParser.valueChars.mem c.toNat) ∧ h.value.head? ≠ some 32#8
  body : r.body.length < 2 ^ 63

/-- The header lines in their order. -/
def sentFields (r : HttpRequest) : List Header :=
  ⟨bytesOf "connection", bytesOf (if r.close then "close" else "keep-alive")⟩ ::
    (r.writtenHeaders ++
      if r.body = [] then [] else [⟨bytesOf "content-length", decimal r.body.length⟩])

/-- What is written in front of the body. -/
def sentHead (r : HttpRequest) : List Byte :=
  bytesOf r.method.text ++ [32#8] ++ (r.uriText ++ [32#8]) ++ (r.versionText ++ bytesOf "\r\n") ++
    r.sentFields.flatMap (fun h ↦ dumpHeader h.name h.value) ++ bytesOf "\r\n"

/-- The request that arrives, but for the body. -/
def arrivedHead (r : HttpRequest) : HttpRequest :=
  { ofParser with
    method := r.method
    version := r.version
    path := r.path
    query := r.query
    fragment := r.fragment
    headers := ofParser.headers.setAll r.sentFields }

/-- The request that arrives. -/
def arrived (r : HttpRequest) : HttpRequest :=
  { r.arrivedHead with body := r.body, close := r.close }

/-- What a server has of a request. -/
structure ArrivesAs (r r' : HttpRequest) : Prop where
  method : r'.method = r.method
  version : r'.version = r.version
  path : r'.path = r.path
  query : r'.query = r.query
  fragment : r'.fragment = r.fragment
  body : r'.body = r.body
  close : r'.close = r.close
  websocket : r'.websocket = false
  headers : ∀ name, (r'.headers.find name).map Header.value =
    if caseKey name = caseKey (bytesOf "connection") then
      some (bytesOf (if r.close then "close" else "keep-alive"))
    else if caseKey name = caseKey (bytesOf "content-length") ∧ r.body ≠ [] then
      some (decimal r.body.length)
    else (r.headers.find name).map Header.value

variable {relaxed : Bool} {r : HttpRequest}

/-- Without its headers the request is one that was looked at before. -/
theorem Sendable.bare (h : r.Sendable relaxed) : { r with headers := {} }.Writable relaxed where
  websocket := h.websocket
  version := h.version
  path := h.path
  query := h.query
  fragment := h.fragment
  names := fun _ hf ↦ absurd hf List.not_mem_nil
  others := fun _ hf ↦ absurd hf List.not_mem_nil
  values := fun _ hf ↦ absurd hf List.not_mem_nil
  body := h.body

theorem Sendable.dump_eq (h : r.Sendable relaxed) : r.dump = r.sentHead ++ r.body := by
  have hlines : r.headers.list.flatMap (fun h ↦
      if !r.websocket && strcasecmp h.name (bytesOf "connection") then []
      else dumpHeader h.name h.value) =
        r.writtenHeaders.flatMap fun h ↦ dumpHeader h.name h.value := by
    rw [h.websocket]
    exact HttpResponse.flatMap_dumpHeader r.headers.list
  have hspace : bytesOf " " = [32#8] := by decide
  have hversion : bytesOf " HTTP/" = [32#8] ++ bytesOf "HTTP/" := by decide
  rw [dump, hlines, hspace, hversion, h.websocket, sentHead, sentFields, uriText, versionText]
  by_cases hbody : r.body = []
  · simp [hbody]
  · simp [hbody]

theorem accepts_nameText {name : List Byte} (hne : name ≠ [])
    (hchars : ∀ c ∈ name, HttpParser.nameChars.mem c.toNat) :
    HttpParser.nameText.accepts (name.map BitVec.toNat) := by
  cases name with
  | nil => exact absurd rfl hne
  | cons c name =>
    obtain ⟨hc, hrest⟩ := List.forall_mem_cons.mp hchars
    rw [List.map_cons, HttpParser.nameText, Expr.plus, Expr.accepts_cat_chars hc]
    exact Expr.accepts_star_chars (List.forall_mem_map.mpr hrest)

/-- The fields are header lines. -/
theorem Sendable.sentFields_lines (h : r.Sendable relaxed) : ∀ f ∈ r.sentFields,
    HttpParser.nameText.accepts (f.name.map BitVec.toNat) ∧ f.name ≠ [] ∧
      (f.value ≠ [] → HttpParser.valueText.accepts (f.value.map BitVec.toNat)) := by
  intro f hf
  rcases List.mem_cons.mp hf with rfl | hf
  · exact h.bare.fields_lines _ List.mem_cons_self
  rcases List.mem_append.mp hf with hf | hf
  · obtain ⟨hne, hchars⟩ := h.names f hf
    obtain ⟨hvalue, hfirst⟩ := h.values f hf
    exact ⟨accepts_nameText hne hchars, hne, fun hsome ↦ accepts_valueText hsome hvalue hfirst⟩
  · exact h.bare.fields_lines f (List.mem_cons_of_mem _ (List.mem_append_right _ hf))

/-- The machine reads the head, and the callbacks set what was written. -/
theorem Sendable.reads_head (h : r.Sendable relaxed) :
    ReadsWhole (HttpParser.start relaxed) r.sentHead ∧
      RequestData.parsed relaxed r.sentHead = { request := r.arrivedHead } := by
  obtain ⟨m₁, calls, huri, hcalls⟩ := HttpParser.reaches_uri h.path h.query h.fragment
  obtain ⟨m₂, hversion⟩ := HttpParser.reaches_version h.bare.accepts_version
  obtain ⟨m₃, hlines⟩ := HttpParser.reaches_headerLines h.sentFields_lines
  have hread : Finishes [] r.sentHead (HttpParser.start relaxed) {} _ :=
    ((((HttpParser.reaches_method h.method).append huri).append hversion).append hlines).finish
      HttpParser.finishes_emptyLine
  refine ⟨hread.readsWhole, ?_⟩
  have hset : ∀ d : RequestData, d.onCall (.token .httpVersion
      ({ r with headers := {} } : HttpRequest).versionText 13#8) =
        { d with request := { d.request with version := r.version } } := h.bare.onCall_version
  rw [RequestData.parsed, hread.calls]
  simp only [List.foldl_append, List.foldl_cons, List.foldl_nil]
  rw [onCall_method, hcalls, hset, foldl_fields fun f hf ↦ (h.sentFields_lines f hf).2.1]
  have hquery : (if r.query = [] then [] else r.query) = r.query := by
    split
    · rename_i hnone
      exact hnone.symm
    · rfl
  have hfragment : (if r.fragment = [] then [] else r.fragment) = r.fragment := by
    split
    · rename_i hnone
      exact hnone.symm
    · rfl
  simp only [RequestData.onUri, newRequestParser, hquery, hfragment]
  rfl

/-- Every header that is written is found. -/
theorem find_arrivedHead (r : HttpRequest) (name : List Byte) :
    (r.arrivedHead.headers.find name).map Header.value =
      if caseKey name = caseKey (bytesOf "connection") then
        some (bytesOf (if r.close then "close" else "keep-alive"))
      else if caseKey name = caseKey (bytesOf "content-length") ∧ r.body ≠ [] then
        some (decimal r.body.length)
      else (r.headers.find name).map Header.value := by
  have hempty : ofParser.headers.find name = none := rfl
  have hlength : Headers.named name
      (if r.body = [] then [] else [⟨bytesOf "content-length", decimal r.body.length⟩]) =
        if caseKey name = caseKey (bytesOf "content-length") ∧ r.body ≠ [] then
          [⟨bytesOf "content-length", decimal r.body.length⟩]
        else [] := by
    by_cases hbody : r.body = []
    · rw [if_pos hbody, if_neg fun h ↦ h.2 hbody]
      rfl
    · rw [if_neg hbody]
      by_cases hname : caseKey name = caseKey (bytesOf "content-length")
      · rw [if_pos ⟨hname, hbody⟩]
        exact Headers.named_cons_of_eq hname.symm
      · rw [if_neg fun h ↦ hname h.1]
        exact Headers.named_cons_of_ne (Ne.symm hname)
  rw [arrivedHead, Headers.find_setAll_getLast?, hempty, Option.map_none, Option.or_none,
    sentFields]
  by_cases hconnection : caseKey name = caseKey (bytesOf "connection")
  · have hothers : Headers.named name r.writtenHeaders = [] := by
      refine Headers.named_eq_nil fun f hf hkey ↦ ?_
      have hnot := (List.mem_filter.mp hf).2
      rw [strcasecmp, decide_eq_true (show caseKey f.name = _ from hkey.trans hconnection)] at hnot
      cases hnot
    have hnone : ¬(caseKey name = caseKey (bytesOf "content-length") ∧ r.body ≠ []) :=
      fun h ↦ connection_ne (hconnection.symm.trans h.1)
    rw [if_pos hconnection, Headers.named_cons_of_eq (f := ⟨bytesOf "connection", _⟩)
      hconnection.symm, Headers.named_append, hothers, hlength, if_neg hnone]
    rfl
  · rw [if_neg hconnection, Headers.named_cons_of_ne (Ne.symm hconnection), Headers.named_append,
      hlength, List.getLast?_append, writtenHeaders, HttpResponse.named_filter r.headers hconnection]
    split
    · rfl
    · rfl

theorem Sendable.contentLength (h : r.Sendable relaxed) :
    r.arrivedHead.headers.contentLength = r.body.length := by
  have hannounced : ∀ f, r.headers.find (bytesOf "content-length") = some f →
      f.value = decimal r.body.length := by
    intro f hf
    have hkey : f.key = caseKey (bytesOf "content-length") :=
      OrderedSet.key_of_find r.headers.sorted hf
    have hother : (!strcasecmp f.name (bytesOf "connection")) = true := by
      rw [strcasecmp, decide_eq_false fun heq : caseKey f.name = _ ↦
        connection_ne (heq.symm.trans hkey)]
      rfl
    exact h.lengths f (List.mem_filter.mpr ⟨(OrderedSet.mem_of_find hf).1, hother⟩) hkey
  refine Headers.contentLength_eq h.body ?_
  rw [find_arrivedHead, if_neg connection_ne.symm]
  by_cases hbody : r.body = []
  · rw [if_neg fun h ↦ h.2 hbody]
    cases hfind : r.headers.find (bytesOf "content-length") with
    | none => exact .inr ⟨rfl, congrArg List.length hbody⟩
    | some f => exact .inl (congrArg some (hannounced f hfind))
  · exact .inl (if_pos ⟨rfl, hbody⟩)

/-- The request on the wire. -/
def Sendable.wire (h : r.Sendable relaxed) : WireRequest relaxed where
  head := r.sentHead
  body := r.body
  whole := h.reads_head.1
  lawful := by
    rw [h.reads_head.2]
    rfl
  framed := by
    rw [h.reads_head.2, h.contentLength, Int.toNat_natCast]

theorem Sendable.request_wire (h : r.Sendable relaxed) : h.wire.request = r.arrived := by
  have hconnection : r.arrivedHead.headers.getHeader (bytesOf "connection") =
      bytesOf (if r.close then "close" else "keep-alive") := by
    rw [Headers.getHeader_eq, find_arrivedHead, if_pos rfl]
    rfl
  have hclose : ∀ close : Bool, bytesOf (if close then "close" else "keep-alive") ≠ [] ∧
      (!strcasecmp (bytesOf (if close then "close" else "keep-alive")) (bytesOf "keep-alive")) =
        close := by
    decide
  obtain ⟨hne, hclosed⟩ := hclose r.close
  have hparsed : RequestData.parsed relaxed h.wire.head = { request := r.arrivedHead } :=
    h.reads_head.2
  rw [WireRequest.request, hparsed, init]
  simp only [hconnection]
  rw [if_neg hne, hclosed]
  rfl

theorem arrivesAs (r : HttpRequest) : r.ArrivesAs r.arrived :=
  ⟨rfl, rfl, rfl, rfl, rfl, rfl, rfl, rfl, r.find_arrivedHead⟩

/-- The reads that return the request: none of the head ends inside an element, and the one that
completes the head ends in the request, with a rest whose length is a positive `int`. -/
structure OrderlyReads (relaxed : Bool) (b : BufferSize) (r : HttpRequest) (s : SocketStream) :
    Prop where
  head : HeadReads (HttpParser.start relaxed) b r.sentHead s
  body : ∀ i, s.readEnd b.size i < r.sentHead.length →
    r.sentHead.length ≤ s.readEnd b.size (i + 1) →
      s.readEnd b.size (i + 1) = r.dump.length ∨ s.readEnd b.size (i + 1) < r.dump.length ∧
        0 < (BitVec.ofNat 32 (r.dump.length - s.readEnd b.size (i + 1))).toInt

/-- What the server makes of a request that arrives in orderly reads. -/
theorem Sendable.recvRequest_eq (h : r.Sendable relaxed) {b : BufferSize} {s : SocketStream}
    {tail : List Byte} (hs : s.connected) (hbytes : s.bytes = r.dump ++ tail)
    (horderly : r.OrderlyReads relaxed b s) :
    HttpSession.recvRequest relaxed b s = (.ok r.arrived, s.skip r.dump.length) := by
  have hdump : r.dump = h.wire.bytes := h.dump_eq
  have hreads : h.wire.OrderlyReads b s := by
    refine ⟨horderly.head, ?_⟩
    rw [← hdump]
    exact horderly.body
  rw [← h.request_wire]
  rw [hdump] at hbytes ⊢
  exact Rsylar.Http.recvRequest_eq h.wire hs hbytes hreads

end HttpRequest

end Rsylar.Http
