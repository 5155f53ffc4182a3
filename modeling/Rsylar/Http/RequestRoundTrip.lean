import Rsylar.Http.RequestElements
import Rsylar.Http.RequestStream

/-!
# Writing and receiving a request

A request that `HttpRequest::dump` writes is read back by `recvRequest` (`requestRoundTrip`), but for
two things: the grammar has no hyphen in a method, so that `M-SEARCH` is refused although the table
of methods has it, and `readFixSize` returns the length of what it has read as an `int`, so that a
rest of the body that is `2^31` bytes long counts as a failure.
-/

set_option autoImplicit false
set_option relaxedAutoImplicit false

namespace Rsylar.Http

open ActionRegex Scanner

/-! ### What is written -/

/-- A request whose parts the grammar allows; a string has less than `2^63` bytes. -/
structure HttpRequest.Writable (relaxed : Bool) (r : HttpRequest) : Prop where
  websocket : r.websocket = false
  version : r.version = 0x11#8 ∨ r.version = 0x10#8
  path : (HttpParser.pathAbsolute relaxed).accepts (r.path.map BitVec.toNat)
  query : (HttpParser.queryChars relaxed).accepts (r.query.map BitVec.toNat)
  fragment : (HttpParser.fragmentChars relaxed).accepts (r.fragment.map BitVec.toNat)
  names : ∀ h ∈ r.headers.list, h.name ≠ [] ∧ ∀ c ∈ h.name, HttpParser.nameChars.mem c.toNat
  others : ∀ h ∈ r.headers.list,
    h.key ≠ caseKey (bytesOf "connection") ∧ h.key ≠ caseKey (bytesOf "content-length")
  values : ∀ h ∈ r.headers.list,
    (∀ c ∈ h.value, HttpParser.valueChars.mem c.toNat) ∧ h.value.head? ≠ some 32#8
  body : r.body.length < 2 ^ 63

namespace HttpRequest

def versionText (r : HttpRequest) : List Byte :=
  bytesOf "HTTP/" ++ decimal (r.version.toNat / 16) ++ bytesOf "." ++
    decimal (r.version.toNat % 16)

/-- The path with the query and the fragment. -/
def uriText (r : HttpRequest) : List Byte :=
  r.path ++ (if r.query = [] then [] else bytesOf "?") ++ r.query ++
    (if r.fragment = [] then [] else bytesOf "#") ++ r.fragment

/-- The headers that are written, in their order. -/
def fields (r : HttpRequest) : List Header :=
  ⟨bytesOf "connection", bytesOf (if r.close then "close" else "keep-alive")⟩ ::
    (r.headers.list ++
      if r.body = [] then [] else [⟨bytesOf "content-length", decimal r.body.length⟩])

/-- What is written in front of the body. -/
def headText (r : HttpRequest) : List Byte :=
  bytesOf r.method.text ++ [32#8] ++ (r.uriText ++ [32#8]) ++ (r.versionText ++ bytesOf "\r\n") ++
    r.fields.flatMap (fun h ↦ dumpHeader h.name h.value) ++ bytesOf "\r\n"

variable {relaxed : Bool} {r : HttpRequest}

theorem Writable.dump_eq (h : r.Writable relaxed) : r.dump = r.headText ++ r.body := by
  have hlines : r.headers.list.flatMap (fun h ↦
      if !r.websocket && strcasecmp h.name (bytesOf "connection") then []
      else dumpHeader h.name h.value) =
        r.headers.list.flatMap fun h ↦ dumpHeader h.name h.value := by
    refine List.flatMap_congr fun f hf ↦ ?_
    have hkey : strcasecmp f.name (bytesOf "connection") = false :=
      decide_eq_false (h.others f hf).1
    rw [hkey, Bool.and_false, if_neg Bool.false_ne_true]
  have hspace : bytesOf " " = [32#8] := by decide
  have hversion : bytesOf " HTTP/" = [32#8] ++ bytesOf "HTTP/" := by decide
  rw [dump, hlines, hspace, hversion, h.websocket, headText, fields, uriText, versionText]
  by_cases hbody : r.body = []
  · simp [hbody]
  · simp [hbody]

end HttpRequest

/-! ### Headers that are set one after the other -/

namespace Headers

def setAll (hs : Headers) (fields : List Header) : Headers :=
  fields.foldl (fun hs f ↦ hs.setHeader f.name f.value) hs

variable {hs : Headers} {fields : List Header} {name : List Byte}

theorem find_setAll_of_ne (h : ∀ f ∈ fields, f.key ≠ caseKey name) :
    ((hs.setAll fields).find name).map Header.value = (hs.find name).map Header.value := by
  induction fields generalizing hs with
  | nil => rfl
  | cons f fields ih =>
    obtain ⟨hf, hfields⟩ := List.forall_mem_cons.mp h
    exact (ih hfields).trans (find_setHeader.trans (if_neg hf))

/-- Among headers of different names each is found with its value. -/
theorem find_setAll (hkeys : fields.Pairwise fun f g ↦ f.key ≠ g.key) {f : Header}
    (hf : f ∈ fields) : ((hs.setAll fields).find f.name).map Header.value = some f.value := by
  induction fields generalizing hs with
  | nil => cases hf
  | cons g fields ih =>
    obtain ⟨hg, hfields⟩ := List.pairwise_cons.mp hkeys
    rcases List.mem_cons.mp hf with rfl | hmem
    · refine (find_setAll_of_ne fun g hmem ↦ (hg g hmem).symm).trans ?_
      exact find_setHeader.trans (if_pos rfl)
    · exact ih hfields hmem

theorem getHeader_eq (hs : Headers) (name : List Byte) :
    hs.getHeader name = ((hs.find name).map Header.value).getD [] := rfl

end Headers

/-! ### What the parser makes of the head -/

namespace HttpRequest

variable {relaxed : Bool} {r : HttpRequest}

theorem Writable.name (h : r.Writable relaxed) {f : Header} (hf : f ∈ r.headers.list) :
    HttpParser.nameText.accepts (f.name.map BitVec.toNat) := by
  obtain ⟨hne, hchars⟩ := h.names f hf
  cases hname : f.name with
  | nil => exact absurd hname hne
  | cons c name =>
    rw [hname] at hchars
    obtain ⟨hc, hrest⟩ := List.forall_mem_cons.mp hchars
    rw [List.map_cons, HttpParser.nameText, Expr.plus, Expr.accepts_cat_chars hc]
    exact Expr.accepts_star_chars (List.forall_mem_map.mpr hrest)

theorem accepts_valueText {value : List Byte} (hne : value ≠ [])
    (hchars : ∀ c ∈ value, HttpParser.valueChars.mem c.toNat) (hfirst : value.head? ≠ some 32#8) :
    HttpParser.valueText.accepts (value.map BitVec.toNat) := by
  cases value with
  | nil => exact absurd rfl hne
  | cons c value =>
    obtain ⟨hc, hrest⟩ := List.forall_mem_cons.mp hchars
    have hblank : (CharSet.range 32 32).mem c.toNat = false := by
      refine Bool.eq_false_iff.mpr fun hmem ↦ ?_
      simp only [CharSet.mem, Bool.and_eq_true, Nat.ble_eq] at hmem
      have h32 : c.toNat = 32 := by omega
      exact hfirst (congrArg some (BitVec.eq_of_toNat_eq h32))
    have hc' : (CharSet.diff HttpParser.valueChars (.range 32 32)).mem c.toNat := by
      rw [CharSet.mem, hc, hblank]
      rfl
    rw [List.map_cons, HttpParser.valueText, Expr.accepts_cat_chars hc']
    exact Expr.accepts_star_chars (List.forall_mem_map.mpr hrest)

theorem valueChars_decimal {n : ℕ} : ∀ c ∈ decimal n,
    HttpParser.valueChars.mem c.toNat ∧ c ≠ 32#8 := by
  have hdigit : ∀ c : Byte, (charOf c).isDigit →
      HttpParser.valueChars.mem c.toNat ∧ c ≠ 32#8 := by
    decide
  exact fun c hc ↦ hdigit c (isDigit_of_mem_decimal hc)

/-- The fields are header lines. -/
theorem Writable.fields_lines (h : r.Writable relaxed) : ∀ f ∈ r.fields,
    HttpParser.nameText.accepts (f.name.map BitVec.toNat) ∧ f.name ≠ [] ∧
      (f.value ≠ [] → HttpParser.valueText.accepts (f.value.map BitVec.toNat)) := by
  have hconnection : ∀ close : Bool, HttpParser.valueText.accepts
      ((bytesOf (if close then "close" else "keep-alive")).map BitVec.toNat) := by
    decide
  have hname : ∀ name ∈ [bytesOf "connection", bytesOf "content-length"],
      HttpParser.nameText.accepts (name.map BitVec.toNat) ∧ name ≠ [] := by
    decide
  intro f hf
  rcases List.mem_cons.mp hf with rfl | hf
  · obtain ⟨haccepts, hne⟩ := hname (bytesOf "connection") (by simp)
    exact ⟨haccepts, hne, fun _ ↦ hconnection r.close⟩
  · rcases List.mem_append.mp hf with hf | hf
    · obtain ⟨hchars, hfirst⟩ := h.values f hf
      exact ⟨h.name hf, (h.names f hf).1, fun hne ↦ accepts_valueText hne hchars hfirst⟩
    · split at hf
      · cases hf
      · obtain rfl := List.mem_singleton.mp hf
        obtain ⟨haccepts, hne⟩ := hname (bytesOf "content-length") (by simp)
        refine ⟨haccepts, hne, fun hvalue ↦ accepts_valueText hvalue
          (fun c hc ↦ (valueChars_decimal c hc).1) fun hfirst ↦ ?_⟩
        exact (valueChars_decimal _ (List.mem_of_head? hfirst)).2 rfl

theorem connection_ne : caseKey (bytesOf "connection") ≠ caseKey (bytesOf "content-length") := by
  decide

theorem Writable.fields_keys (h : r.Writable relaxed) :
    r.fields.Pairwise fun f g ↦ f.key ≠ g.key := by
  refine List.pairwise_cons.mpr ⟨fun g hg ↦ ?_, List.pairwise_append.mpr ⟨?_, ?_, fun f hf g hg ↦ ?_⟩⟩
  · rcases List.mem_append.mp hg with hg | hg
    · exact (h.others g hg).1.symm
    · split at hg
      · cases hg
      · obtain rfl := List.mem_singleton.mp hg
        exact connection_ne
  · exact r.headers.sorted.imp fun hlt ↦ ne_of_lt hlt
  · split
    · exact List.Pairwise.nil
    · exact List.pairwise_singleton _ _
  · split at hg
    · cases hg
    · obtain rfl := List.mem_singleton.mp hg
      exact (h.others f hf).2

/-- The request of a new parser. -/
def ofParser : HttpRequest := (newRequestParser false).data.request

/-- The request as the callbacks have set it, without the body. -/
def parsedHead (r : HttpRequest) : HttpRequest :=
  { ofParser with
    method := r.method
    version := r.version
    path := r.path
    query := r.query
    fragment := r.fragment
    headers := ofParser.headers.setAll r.fields }

theorem onCall_method (method : HttpMethod) (d : RequestData) :
    d.onCall (.token .requestMethod (bytesOf method.text) 32#8) =
      { d with request := { d.request with method } } := by
  have hmethod : ∀ method ∈ HttpMethod.all,
      charsToHttpMethod (bytesOf method.text ++ [32#8]) = some method := by
    decide
  have hall : method ∈ HttpMethod.all := by cases method <;> decide
  simp only [RequestData.onCall, RequestData.onRequestMethod, hmethod method hall]

theorem Writable.versionText_eq (h : r.Writable relaxed) :
    r.version = 0x11#8 ∧ r.versionText = bytesOf "HTTP/1.1" ∨
      r.version = 0x10#8 ∧ r.versionText = bytesOf "HTTP/1.0" := by
  rcases h.version with hversion | hversion
  · refine .inl ⟨hversion, ?_⟩
    rw [versionText, hversion]
    decide
  · refine .inr ⟨hversion, ?_⟩
    rw [versionText, hversion]
    decide

theorem Writable.accepts_version (h : r.Writable relaxed) :
    (Expr.cat (Expr.str "HTTP/") HttpParser.httpNumber : RequestExpr).accepts
      (r.versionText.map BitVec.toNat) := by
  rcases h.versionText_eq with ⟨-, htext⟩ | ⟨-, htext⟩
  · rw [htext]
    decide
  · rw [htext]
    decide

theorem Writable.onCall_version (h : r.Writable relaxed) (d : RequestData) :
    d.onCall (.token .httpVersion r.versionText 13#8) =
      { d with request := { d.request with version := r.version } } := by
  have hfirst : strncmp (bytesOf "HTTP/1.1") (bytesOf "HTTP/1.1") (bytesOf "HTTP/1.1").length := by
    decide
  have hnot : strncmp (bytesOf "HTTP/1.0") (bytesOf "HTTP/1.1") (bytesOf "HTTP/1.0").length =
      false := by
    decide
  have hsecond : strncmp (bytesOf "HTTP/1.0") (bytesOf "HTTP/1.0")
      (bytesOf "HTTP/1.0").length := by
    decide
  rcases h.versionText_eq with ⟨hversion, htext⟩ | ⟨hversion, htext⟩
  · simp only [RequestData.onCall, RequestData.onRequestVersion, htext, hfirst, if_true, hversion]
    rfl
  · simp only [RequestData.onCall, RequestData.onRequestVersion, htext, hnot, hsecond, if_true,
      Bool.false_eq_true, if_false, hversion]
    rfl

theorem foldl_fields {fields : List Header} (hnames : ∀ f ∈ fields, f.name ≠ [])
    (d : RequestData) :
    (fields.map fun f ↦ ScanCall.field f.name f.value).foldl RequestData.onCall d =
      { d with request := { d.request with headers := d.request.headers.setAll fields } } := by
  induction fields generalizing d with
  | nil => rfl
  | cons f fields ih =>
    obtain ⟨hf, hfields⟩ := List.forall_mem_cons.mp hnames
    rw [List.map_cons, List.foldl_cons, ih hfields, RequestData.onCall,
      RequestData.onRequestHttpField, if_neg hf]
    rfl

/-- The machine reads the head, and the callbacks set what was written. -/
theorem Writable.reads_head (h : r.Writable relaxed) (hmethod : r.method ≠ .msearch) :
    ReadsWhole (HttpParser.start relaxed) r.headText ∧
      RequestData.parsed relaxed r.headText = { request := r.parsedHead } := by
  obtain ⟨m₁, calls, huri, hcalls⟩ := HttpParser.reaches_uri h.path h.query h.fragment
  obtain ⟨m₂, hversion⟩ := HttpParser.reaches_version h.accepts_version
  obtain ⟨m₃, hlines⟩ := HttpParser.reaches_headerLines h.fields_lines
  have hread : Finishes [] r.headText (HttpParser.start relaxed) {} _ :=
    ((((HttpParser.reaches_method hmethod).append huri).append hversion).append hlines).finish
      HttpParser.finishes_emptyLine
  refine ⟨hread.readsWhole, ?_⟩
  rw [RequestData.parsed, hread.calls]
  simp only [List.foldl_append, List.foldl_cons, List.foldl_nil]
  rw [onCall_method, hcalls, h.onCall_version, foldl_fields fun f hf ↦ (h.fields_lines f hf).2.1]
  have hquery : (if r.query = [] then [] else r.query) = r.query := by
    split
    · rename_i hnone
      exact hnone.symm
    · rfl
  have hfragment : (if r.fragment = [] then [] else r.fragment) = r.fragment := by
    split
    · rename_i hnone
      exact hnone.symm
    · rfl
  simp only [RequestData.onUri, newRequestParser, hquery, hfragment]
  rfl

theorem Writable.find_field (h : r.Writable relaxed) {f : Header} (hf : f ∈ r.fields) :
    (r.parsedHead.headers.find f.name).map Header.value = some f.value :=
  Headers.find_setAll h.fields_keys hf

theorem Writable.contentLength (h : r.Writable relaxed) :
    r.parsedHead.headers.contentLength = r.body.length := by
  have hbind : ∀ found : Option Header, (found.bind fun f ↦ lexicalCastUint64 f.value) =
      (found.map Header.value).bind lexicalCastUint64 := by
    rintro (_ | f) <;> rfl
  have hlt := h.body
  rw [Headers.contentLength, hbind]
  by_cases hbody : r.body = []
  · have hnone : (r.parsedHead.headers.find (bytesOf "content-length")).map Header.value = none := by
      refine Headers.find_setAll_of_ne fun f hf ↦ ?_
      rw [fields, if_pos hbody, List.append_nil] at hf
      rcases List.mem_cons.mp hf with rfl | hf
      · exact connection_ne
      · exact (h.others f hf).2
    rw [hnone, hbody]
    rfl
  · have hfound : (r.parsedHead.headers.find (bytesOf "content-length")).map Header.value =
        some (decimal r.body.length) := by
      refine h.find_field (f := ⟨bytesOf "content-length", decimal r.body.length⟩) ?_
      rw [fields, if_neg hbody]
      exact List.mem_cons_of_mem _ (List.mem_append_right _ List.mem_cons_self)
    rw [hfound, Option.bind_some, lexicalCastUint64_decimal (by omega), Option.getD_some,
      BitVec.toInt_eq_toNat_of_lt, BitVec.toNat_ofNat, Nat.mod_eq_of_lt (by omega)]
    rw [BitVec.toNat_ofNat, Nat.mod_eq_of_lt (by omega)]
    omega

/-- The request on the wire, when its method has no hyphen. -/
def Writable.wire (h : r.Writable relaxed) (hmethod : r.method ≠ .msearch) :
    WireRequest relaxed where
  head := r.headText
  body := r.body
  whole := (h.reads_head hmethod).1
  lawful := by
    rw [(h.reads_head hmethod).2]
    rfl
  framed := by
    rw [(h.reads_head hmethod).2, h.contentLength, Int.toNat_natCast]

theorem Writable.request_wire (h : r.Writable relaxed) (hmethod : r.method ≠ .msearch) :
    (h.wire hmethod).request = { r.parsedHead with body := r.body, close := r.close } := by
  have hconnection : r.parsedHead.headers.getHeader (bytesOf "connection") =
      bytesOf (if r.close then "close" else "keep-alive") := by
    rw [Headers.getHeader_eq, h.find_field List.mem_cons_self]
    rfl
  have hclose : ∀ close : Bool, bytesOf (if close then "close" else "keep-alive") ≠ [] ∧
      (!strcasecmp (bytesOf (if close then "close" else "keep-alive")) (bytesOf "keep-alive")) =
        close := by
    decide
  obtain ⟨hne, hclosed⟩ := hclose r.close
  have hparsed : RequestData.parsed relaxed (h.wire hmethod).head = { request := r.parsedHead } :=
    (h.reads_head hmethod).2
  rw [WireRequest.request, hparsed, init]
  simp only [hconnection]
  rw [if_neg hne, hclosed]
  rfl

end HttpRequest

/-! ### The round trip -/

/-- A connection over which the bytes arrive in one piece. -/
def inOnePiece (bytes : List Byte) : SocketStream where
  segments := if h : bytes ≠ [] then [⟨bytes, h⟩] else []

/-- `recvRequest` returns what `dump` has written. -/
def RoundTrips (relaxed : Bool) (b : BufferSize) (r : HttpRequest) : Prop :=
  ∃ r', (HttpSession.recvRequest relaxed b (inOnePiece r.dump)).1 = .ok r' ∧
    r'.method = r.method ∧ r'.version = r.version ∧ r'.path = r.path ∧ r'.query = r.query ∧
      r'.fragment = r.fragment ∧ r'.body = r.body ∧ r'.close = r.close ∧
        ∀ h ∈ r.headers.list, r'.headers.getHeader h.name = h.value

section

variable {relaxed : Bool} {b : BufferSize} {r : HttpRequest}

theorem bytes_inOnePiece (bytes : List Byte) : (inOnePiece bytes).bytes = bytes := by
  unfold inOnePiece SocketStream.bytes
  by_cases h : bytes = []
  · simp [h]
  · simp [h]

/-- The first read takes what the buffer has room for. -/
theorem readEnd_inOnePiece (bytes : List Byte) :
    (inOnePiece bytes).readEnd b.size 1 = min b.size bytes.length := by
  rw [SocketStream.readEnd, SocketStream.readEnd, SocketStream.skip_zero, Nat.zero_add,
    SocketStream.readSize, inOnePiece]
  by_cases h : bytes = []
  · simp [h]
  · simp [h]

theorem dump_wire (h : r.Writable relaxed) (hmethod : r.method ≠ .msearch) :
    r.dump = (h.wire hmethod).bytes := h.dump_eq

/-- The head arrives with the first read. -/
theorem eq_zero_of_readEnd (h : r.Writable relaxed)
    (hhead : r.dump.length ≤ b.size + r.body.length) {i : ℕ}
    (hi : (inOnePiece r.dump).readEnd b.size i < r.headText.length) : i = 0 := by
  by_contra hne
  have hmono := (inOnePiece r.dump).readEnd_mono b.size (Nat.one_le_iff_ne_zero.mpr hne)
  have hlength : r.dump.length = r.headText.length + r.body.length := by
    rw [h.dump_eq, List.length_append]
  rw [readEnd_inOnePiece] at hmono
  omega

theorem headReads_inOnePiece (h : r.Writable relaxed)
    (hhead : r.dump.length ≤ b.size + r.body.length) :
    HeadReads (HttpParser.start relaxed) b r.headText (inOnePiece r.dump) := by
  intro i hi
  rw [eq_zero_of_readEnd h hhead hi]
  exact UncutAt.zero

theorem recvRequest_dump (h : r.Writable relaxed) (hmethod : r.method ≠ .msearch)
    (hhead : r.dump.length ≤ b.size + r.body.length)
    (hrest : r.dump.length ≤ b.size ∨
      0 < (BitVec.ofNat 32 (r.dump.length - b.size)).toInt) :
    (HttpSession.recvRequest relaxed b (inOnePiece r.dump)).1 =
      .ok { r.parsedHead with body := r.body, close := r.close } := by
  have hbytes : (inOnePiece r.dump).bytes = (h.wire hmethod).bytes ++ [] := by
    rw [bytes_inOnePiece, List.append_nil]
    exact h.dump_eq
  have hlength : (h.wire hmethod).bytes.length = r.dump.length := by rw [h.dump_eq]; rfl
  have horderly : (h.wire hmethod).OrderlyReads b (inOnePiece r.dump) := by
    refine ⟨headReads_inOnePiece h hhead, fun i hi _ ↦ ?_⟩
    rw [eq_zero_of_readEnd h hhead hi, readEnd_inOnePiece, hlength]
    rcases hrest with hfits | hpos
    · exact .inl (Nat.min_eq_right hfits)
    · rcases Nat.le_total r.dump.length b.size with hfits | hlong
      · exact .inl (Nat.min_eq_right hfits)
      · rw [Nat.min_eq_left hlong]
        rcases Nat.eq_or_lt_of_le hlong with heq | hlt
        · exact .inl heq
        · exact .inr ⟨hlt, hpos⟩
  rw [recvRequest_eq (h.wire hmethod) rfl hbytes horderly, h.request_wire hmethod]

/-- The rest of the body is read, but the call fails. -/
theorem recvRequest_longRest (h : r.Writable relaxed) (hmethod : r.method ≠ .msearch)
    (hhead : r.dump.length ≤ b.size + r.body.length) (hlong : b.size < r.dump.length)
    (hrest : ¬ 0 < (BitVec.ofNat 32 (r.dump.length - b.size)).toInt) :
    (HttpSession.recvRequest relaxed b (inOnePiece r.dump)).1 = .error .closed := by
  have hlength : r.dump.length = r.headText.length + r.body.length := by
    rw [h.dump_eq, List.length_append]
  have hlawful : requestCallbacks.failure
      ((exec [] r.headText (newRequestParser relaxed).cs {}).calls.foldl
        requestCallbacks.onCall (newRequestParser relaxed).data) = none := by
    have hfailure : requestCallbacks.failure = RequestData.failure := rfl
    have honCall : requestCallbacks.onCall = RequestData.onCall := rfl
    rw [hfailure, honCall]
    exact (h.wire hmethod).lawful
  obtain ⟨i, hbefore, -, p, hp, hloop⟩ := recvHead_eq (HttpParser.atStart relaxed) rfl
    (h.reads_head hmethod).1 hlawful rfl ((bytes_inOnePiece r.dump).trans h.dump_eq)
    (headReads_inOnePiece h hhead)
  obtain rfl := eq_zero_of_readEnd h hhead hbefore
  have hdata : p.data = { request := r.parsedHead } := hp.data.trans (h.reads_head hmethod).2
  rw [readEnd_inOnePiece, Nat.min_eq_left hlong.le] at hloop
  have htaken : (r.body.take (b.size - r.headText.length)).length = b.size - r.headText.length :=
    List.length_take_of_le (by omega)
  have hsub : ((r.body.length : ℤ).toNat - (b.size - r.headText.length)) =
      r.dump.length - b.size := by
    omega
  have hbody : HttpSession.recvBody p (r.body.take (b.size - r.headText.length))
      ((inOnePiece r.dump).skip b.size) = .error .closed := by
    simp only [HttpSession.recvBody, hdata, h.contentLength, htaken, hsub,
      SocketStream.readFixSize]
    rw [if_neg (by omega), if_neg (by omega), Option.filter_eq_none_iff.mpr]
    simp [hrest]
  rw [HttpSession.recvRequest, hloop]
  simp only [bind, Except.bind, hbody]

/-- The machine stops at the hyphen. -/
theorem exec_hyphen (relaxed : Bool) (text : List Byte) (m : Marks) :
    (exec [] (77#8 :: 45#8 :: text) (HttpParser.start relaxed) m).cs.isVoid ∧
      (exec [] (77#8 :: 45#8 :: text) (HttpParser.start relaxed) m).calls = [] := by
  have hmark : ∀ relaxed, ((HttpParser.start relaxed).deriv 77).2.map Prod.snd = [.mark] ∧
      (HttpParser.behind relaxed "M").isVoid = false := by
    decide +kernel
  have hfirst : step (HttpParser.start relaxed) 77#8 = (HttpParser.behind relaxed "M", [.mark]) :=
    congrArg (Prod.mk _) (hmark relaxed).1
  have hsecond : ∀ relaxed, (step (HttpParser.behind relaxed "M") 45#8).1.isVoid := by
    decide +kernel
  simp [exec, hfirst, (hmark relaxed).2, hsecond relaxed, callAll, call]

theorem recvRequest_msearch (h : r.Writable relaxed) (hmethod : r.method = .msearch)
    (hhead : r.dump.length ≤ b.size + r.body.length) :
    (HttpSession.recvRequest relaxed b (inOnePiece r.dump)).1 = .error .closed := by
  have htext : ∃ text, r.headText = 77#8 :: 45#8 :: text := by
    have hname : bytesOf HttpMethod.msearch.text = 77#8 :: 45#8 :: bytesOf "SEARCH" := by
      decide
    rw [HttpRequest.headText, hmethod, hname]
    exact ⟨_, rfl⟩
  obtain ⟨text, htext⟩ := htext
  have hlength : r.dump.length = text.length + 2 + r.body.length := by
    rw [h.dump_eq, List.length_append, htext, List.length_cons, List.length_cons]
  have hsize : (inOnePiece r.dump).readSize b.size = min b.size r.dump.length := by
    rw [← readEnd_inOnePiece, SocketStream.readEnd, SocketStream.readEnd, SocketStream.skip_zero,
      Nat.zero_add]
  have hread : ∃ text' s', (inOnePiece r.dump).read b.size = (77#8 :: 45#8 :: text', s') := by
    have htwo : 2 ≤ (inOnePiece r.dump).readSize b.size := by omega
    obtain ⟨k, hk⟩ := Nat.exists_eq_add_of_le' htwo
    rw [SocketStream.read_eq rfl, hk, bytes_inOnePiece, h.dump_eq, htext]
    exact ⟨_, _, rfl⟩
  obtain ⟨text', s', hread⟩ := hread
  obtain ⟨hvoid, hcalls⟩ := exec_hyphen relaxed text' (newRequestParser relaxed).marks.reset
  have herror : requestCallbacks.error
      (requestCallbacks.execute (newRequestParser relaxed) (77#8 :: 45#8 :: text')).1 =
        some .closed := by
    have hcs : (requestCallbacks.execute (newRequestParser relaxed)
        (77#8 :: 45#8 :: text')).1.cs.isVoid := hvoid
    have hdata : (requestCallbacks.execute (newRequestParser relaxed)
        (77#8 :: 45#8 :: text')).1.data = (newRequestParser relaxed).data := by
      show List.foldl _ _ (exec _ _ _ _).calls = _
      exact congrArg (List.foldl _ _) hcalls
    rw [Callbacks.error, hdata, if_pos hcs]
    rfl
  have hhead : requestCallbacks.recvHead b.size ((inOnePiece r.dump).bytes.length + 1)
      (newRequestParser relaxed) [] (inOnePiece r.dump) = .error .closed := by
    simp only [Callbacks.recvHead, List.length_nil, Nat.sub_zero, hread, reduceCtorEq, if_false,
      List.nil_append, herror]
  rw [HttpSession.recvRequest, hhead]
  rfl

end

/-- A request that is written is received as it is, unless its method is `M-SEARCH` or the buffer
leaves a rest of the body whose length is no positive `int`. -/
theorem requestRoundTrip (relaxed : Bool) (b : BufferSize) (r : HttpRequest)
    (h : r.Writable relaxed) (hhead : r.dump.length ≤ b.size + r.body.length) :
    RoundTrips relaxed b r ↔ r.method ≠ .msearch ∧ (r.dump.length ≤ b.size ∨
      0 < (BitVec.ofNat 32 (r.dump.length - b.size)).toInt) := by
  constructor
  · rintro ⟨r', hr', -⟩
    have hmethod : r.method ≠ .msearch := by
      intro hmethod
      rw [recvRequest_msearch h hmethod hhead] at hr'
      cases hr'
    refine ⟨hmethod, ?_⟩
    by_contra hrest
    obtain ⟨hlong, hint⟩ := not_or.mp hrest
    rw [recvRequest_longRest h hmethod hhead (Nat.lt_of_not_le hlong) hint] at hr'
    cases hr'
  · rintro ⟨hmethod, hrest⟩
    refine ⟨_, recvRequest_dump h hmethod hhead hrest, rfl, rfl, rfl, rfl, rfl, rfl, rfl, ?_⟩
    intro f hf
    have hfound : (r.parsedHead.headers.find f.name).map Header.value = some f.value :=
      h.find_field (List.mem_cons_of_mem _ (List.mem_append_left _ hf))
    rw [Headers.getHeader_eq, hfound]
    rfl

/-! ### Requests -/

/-- A request with all parts and a header without a value. -/
def putPage : HttpRequest where
  method := .put
  version := 0x10
  close := false
  path := bytesOf "/a%20b/page"
  query := bytesOf "q=1"
  fragment := bytesOf "top"
  body := bytesOf "text"
  headers := ⟨[⟨bytesOf "Host", bytesOf "a b"⟩, ⟨bytesOf "x-empty", []⟩], by decide⟩

theorem putPage_writable : putPage.Writable false where
  websocket := rfl
  version := .inr rfl
  path := by decide +kernel
  query := by decide +kernel
  fragment := by decide +kernel
  names := by decide +kernel
  others := by decide +kernel
  values := by decide +kernel
  body := by decide +kernel

theorem requestRoundTrip_putPage : RoundTrips false defaultBuffer putPage :=
  (requestRoundTrip false defaultBuffer putPage putPage_writable (by decide +kernel)).mpr
    (by decide +kernel)

def searchPage : HttpRequest := { putPage with method := .msearch }

theorem searchPage_writable : searchPage.Writable false where
  websocket := rfl
  version := .inr rfl
  path := putPage_writable.path
  query := putPage_writable.query
  fragment := putPage_writable.fragment
  names := putPage_writable.names
  others := putPage_writable.others
  values := putPage_writable.values
  body := putPage_writable.body

/-- A method of the table that the grammar does not have. -/
theorem requestRoundTrip_searchPage : searchPage.Writable false ∧
    searchPage.dump.length ≤ defaultBuffer.size + searchPage.body.length ∧
      ¬ RoundTrips false defaultBuffer searchPage := by
  refine ⟨searchPage_writable, by decide +kernel, ?_⟩
  rintro ⟨r', hr', -⟩
  have hclosed : (HttpSession.recvRequest false defaultBuffer (inOnePiece searchPage.dump)).1 =
      .error .closed := by
    decide +kernel
  rw [hclosed] at hr'
  cases hr'

end Rsylar.Http
