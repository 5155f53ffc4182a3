import Rsylar.Http.RequestRoundTrip
import Rsylar.Http.ResponseElements

/-!
# Writing and receiving a response

What `recvResponse` makes of a response that `HttpResponse::dump` has written. The status, the
version, the reason, the body and the headers arrive as they were, and the bytes taken are those of
the response. What does not arrive: the flag `close`, which the client does not set, a reason that
is empty, for which the text of the status is written, and of several cookies all but the last,
since each is a header of the same name.
-/

set_option autoImplicit false
set_option relaxedAutoImplicit false

namespace Rsylar.Http

open ActionRegex Scanner

/-! ### The last header of a name -/

namespace Headers

/-- The headers of a name, in any spelling. -/
def named (name : List Byte) (fields : List Header) : List Header :=
  fields.filter fun f ↦ f.key = caseKey name

variable {name : List Byte} {f : Header} {fields : List Header}

theorem named_cons_of_eq (h : f.key = caseKey name) :
    named name (f :: fields) = f :: named name fields :=
  List.filter_cons_of_pos (decide_eq_true h)

theorem named_cons_of_ne (h : f.key ≠ caseKey name) :
    named name (f :: fields) = named name fields :=
  List.filter_cons_of_neg (by simpa using h)

theorem named_append (fields' : List Header) :
    named name (fields ++ fields') = named name fields ++ named name fields' :=
  List.filter_append ..

theorem named_eq_nil (h : ∀ f ∈ fields, f.key ≠ caseKey name) : named name fields = [] :=
  List.filter_eq_nil_iff.mpr fun f hf ↦ by simpa using h f hf

theorem named_eq_self (h : ∀ f ∈ fields, f.key = caseKey name) : named name fields = fields :=
  List.filter_eq_self.mpr fun f hf ↦ decide_eq_true (h f hf)

/-- Of the headers that are set under one name the last is found. -/
theorem find_setAll_getLast? (hs : Headers) (fields : List Header) (name : List Byte) :
    ((hs.setAll fields).find name).map Header.value =
      ((named name fields).getLast?.map Header.value).or ((hs.find name).map Header.value) := by
  induction fields generalizing hs with
  | nil => rfl
  | cons f fields ih =>
    refine (ih (hs.setHeader f.name f.value)).trans ?_
    rw [find_setHeader]
    by_cases hkey : f.key = caseKey name
    · rw [if_pos (show caseKey f.name = caseKey name from hkey), named_cons_of_eq hkey,
        List.getLast?_cons]
      cases (named name fields).getLast? with
      | none => rfl
      | some g => rfl
    · rw [if_neg (show caseKey f.name ≠ caseKey name from hkey), named_cons_of_ne hkey]

/-- The length that a header announces. -/
theorem contentLength_eq {hs : Headers} {n : ℕ} (hn : n < 2 ^ 63)
    (h : (hs.find (bytesOf "content-length")).map Header.value = some (decimal n) ∨
      (hs.find (bytesOf "content-length")).map Header.value = none ∧ n = 0) :
    hs.contentLength = n := by
  have hbind : ∀ found : Option Header, (found.bind fun f ↦ lexicalCastUint64 f.value) =
      (found.map Header.value).bind lexicalCastUint64 := by
    rintro (_ | f) <;> rfl
  rw [contentLength, hbind]
  rcases h with hfound | ⟨hnone, rfl⟩
  · rw [hfound, Option.bind_some, lexicalCastUint64_decimal (by omega), Option.getD_some,
      BitVec.toInt_eq_toNat_of_lt, BitVec.toNat_ofNat, Nat.mod_eq_of_lt (by omega)]
    rw [BitVec.toNat_ofNat, Nat.mod_eq_of_lt (by omega)]
    omega
  · rw [hnone]
    rfl

end Headers

/-! ### What is written -/

namespace HttpResponse

/-- The headers that are written as they are: `dump` has a line of its own for the connection. -/
def writtenHeaders (r : HttpResponse) : List Header :=
  r.headers.list.filter fun h ↦ !strcasecmp h.name (bytesOf "connection")

/-- A text that may stand behind a colon. -/
def IsValue (value : List Byte) : Prop :=
  (∀ c ∈ value, HttpClientParser.lineChars.mem c.toNat) ∧
    ∀ c, value.head? = some c → HttpParser.space.mem c.toNat = false

instance (value : List Byte) : Decidable (IsValue value) :=
  decidable_of_iff ((value.all fun c ↦ HttpClientParser.lineChars.mem c.toNat) &&
      value.head?.all fun c ↦ !HttpParser.space.mem c.toNat) <| by
    rw [Bool.and_eq_true, List.all_eq_true, Option.all_eq_true, IsValue]
    simp only [Bool.not_eq_true']

/-- A response whose parts the grammar allows, and whose headers do not announce a body; a string
has less than `2^63` bytes. -/
structure Writable (r : HttpResponse) : Prop where
  websocket : r.websocket = false
  version : r.version = 0x11#8 ∨ r.version = 0x10#8
  reason : ∀ c ∈ r.reason, HttpClientParser.lineChars.mem c.toNat
  names : ∀ h ∈ r.writtenHeaders,
    h.name ≠ [] ∧ ∀ c ∈ h.name, HttpClientParser.tokenChar.mem c.toNat
  others : ∀ h ∈ r.writtenHeaders,
    h.key ≠ caseKey (bytesOf "content-length") ∧ h.key ≠ caseKey (bytesOf "transfer-encoding")
  values : ∀ h ∈ r.writtenHeaders, IsValue h.value
  cookies : ∀ c ∈ r.cookies, IsValue c
  body : r.body.length < 2 ^ 63

def versionText (r : HttpResponse) : List Byte :=
  bytesOf "HTTP/" ++ decimal (r.version.toNat / 16) ++ bytesOf "." ++
    decimal (r.version.toNat % 16)

def reasonText (r : HttpResponse) : List Byte :=
  if r.reason = [] then bytesOf (httpStatusToString r.status) else r.reason

/-- The lines in front of the one for the connection. -/
def fields (r : HttpResponse) : List Header :=
  r.writtenHeaders ++ r.cookies.map fun c ↦ ⟨bytesOf "Set-Cookie", c⟩

def lengthLine (r : HttpResponse) : List Byte :=
  if r.body = [] then []
  else HttpRequest.dumpHeader (bytesOf "content-length") (decimal r.body.length)

/-- The lines in front of the empty one. -/
def linesText (r : HttpResponse) : List Byte :=
  (r.versionText ++ [32#8]) ++ (decimal r.status.toNat ++ [32#8]) ++
    (r.reasonText ++ bytesOf "\r\n") ++
    r.fields.flatMap (fun h ↦ HttpRequest.dumpHeader h.name h.value) ++
    HttpRequest.dumpHeader (bytesOf "connection") (HttpClientParser.connectionValue r.close) ++
    r.lengthLine

/-- What is written in front of the body. -/
def headText (r : HttpResponse) : List Byte := r.linesText ++ bytesOf "\r\n"

variable {r : HttpResponse}

/-- The lines of the headers but for the connection. -/
theorem flatMap_dumpHeader (fields : List Header) :
    fields.flatMap (fun h ↦
        if !false && strcasecmp h.name (bytesOf "connection") then []
        else HttpRequest.dumpHeader h.name h.value) =
      (fields.filter fun h ↦ !strcasecmp h.name (bytesOf "connection")).flatMap
        fun h ↦ HttpRequest.dumpHeader h.name h.value := by
  induction fields with
  | nil => rfl
  | cons f fields ih =>
    rw [List.flatMap_cons, ih, List.filter_cons]
    cases strcasecmp f.name (bytesOf "connection") with
    | true => rfl
    | false => rfl

theorem Writable.dump_eq (h : r.Writable) : r.dump = r.headText ++ r.body := by
  have hlines : r.headers.list.flatMap (fun h ↦
      if !r.websocket && strcasecmp h.name (bytesOf "connection") then []
      else HttpRequest.dumpHeader h.name h.value) =
        r.writtenHeaders.flatMap fun h ↦ HttpRequest.dumpHeader h.name h.value := by
    rw [h.websocket]
    exact flatMap_dumpHeader r.headers.list
  have hspace : bytesOf " " = [32#8] := by decide
  rw [dump, hlines, hspace, h.websocket, headText, linesText, fields, versionText, reasonText,
    lengthLine, HttpClientParser.connectionValue, List.flatMap_append, List.flatMap_map]
  by_cases hbody : r.body = []
  · simp [hbody]
  · simp [hbody]

end HttpResponse

/-! ### What the parser makes of the head -/

namespace HttpClientParser

open Expr CharSet

/-- What the words of the rules spell is equal without its case. -/
theorem caseKey_of_spells {text : List Char} {w : List Byte}
    (htext : text.all fun ch ↦ (letter ch).members.all fun c ↦ c ≠ 0 ∧ toLower c = ch.toNat)
    (h : Spells (text.map letter) (w.map BitVec.toNat)) : caseKey w = text.map Char.toNat := by
  induction text generalizing w with
  | nil =>
    cases w with
    | nil => rfl
    | cons c w => cases h
  | cons ch text ih =>
    obtain ⟨hch, hrest⟩ := Bool.and_eq_true_iff.mp htext
    cases w with
    | nil => cases h
    | cons c w =>
      obtain ⟨hc, hw⟩ := List.forall₂_cons.mp h
      obtain ⟨hne, hlower⟩ := of_decide_eq_true (List.all_eq_true.mp hch _ (mem_members hc))
      have hcString : cString (c :: w) = c :: cString w := by
        refine List.takeWhile_cons_of_pos (decide_eq_true fun hzero ↦ hne ?_)
        rw [hzero]
        rfl
      rw [caseKey, hcString, List.map_cons, List.map_cons, hlower]
      exact congrArg _ (ih hrest hw)

/-- The letters of the ruled names, and the name of a cookie, which is none of them. -/
theorem ruledNames_letters :
    (∀ ruled ∈ ruledNames,
      (ruled.toList.all fun ch ↦ (letter ch).members.all fun c ↦ c ≠ 0 ∧ toLower c = ch.toNat) ∧
        caseKey (bytesOf ruled) = ruled.toList.map Char.toNat) ∧
    (∀ ruled ∈ ruledNames, caseKey (bytesOf "Set-Cookie") ≠ caseKey (bytesOf ruled)) ∧
    (bytesOf "Set-Cookie").isEmpty = false ∧
    (bytesOf "Set-Cookie").all fun c ↦ tokenChar.mem c.toNat := by
  refine ⟨?_, ?_, ?_⟩ <;> decide +kernel

theorem not_spells_of_key {name : List Byte}
    (h : ∀ ruled ∈ ruledNames, caseKey name ≠ caseKey (bytesOf ruled)) :
    ∀ word ∈ ruledWords, ¬Spells word (name.map BitVec.toNat) := by
  intro word hword hspells
  obtain ⟨ruled, hruled, rfl⟩ := List.mem_map.mp hword
  obtain ⟨hchars, hkey⟩ := ruledNames_letters.1 ruled hruled
  exact h ruled hruled ((caseKey_of_spells hchars hspells).trans hkey.symm)

end HttpClientParser

namespace HttpResponse

variable {r : HttpResponse} {seen : List Byte} {m : Marks}

theorem Writable.keys (h : r.Writable) {f : Header} (hf : f ∈ r.fields) :
    ∀ ruled ∈ HttpClientParser.ruledNames, f.key ≠ caseKey (bytesOf ruled) := by
  rcases List.mem_append.mp hf with hf | hf
  · obtain ⟨-, hwritten⟩ := List.mem_filter.mp hf
    have hconnection : f.key ≠ caseKey (bytesOf "connection") := by
      simpa [strcasecmp, Header.key] using hwritten
    obtain ⟨hlength, hencoding⟩ := h.others f hf
    intro ruled hruled
    rcases List.mem_cons.mp hruled with rfl | hruled
    · exact hconnection
    rcases List.mem_cons.mp hruled with rfl | hruled
    · exact hlength
    obtain rfl := List.mem_singleton.mp hruled
    exact hencoding
  · obtain ⟨c, -, rfl⟩ := List.mem_map.mp hf
    exact HttpClientParser.ruledNames_letters.2.1

theorem Writable.line (h : r.Writable) {f : Header} (hf : f ∈ r.fields) :
    (f.name ≠ [] ∧ ∀ c ∈ f.name, HttpClientParser.tokenChar.mem c.toNat) ∧ IsValue f.value := by
  rcases List.mem_append.mp hf with hf | hf
  · exact ⟨h.names f hf, h.values f hf⟩
  · obtain ⟨c, hc, rfl⟩ := List.mem_map.mp hf
    obtain ⟨-, -, hempty, hall⟩ := HttpClientParser.ruledNames_letters
    exact ⟨⟨List.isEmpty_eq_false_iff.mp hempty, List.all_eq_true.mp hall⟩, h.cookies c hc⟩

/-- The lines of fields. -/
theorem reaches_fields {fields : List Header}
    (hkeys : ∀ f ∈ fields, ∀ ruled ∈ HttpClientParser.ruledNames, f.key ≠ caseKey (bytesOf ruled))
    (hlines : ∀ f ∈ fields, (f.name ≠ [] ∧ ∀ c ∈ f.name, HttpClientParser.tokenChar.mem c.toNat) ∧
      IsValue f.value) :
    ∃ m', Reaches seen (fields.flatMap fun h ↦ HttpRequest.dumpHeader h.name h.value)
      HttpClientParser.headerLines m HttpClientParser.headerLines m'
      (fields.map fun h ↦ .field h.name h.value) := by
  induction fields generalizing seen m with
  | nil => exact ⟨m, reaches_nil⟩
  | cons f fields ih =>
    obtain ⟨hkey, hkeys⟩ := List.forall_mem_cons.mp hkeys
    obtain ⟨⟨⟨hne, hchars⟩, hvalue, hfirst⟩, hlines⟩ := List.forall_mem_cons.mp hlines
    have hline : ∃ m', Reaches seen (HttpRequest.dumpHeader f.name f.value)
        HttpClientParser.headerLines m HttpClientParser.headerLines m' [.field f.name f.value] :=
      HttpClientParser.reaches_fieldLine hne hchars (HttpClientParser.not_spells_of_key hkey) hvalue
        hfirst
    obtain ⟨m', hline⟩ := hline
    obtain ⟨m'', hrest⟩ := ih hkeys hlines
    exact ⟨m'', hline.append hrest⟩

theorem Writable.versionText_eq (h : r.Writable) :
    r.version = 0x11#8 ∧ r.versionText = bytesOf "HTTP/1.1" ∨
      r.version = 0x10#8 ∧ r.versionText = bytesOf "HTTP/1.0" := by
  rcases h.version with hversion | hversion
  · refine .inl ⟨hversion, ?_⟩
    rw [versionText, hversion]
    decide
  · refine .inr ⟨hversion, ?_⟩
    rw [versionText, hversion]
    decide

theorem mem_lineChars {c : Byte} (hreturn : c ≠ 13#8) (hfeed : c ≠ 10#8) :
    HttpClientParser.lineChars.mem c.toNat := by
  have hset : HttpClientParser.lineChars =
      .diff (.range 0 255) (.union (.range 13 13) (.range 10 10)) := by
    decide
  have hreturn' : c.toNat ≠ 13 := fun h ↦ hreturn (BitVec.eq_of_toNat_eq h)
  have hfeed' : c.toNat ≠ 10 := fun h ↦ hfeed (BitVec.eq_of_toNat_eq h)
  have hlt := c.isLt
  rw [hset]
  simp only [CharSet.mem, Bool.and_eq_true, Bool.not_eq_true', ← Bool.not_eq_true, Bool.or_eq_true,
    Nat.ble_eq]
  omega

theorem Writable.reasonText_line (h : r.Writable) :
    r.reasonText ≠ [] ∧ ∀ c ∈ r.reasonText, HttpClientParser.lineChars.mem c.toNat := by
  have htable : ∀ entry ∈ httpStatusMap, bytesOf entry.2 ≠ [] ∧ 13#8 ∉ bytesOf entry.2 := by
    decide +kernel
  have htext : bytesOf (httpStatusToString r.status) ≠ [] ∧
      13#8 ∉ bytesOf (httpStatusToString r.status) := by
    rw [httpStatusToString]
    cases hfind : httpStatusMap.find? fun entry ↦ entry.1 = r.status.toNat with
    | none =>
      rw [Option.map_none, Option.getD_none]
      decide
    | some entry =>
      rw [Option.map_some, Option.getD_some]
      exact htable entry (List.mem_of_find?_eq_some hfind)
  rw [reasonText]
  split
  · refine ⟨htext.1, fun c hc ↦ mem_lineChars ?_ ?_⟩
    · rintro rfl
      exact htext.2 hc
    · rintro rfl
      exact not_mem_httpStatusToString r.status hc
  · rename_i hne
    exact ⟨hne, h.reason⟩

/-- The status line. -/
theorem Writable.reaches_statusLine (h : r.Writable) :
    ∃ m', Reaches [] (r.versionText ++ [32#8] ++ (decimal r.status.toNat ++ [32#8]) ++
        (r.reasonText ++ bytesOf "\r\n"))
      HttpClientParser.start {} HttpClientParser.headerLines m'
      [.token .httpVersion r.versionText 32#8, .token .statusCode (decimal r.status.toNat) 32#8,
        .token .reasonPhrase r.reasonText 13#8] := by
  have haccepts : r.versionText ≠ [] ∧ (Expr.cat (Expr.str "HTTP/") HttpClientParser.httpNumber :
      ResponseExpr).accepts (r.versionText.map BitVec.toNat) := by
    rcases h.versionText_eq with ⟨-, htext⟩ | ⟨-, htext⟩
    · rw [htext]
      decide
    · rw [htext]
      decide
  obtain ⟨hne, hchars⟩ := h.reasonText_line
  have hreasonAccepts : (Expr.plus (Expr.chars HttpClientParser.lineChars) : ResponseExpr).accepts
      (r.reasonText.map BitVec.toNat) := by
    cases htext : r.reasonText with
    | nil => exact absurd htext hne
    | cons c text =>
      rw [htext] at hchars
      obtain ⟨hc, hrest⟩ := List.forall_mem_cons.mp hchars
      rw [List.map_cons, Expr.plus, Expr.accepts_cat_chars hc]
      exact Expr.accepts_star_chars (List.forall_mem_map.mpr hrest)
  obtain ⟨m₁, hfirst⟩ : ∃ m₁, Reaches [] (r.versionText ++ [32#8])
      HttpClientParser.versionElement.before {} HttpClientParser.versionElement.behind m₁
      [.token .httpVersion r.versionText 32#8] :=
    (HttpClientParser.versionElement.reads haccepts.1 haccepts.2).asToken
  obtain ⟨m₂, hsecond⟩ : ∃ m₂, Reaches (r.versionText ++ [32#8])
      (decimal r.status.toNat ++ [32#8]) HttpClientParser.statusElement.before m₁
      HttpClientParser.statusElement.behind m₂ [.token .statusCode (decimal r.status.toNat) 32#8] :=
    (HttpClientParser.statusElement.reads (decimal_ne_nil r.status.toNat)
      (HttpClientParser.accepts_decimal r.status.toNat)).asToken
  obtain ⟨m₃, hthird⟩ : ∃ m₃, Reaches
      (r.versionText ++ [32#8] ++ (decimal r.status.toNat ++ [32#8])) (r.reasonText ++ [13#8])
      HttpClientParser.reasonElement.before m₂ HttpClientParser.reasonElement.behind m₃
      [.token .reasonPhrase r.reasonText 13#8] :=
    (HttpClientParser.reasonElement.reads hne hreasonAccepts).asToken
  have hend : Reaches (r.versionText ++ [32#8] ++ (decimal r.status.toNat ++ [32#8]) ++
      (r.reasonText ++ [13#8])) [10#8] (HttpClientParser.behind "HTTP/1.1 200 OK\r") m₃
      HttpClientParser.headerLines m₃ [] :=
    reaches_mark HttpClientParser.goes_singleBytes.1 rfl
  have hline := ((hfirst.append hsecond).append hthird).append hend
  rw [bytesOf_crlf]
  simp only [List.append_assoc, List.cons_append, List.nil_append] at hline ⊢
  exact ⟨m₃, hline⟩

/-- The header for the length, which the parser sets twice. -/
def lengthFields (r : HttpResponse) : List Header :=
  if r.body = [] then []
  else [⟨bytesOf "content-length", decimal r.body.length⟩,
    ⟨bytesOf "content-length", decimal r.body.length⟩]

/-- All headers that the parser sets. -/
def parsedFields (r : HttpResponse) : List Header :=
  r.fields ++ ⟨bytesOf "connection", HttpClientParser.connectionValue r.close⟩ :: r.lengthFields

def headCalls (r : HttpResponse) : List (ScanCall ResponseToken ResponseFlag) :=
  [.token .httpVersion r.versionText 32#8, .token .statusCode (decimal r.status.toNat) 32#8,
    .token .reasonPhrase r.reasonText 13#8] ++ r.fields.map (fun h ↦ .field h.name h.value) ++
    [.field (bytesOf "connection") (HttpClientParser.connectionValue r.close)] ++
    (if r.body = [] then [] else [.token .contentLen (decimal r.body.length) 13#8]) ++
    r.lengthFields.map fun h ↦ .field h.name h.value

theorem reaches_lengthLine :
    ∃ m' cs, Reaches seen r.lengthLine (HttpClientParser.behindConnection r.close) m cs m'
        ((if r.body = [] then [] else [.token .contentLen (decimal r.body.length) 13#8]) ++
          r.lengthFields.map fun h ↦ .field h.name h.value) ∧
      (cs = HttpClientParser.headerLines ∨ cs = HttpClientParser.closingLines) := by
  rw [lengthLine, lengthFields]
  split
  · refine ⟨m, _, reaches_nil, ?_⟩
    rw [HttpClientParser.behindConnection]
    split
    · exact .inr rfl
    · exact .inl rfl
  · obtain ⟨m', hline⟩ := @HttpClientParser.reaches_contentLength seen m r.close r.body.length
    exact ⟨m', _, hline, .inl rfl⟩

theorem Writable.reaches_lines (h : r.Writable) :
    ∃ m' cs, Reaches [] r.linesText HttpClientParser.start {} cs m' r.headCalls ∧
      (cs = HttpClientParser.headerLines ∨ cs = HttpClientParser.closingLines) := by
  obtain ⟨m₁, hstatus⟩ := h.reaches_statusLine
  obtain ⟨m₂, hfields⟩ := reaches_fields (fun f hf ↦ h.keys hf) fun f hf ↦ h.line hf
  obtain ⟨m₃, hconnection⟩ := HttpClientParser.reaches_connection r.close
  obtain ⟨m₄, cs, hlength, hcs⟩ := reaches_lengthLine
  refine ⟨m₄, cs, ?_, hcs⟩
  have hread := ((hstatus.append hfields).append hconnection).append hlength
  rw [linesText, headCalls, List.append_assoc (_ ++ _ ++ [_])]
  exact hread

/-- The head is one message for the machine, which is in its final state behind it. -/
theorem Writable.reads_head (h : r.Writable) :
    ReadsWhole HttpClientParser.start r.headText ∧
      (exec [] r.headText HttpClientParser.start {}).calls = r.headCalls ∧
      HttpClientParser.isFirstFinal (exec [] r.headText HttpClientParser.start {}).cs := by
  obtain ⟨m', cs, ⟨houtcome, hstate, hmarks, hcalls⟩, hcs⟩ := h.reaches_lines
  obtain ⟨hdone, hleft, hnone, hfinal⟩ :=
    @HttpClientParser.exec_emptyLine ([] ++ r.linesText) m' cs hcs
  have htext : r.headText = r.linesText ++ bytesOf "\r\n" := rfl
  have hread : exec [] r.headText HttpClientParser.start {} =
      followedBy (exec [] r.linesText HttpClientParser.start {})
        (exec ([] ++ r.linesText) (bytesOf "\r\n") cs m') := by
    rw [htext, exec_append houtcome, hstate, hmarks]
  generalize exec ([] ++ r.linesText) (bytesOf "\r\n") cs m' = last
    at hdone hleft hnone hfinal hread
  refine ⟨⟨?_, ?_, ?_⟩, ?_, ?_⟩
  · rw [hread, followedBy]
    exact hdone
  · rw [hread, followedBy]
    exact hleft
  · rw [hread, followedBy]
    exact (Bool.and_eq_true_iff.mp hfinal).1
  · rw [hread, followedBy, hcalls, hnone, List.append_nil]
  · rw [hread, followedBy]
    exact hfinal

/-! ### The data behind the head -/

theorem digitsNumber_decimal (n : ℕ) : digitsNumber 10 (decimal n) = n := by
  have hdigit : ∀ c : Byte, (charOf c).isDigit →
      (GroupText.digitValue (charOf c)).getD 0 = (charOf c).toNat - 48 := by
    decide
  have hfold : digitsNumber 10 (decimal n) = ofDigits (decimal n) := by
    rw [digitsNumber, ofDigits, Nat.ofDigitChars_eq_foldl, List.foldl_map]
    refine List.foldl_ext _ _ _ fun v c hc ↦ ?_
    rw [hdigit c (isDigit_of_mem_decimal hc)]
    rfl
  rw [hfold, ofDigits_decimal]

theorem onResponseStatus_decimal (behindCut status : BitVec 32) (d : ResponseData) :
    d.onResponseStatus behindCut (decimal status.toNat) = d.withStatus status := by
  have hlt := status.isLt
  have hnumber : strtol 10 (decimal status.toNat) = status.toNat := by
    rw [strtol, digitsNumber_decimal]
    omega
  rw [ResponseData.onResponseStatus, if_neg (decimal_ne_nil _), hnumber, BitVec.ofNat_toNat,
    BitVec.setWidth_eq]
  rfl

theorem Writable.onResponseVersion (h : r.Writable) (d : ResponseData) :
    d.onResponseVersion r.versionText =
      { d with response := { d.response with version := r.version } } := by
  have htexts : strncmp (bytesOf "HTTP/1.1") (bytesOf "HTTP/1.1") (bytesOf "HTTP/1.1").length ∧
      strncmp (bytesOf "HTTP/1.0") (bytesOf "HTTP/1.1") (bytesOf "HTTP/1.0").length = false ∧
      strncmp (bytesOf "HTTP/1.0") (bytesOf "HTTP/1.0") (bytesOf "HTTP/1.0").length := by
    decide
  obtain ⟨hfirst, hnot, hsecond⟩ := htexts
  rcases h.versionText_eq with ⟨hversion, htext⟩ | ⟨hversion, htext⟩
  · rw [ResponseData.onResponseVersion, htext, if_pos hfirst, hversion]
    rfl
  · rw [ResponseData.onResponseVersion, htext, if_neg (by rw [hnot]; exact Bool.false_ne_true),
      if_pos hsecond, hversion]
    rfl

theorem foldl_field (behindCut : BitVec 32) {fields : List Header}
    (hnames : ∀ f ∈ fields, f.name ≠ []) (d : ResponseData) :
    (fields.map fun h ↦ .field h.name h.value).foldl (ResponseData.onCall behindCut) d =
      { d with response := { d.response with headers := d.response.headers.setAll fields } } := by
  induction fields generalizing d with
  | nil => rfl
  | cons f fields ih =>
    obtain ⟨hf, hrest⟩ := List.forall_mem_cons.mp hnames
    rw [List.map_cons, List.foldl_cons, ih hrest, ResponseData.onCall,
      ResponseData.onResponseHttpField, if_neg hf]
    rfl

/-- The response as the callbacks have set it, without the body. -/
def parsedHead (r : HttpResponse) : HttpResponse where
  status := r.status
  version := r.version
  reason := r.reasonText
  headers := (⟨[], Headers.sorted_nil⟩ : Headers).setAll r.parsedFields

theorem name_lengthFields {f : Header} (hf : f ∈ r.lengthFields) :
    f = ⟨bytesOf "content-length", decimal r.body.length⟩ ∧ r.body ≠ [] := by
  rw [lengthFields] at hf
  split at hf
  · cases hf
  · rename_i hbody
    rcases List.mem_cons.mp hf with rfl | hf
    · exact ⟨rfl, hbody⟩
    · exact ⟨List.mem_singleton.mp hf, hbody⟩

theorem Writable.parsed_eq (h : r.Writable) (behindCut : BitVec 32) :
    ∃ contentLen, ResponseData.parsed behindCut r.headText =
      { response := r.parsedHead, contentLen } := by
  obtain ⟨-, hcalls, -⟩ := h.reads_head
  have hne : bytesOf "connection" ≠ [] ∧ bytesOf "content-length" ≠ [] := by
    decide
  have hlength : ∀ f ∈ r.lengthFields, f.name ≠ [] := by
    intro f hf
    rw [(name_lengthFields hf).1]
    exact hne.2
  have hsetAll : ∀ (hs : Headers) (fields fields' : List Header),
      (hs.setAll fields).setAll fields' = hs.setAll (fields ++ fields') :=
    fun _ _ _ ↦ (List.foldl_append ..).symm
  rw [ResponseData.parsed, hcalls, headCalls]
  simp only [List.foldl_append, List.foldl_cons, List.foldl_nil,
    foldl_field behindCut fun f hf ↦ (h.line hf).1.1, foldl_field behindCut hlength]
  simp only [ResponseData.onCall, h.onResponseVersion, onResponseStatus_decimal,
    ResponseData.onResponseHttpField, if_neg hne.1]
  rw [parsedHead, parsedFields, ← hsetAll]
  split
  · exact ⟨_, rfl⟩
  · exact ⟨_, rfl⟩

/-! ### The headers behind the head -/

theorem length_ne_connection :
    caseKey (bytesOf "content-length") ≠ caseKey (bytesOf "connection") :=
  HttpRequest.connection_ne.symm

/-- The headers that are written as they are have the other names than `connection`. -/
theorem named_filter {name : List Byte} (hs : Headers)
    (hname : caseKey name ≠ caseKey (bytesOf "connection")) :
    (Headers.named name (hs.list.filter fun h ↦
      !strcasecmp h.name (bytesOf "connection"))).getLast? = hs.find name := by
  have hfilter : Headers.named name (hs.list.filter fun h ↦
      !strcasecmp h.name (bytesOf "connection")) = Headers.named name hs.list := by
    rw [Headers.named, List.filter_filter]
    refine List.filter_congr fun f _ ↦ ?_
    by_cases hkey : f.key = caseKey name
    · have hother : strcasecmp f.name (bytesOf "connection") = false :=
        decide_eq_false fun heq ↦ hname (hkey.symm.trans heq)
      rw [hother, Bool.not_false, Bool.and_true]
    · rw [decide_eq_false hkey, Bool.false_and]
  rw [hfilter, Headers.find, Headers.named,
    OrderedSet.getLast?_filter hs.sorted fun f ↦ decide_eq_true_iff]

/-- The headers that arrive: those of the response, the last of its cookies, the connection and the
length. -/
theorem Writable.find_parsedHead (h : r.Writable) (name : List Byte) :
    (r.parsedHead.headers.find name).map Header.value =
      if caseKey name = caseKey (bytesOf "connection") then
        some (HttpClientParser.connectionValue r.close)
      else if caseKey name = caseKey (bytesOf "content-length") then
        if r.body = [] then none else some (decimal r.body.length)
      else if caseKey name = caseKey (bytesOf "Set-Cookie") then
        r.cookies.getLast?.or ((r.headers.find name).map Header.value)
      else (r.headers.find name).map Header.value := by
  have hempty : (⟨[], Headers.sorted_nil⟩ : Headers).find name = none := rfl
  have hfields : ∀ ruled ∈ HttpClientParser.ruledNames, caseKey name = caseKey (bytesOf ruled) →
      Headers.named name r.fields = [] := by
    intro ruled hruled hname
    exact Headers.named_eq_nil fun f hf ↦ hname ▸ h.keys hf ruled hruled
  have hlengths : caseKey name ≠ caseKey (bytesOf "content-length") →
      Headers.named name r.lengthFields = [] := by
    intro hname
    refine Headers.named_eq_nil fun f hf ↦ ?_
    rw [(name_lengthFields hf).1]
    exact hname.symm
  rw [parsedHead, Headers.find_setAll_getLast?, hempty, Option.map_none, Option.or_none,
    parsedFields, Headers.named_append]
  by_cases hconnection : caseKey name = caseKey (bytesOf "connection")
  · rw [if_pos hconnection, hfields "connection" List.mem_cons_self hconnection,
      Headers.named_cons_of_eq (f := ⟨bytesOf "connection", _⟩) hconnection.symm,
      hlengths (hconnection ▸ length_ne_connection.symm)]
    rfl
  rw [if_neg hconnection, Headers.named_cons_of_ne (Ne.symm hconnection)]
  by_cases hlength : caseKey name = caseKey (bytesOf "content-length")
  · rw [if_pos hlength,
      hfields "content-length" (List.mem_cons_of_mem _ List.mem_cons_self) hlength,
      List.nil_append]
    have hall : Headers.named name r.lengthFields = r.lengthFields := by
      refine Headers.named_eq_self fun f hf ↦ ?_
      rw [(name_lengthFields hf).1]
      exact hlength.symm
    rw [hall, lengthFields]
    split
    · rfl
    · rfl
  rw [if_neg hlength, hlengths hlength, List.append_nil, fields, Headers.named_append,
    List.getLast?_append, writtenHeaders, named_filter r.headers hconnection]
  by_cases hcookie : caseKey name = caseKey (bytesOf "Set-Cookie")
  · have hall : Headers.named name (r.cookies.map fun c ↦ ⟨bytesOf "Set-Cookie", c⟩) =
        r.cookies.map fun c ↦ ⟨bytesOf "Set-Cookie", c⟩ := by
      refine Headers.named_eq_self fun f hf ↦ ?_
      obtain ⟨c, -, rfl⟩ := List.mem_map.mp hf
      exact hcookie.symm
    rw [if_pos hcookie, hall, List.getLast?_map]
    cases r.cookies.getLast? with
    | none => rfl
    | some c => rfl
  · have hnone : Headers.named name (r.cookies.map fun c ↦ ⟨bytesOf "Set-Cookie", c⟩) = [] := by
      refine Headers.named_eq_nil fun f hf ↦ ?_
      obtain ⟨c, -, rfl⟩ := List.mem_map.mp hf
      exact Ne.symm hcookie
    rw [if_neg hcookie, hnone]
    rfl

theorem Writable.contentLength (h : r.Writable) :
    r.parsedHead.headers.contentLength = r.body.length := by
  refine Headers.contentLength_eq h.body ?_
  rw [h.find_parsedHead, if_neg length_ne_connection, if_pos rfl]
  by_cases hbody : r.body = []
  · exact .inr ⟨if_pos hbody, congrArg List.length hbody⟩
  · exact .inl (if_neg hbody)

end HttpResponse

/-! ### The round trip -/

namespace HttpResponse

/-- No read that returns bytes of the head ends inside an element of it, and what is left of the
body behind the last of them has a length that is a positive `int`. -/
structure OrderlyReads (r : HttpResponse) (b : BufferSize) (s : SocketStream) : Prop where
  head : HeadReads HttpClientParser.start b r.headText s
  body : ∀ i, s.readEnd b.size i < r.headText.length →
    r.headText.length ≤ s.readEnd b.size (i + 1) →
      (WireBody.byLength r.body).OrderlyReads b (s.readEnd b.size (i + 1) - r.headText.length)
        (s.skip r.headText.length)

/-- What a client has of a response. -/
structure ReceivedAs (r r' : HttpResponse) : Prop where
  status : r'.status = r.status
  version : r'.version = r.version
  reason : r'.reason = if r.reason = [] then bytesOf (httpStatusToString r.status) else r.reason
  body : r'.body = r.body
  close : r'.close = true
  websocket : r'.websocket = false
  cookies : r'.cookies = []
  headers : ∀ name, (r'.headers.find name).map Header.value =
    if caseKey name = caseKey (bytesOf "connection") then
      some (bytesOf (if r.close then "close" else "keep-alive"))
    else if caseKey name = caseKey (bytesOf "content-length") then
      if r.body = [] then none else some (decimal r.body.length)
    else if caseKey name = caseKey (bytesOf "Set-Cookie") then
      r.cookies.getLast?.or ((r.headers.find name).map Header.value)
    else (r.headers.find name).map Header.value

end HttpResponse

/-- What the client makes of a response that arrives in orderly reads. -/
theorem HttpResponse.Writable.recvResponse_eq {r : HttpResponse} (hr : r.Writable)
    (behindCut : BitVec 32) {b : BufferSize} {s : SocketStream} {tail : List Byte}
    (hs : s.connected) (hbytes : s.bytes = r.dump ++ tail) (h : r.OrderlyReads b s) :
    HttpConnection.recvResponse behindCut b s =
      .ok ({ r.parsedHead with body := r.body }, s.skip r.dump.length) := by
  obtain ⟨hwhole, -, hfinal⟩ := hr.reads_head
  obtain ⟨contentLen, hparsed⟩ := hr.parsed_eq behindCut
  rw [hr.dump_eq, List.append_assoc] at hbytes
  have hlawful : (ResponseData.parsed behindCut r.headText).failure = none := by
    rw [hparsed]
    rfl
  obtain ⟨i, p, hbefore, hafter, hhead, hdata⟩ :=
    HttpConnection.headRead_of_reads behindCut hs hbytes hwhole hlawful hfinal h.head
  have hbehind : (s.skip r.headText.length).bytes = r.body ++ tail := by
    rw [SocketStream.bytes_skip, hbytes, List.drop_left]
  rw [hparsed] at hdata
  have hchunked : p.data.chunked = false := by rw [hdata]
  have hlength : p.data.response.headers.contentLength = r.body.length := by
    rw [hdata]
    exact hr.contentLength
  have hrecv := hhead.recvResponse_eq hchunked hlength hbehind (h.body i hbefore hafter)
  rwa [SocketStream.skip_skip, ← List.length_append, ← hr.dump_eq, hdata] at hrecv

theorem HttpResponse.Writable.receivedAs {r : HttpResponse} (hr : r.Writable) :
    r.ReceivedAs { r.parsedHead with body := r.body } :=
  ⟨rfl, rfl, rfl, rfl, rfl, rfl, rfl, hr.find_parsedHead⟩

/-- A page without a reason of its own and with two cookies, for a connection that is closed. -/
def cookiePage : HttpResponse where
  status := 404
  version := 0x10
  body := bytesOf "gone"
  headers := ⟨[⟨bytesOf "Connection", bytesOf "upgrade"⟩, ⟨bytesOf "content-type", bytesOf "text"⟩,
    ⟨bytesOf "x-empty", []⟩], by decide +kernel⟩
  cookies := [bytesOf "a=1", bytesOf "b=2; path=/"]

theorem cookiePage_writable : cookiePage.Writable where
  websocket := rfl
  version := .inr rfl
  reason := by decide +kernel
  names := by decide +kernel
  others := by decide +kernel
  values := by decide +kernel
  cookies := by decide +kernel
  body := by decide +kernel

/-- The head in two reads, the second with the beginning of the body, and bytes of another
response. -/
def cookiePieces : SocketStream :=
  arriving ["HTTP/1.0 404 Not Found\r\n",
    "content-type: text\r\nx-empty: \r\nSet-Cookie: a=1\r\nSet-Cookie: b=2; path=/\r\n" ++
      "connection: close\r\ncontent-length: 4\r\n\r\ngo", "neHTTP/1.1"]

theorem cookiePieces_reads : cookiePieces.bytes = cookiePage.dump ++ bytesOf "HTTP/1.1" ∧
    cookiePage.OrderlyReads defaultBuffer cookiePieces := by
  have hbytes : cookiePieces.bytes = cookiePage.dump ++ bytesOf "HTTP/1.1" := by
    decide +kernel
  have hends : cookiePieces.readEnd defaultBuffer.size 1 < cookiePage.headText.length ∧
      cookiePieces.readEnd defaultBuffer.size 2 = cookiePage.headText.length + 2 := by
    decide +kernel
  have huncut : UncutAt HttpClientParser.start cookiePage.headText
      (cookiePieces.readEnd defaultBuffer.size 1) := by
    unfold UncutAt
    decide +kernel
  obtain ⟨hfirst, hend⟩ := hends
  have hmono := fun i j ↦
    SocketStream.readEnd_mono cookiePieces defaultBuffer.size (i := i) (j := j)
  refine ⟨hbytes, fun i hi ↦ ?_, fun i hi hafter ↦ ?_⟩
  · have hlt : i = 0 ∨ i = 1 := by
      by_contra hge
      have hlater := hmono 2 i (by omega)
      omega
    rcases hlt with rfl | rfl
    · exact UncutAt.zero
    · exact huncut
  · have hone : i + 1 = 2 := by
      by_contra hne
      rcases Nat.lt_or_gt_of_ne hne with hlt | hgt
      · have hearlier := hmono (i + 1) 1 (by omega)
        omega
      · have hlater := hmono 2 i (by omega)
        omega
    rw [hone, hend, Nat.add_sub_cancel_left]
    exact ⟨cookiePage_writable.body, .inr (by decide +kernel)⟩

end Rsylar.Http
