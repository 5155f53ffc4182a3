import Rsylar.Http.ScannedText
import Rsylar.Http.Session

/-!
# The elements of a written request

How the machine of the requests reads what `HttpRequest::dump` writes, element by element: the
method, the path, the query, the fragment, the version and the header lines. The tables of states
that the elements of any length need are computed from the grammar. The state behind the request
line is the one behind every header line, and there the machine does not depend on `relaxed`.

A field value may be empty, or may not begin with a blank: the blank that is written behind the
colon is not part of it.
-/

set_option autoImplicit false
set_option relaxedAutoImplicit false

namespace Rsylar.Http

open ActionRegex Scanner

/-- The data behind a URI; the callbacks are not made for an empty query or fragment. -/
def RequestData.onUri (d : RequestData) (path query fragment : List Byte) : RequestData :=
  { d with
    request := { d.request with
      path
      query := if query = [] then d.request.query else query
      fragment := if fragment = [] then d.request.fragment else fragment } }

theorem bytesOf_crlf : bytesOf "\r\n" = [13#8, 10#8] := rfl

theorem bytesOf_colon : bytesOf ": " = [58#8, 32#8] := rfl

namespace HttpParser

open Expr CharSet

/-! ### The states between the elements -/

/-- The machine behind a text. -/
def behind (relaxed : Bool) (text : String) : RequestExpr :=
  (start relaxed).residual ((bytesOf text).map BitVec.toNat)

/-- The machine in front of a header line. -/
def headerLines : RequestExpr := behind false "GET / HTTP/1.1\r\n"

def behindHeader (text : String) : RequestExpr :=
  headerLines.residual ((bytesOf text).map BitVec.toNat)

/-- The rules tell no bytes between two neighbours apart. -/
def bounds : List ℕ :=
  [0, 1, 9, 10, 11, 13, 14, 32, 33, 34, 35, 36, 37, 38, 39, 40, 41, 42, 43, 44, 45, 46, 47, 48, 49,
    50, 58, 59, 60, 61, 62, 63, 64, 65, 71, 72, 73, 80, 81, 84, 85, 91, 92, 93, 94, 95, 96, 97, 103,
    123, 124, 125, 126, 127, 128, 256]

theorem coversBytes : CoversBytes bounds := ⟨rfl, rfl⟩

/-- The tokens of HTTP, which have no control characters; those of the grammar may have some. -/
def nameChars : CharSet := diff (range 33 126) httpSeparator

def valueChars : CharSet := diff (range 32 255) (range 127 127)

def nameText : RequestExpr := plus (chars nameChars)

def valueText : RequestExpr := cat (chars (diff valueChars (range 32 32))) (star (chars valueChars))

/-- The path, the query, the fragment and the version. -/
theorem passes_requestLine (relaxed : Bool) :
    passes bounds 20 (pathAbsolute relaxed) (behind relaxed "GET ") [.mark]
      [⟨32, behind relaxed "GET / ", [.token .requestPath, .skip]⟩,
        ⟨35, behind relaxed "GET /#", [.token .requestPath, .skip]⟩,
        ⟨63, behind relaxed "GET /?", [.token .requestPath]⟩] ∧
    passes bounds 20 (queryChars relaxed) (behind relaxed "GET /?") [.startQuery]
      [⟨32, behind relaxed "GET / ", [.queryString, .skip]⟩,
        ⟨35, behind relaxed "GET /#", [.queryString, .skip]⟩] ∧
    passes bounds 20 (fragmentChars relaxed) (behind relaxed "GET /#") [.mark]
      [⟨32, behind relaxed "GET / ", [.token .fragment]⟩] ∧
    passes bounds 20 (cat (str "HTTP/") httpNumber) (behind relaxed "GET / ") [.mark]
      [⟨13, behind relaxed "GET / HTTP/1.1\r", [.token .httpVersion]⟩] := by
  -- one evaluation for each element
  cases relaxed <;> refine ⟨?_, ?_, ?_, ?_⟩ <;> decide +kernel

/-- The name and the value of a field. -/
theorem passes_headerLine :
    passes bounds 20 nameText headerLines [.startField]
      [⟨58, behindHeader "a:", [.writeField]⟩] ∧
    passes bounds 20 valueText (behindHeader "a: ") [.mark]
      [⟨13, behindHeader "a:\r", [.writeValue]⟩] := by
  decide +kernel

/-- The single bytes: the end of the request line, the blank behind a colon, a value that is empty,
the end of a header line, and the empty line, behind which the machine may stop. -/
theorem goes_singleBytes :
    (∀ relaxed, Goes (behind relaxed "GET / HTTP/1.1\r") 10#8 headerLines []) ∧
    Goes (behindHeader "a:") 32#8 (behindHeader "a: ") [.mark] ∧
    Goes (behindHeader "a: ") 13#8 (behindHeader "a:\r") [.mark, .writeValue] ∧
    Goes (behindHeader "a:\r") 10#8 headerLines [] ∧
    Goes headerLines 13#8 (behindHeader "\r") [.startField] ∧
    Goes (behindHeader "\r") 10#8 (behindHeader "\r\n") [.done] ∧
    (behindHeader "\r\n").nullable := by
  decide +kernel

/-! ### The request line -/

section RequestLine

variable {relaxed : Bool} {seen text : List Byte} {m : Marks}

/-- A method without a hyphen. -/
theorem reaches_method {method : HttpMethod} (hmethod : method ≠ .msearch) :
    Reaches [] (bytesOf method.text ++ [32#8]) (start relaxed) {} (behind relaxed "GET ") {}
      [.token .requestMethod (bytesOf method.text) 32#8] := by
  have hexec : ∀ method ∈ HttpMethod.all, method ≠ .msearch →
      exec [] (bytesOf method.text ++ [32#8]) (start relaxed) {} =
        ⟨.more, behind relaxed "GET ", {}, [.token .requestMethod (bytesOf method.text) 32#8], [],
          [(0, (bytesOf method.text).length)]⟩ := by
    cases relaxed <;> decide +kernel
  have hall : method ∈ HttpMethod.all := by cases method <;> decide
  have hmethod' := hexec method hall hmethod
  exact ⟨by rw [hmethod'], by rw [hmethod'], by rw [hmethod'], by rw [hmethod']⟩

theorem done_notMem_cons {a : ScanAction RequestToken Empty}
    {bs : List (ScanAction RequestToken Empty)} (ha : a ≠ .done) (hbs : bs.all onlyMarks) :
    .done ∉ a :: bs := by
  rw [List.mem_cons, not_or]
  exact ⟨ha.symm, done_notMem_of_onlyMarks hbs⟩

variable {r cs cs' : RequestExpr} {c : Byte} {bs : List (ScanAction RequestToken Empty)}
  {exits : List (Exit (ScanAction RequestToken Empty))}

/-- An element that a callback is given, from the mark at its first byte on. -/
theorem reaches_token {k : RequestToken} (hpasses : passes bounds 20 r cs [.mark] exits)
    (he : ⟨c.toNat, cs', .token k :: bs⟩ ∈ exits) (hbs : bs.all onlyMarks) (htext : text ≠ [])
    (haccepts : r.accepts (text.map BitVec.toNat)) :
    ∃ m', Reaches seen (text ++ [c]) cs m cs' m' [.token k text c] := by
  have hdone := done_notMem_cons (a := .token k) (fun h ↦ by cases h) hbs
  have helement : Reaches seen (text ++ [c]) cs m cs' _ _ :=
    reaches_element coversBytes hpasses he rfl rfl hdone htext haccepts
  rw [callAll, callAll_of_onlyMarks hbs, call] at helement
  simp only [setAll, List.foldl_cons, List.foldl_nil, Marks.set, List.drop_left,
    List.append_nil] at helement
  exact ⟨_, helement⟩

/-- The query, from `query_start` on. -/
theorem reaches_queryString (hpasses : passes bounds 20 r cs [.startQuery] exits)
    (he : ⟨c.toNat, cs', .queryString :: bs⟩ ∈ exits) (hbs : bs.all onlyMarks) (htext : text ≠ [])
    (haccepts : r.accepts (text.map BitVec.toNat)) :
    ∃ m', Reaches seen (text ++ [c]) cs m cs' m' [.queryString (some text)] := by
  have hdone := done_notMem_cons (a := .queryString) (fun h ↦ by cases h) hbs
  have helement : Reaches seen (text ++ [c]) cs m cs' _ _ :=
    reaches_element coversBytes hpasses he rfl rfl hdone htext haccepts
  rw [callAll, callAll_of_onlyMarks hbs, call] at helement
  simp only [setAll, List.foldl_cons, List.foldl_nil, Marks.set, List.drop_left,
    List.append_nil, List.length_append, Nat.le_add_right, if_true] at helement
  exact ⟨_, helement⟩

/-- The part of a URI in front of the fragment, and the fragment with its delimiter when there is
one. -/
theorem reaches_beforeFragment {fragment : List Byte} {f : RequestData → RequestData}
    (hspace : ∃ m' call, Reaches seen (text ++ [32#8]) cs m (behind relaxed "GET / ") m' [call] ∧
      ∀ d : RequestData, d.onCall call = f d)
    (hhash : ∃ m' call, Reaches seen (text ++ [35#8]) cs m (behind relaxed "GET /#") m' [call] ∧
      ∀ d : RequestData, d.onCall call = f d)
    (hfragment : (fragmentChars relaxed).accepts (fragment.map BitVec.toNat)) :
    ∃ m' calls, Reaches seen
        (text ++ (if fragment = [] then [] else bytesOf "#") ++ fragment ++ [32#8]) cs m
        (behind relaxed "GET / ") m' calls ∧
      ∀ d, calls.foldl RequestData.onCall d =
        if fragment = [] then f d else (f d).onRequestFragment fragment := by
  by_cases hnone : fragment = []
  · obtain ⟨m', call, h, hcall⟩ := hspace
    refine ⟨m', [call], ?_, fun d ↦ ?_⟩
    · rw [if_pos hnone, hnone, List.append_nil, List.append_nil]
      exact h
    · rw [if_pos hnone, ← hcall]
      rfl
  · obtain ⟨m', call, h, hcall⟩ := hhash
    have htail : ∃ m'', Reaches (seen ++ (text ++ [35#8])) (fragment ++ [32#8])
        (behind relaxed "GET /#") m' (behind relaxed "GET / ") m''
        [.token .fragment fragment 32#8] :=
      reaches_token (passes_requestLine relaxed).2.2.1 List.mem_cons_self rfl hnone hfragment
    obtain ⟨m'', htail⟩ := htail
    refine ⟨m'', [call, .token .fragment fragment 32#8], ?_, fun d ↦ ?_⟩
    · rw [if_neg hnone, List.append_assoc]
      exact h.append htail
    · rw [if_neg hnone, ← hcall]
      rfl

/-- The path, the query and the fragment, the last two with their delimiters when there are any. -/
theorem reaches_uri {path query fragment : List Byte}
    (hpath : (pathAbsolute relaxed).accepts (path.map BitVec.toNat))
    (hquery : (queryChars relaxed).accepts (query.map BitVec.toNat))
    (hfragment : (fragmentChars relaxed).accepts (fragment.map BitVec.toNat)) :
    ∃ m' calls, Reaches seen
        (path ++ (if query = [] then [] else bytesOf "?") ++ query ++
          (if fragment = [] then [] else bytesOf "#") ++ fragment ++ [32#8])
        (behind relaxed "GET ") m (behind relaxed "GET / ") m' calls ∧
      ∀ d, calls.foldl RequestData.onCall d = d.onUri path query fragment := by
  have hne : path ≠ [] := by
    rintro rfl
    have hempty : (pathAbsolute relaxed).accepts [] = false := rfl
    rw [List.map_nil, hempty] at hpath
    cases hpath
  have hsecond : ∀ {x y : Exit (ScanAction RequestToken Empty)} {exits}, x ∈ y :: x :: exits :=
    List.mem_cons_of_mem _ List.mem_cons_self
  by_cases hnone : query = []
  · have hspace : ∃ m', Reaches seen (path ++ [32#8]) (behind relaxed "GET ") m
        (behind relaxed "GET / ") m' [.token .requestPath path 32#8] :=
      reaches_token (passes_requestLine relaxed).1 List.mem_cons_self rfl hne hpath
    have hhash : ∃ m', Reaches seen (path ++ [35#8]) (behind relaxed "GET ") m
        (behind relaxed "GET /#") m' [.token .requestPath path 35#8] :=
      reaches_token (passes_requestLine relaxed).1 hsecond rfl hne hpath
    obtain ⟨m', calls, h, hcalls⟩ := reaches_beforeFragment (f := fun d ↦ d.onRequestPath path)
      (hspace.imp fun m' h ↦ ⟨_, h, fun _ ↦ rfl⟩) (hhash.imp fun m' h ↦ ⟨_, h, fun _ ↦ rfl⟩)
      hfragment
    refine ⟨m', calls, ?_, fun d ↦ ?_⟩
    · rw [if_pos hnone, hnone, List.append_nil, List.append_nil]
      exact h
    · rw [hcalls, RequestData.onUri, if_pos hnone]
      by_cases hf : fragment = []
      · rw [if_pos hf, if_pos hf]
        rfl
      · rw [if_neg hf, if_neg hf]
        rfl
  · have hmark : ∃ m', Reaches seen (path ++ [63#8]) (behind relaxed "GET ") m
        (behind relaxed "GET /?") m' [.token .requestPath path 63#8] :=
      reaches_token (passes_requestLine relaxed).1 (List.mem_cons_of_mem _ hsecond) rfl hne hpath
    obtain ⟨m', hmark⟩ := hmark
    have hspace : ∃ m'', Reaches (seen ++ (path ++ [63#8])) (query ++ [32#8])
        (behind relaxed "GET /?") m' (behind relaxed "GET / ") m'' [.queryString (some query)] :=
      reaches_queryString (passes_requestLine relaxed).2.1 List.mem_cons_self rfl hnone hquery
    have hhash : ∃ m'', Reaches (seen ++ (path ++ [63#8])) (query ++ [35#8])
        (behind relaxed "GET /?") m' (behind relaxed "GET /#") m'' [.queryString (some query)] :=
      reaches_queryString (passes_requestLine relaxed).2.1 hsecond rfl hnone hquery
    obtain ⟨m'', calls, h, hcalls⟩ :=
      reaches_beforeFragment (f := fun d ↦ d.onRequestQuery (some query))
        (hspace.imp fun m' h ↦ ⟨_, h, fun _ ↦ rfl⟩) (hhash.imp fun m' h ↦ ⟨_, h, fun _ ↦ rfl⟩)
        hfragment
    refine ⟨m'', .token .requestPath path 63#8 :: calls, ?_, fun d ↦ ?_⟩
    · rw [if_neg hnone]
      have hread := hmark.append h
      simp only [List.append_assoc] at hread ⊢
      exact hread
    · rw [List.foldl_cons, hcalls, RequestData.onUri, if_neg hnone]
      by_cases hf : fragment = []
      · rw [if_pos hf, if_pos hf]
        rfl
      · rw [if_neg hf, if_neg hf]
        rfl

/-- The version and the end of the request line. -/
theorem reaches_version {version : List Byte}
    (hversion : (cat (str "HTTP/") httpNumber : RequestExpr).accepts (version.map BitVec.toNat)) :
    ∃ m', Reaches seen (version ++ bytesOf "\r\n") (behind relaxed "GET / ") m headerLines m'
      [.token .httpVersion version 13#8] := by
  have hne : version ≠ [] := by
    rintro rfl
    exact absurd hversion (by decide)
  have htoken : ∃ m', Reaches seen (version ++ [13#8]) (behind relaxed "GET / ") m
      (behind relaxed "GET / HTTP/1.1\r") m' [.token .httpVersion version 13#8] :=
    reaches_token (passes_requestLine relaxed).2.2.2 List.mem_cons_self rfl hne hversion
  obtain ⟨m', htoken⟩ := htoken
  have hbyte : Reaches (seen ++ (version ++ [13#8])) [10#8] (behind relaxed "GET / HTTP/1.1\r") m'
      headerLines m' [] :=
    reaches_mark (goes_singleBytes.1 relaxed) rfl
  have hline := htoken.append hbyte
  rw [List.append_assoc] at hline
  rw [bytesOf_crlf]
  exact ⟨m', hline⟩

end RequestLine

/-! ### Header lines -/

section HeaderLines

variable {seen name value : List Byte} {m : Marks}

/-- A field name: its beginning and its length are kept until the end of the line. -/
theorem reaches_name (hname : nameText.accepts (name.map BitVec.toNat)) (hne : name ≠ []) :
    Reaches seen (name ++ [58#8]) headerLines m (behindHeader "a:")
      { m with fieldStart := seen.length, fieldLen := name.length, lenFrom := seen.length } [] := by
  have helement : Reaches seen (name ++ [58#8]) headerLines m (behindHeader "a:") _ _ :=
    reaches_element coversBytes passes_headerLine.1 List.mem_cons_self rfl rfl (by decide) hne hname
  rw [callAll_of_onlyMarks rfl] at helement
  simpa [setAll, Marks.set] using helement

theorem take_drop_append {text : List Byte} {first length : ℕ} (h : first + length ≤ seen.length) :
    ((seen ++ text).drop first).take length = (seen.drop first).take length := by
  rw [List.drop_append_of_le_length (by omega),
    List.take_append_of_le_length (by rw [List.length_drop]; omega)]

/-- The blank behind the colon, and a value that does not begin with one. -/
theorem reaches_fieldValue (hvalue : value ≠ [] → valueText.accepts (value.map BitVec.toNat))
    (hname : m.fieldStart + m.fieldLen ≤ seen.length) :
    ∃ m', Reaches seen ([32#8] ++ (value ++ [13#8])) (behindHeader "a:") m (behindHeader "a:\r") m'
      [.field ((seen.drop m.fieldStart).take m.fieldLen) value] := by
  obtain ⟨-, hblank, hend, -⟩ := goes_singleBytes
  have hfirst : Reaches seen [32#8] (behindHeader "a:") m (behindHeader "a: ")
      { m with mark := seen.length } [] :=
    reaches_mark hblank rfl
  by_cases hnone : value = []
  · have hlast : Reaches (seen ++ [32#8]) [13#8] (behindHeader "a: ")
        { m with mark := seen.length } (behindHeader "a:\r") _ _ :=
      reaches_byte hend (by decide)
    have hvalueRead := hfirst.append hlast
    simp only [callAll, call, setAll, List.foldl_cons, List.foldl_nil, Marks.set,
      take_drop_append hname, List.drop_length, List.nil_append, List.append_nil] at hvalueRead
    subst hnone
    exact ⟨_, hvalueRead⟩
  · have hlast : Reaches (seen ++ [32#8]) (value ++ [13#8]) (behindHeader "a: ")
        { m with mark := seen.length } (behindHeader "a:\r") _ _ :=
      reaches_element coversBytes passes_headerLine.2 List.mem_cons_self rfl rfl (by decide) hnone
        (hvalue hnone)
    have hvalueRead := hfirst.append hlast
    simp only [callAll, call, setAll, List.foldl_cons, List.foldl_nil, Marks.set,
      List.drop_left, List.nil_append, List.append_nil] at hvalueRead
    rw [List.append_assoc, take_drop_append hname] at hvalueRead
    exact ⟨_, hvalueRead⟩

/-- A header line, as it is written. -/
theorem reaches_headerLine (hname : nameText.accepts (name.map BitVec.toNat)) (hne : name ≠ [])
    (hvalue : value ≠ [] → valueText.accepts (value.map BitVec.toNat)) :
    ∃ m', Reaches seen (HttpRequest.dumpHeader name value) headerLines m headerLines m'
      [.field name value] := by
  have hfield : Reaches seen (name ++ [58#8]) headerLines m (behindHeader "a:") _ [] :=
    reaches_name hname hne
  have hinside : seen.length + name.length ≤ (seen ++ (name ++ [58#8])).length := by
    simp only [List.length_append]
    omega
  obtain ⟨m', hrest⟩ := reaches_fieldValue (m := { m with
    fieldStart := seen.length, fieldLen := name.length, lenFrom := seen.length }) hvalue hinside
  obtain ⟨-, -, -, hend, -⟩ := goes_singleBytes
  have hbyte : Reaches (seen ++ (name ++ [58#8] ++ ([32#8] ++ (value ++ [13#8])))) [10#8]
      (behindHeader "a:\r") m' headerLines m' [] :=
    reaches_mark hend rfl
  have hline := (hfield.append hrest).append hbyte
  simp only [List.drop_left, List.append_assoc, List.take_left] at hline
  have htext : HttpRequest.dumpHeader name value =
      name ++ ([58#8] ++ ([32#8] ++ (value ++ ([13#8] ++ [10#8])))) := by
    rw [HttpRequest.dumpHeader, bytesOf_crlf, bytesOf_colon]
    simp only [List.append_assoc, List.cons_append, List.nil_append]
  rw [htext]
  exact ⟨m', hline⟩

/-- The header lines of a list. -/
theorem reaches_headerLines {headers : List Header}
    (hheaders : ∀ h ∈ headers, nameText.accepts (h.name.map BitVec.toNat) ∧ h.name ≠ [] ∧
      (h.value ≠ [] → valueText.accepts (h.value.map BitVec.toNat))) :
    ∃ m', Reaches seen (headers.flatMap fun h ↦ HttpRequest.dumpHeader h.name h.value) headerLines m
      headerLines m' (headers.map fun h ↦ .field h.name h.value) := by
  induction headers generalizing seen m with
  | nil => exact ⟨m, reaches_nil⟩
  | cons h headers ih =>
    obtain ⟨⟨hname, hne, hvalue⟩, hrest⟩ := List.forall_mem_cons.mp hheaders
    have hline : ∃ m', Reaches seen (HttpRequest.dumpHeader h.name h.value) headerLines m
        headerLines m' [.field h.name h.value] :=
      reaches_headerLine hname hne hvalue
    obtain ⟨m', hline⟩ := hline
    obtain ⟨m'', hlines⟩ := ih hrest
    exact ⟨m'', hline.append hlines⟩

/-- The empty line ends the message. -/
theorem finishes_emptyLine : Finishes seen (bytesOf "\r\n") headerLines m [] := by
  obtain ⟨-, -, -, -, ⟨hfirst, hvoid⟩, ⟨hlast, hvoid'⟩, hnullable⟩ := goes_singleBytes
  rw [bytesOf_crlf]
  constructor
  · simp [exec, hfirst, hlast, hvoid, hvoid']
  · simp [exec, hfirst, hlast, hvoid, hvoid']
  · simp [exec, hfirst, hlast, hvoid, hvoid', hnullable]
  · simp [exec, hfirst, hlast, hvoid, hvoid', callAll, call]

end HeaderLines

end HttpParser

end Rsylar.Http
