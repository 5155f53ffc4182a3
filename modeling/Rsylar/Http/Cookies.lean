import Mathlib.Data.List.DropRight
import Rsylar.Http.QueryParams

/-!
# Cookies

`initCookies` and the functions of `HttpRequest` that ask for a cookie. It is `PARSE_PARAM` again,
on the header `cookie`, with another separator and with names that are trimmed: after a semicolon a
blank may stand. Whatever has been asked for before, a cookie that is asked for has the first value
that the header gives for its name (`cookies_first`).
-/

set_option autoImplicit false
set_option relaxedAutoImplicit false

namespace Rsylar.Http

open StringUtil

/-- The default `delimit` of `StringUtil::Trim`. -/
def delimit : List Byte := bytesOf " \t\r\n"

def trim (str : List Byte) : List Byte :=
  (str.dropWhile delimit.contains).rdropWhile delimit.contains

/-- A request with `m_cookies` and `m_parserParamFlag`. -/
structure CookieRequest where
  request : HttpRequest
  cookies : Headers
  parserParamFlag : Byte

namespace CookieRequest

variable (r : CookieRequest)

def initCookies : CookieRequest :=
  if r.parserParamFlag &&& 4#8 ≠ 0 then r
  else if r.request.headers.getHeader (bytesOf "cookie") = [] then
    { r with parserParamFlag := r.parserParamFlag ||| 4#8 }
  else
    { r with
      cookies := parseParam (r.request.headers.getHeader (bytesOf "cookie")) r.cookies 59#8 trim
      parserParamFlag := r.parserParamFlag ||| 4#8 }

/-- The cookie, or the default. -/
def getCookie (key dflt : List Byte) : List Byte × CookieRequest :=
  (((r.initCookies.cookies.find key).map Header.value).getD dflt, r.initCookies)

def hasCookie (key : List Byte) : Bool × CookieRequest :=
  ((r.initCookies.cookies.find key).isSome, r.initCookies)

/-- The members as the constructor of `HttpRequest` sets them. -/
def ofRequest (request : HttpRequest) : CookieRequest := ⟨request, ⟨[], Headers.sorted_nil⟩, 0#8⟩

/-- After cookies have been asked for. -/
def asked (keys : List (List Byte)) : CookieRequest :=
  keys.foldl (fun r key ↦ (r.getCookie key []).2) r

end CookieRequest

/-! ### What is written -/

def cookieText (kv : List Byte × List Byte) : List Byte := kv.1 ++ 61#8 :: urlEncode kv.2 true

/-- The texts of the cookies with a semicolon and a blank between them. -/
def cookieLine : List (List Byte × List Byte) → List Byte
  | [] => []
  | [kv] => cookieText kv
  | kv :: kvs => cookieText kv ++ 59#8 :: 32#8 :: cookieLine kvs

section

variable {m : Headers} {kvs : List (List Byte × List Byte)}

theorem trim_blank (str : List Byte) : trim (32#8 :: str) = trim str := by
  rw [trim, List.dropWhile_cons_of_pos (by decide), trim]

/-- Encoding writes no semicolon. -/
theorem ne_semicolon_of_mem_urlEncode {l : List Byte} {b : Byte} (h : b ∈ urlEncode l true) :
    b ≠ 59#8 := by
  have hbytes : ∀ c : Byte, (encodeByte true c).all fun b ↦ b ≠ 59#8 := by
    decide +kernel
  rw [urlEncode_eq] at h
  obtain ⟨c, -, hb⟩ := List.mem_flatMap.mp h
  exact of_decide_eq_true (List.all_eq_true.mp (hbytes c) b hb)

/-- One cookie, at the end of the header or with more behind it. -/
theorem parseParamLoop_cookie {text : List Byte} (htext : 61#8 ∉ text) (value : List Byte)
    (fuel : ℕ) (more : Option (List Byte)) :
    parseParamLoop 59#8 trim (fuel + 1)
        (text ++ 61#8 :: urlEncode value true ++ more.elim [] (59#8 :: ·)) m =
      more.elim (m.insertNew (trim text) value) fun next ↦
        parseParamLoop 59#8 trim fuel next (m.insertNew (trim text) value) := by
  have hname : ∀ c ∈ text, decide (c ≠ 61#8) := by
    intro c hc
    rw [decide_eq_true_eq]
    rintro rfl
    exact htext hc
  have hvalue : ∀ c ∈ urlEncode value true, decide (c ≠ 59#8) := fun c hc ↦
    decide_eq_true (ne_semicolon_of_mem_urlEncode hc)
  rw [parseParamLoop, List.append_assoc, List.cons_append, List.takeWhile_append_of_pos hname,
    List.dropWhile_append_of_pos hname, List.takeWhile_cons_of_neg (by simp),
    List.dropWhile_cons_of_neg (by simp), List.append_nil]
  simp only [List.takeWhile_append_of_pos hvalue, List.dropWhile_append_of_pos hvalue]
  cases more with
  | none => simp [urlDecode_urlEncode]
  | some next => simp [urlDecode_urlEncode]

/-- The first cookie of a name stays. -/
def insertCookies (kvs : List (List Byte × List Byte)) (m : Headers) : Headers :=
  kvs.foldl (fun m kv ↦ m.insertNew kv.1 kv.2) m

/-- With nothing or with a blank in front. -/
theorem parseParamLoop_cookieLine (hnames : ∀ kv ∈ kvs, 61#8 ∉ kv.1 ∧ trim kv.1 = kv.1) (fuel : ℕ)
    (hfuel : kvs.length ≤ fuel) {blank : List Byte} (hblank : blank = [] ∨ blank = [32#8]) :
    parseParamLoop 59#8 trim fuel (blank ++ cookieLine kvs) m = insertCookies kvs m := by
  induction kvs generalizing fuel m blank with
  | nil =>
    cases fuel with
    | zero => rfl
    | succ fuel =>
      rcases hblank with rfl | rfl
      · rfl
      · rfl
  | cons kv kvs ih =>
    obtain ⟨⟨hequals, htrim⟩, hrest⟩ := List.forall_mem_cons.mp hnames
    obtain ⟨fuel, rfl⟩ := Nat.exists_eq_add_of_le' (Nat.lt_of_lt_of_le (Nat.succ_pos _) hfuel)
    have hfirst : 61#8 ∉ blank ++ kv.1 ∧ trim (blank ++ kv.1) = kv.1 := by
      rcases hblank with rfl | rfl
      · exact ⟨hequals, htrim⟩
      · exact ⟨by simp [hequals], (trim_blank kv.1).trans htrim⟩
    have hone := fun more ↦ parseParamLoop_cookie (m := m) hfirst.1 kv.2 fuel more
    rw [hfirst.2] at hone
    cases kvs with
    | nil =>
      have hlast := hone none
      rw [Option.elim_none, List.append_nil, List.append_assoc] at hlast
      exact hlast
    | cons kv' kvs =>
      have hnext := hone (some (32#8 :: cookieLine (kv' :: kvs)))
      rw [Option.elim_some, List.append_assoc, List.append_assoc, ← List.append_assoc kv.1] at hnext
      exact hnext.trans (ih hrest fuel (Nat.le_of_succ_le_succ hfuel) (.inr rfl))

theorem length_le_cookieLine (kvs : List (List Byte × List Byte)) :
    kvs.length ≤ (cookieLine kvs).length := by
  induction kvs with
  | nil => exact Nat.le_refl _
  | cons kv kvs ih =>
    have hpos : 1 ≤ (cookieText kv).length := by
      rw [cookieText, List.length_append, List.length_cons]
      omega
    cases kvs with
    | nil => exact hpos
    | cons kv' kvs =>
      have hline : (cookieLine (kv :: kv' :: kvs)).length =
          (cookieText kv).length + ((cookieLine (kv' :: kvs)).length + 1 + 1) := List.length_append
      rw [List.length_cons, hline]
      omega

end

/-! ### The cookies of a request -/

section

variable {request : HttpRequest} {kvs : List (List Byte × List Byte)}

theorem initCookies_ofRequest
    (hline : request.headers.getHeader (bytesOf "cookie") = cookieLine kvs)
    (hnames : ∀ kv ∈ kvs, 61#8 ∉ kv.1 ∧ trim kv.1 = kv.1) :
    (CookieRequest.ofRequest request).initCookies =
      ⟨request, insertCookies kvs ⟨[], Headers.sorted_nil⟩, 4#8⟩ := by
  have hparsed : parseParam (cookieLine kvs) ⟨[], Headers.sorted_nil⟩ 59#8 trim =
      insertCookies kvs ⟨[], Headers.sorted_nil⟩ :=
    parseParamLoop_cookieLine hnames _ (Nat.le_succ_of_le (length_le_cookieLine kvs)) (.inl rfl)
  have hflag : ¬(0#8 &&& 4#8 ≠ 0) := by decide
  rw [CookieRequest.initCookies, CookieRequest.ofRequest, if_neg hflag]
  simp only [hline, hparsed]
  split
  · next hempty =>
    have hnone := length_le_cookieLine kvs
    rw [hempty, List.length_nil, Nat.le_zero, List.length_eq_zero_iff] at hnone
    rw [hnone]
    rfl
  · rfl

/-- What has been asked for before makes no difference. -/
theorem initCookies_asked (request : HttpRequest) (keys : List (List Byte)) :
    ((CookieRequest.ofRequest request).asked keys).initCookies =
      (CookieRequest.ofRequest request).initCookies := by
  have hagain : (CookieRequest.ofRequest request).initCookies.initCookies =
      (CookieRequest.ofRequest request).initCookies := by
    have hflag : (CookieRequest.ofRequest request).initCookies.parserParamFlag &&& 4#8 ≠ 0 := by
      rw [CookieRequest.initCookies]
      split
      · assumption
      · split
        · exact (by decide : (0#8 ||| 4#8) &&& 4#8 ≠ 0)
        · exact (by decide : (0#8 ||| 4#8) &&& 4#8 ≠ 0)
    exact if_pos hflag
  have hlater : ∀ keys, (CookieRequest.ofRequest request).initCookies.asked keys =
      (CookieRequest.ofRequest request).initCookies := by
    intro keys
    induction keys with
    | nil => rfl
    | cons key keys ih =>
      rw [CookieRequest.asked, List.foldl_cons, CookieRequest.getCookie, hagain]
      exact ih
  cases keys with
  | nil => rfl
  | cons key keys =>
    have hfirst : (CookieRequest.ofRequest request).asked (key :: keys) =
        (CookieRequest.ofRequest request).initCookies.asked keys := rfl
    rw [hfirst, hlater, hagain]

end

/-- A cookie has the first value that the header gives for its name, and a name that the header does
not give has none. -/
theorem cookies_first (kvs : List (List Byte × List Byte))
    (hnames : ∀ kv ∈ kvs, 61#8 ∉ kv.1 ∧ trim kv.1 = kv.1) (request : HttpRequest)
    (hline : request.headers.getHeader (bytesOf "cookie") = cookieLine kvs)
    (before : List (List Byte)) (name dflt : List Byte) :
    (((CookieRequest.ofRequest request).asked before).getCookie name dflt).1 =
        ((kvs.find? fun kv ↦ caseKey kv.1 = caseKey name).map Prod.snd).getD dflt ∧
      (((CookieRequest.ofRequest request).asked before).hasCookie name).1 =
        kvs.any fun kv ↦ caseKey kv.1 = caseKey name := by
  have hfind : (insertCookies kvs ⟨[], Headers.sorted_nil⟩).find name =
      (kvs.find? fun kv ↦ caseKey kv.1 = caseKey name).map fun kv ↦ ⟨kv.1, kv.2⟩ :=
    (find_foldl_insertNew Prod.fst Prod.snd).trans Option.none_or
  rw [CookieRequest.getCookie, CookieRequest.hasCookie, initCookies_asked,
    initCookies_ofRequest hline hnames, hfind, Option.map_map, Option.isSome_map]
  refine ⟨rfl, ?_⟩
  rw [Bool.eq_iff_iff, List.find?_isSome, List.any_eq_true]

/-- Two values for one name, and one that is encoded. -/
def threeCookies : List (List Byte × List Byte) :=
  [(bytesOf "id", bytesOf "a=1;b"), (bytesOf "lang", bytesOf "en"), (bytesOf "ID", bytesOf "2")]

def cookieRequest : HttpRequest where
  headers := Headers.setHeader ⟨[], Headers.sorted_nil⟩ (bytesOf "Cookie") (cookieLine threeCookies)

theorem cookies_first_threeCookies :
    (((CookieRequest.ofRequest cookieRequest).asked [bytesOf "lang"]).getCookie
        (bytesOf "id") []).1 = bytesOf "a=1;b" ∧
      (((CookieRequest.ofRequest cookieRequest).asked [bytesOf "lang"]).hasCookie
        (bytesOf "id")).1 = true :=
  cookies_first threeCookies (by decide) cookieRequest (by decide +kernel) [bytesOf "lang"]
    (bytesOf "id") []

end Rsylar.Http
