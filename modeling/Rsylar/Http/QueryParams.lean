import Mathlib.Algebra.Order.BigOperators.Group.List
import Mathlib.Algebra.Order.Group.Nat
import Mathlib.Data.List.Infix
import Mathlib.Data.List.Nodup
import Mathlib.Data.List.Perm.Subperm
import Rsylar.Http.Request
import Rsylar.Sylar.UrlCodec

/-!
# Query and form parameters

`PARSE_PARAM` and the functions of `HttpRequest` that parse the parameters when one is asked for.
The text of a parameter is cut at its first equals sign; what is behind it is decoded, what is
before it is the name as it stands. So parameters come back when their names are texts that encoding
leaves alone, and only then (`queryParams`).
-/

set_option autoImplicit false
set_option relaxedAutoImplicit false

namespace Rsylar.Http

open StringUtil

/-- `strcasestr(s, t) != nullptr` -/
def strcasestr (s t : List Byte) : Bool := decide (caseKey t <:+: caseKey s)

/-- `m.insert(std::make_pair(name, value))`: an entry that is there stays. -/
def Headers.insertNew (m : Headers) (name value : List Byte) : Headers where
  list := OrderedSet.insert Header.key ⟨name, value⟩ m.list
  sorted := m.sorted.insertNew

/-- `PARSE_PARAM` for at most `fuel` parameters, on the part of the string from `pos` on. -/
def parseParamLoop (flag : Byte) (trim : List Byte → List Byte) :
    ℕ → List Byte → Headers → Headers
  | 0, _, m => m
  | fuel + 1, str, m =>
    match str.dropWhile (· ≠ 61#8) with
    | [] => m
    | _ :: behind =>
      let m := m.insertNew (trim (str.takeWhile (· ≠ 61#8)))
        (urlDecode (behind.takeWhile (· ≠ flag)) true)
      match behind.dropWhile (· ≠ flag) with
      | [] => m
      | _ :: next => parseParamLoop flag trim fuel next m

def parseParam (str : List Byte) (m : Headers) (flag : Byte) (trim : List Byte → List Byte) :
    Headers :=
  parseParamLoop flag trim (str.length + 1) str m

/-- A request with `m_params` and `m_parserParamFlag`. -/
structure ParamRequest where
  request : HttpRequest
  params : Headers
  parserParamFlag : Byte

namespace HttpRequest

/-- The content type is that of a form. -/
def isForm (r : HttpRequest) : Bool :=
  strcasestr (r.headers.getHeader (bytesOf "content-type"))
    (bytesOf "application/x-www-form-urlencoded")

end HttpRequest

namespace ParamRequest

variable (r : ParamRequest)

def initQueryParam : ParamRequest :=
  if r.parserParamFlag &&& 1#8 ≠ 0 then r
  else
    { r with
      params := parseParam r.request.query r.params 38#8 id
      parserParamFlag := r.parserParamFlag ||| 1#8 }

def initBodyParam : ParamRequest :=
  if r.parserParamFlag &&& 2#8 ≠ 0 then r
  else if !r.request.isForm then { r with parserParamFlag := r.parserParamFlag ||| 2#8 }
  else
    { r with
      params := parseParam r.request.body r.params 38#8 id
      parserParamFlag := r.parserParamFlag ||| 2#8 }

/-- The parameter, or the default. -/
def getParam (key dflt : List Byte) : List Byte × ParamRequest :=
  let r := r.initQueryParam.initBodyParam
  (((r.params.find key).map Header.value).getD dflt, r)

def hasParam (key : List Byte) : Bool × ParamRequest :=
  let r := r.initQueryParam.initBodyParam
  ((r.params.find key).isSome, r)

/-- The members as the constructor of `HttpRequest` sets them. -/
def ofRequest (request : HttpRequest) : ParamRequest := ⟨request, ⟨[], Headers.sorted_nil⟩, 0#8⟩

/-- After parameters have been asked for. -/
def asked (keys : List (List Byte)) : ParamRequest :=
  keys.foldl (fun r key ↦ (r.getParam key []).2) r

end ParamRequest

/-! ### What is written -/

/-- `UrlEncode(k) = UrlEncode(v)` -/
def paramText (kv : List Byte × List Byte) : List Byte :=
  urlEncode kv.1 true ++ 61#8 :: urlEncode kv.2 true

/-- The texts of the parameters with `&` between them. -/
def joined : List (List Byte × List Byte) → List Byte
  | [] => []
  | [kv] => paramText kv
  | kv :: kvs => paramText kv ++ 38#8 :: joined kvs

/-- The text is the query, or the body of a form, and the other of them has no parameters. -/
def HttpRequest.Carries (r : HttpRequest) (text : List Byte) : Prop :=
  r.query = text ∧ (r.isForm = false ∨ r.body = []) ∨ r.isForm ∧ r.body = text ∧ r.query = []

/-- Every parameter is there with its value, and there is no other. -/
structure ReturnsParams (r : ParamRequest) (kvs : List (List Byte × List Byte)) : Prop where
  returns : ∀ kv ∈ kvs, ∀ dflt, (r.getParam kv.1 dflt).1 = kv.2
  noOther : ∀ name, (r.hasParam name).1 → ∃ kv ∈ kvs, caseKey kv.1 = caseKey name

/-! ### Parsing what is written -/

/-- The name that the parser sees: the text up to the first equals sign. -/
def nameText (kv : List Byte × List Byte) : List Byte := (paramText kv).takeWhile (· ≠ 61#8)

/-- The value that the parser sees. -/
def valueOf (kv : List Byte × List Byte) : List Byte :=
  urlDecode ((paramText kv).dropWhile (· ≠ 61#8)).tail true

section Parsing

variable {m : Headers} {name name' value : List Byte} {kv : List Byte × List Byte}
  {kvs : List (List Byte × List Byte)} {c : Byte} {l : List Byte}

theorem find_insertNew : (m.insertNew name value).find name' =
    (m.find name').or (if caseKey name = caseKey name' then some ⟨name, value⟩ else none) := by
  refine (OrderedSet.find_insert m.sorted).trans ?_
  congr

/-- Encoding writes no zero byte, no blank and no `&`. -/
theorem ne_of_mem_encodeByte {b : Byte} (h : b ∈ encodeByte true c) :
    b ≠ 0#8 ∧ b ≠ 32#8 ∧ b ≠ 38#8 := by
  have hbytes : ∀ c : Byte, (encodeByte true c).all fun b ↦ b ≠ 0#8 ∧ b ≠ 32#8 ∧ b ≠ 38#8 := by
    decide +kernel
  exact of_decide_eq_true (List.all_eq_true.mp (hbytes c) b h)

theorem ne_of_mem_urlEncode {b : Byte} (h : b ∈ urlEncode l true) :
    b ≠ 0#8 ∧ b ≠ 32#8 ∧ b ≠ 38#8 := by
  rw [urlEncode_eq] at h
  obtain ⟨c, -, hb⟩ := List.mem_flatMap.mp h
  exact ne_of_mem_encodeByte hb

theorem ne_of_mem_paramText (h : c ∈ paramText kv) : c ≠ 0#8 ∧ c ≠ 32#8 ∧ c ≠ 38#8 := by
  rcases List.mem_append.mp h with h | h
  · exact ne_of_mem_urlEncode h
  · rcases List.mem_cons.mp h with rfl | h
    · decide
    · exact ne_of_mem_urlEncode h

theorem exists_behind (h : c ∈ l) :
    ∃ rest, l = l.takeWhile (· ≠ c) ++ c :: rest ∧ l.dropWhile (· ≠ c) = c :: rest := by
  induction l with
  | nil => cases h
  | cons b l ih =>
    by_cases hb : b = c
    · subst hb
      exact ⟨l, by simp, by simp⟩
    · obtain ⟨rest, hl, hdrop⟩ := ih ((List.mem_cons.mp h).resolve_left (Ne.symm hb))
      refine ⟨rest, ?_, ?_⟩
      · rw [List.takeWhile_cons_of_pos (by simpa using hb), List.cons_append, ← hl]
      · rw [List.dropWhile_cons_of_pos (by simpa using hb), hdrop]

/-- One parameter, at the end of the text or with more behind it. -/
theorem parseParamLoop_paramText (kv : List Byte × List Byte) (fuel : ℕ)
    (more : Option (List Byte)) :
    parseParamLoop 38#8 id (fuel + 1) (paramText kv ++ more.elim [] (38#8 :: ·)) m =
      more.elim (m.insertNew (nameText kv) (valueOf kv)) fun next ↦
        parseParamLoop 38#8 id fuel next (m.insertNew (nameText kv) (valueOf kv)) := by
  have hmem : 61#8 ∈ paramText kv := List.mem_append_right _ List.mem_cons_self
  obtain ⟨rest, hsplit, hdrop⟩ := exists_behind hmem
  have hname : ∀ c ∈ nameText kv, decide (c ≠ 61#8) := fun c hc ↦
    List.mem_takeWhile_imp (p := fun c ↦ decide (c ≠ 61#8)) hc
  have hrest : ∀ c ∈ rest, decide (c ≠ 38#8) := by
    intro c hc
    have hmem : c ∈ paramText kv := by
      rw [hsplit]
      exact List.mem_append_right _ (List.mem_cons_of_mem _ hc)
    exact decide_eq_true (ne_of_mem_paramText hmem).2.2
  have hvalue : valueOf kv = urlDecode rest true := by rw [valueOf, hdrop, List.tail_cons]
  have htext : ∀ tail, paramText kv ++ tail = nameText kv ++ (61#8 :: (rest ++ tail)) := by
    intro tail
    conv_lhs => rw [hsplit]
    rw [← nameText, List.append_assoc, List.cons_append]
  have hfirst : ∀ tail, (paramText kv ++ tail).takeWhile (· ≠ 61#8) = nameText kv := by
    intro tail
    rw [htext, List.takeWhile_append_of_pos hname, List.takeWhile_cons_of_neg (by simp),
      List.append_nil]
  have hbehind : ∀ tail, (paramText kv ++ tail).dropWhile (· ≠ 61#8) = 61#8 :: (rest ++ tail) := by
    intro tail
    rw [htext, List.dropWhile_append_of_pos hname, List.dropWhile_cons_of_neg (by simp)]
  rw [parseParamLoop, hbehind, hfirst]
  simp only [List.takeWhile_append_of_pos hrest, List.dropWhile_append_of_pos hrest, id_eq]
  cases more with
  | none => simp [hvalue]
  | some next => simp [hvalue]

/-- Inserts the parameters as the parser sees them. -/
def insertAll (kvs : List (List Byte × List Byte)) (m : Headers) : Headers :=
  kvs.foldl (fun m kv ↦ m.insertNew (nameText kv) (valueOf kv)) m

theorem parseParamLoop_joined (fuel : ℕ) (hfuel : kvs.length ≤ fuel) :
    parseParamLoop 38#8 id fuel (joined kvs) m = insertAll kvs m := by
  induction kvs generalizing fuel m with
  | nil =>
    cases fuel with
    | zero => rfl
    | succ fuel => rfl
  | cons kv kvs ih =>
    obtain ⟨fuel, rfl⟩ := Nat.exists_eq_add_of_le' (Nat.lt_of_lt_of_le (Nat.succ_pos _) hfuel)
    cases kvs with
    | nil =>
      have hone := parseParamLoop_paramText (m := m) kv fuel none
      rw [Option.elim_none, List.append_nil] at hone
      exact hone
    | cons kv' kvs =>
      exact (parseParamLoop_paramText kv fuel (some _)).trans
        (ih fuel (Nat.le_of_succ_le_succ hfuel))

theorem length_le_joined (kvs : List (List Byte × List Byte)) :
    kvs.length ≤ (joined kvs).length := by
  induction kvs with
  | nil => exact Nat.le_refl _
  | cons kv kvs ih =>
    have hpos : 1 ≤ (paramText kv).length := by
      rw [paramText, List.length_append, List.length_cons]
      omega
    cases kvs with
    | nil => exact hpos
    | cons kv' kvs =>
      have hjoined : (joined (kv :: kv' :: kvs)).length =
          (paramText kv).length + ((joined (kv' :: kvs)).length + 1) := List.length_append
      rw [List.length_cons, hjoined]
      omega

theorem parseParam_joined : parseParam (joined kvs) m 38#8 id = insertAll kvs m :=
  parseParamLoop_joined _ (Nat.le_succ_of_le (length_le_joined kvs))

/-- The first entry of a name is the one that is found. -/
theorem find_foldl_insertNew (f g : List Byte × List Byte → List Byte) :
    (kvs.foldl (fun m kv ↦ m.insertNew (f kv) (g kv)) m).find name =
      (m.find name).or ((kvs.find? fun kv ↦ caseKey (f kv) = caseKey name).map fun kv ↦
        ⟨f kv, g kv⟩) := by
  induction kvs generalizing m with
  | nil => exact Option.or_none.symm
  | cons kv kvs ih =>
    rw [List.foldl_cons, ih, find_insertNew, Option.or_assoc]
    congr 1
    by_cases hkey : caseKey (f kv) = caseKey name
    · rw [if_pos hkey, List.find?_cons_of_pos (by simpa using hkey)]
      rfl
    · rw [if_neg hkey, List.find?_cons_of_neg (by simpa using hkey), Option.none_or]

theorem find_insertAll : (insertAll kvs m).find name =
    (m.find name).or ((kvs.find? fun kv ↦ caseKey (nameText kv) = caseKey name).map fun kv ↦
      ⟨nameText kv, valueOf kv⟩) :=
  find_foldl_insertNew nameText valueOf

/-! ### The parameters of a request -/

section Requests

variable {request : HttpRequest} {text : List Byte}

theorem parseParam_nil (m : Headers) : parseParam [] m 38#8 id = m := rfl

/-- The request behind the first call. -/
def parsed (request : HttpRequest) : ParamRequest :=
  (ParamRequest.ofRequest request).initQueryParam.initBodyParam

theorem parsed_eq (request : HttpRequest) :
    parsed request =
      ⟨request, if request.isForm then
          parseParam request.body (parseParam request.query ⟨[], Headers.sorted_nil⟩ 38#8 id) 38#8 id
        else parseParam request.query ⟨[], Headers.sorted_nil⟩ 38#8 id, 3#8⟩ := by
  cases hform : request.isForm with
  | true => simp [parsed, ParamRequest.initQueryParam, ParamRequest.initBodyParam,
      ParamRequest.ofRequest, hform]
  | false => simp [parsed, ParamRequest.initQueryParam, ParamRequest.initBodyParam,
      ParamRequest.ofRequest, hform]

theorem init_parsed (request : HttpRequest) :
    (parsed request).initQueryParam.initBodyParam = parsed request := by
  rw [parsed_eq]
  simp [ParamRequest.initQueryParam, ParamRequest.initBodyParam]

/-- What has been asked for before makes no difference. -/
theorem init_asked (request : HttpRequest) (keys : List (List Byte)) :
    ((ParamRequest.ofRequest request).asked keys).initQueryParam.initBodyParam =
      parsed request := by
  have hlater : ∀ keys, (parsed request).asked keys = parsed request := by
    intro keys
    induction keys with
    | nil => rfl
    | cons key keys ih =>
      rw [ParamRequest.asked, List.foldl_cons, ParamRequest.getParam, init_parsed]
      exact ih
  cases keys with
  | nil => rfl
  | cons key keys =>
    have hfirst : (ParamRequest.ofRequest request).asked (key :: keys) =
        (parsed request).asked keys := rfl
    rw [hfirst, hlater, init_parsed]

theorem parsed_params (h : request.Carries text) :
    (parsed request).params = parseParam text ⟨[], Headers.sorted_nil⟩ 38#8 id := by
  rw [parsed_eq]
  rcases h with ⟨hquery, hbody⟩ | ⟨hform, hbody, hquery⟩
  · rw [hquery]
    rcases hbody with hform | hbody
    · rw [if_neg (by rw [hform]; exact Bool.false_ne_true)]
    · rw [hbody, parseParam_nil, ite_self]
  · rw [if_pos hform, hbody, hquery, parseParam_nil]

/-- The parameter is there with the value. -/
theorem returns_iff (r : ParamRequest) (key value : List Byte) :
    (∀ dflt, (r.getParam key dflt).1 = value) ↔
      (r.initQueryParam.initBodyParam.params.find key).map Header.value = some value := by
  simp only [ParamRequest.getParam]
  cases r.initQueryParam.initBodyParam.params.find key with
  | none =>
    refine iff_of_false (fun h ↦ ?_) (by simp)
    have hlength := congrArg List.length (h (0#8 :: value))
    rw [Option.map_none, Option.getD_none, List.length_cons] at hlength
    omega
  | some h => simp

end Requests

end Parsing

/-! ### Names that encoding leaves alone -/

section Names

variable {kv : List Byte × List Byte} {kvs : List (List Byte × List Byte)} {k l : List Byte}
  {b c : Byte}

theorem equals_mem_urlEncode (h : 61#8 ∉ k) : 61#8 ∉ urlEncode k true := by
  have hbyte : ∀ c : Byte, 61#8 ∈ encodeByte true c → c = 61#8 := by decide +kernel
  rw [urlEncode_eq, List.mem_flatMap]
  rintro ⟨c, hc, hmem⟩
  exact h (hbyte c hmem ▸ hc)

/-- The parser sees the encoded name and the value, unless the name has an equals sign. -/
theorem seen_of_no_equals (h : 61#8 ∉ kv.1) :
    nameText kv = urlEncode kv.1 true ∧ valueOf kv = kv.2 := by
  have hall : ∀ c ∈ urlEncode kv.1 true, decide (c ≠ 61#8) := fun c hc ↦
    decide_eq_true fun heq ↦ equals_mem_urlEncode h (heq ▸ hc)
  constructor
  · rw [nameText, paramText, List.takeWhile_append_of_pos hall,
      List.takeWhile_cons_of_neg (by simp), List.append_nil]
  · rw [valueOf, paramText, List.dropWhile_append_of_pos hall,
      List.dropWhile_cons_of_neg (by simp), List.tail_cons, urlDecode_urlEncode]

theorem urlEncode_of_listed (h : ∀ c ∈ k, charIsUnreserved c) : urlEncode k true = k := by
  rw [urlEncode_eq]
  induction k with
  | nil => rfl
  | cons c k ih =>
    obtain ⟨hc, hk⟩ := List.forall_mem_cons.mp h
    rw [List.flatMap_cons, ih hk, encodeByte, if_pos hc, List.singleton_append]

theorem one_le_encodeByte (c : Byte) : 1 ≤ (encodeByte true c).length := by
  revert c
  decide +kernel

theorem length_le_urlEncode (k : List Byte) : k.length ≤ (urlEncode k true).length := by
  rw [urlEncode_eq]
  induction k with
  | nil => exact Nat.le_refl _
  | cons c k ih =>
    have hone := one_le_encodeByte c
    rw [List.flatMap_cons, List.length_append, List.length_cons]
    omega

theorem length_lt_urlEncode (hc : c ∈ k) (hlong : 1 < (encodeByte true c).length) :
    k.length < (urlEncode k true).length := by
  induction k with
  | nil => cases hc
  | cons d k ih =>
    have hone := one_le_encodeByte d
    have hle := length_le_urlEncode k
    rw [urlEncode_eq] at hle ih ⊢
    rw [List.flatMap_cons, List.length_append, List.length_cons]
    rcases List.mem_cons.mp hc with rfl | hc
    · omega
    · have hlt := ih hc
      omega

theorem caseKey_eq (h : 0#8 ∉ l) : caseKey l = l.map fun c ↦ toLower c.toNat := by
  have hall : ∀ c ∈ l, decide (c ≠ 0#8) := fun c hc ↦ decide_eq_true fun heq ↦ h (heq ▸ hc)
  have hwhole : cString l = l := by
    have htake : (l ++ []).takeWhile (fun c ↦ decide (c ≠ 0#8)) =
        l ++ [].takeWhile fun c ↦ decide (c ≠ 0#8) :=
      List.takeWhile_append_of_pos hall
    rwa [List.append_nil, List.takeWhile_nil, List.append_nil] at htake
  rw [caseKey, hwhole]

/-- A byte below the letters is in a text when it is in any text of the same key. -/
theorem mem_of_caseKey_eq (hk : 0#8 ∉ k) (hl : 0#8 ∉ l) (heq : caseKey k = caseKey l)
    (hb : b.toNat < 65) (h : b ∈ k) : b ∈ l := by
  have hlower : ∀ n, toLower n = b.toNat → n = b.toNat := by
    intro n hn
    rw [toLower] at hn
    split at hn
    · omega
    · exact hn
  rw [caseKey_eq hk, caseKey_eq hl] at heq
  have hmem : toLower b.toNat ∈ l.map fun c ↦ toLower c.toNat := by
    rw [← heq]
    exact List.mem_map_of_mem h
  obtain ⟨c, hc, hcb⟩ := List.mem_map.mp hmem
  have hself : toLower b.toNat = b.toNat := if_neg (by omega)
  rw [hself] at hcb
  exact BitVec.eq_of_toNat_eq (hlower _ hcb) ▸ hc

/-- The bytes of a name that the parser sees. -/
theorem notMem_nameText (kv : List Byte × List Byte) :
    0#8 ∉ nameText kv ∧ 32#8 ∉ nameText kv ∧ 61#8 ∉ nameText kv := by
  have hmem : ∀ c ∈ nameText kv, c ∈ paramText kv := fun c hc ↦
    (List.takeWhile_sublist _).subset hc
  refine ⟨fun h ↦ ?_, fun h ↦ ?_, fun h ↦ ?_⟩
  · exact (ne_of_mem_paramText (hmem _ h)).1 rfl
  · exact (ne_of_mem_paramText (hmem _ h)).2.1 rfl
  · have hne := List.mem_takeWhile_imp (p := fun c ↦ decide (c ≠ 61#8)) h
    simp at hne

/-- When every name is seen under some spelling, encoding has left all names alone: none has an
equals sign or a blank, and as the names that are seen are the names in another order, none has
become longer. -/
theorem listed_of_seen (hnul : ∀ kv ∈ kvs, 0#8 ∉ kv.1)
    (hdistinct : (kvs.map fun kv ↦ caseKey kv.1).Nodup)
    (hseen : ∀ kv ∈ kvs, ∃ kv' ∈ kvs, caseKey (nameText kv') = caseKey kv.1) :
    ∀ kv ∈ kvs, ∀ c ∈ kv.1, listed c := by
  have hbytes : ∀ kv ∈ kvs, 32#8 ∉ kv.1 ∧ 61#8 ∉ kv.1 := by
    intro kv hkv
    obtain ⟨kv', -, hkey⟩ := hseen kv hkv
    obtain ⟨hzero, hblank, hequals⟩ := notMem_nameText kv'
    exact ⟨fun h ↦ hblank (mem_of_caseKey_eq (hnul kv hkv) hzero hkey.symm (by decide) h),
      fun h ↦ hequals (mem_of_caseKey_eq (hnul kv hkv) hzero hkey.symm (by decide) h)⟩
  have hperm : (kvs.map fun kv ↦ caseKey kv.1).Perm (kvs.map fun kv ↦ caseKey (nameText kv)) := by
    refine (hdistinct.subperm fun key hkey ↦ ?_).perm_of_length_le (by simp)
    obtain ⟨kv, hkv, rfl⟩ := List.mem_map.mp hkey
    obtain ⟨kv', hkv', heq⟩ := hseen kv hkv
    exact List.mem_map.mpr ⟨kv', hkv', heq⟩
  have hsum : (kvs.map fun kv ↦ kv.1.length).sum =
      (kvs.map fun kv ↦ (urlEncode kv.1 true).length).sum := by
    have hlengths := (hperm.map List.length).sum_nat
    rw [List.map_map, List.map_map] at hlengths
    refine Eq.trans ?_ (hlengths.trans ?_)
    · refine congrArg List.sum (List.map_congr_left fun kv hkv ↦ ?_)
      rw [Function.comp_apply, caseKey_eq (hnul kv hkv), List.length_map]
    · refine congrArg List.sum (List.map_congr_left fun kv hkv ↦ ?_)
      rw [Function.comp_apply, caseKey_eq (notMem_nameText kv).1, List.length_map,
        (seen_of_no_equals (hbytes kv hkv).2).1]
  intro kv hkv c hc
  by_contra hlisted
  have hlong : 1 < (encodeByte true c).length := by
    have hunreserved : ¬charIsUnreserved c := fun h ↦
      hlisted ((listed_iff c h).mpr fun heq ↦ (hbytes kv hkv).2 (heq ▸ hc))
    have hblank : ¬(c = 32#8 ∧ true = true) := fun h ↦ (hbytes kv hkv).1 (h.1 ▸ hc)
    rw [encodeByte, if_neg hunreserved, escape, if_neg hblank, List.length_cons, List.length_cons]
    omega
  have hlt := List.sum_lt_sum (fun kv ↦ kv.1.length) (fun kv ↦ (urlEncode kv.1 true).length)
    (fun kv _ ↦ length_le_urlEncode kv.1) ⟨kv, hkv, length_lt_urlEncode hc hlong⟩
  exact Nat.ne_of_lt hlt hsum

end Names

/-- The parameters that a text was built of come back, whatever has been asked for before, when all
names are made of characters that encoding leaves alone. -/
theorem queryParams (kvs : List (List Byte × List Byte))
    (hnames : ∀ kv ∈ kvs, kv.1 ≠ [] ∧ 0#8 ∉ kv.1)
    (hdistinct : (kvs.map fun kv ↦ caseKey kv.1).Nodup) (request : HttpRequest)
    (htext : request.Carries (joined kvs)) (before : List (List Byte)) :
    ReturnsParams ((ParamRequest.ofRequest request).asked before) kvs ↔
      ∀ kv ∈ kvs, ∀ c ∈ kv.1, listed c := by
  have hfind : ∀ name, (((ParamRequest.ofRequest request).asked
      before).initQueryParam.initBodyParam.params.find name) =
      (kvs.find? fun kv ↦ caseKey (nameText kv) = caseKey name).map fun kv ↦
        ⟨nameText kv, valueOf kv⟩ := by
    intro name
    rw [init_asked, parsed_params htext, parseParam_joined, find_insertAll]
    exact Option.none_or
  constructor
  · rintro ⟨hreturns, -⟩
    refine listed_of_seen (fun kv hkv ↦ (hnames kv hkv).2) hdistinct fun kv hkv ↦ ?_
    have hvalue := (returns_iff _ _ _).mp (hreturns kv hkv)
    rw [hfind, Option.map_map, Option.map_eq_some_iff] at hvalue
    obtain ⟨kv', hkv', -⟩ := hvalue
    have hkey := List.find?_some hkv'
    exact ⟨kv', List.mem_of_find?_eq_some hkv', of_decide_eq_true hkey⟩
  · intro hlisted
    have hseen : ∀ kv ∈ kvs, nameText kv = kv.1 ∧ valueOf kv = kv.2 := by
      intro kv hkv
      have hequals : 61#8 ∉ kv.1 := fun h ↦ absurd (hlisted kv hkv _ h) (by decide)
      obtain ⟨hname, hvalue⟩ := seen_of_no_equals hequals
      rw [urlEncode_of_listed fun c hc ↦ unreserved_of_listed (hlisted kv hkv c hc)] at hname
      exact ⟨hname, hvalue⟩
    constructor
    · intro kv hkv
      rw [returns_iff, hfind]
      obtain ⟨kv', hkv'⟩ : ∃ kv', kvs.find? (fun kv' ↦ caseKey (nameText kv') = caseKey kv.1) =
          some kv' := by
        rw [← Option.isSome_iff_exists, List.find?_isSome]
        exact ⟨kv, hkv, by rw [(hseen kv hkv).1]; exact decide_eq_true rfl⟩
      have hmem := List.mem_of_find?_eq_some hkv'
      have hfound := List.find?_some hkv'
      have hkey := of_decide_eq_true hfound
      rw [(hseen kv' hmem).1] at hkey
      obtain rfl := List.inj_on_of_nodup_map hdistinct hmem hkv hkey
      rw [hkv', Option.map_some, Option.map_some, (hseen kv' hmem).2]
    · intro name hname
      rw [ParamRequest.hasParam, hfind, Option.isSome_map, List.find?_isSome] at hname
      obtain ⟨kv, hkv, hkey⟩ := hname
      rw [(hseen kv hkv).1] at hkey
      exact ⟨kv, hkv, of_decide_eq_true hkey⟩

def requestOf (query : List Byte) : HttpRequest where
  query := query
  headers := ⟨[], Headers.sorted_nil⟩

/-- A value of reserved characters, and a value that is empty. -/
def twoParams : List (List Byte × List Byte) :=
  [(bytesOf "key", bytesOf "a&b=c d"), (bytesOf "empty", [])]

theorem queryParams_twoParams :
    ReturnsParams ((ParamRequest.ofRequest (requestOf (joined twoParams))).asked []) twoParams :=
  (queryParams twoParams (by decide) (by decide) (requestOf (joined twoParams))
    (.inl ⟨rfl, .inr rfl⟩) []).mpr (by decide)

/-- A name with a blank is found under its encoding only. -/
theorem not_returnsParams_blank :
    ¬ ReturnsParams (ParamRequest.ofRequest (requestOf (joined [(bytesOf "a b", bytesOf "v")])))
      [(bytesOf "a b", bytesOf "v")] := by
  intro h
  exact absurd (h.returns _ List.mem_cons_self []) (by decide +kernel)

end Rsylar.Http
