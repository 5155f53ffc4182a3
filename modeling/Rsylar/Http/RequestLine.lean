import Rsylar.Http.HeadInvariant
import Rsylar.Http.RequestLineStates
import Rsylar.Http.RequestStream

/-!
# Request lines

What a returned request says about its first line. `CharsToHttpMethod` compares with the methods
only as far as they go and `on_request_version` only as far as the text goes, and a read that ends
inside a token leaves its end to them: a longer token, the end of a token and the empty text can be
taken for something else. `acceptedLine` is when the method and the version of a returned request
are the tokens that were received.
-/

set_option autoImplicit false
set_option relaxedAutoImplicit false

namespace Rsylar.Http

open ActionRegex Scanner

/-! ### The tokens of a line -/

/-- The bytes before the first blank. -/
def methodToken (bytes : List Byte) : List Byte := bytes.takeWhile (· ≠ 32#8)

def behindBlank (bytes : List Byte) : List Byte := (bytes.dropWhile (· ≠ 32#8)).drop 1

def targetToken (bytes : List Byte) : List Byte := methodToken (behindBlank bytes)

/-- The bytes from the second blank to the end of the line. -/
def versionToken (bytes : List Byte) : List Byte :=
  (behindBlank (behindBlank bytes)).takeWhile fun c ↦ c ≠ 13#8 ∧ c ≠ 10#8

/-- The position behind the version. -/
def versionEnd (bytes : List Byte) : ℕ :=
  (methodToken bytes).length + 1 + (targetToken bytes).length + 1 + (versionToken bytes).length

/-- The method and the version of the request are those that were received. -/
structure FaithfulLine (bytes : List Byte) (r : HttpRequest) : Prop where
  method : methodToken bytes = bytesOf r.method.text
  version : r.version = 0x11 ∧ versionToken bytes = bytesOf "HTTP/1.1" ∨
    r.version = 0x10 ∧ versionToken bytes = bytesOf "HTTP/1.0"

/-- The method token is a method and no read ends behind its first byte and before the blank, and
none ends directly behind the version `HTTP/1.0`. -/
structure IntactLine (b : BufferSize) (s : HttpSession) : Prop where
  known : ∃ method : HttpMethod, methodToken s.bytes = bytesOf method.text
  methodReads : ∀ i, s.readEnd b.size i = 0 ∨ (methodToken s.bytes).length < s.readEnd b.size i
  versionReads : versionToken s.bytes = bytesOf "HTTP/1.0" →
    ∀ i, s.readEnd b.size i ≠ versionEnd s.bytes

section Tokens

variable {t u v w : List Byte} {c : Byte}

theorem takeWhile_append_cons {p : Byte → Bool} (ht : ∀ d ∈ t, p d) (hc : p c = false) :
    (t ++ c :: w).takeWhile p = t := by
  rw [List.takeWhile_append_of_pos ht, List.takeWhile_cons_of_neg, List.append_nil]
  exact Bool.eq_false_iff.mp hc

theorem methodToken_append (ht : 32#8 ∉ t) : methodToken (t ++ 32#8 :: w) = t := by
  apply takeWhile_append_cons
  · intro d hd
    exact decide_eq_true fun heq ↦ ht (heq ▸ hd)
  · rfl

theorem behindBlank_append (ht : 32#8 ∉ t) : behindBlank (t ++ 32#8 :: w) = w := by
  rw [behindBlank, List.dropWhile_append_of_pos, List.dropWhile_cons_of_neg]
  · rfl
  · simp
  · intro d hd
    exact decide_eq_true fun heq ↦ ht (heq ▸ hd)

theorem targetToken_append (ht : 32#8 ∉ t) (hu : 32#8 ∉ u) :
    targetToken (t ++ 32#8 :: (u ++ 32#8 :: w)) = u := by
  rw [targetToken, behindBlank_append ht, methodToken_append hu]

theorem versionToken_append (ht : 32#8 ∉ t) (hu : 32#8 ∉ u)
    (hv : ∀ d ∈ v, d ≠ 13#8 ∧ d ≠ 10#8) (hc : c = 13#8 ∨ c = 10#8) :
    versionToken (t ++ 32#8 :: (u ++ 32#8 :: (v ++ c :: w))) = v := by
  rw [versionToken, behindBlank_append ht, behindBlank_append hu]
  apply takeWhile_append_cons
  · intro d hd
    exact decide_eq_true (hv d hd)
  · rcases hc with rfl | rfl
    · rfl
    · rfl

end Tokens

/-! ### What the callbacks are given -/

open HttpParser Expr CharSet

/-- The state of receiving a request. -/
abbrev RequestState := HeadState RequestToken Empty RequestData

/-- The machine is behind the first byte of the element that `r` reads; the element begins behind
`front`, and `t` has been read of it. -/
structure InElement (relaxed : Bool) (r : RequestExpr) (n : ℕ) (k : RequestToken) (s : RequestExpr)
    (front t : List Byte) (st : RequestState) : Prop where
  past : st.past = front ++ t
  cs : st.cs = inLine relaxed (begun (r.residual (t.map BitVec.toNat)) n k s)
  mark : st.marks.mark = front.length - st.off

namespace InElement

variable {relaxed : Bool} {r s : RequestExpr} {n : ℕ} {k : RequestToken} {front t : List Byte}
  {st : RequestState} {c : Byte}

theorem begin (hpast : st.past = front)
    (hstep : step st.cs c = (inLine relaxed (begun (r.deriv c.toNat).1 n k s), [.mark])) :
    InElement relaxed r n k s front [c] (st.byte requestCallbacks c) ∧
      (st.byte requestCallbacks c).data = st.data := by
  refine ⟨⟨?_, ?_, ?_⟩, ?_⟩
  · rw [HeadState.byte, hpast]
  · rw [HeadState.byte, hstep]
    rfl
  · simp only [HeadState.byte, hstep, setAll, List.foldl_cons, List.foldl_nil, Marks.set,
      HeadState.seen, hpast, List.length_drop]
  · simp only [HeadState.byte, hstep, callAll, call, List.append_nil, List.foldl_nil]

variable (h : InElement relaxed r n k s front t st)
include h

theorem cut : InElement relaxed r n k s front t st.cut where
  past := h.past
  cs := h.cs
  mark := by
    rw [HeadState.cut, h.past, List.length_append]
    simp only [Marks.reset]
    omega

/-- What is behind the mark: the part of the element that is in the buffer. -/
theorem drop_mark : st.seen.drop st.marks.mark = t.drop (st.off - front.length) := by
  rw [HeadState.seen, h.mark, h.past, List.drop_drop, List.drop_append]
  have hsum : st.off + (front.length - st.off) - front.length = st.off - front.length := by omega
  rw [hsum, List.drop_of_length_le (by omega), List.nil_append]

theorem within (htext : r.madeOf (fun _ ↦ true) fun _ ↦ false) (hs : s.deriv c.toNat = (void, []))
    (hnull : s.nullable = false) (hvoid : (step st.cs c).1.isVoid = false) :
    InElement relaxed r n k s front (t ++ [c]) (st.byte requestCallbacks c) ∧
      (st.byte requestCallbacks c).data = st.data := by
  rw [h.cs] at hvoid
  obtain ⟨-, hstep⟩ := step_begun_within hs hnull hvoid
  rw [deriv_snd_of_madeOf (madeOf_residual htext _), List.map_nil] at hstep
  refine ⟨⟨?_, ?_, ?_⟩, ?_⟩
  · rw [HeadState.byte, h.past, List.append_assoc]
  · rw [HeadState.byte, h.cs, hstep, List.map_append, residual_append]
    rfl
  · rw [HeadState.byte, h.cs, hstep]
    exact h.mark
  · rw [HeadState.byte, h.cs, hstep]
    rfl

theorem leave (htext : r.madeOf (fun _ ↦ true) fun _ ↦ false) (havoids : r.avoids c.toNat)
    (hs : (s.deriv c.toNat).1.isVoid = false) (hactions : (s.deriv c.toNat).2 = [])
    (hnull : s.nullable = false) (hvoid : (step st.cs c).1.isVoid = false) :
    r.accepts (t.map BitVec.toNat) ∧
      (st.byte requestCallbacks c).cs = inLine relaxed (s.deriv c.toNat).1 ∧
      (st.byte requestCallbacks c).data =
        st.data.onCall (.token k (t.drop (st.off - front.length)) c) := by
  rw [h.cs] at hvoid
  obtain ⟨haccepts, hstep⟩ := step_begun_behind (madeOf_residual htext _)
    (madeOf_residual havoids _) hs hactions hnull hvoid
  refine ⟨haccepts, ?_, ?_⟩
  · rw [HeadState.byte, h.cs, hstep]
  · rw [HeadState.byte, h.cs, hstep]
    simp only [callAll, call, List.append_nil, List.foldl_cons, List.foldl_nil, h.drop_mark]
    rfl

end InElement

/-- The callbacks of the other actions change neither the method nor the version. -/
theorem foldl_other {as : List (ScanAction RequestToken Empty)} (has : ∀ a ∈ as, otherAction a)
    (seen : List Byte) (c : Byte) (m : Marks) (d : RequestData) :
    ((callAll seen c m as).foldl RequestData.onCall d).request.method = d.request.method ∧
      ((callAll seen c m as).foldl RequestData.onCall d).request.version = d.request.version := by
  induction as generalizing m d with
  | nil => exact ⟨rfl, rfl⟩
  | cons a as ih =>
    obtain ⟨ha, has⟩ := List.forall_mem_cons.mp has
    obtain ⟨hmethod, hversion⟩ :=
      ih has (m.set seen.length a) ((call seen c m a).foldl RequestData.onCall d)
    rw [callAll, List.foldl_append, hmethod, hversion]
    cases a with
    | token k =>
      cases k with
      | requestMethod | httpVersion => cases ha
      | fragment | requestPath => exact ⟨rfl, rfl⟩
    | queryString =>
      simp only [call]
      split
      · exact ⟨rfl, rfl⟩
      · exact ⟨rfl, rfl⟩
    | writeValue =>
      simp only [call, List.foldl_cons, List.foldl_nil, RequestData.onCall,
        RequestData.onRequestHttpField]
      split
      · exact ⟨rfl, rfl⟩
      · exact ⟨rfl, rfl⟩
    | flag f => exact f.elim
    | mark | startField | writeField | startQuery | skip | done => exact ⟨rfl, rfl⟩

theorem byte_other {st : RequestState} {c : Byte} (h : ∀ a ∈ (step st.cs c).2, otherAction a) :
    (st.byte requestCallbacks c).data.request.method = st.data.request.method ∧
      (st.byte requestCallbacks c).data.request.version = st.data.request.version :=
  foldl_other h st.seen c st.marks st.data

theorem charsToHttpMethod_of_failure {d : RequestData} {text : List Byte} {next : Byte}
    (h : (d.onRequestMethod text next).failure = none) :
    charsToHttpMethod (text ++ [next]) = some (d.onRequestMethod text next).request.method := by
  rw [RequestData.failure_eq_none] at h
  rw [RequestData.onRequestMethod] at h ⊢
  split at h
  · cases h.2
  · rename_i method hchars
    rw [hchars]

theorem onRequestVersion_method (d : RequestData) (text : List Byte) :
    (d.onRequestVersion text).request.method = d.request.method := by
  rw [RequestData.onRequestVersion]
  split
  · rfl
  · split
    · rfl
    · rfl

/-- The method that the callback has made of the part of the token that was in the buffer. -/
def MethodRead (b : BufferSize) (s : HttpSession) (t : List Byte) (method : HttpMethod) : Prop :=
  ∃ off, InBuffer b.size s off t.length ∧ charsToHttpMethod (t.drop off ++ [32#8]) = some method

/-- The version that the callback has made of the part of the token that was in the buffer; the
token begins at the position `pos`. -/
def VersionRead (b : BufferSize) (s : HttpSession) (pos : ℕ) (v : List Byte) (version : Byte) :
    Prop :=
  ∃ off, InBuffer b.size s off (pos + v.length) ∧ ∃ d : RequestData,
    (d.onRequestVersion (v.drop (off - pos))).failure = none ∧
      (d.onRequestVersion (v.drop (off - pos))).request.version = version

theorem deriv_blank_of_eq {s : RequestExpr} {c : Byte} (hc : c = 32#8) :
    (cat (lit 32) s).deriv c.toNat = (s, []) := by
  rw [deriv_cat_lit, if_pos]
  rw [hc]
  rfl

theorem deriv_blank_of_ne {s : RequestExpr} {c : Byte} (hc : c ≠ 32#8) :
    (cat (lit 32) s).deriv c.toNat = (void, []) := by
  rw [deriv_cat_lit, if_neg]
  intro heq
  exact hc (BitVec.eq_of_toNat_eq heq)

/-- How far a request line has been read. A message that does not begin as a method does is
`other`. -/
inductive LinePhase (relaxed : Bool) (b : BufferSize) (s : HttpSession) (st : RequestState) : Prop
  | start (hpast : st.past = []) (hcs : st.cs = start relaxed)
  | other (c : Byte) (w : List Byte) (hpast : st.past = c :: w)
      (hc : (union upper digit).mem c.toNat = false)
  | method (t : List Byte) (ht : 32#8 ∉ t)
      (h : InElement relaxed methodText 1 .requestMethod (cat (lit 32) (fromUri relaxed)) [] t st)
  | target (t u : List Byte) (r : RequestExpr) (ht : 32#8 ∉ t) (hu : 32#8 ∉ u)
      (hpast : st.past = t ++ 32#8 :: u)
      (hcs : st.cs = inLine relaxed (catOf r (cat (lit 32) (fromVersion relaxed))))
      (hvoid : r.isVoid = false) (hr : r.madeOf (fun s ↦ !s.mem 32) otherAction)
      (hmethod : MethodRead b s t st.data.request.method)
  | blank (t u : List Byte) (ht : 32#8 ∉ t) (hu : 32#8 ∉ u)
      (hpast : st.past = t ++ 32#8 :: (u ++ [32#8]))
      (hcs : st.cs = inLine relaxed (fromVersion relaxed))
      (hmethod : MethodRead b s t st.data.request.method)
  | version (t u v : List Byte) (ht : 32#8 ∉ t) (hu : 32#8 ∉ u)
      (h : InElement relaxed versionText (uriEnd relaxed + 1) .httpVersion crlf
        (t ++ 32#8 :: (u ++ [32#8])) v st)
      (hmethod : MethodRead b s t st.data.request.method)
  | behind (t u v : List Byte) (c : Byte) (w : List Byte) (ht : 32#8 ∉ t) (hu : 32#8 ∉ u)
      (hv : v = bytesOf "HTTP/1.1" ∨ v = bytesOf "HTTP/1.0") (hc : c = 13#8 ∨ c = 10#8)
      (hpast : st.past = t ++ 32#8 :: (u ++ 32#8 :: (v ++ c :: w)))
      (hcs : st.cs.madeOf (fun _ ↦ true) otherAction)
      (hmethod : MethodRead b s t st.data.request.method)
      (hversion : VersionRead b s (t.length + 1 + u.length + 1) v st.data.request.version)

namespace LinePhase

variable {relaxed : Bool} {b : BufferSize} {s : HttpSession} {st : RequestState} {c : Byte}

theorem cut (h : LinePhase relaxed b s st) : LinePhase relaxed b s st.cut := by
  cases h with
  | start hpast hcs => exact .start hpast hcs
  | other c w hpast hc => exact .other c w hpast hc
  | method t ht h => exact .method t ht h.cut
  | target t u r ht hu hpast hcs hvoid hr hmethod =>
    exact .target t u r ht hu hpast hcs hvoid hr hmethod
  | blank t u ht hu hpast hcs hmethod => exact .blank t u ht hu hpast hcs hmethod
  | version t u v ht hu h hmethod => exact .version t u v ht hu h.cut hmethod
  | behind t u v c w ht hu hv hc hpast hcs hmethod hversion =>
    exact .behind t u v c w ht hu hv hc hpast hcs hmethod hversion

/-- The first byte of a message. -/
theorem byte_start (hpast : st.past = []) (hcs : st.cs = HttpParser.start relaxed) :
    LinePhase relaxed b s (st.byte requestCallbacks c) := by
  cases hc : (union upper digit).mem c.toNat with
  | false =>
    refine .other c [] ?_ hc
    rw [HeadState.byte, hpast, List.nil_append]
  | true =>
    have hstep : step (HttpParser.start relaxed) c = _ := step_start hc
    rw [← hcs] at hstep
    have hne : c ≠ 32#8 := by
      rintro rfl
      cases hc
    refine .method [c] ?_ (InElement.begin hpast hstep).1
    rw [List.mem_singleton]
    exact hne.symm

/-- A byte of the method, or the blank behind it. -/
theorem byte_method {t : List Byte} (ht : 32#8 ∉ t)
    (h : InElement relaxed methodText 1 .requestMethod (cat (lit 32) (fromUri relaxed)) [] t st)
    (hin : InBuffer b.size s st.off st.past.length) (hvoid : (step st.cs c).1.isVoid = false)
    (hfailure : (st.byte requestCallbacks c).data.failure = none) :
    LinePhase relaxed b s (st.byte requestCallbacks c) := by
  have htext : methodText.madeOf (fun _ ↦ true) fun _ ↦ false := rfl
  have hlength : st.past.length = t.length := by rw [h.past, List.nil_append]
  by_cases hc : c = 32#8
  · subst hc
    have hblank : (cat (lit 32) (fromUri relaxed)).deriv (32#8).toNat = (fromUri relaxed, []) :=
      deriv_blank_of_eq rfl
    obtain ⟨-, hcs, hdata⟩ := h.leave htext rfl (by rw [hblank]; rfl) (by rw [hblank]) rfl hvoid
    rw [hblank] at hcs
    have hmethod : MethodRead b s t (st.byte requestCallbacks 32#8).data.request.method := by
      refine ⟨st.off, hlength ▸ hin, ?_⟩
      rw [hdata, RequestData.onCall] at hfailure ⊢
      exact charsToHttpMethod_of_failure hfailure
    refine .target t [] (uriPart relaxed) ht List.not_mem_nil ?_ hcs rfl ?_ hmethod
    · rw [HeadState.byte, h.past, List.nil_append]
    · exact madeOf_uriPart relaxed
  · have hblank : (cat (lit 32) (fromUri relaxed)).deriv c.toNat = (void, []) :=
      deriv_blank_of_ne hc
    refine .method (t ++ [c]) ?_ (h.within htext hblank rfl hvoid).1
    rw [List.mem_append, List.mem_singleton, not_or]
    exact ⟨ht, Ne.symm hc⟩

/-- A byte of the URI, or the blank behind it. -/
theorem byte_target {t u : List Byte} {r : RequestExpr} (ht : 32#8 ∉ t) (hu : 32#8 ∉ u)
    (hpast : st.past = t ++ 32#8 :: u)
    (hcs : st.cs = inLine relaxed (catOf r (cat (lit 32) (fromVersion relaxed))))
    (hr' : r.isVoid = false) (hr : r.madeOf (fun s ↦ !s.mem 32) otherAction)
    (hmethod : MethodRead b s t st.data.request.method)
    (hvoid : (step st.cs c).1.isVoid = false) :
    LinePhase relaxed b s (st.byte requestCallbacks c) := by
  have hnull : (catOf r (cat (lit 32) (fromVersion relaxed))).nullable = false := by
    rw [nullable_catOf]
    exact Bool.and_false _
  have hvoid' : (catOf r (cat (lit 32) (fromVersion relaxed))).isVoid = false := by
    rw [isVoid_catOf rfl, hr']
  have hstep : step st.cs c = _ := hcs ▸ step_inLine hnull hvoid'
  rw [hstep, isVoid_inLine] at hvoid
  by_cases hc : c = 32#8
  · have hblank : (cat (lit 32) (fromVersion relaxed)).deriv c.toNat = (fromVersion relaxed, []) :=
      deriv_blank_of_eq hc
    have havoids : r.avoids c.toNat := by
      rw [hc]
      exact madeOf_mono hr (fun _ hs ↦ hs) fun _ _ ↦ rfl
    rw [deriv_catOf_behind havoids (by rw [hblank]; rfl), hblank] at hstep hvoid
    split at hvoid
    · rename_i hend
      rw [if_pos hend] at hstep
      have hother : ∀ a ∈ (step st.cs c).2, otherAction a := by
        rw [hstep]
        intro a ha
        obtain ⟨e, he, rfl⟩ := List.mem_map.mp ha
        exact (of_mem_mergeActions he).elim (of_mem_outs hr e) (absurd · List.not_mem_nil)
      refine .blank t u ht hu ?_ ?_ ?_
      · rw [HeadState.byte, hpast, hc, List.append_assoc]
        rfl
      · rw [HeadState.byte, hstep]
      · rw [(byte_other hother).1]
        exact hmethod
    · cases hvoid
  · have hblank : (cat (lit 32) (fromVersion relaxed)).deriv c.toNat = (void, []) :=
      deriv_blank_of_ne hc
    rw [deriv_catOf_within hblank] at hstep hvoid
    rw [isVoid_catOf rfl] at hvoid
    obtain ⟨hr'', hactions⟩ := madeOf_deriv hr c.toNat
    have hother : ∀ a ∈ (step st.cs c).2, otherAction a := by
      rw [hstep]
      intro a ha
      obtain ⟨e, he, rfl⟩ := List.mem_map.mp ha
      exact hactions e he
    refine .target t (u ++ [c]) (r.deriv c.toNat).1 ht ?_ ?_ ?_ hvoid hr'' ?_
    · rw [List.mem_append, List.mem_singleton, not_or]
      exact ⟨hu, Ne.symm hc⟩
    · rw [HeadState.byte, hpast, List.append_assoc]
      rfl
    · rw [HeadState.byte, hstep]
    · rw [(byte_other hother).1]
      exact hmethod

theorem deriv_crlf_of_mem (hc : c = 13#8 ∨ c = 10#8) :
    (crlf.deriv c.toNat).1.isVoid = false ∧ (crlf.deriv c.toNat).2 = [] ∧
      versionText.avoids c.toNat := by
  rcases hc with rfl | rfl
  · decide
  · decide

theorem deriv_crlf_of_notMem (hc : ¬(c = 13#8 ∨ c = 10#8)) : crlf.deriv c.toNat = (void, []) := by
  have hcr : (lit 13 : RequestExpr).avoids c.toNat :=
    avoids_lit.mpr fun heq ↦ hc (.inl (BitVec.eq_of_toNat_eq heq))
  have hlf : (lit 10 : RequestExpr).avoids c.toNat :=
    avoids_lit.mpr fun heq ↦ hc (.inr (BitVec.eq_of_toNat_eq heq))
  have hcrlf : crlf = alt (cat (lit 13) (lit 10)) (lit 10) := rfl
  apply deriv_of_avoids
  rw [hcrlf, avoids, madeOf, madeOf, Bool.and_eq_true, Bool.and_eq_true]
  exact ⟨⟨hcr, hlf⟩, hlf⟩

/-- The first byte of a version. -/
theorem byte_blank {t u : List Byte} (ht : 32#8 ∉ t) (hu : 32#8 ∉ u)
    (hpast : st.past = t ++ 32#8 :: (u ++ [32#8]))
    (hcs : st.cs = inLine relaxed (fromVersion relaxed))
    (hmethod : MethodRead b s t st.data.request.method)
    (hvoid : (step st.cs c).1.isVoid = false) :
    LinePhase relaxed b s (st.byte requestCallbacks c) := by
  have htext : versionText.madeOf (fun _ ↦ true) fun _ ↦ false := rfl
  by_cases hc : c = 13#8 ∨ c = 10#8
  · rw [hcs, step_inLine rfl rfl, isVoid_inLine] at hvoid
    have hnone : ((fromVersion relaxed).deriv c.toNat).1.isVoid := by
      rcases hc with rfl | rfl
      · rfl
      · rfl
    rw [hnone] at hvoid
    cases hvoid
  · rw [hcs] at hvoid
    obtain ⟨hread, hstep⟩ := step_begun_within (deriv_crlf_of_notMem hc) rfl hvoid
    rw [deriv_enter_mark htext hread] at hstep
    have hstep' : step st.cs c = _ := hcs ▸ hstep
    obtain ⟨h, hdata⟩ := InElement.begin (r := versionText) hpast hstep'
    refine .version t u [c] ht hu h ?_
    rw [hdata]
    exact hmethod

/-- A byte of the version, or the end of the line behind it. -/
theorem byte_version {t u v : List Byte} (ht : 32#8 ∉ t) (hu : 32#8 ∉ u)
    (h : InElement relaxed versionText (uriEnd relaxed + 1) .httpVersion crlf
      (t ++ 32#8 :: (u ++ [32#8])) v st)
    (hmethod : MethodRead b s t st.data.request.method)
    (hin : InBuffer b.size s st.off st.past.length) (hvoid : (step st.cs c).1.isVoid = false)
    (hfailure : (st.byte requestCallbacks c).data.failure = none) :
    LinePhase relaxed b s (st.byte requestCallbacks c) := by
  have htext : versionText.madeOf (fun _ ↦ true) fun _ ↦ false := rfl
  by_cases hc : c = 13#8 ∨ c = 10#8
  · obtain ⟨hcrlf, hactions, havoids⟩ := deriv_crlf_of_mem hc
    obtain ⟨haccepts, hcs, hdata⟩ := h.leave htext havoids hcrlf hactions rfl hvoid
    have hlength : (t ++ 32#8 :: (u ++ [32#8])).length = t.length + 1 + u.length + 1 := by
      simp only [List.length_append, List.length_cons, List.length_nil]
      omega
    have hpos : st.past.length = t.length + 1 + u.length + 1 + v.length := by
      rw [h.past, List.length_append, hlength]
    rw [hlength, RequestData.onCall] at hdata
    refine .behind t u v c [] ht hu (eq_of_accepts_versionText haccepts) hc ?_ ?_ ?_ ?_
    · rw [HeadState.byte, h.past]
      simp only [List.append_assoc, List.cons_append, List.nil_append]
    · rw [hcs]
      exact madeOf_inLine (madeOf_deriv (r := crlf) rfl c.toNat).1
    · rw [hdata, onRequestVersion_method]
      exact hmethod
    · rw [hdata] at hfailure ⊢
      exact ⟨st.off, hpos ▸ hin, st.data, hfailure, rfl⟩
  · obtain ⟨h', hdata⟩ := h.within htext (deriv_crlf_of_notMem hc) rfl hvoid
    refine .version t u (v ++ [c]) ht hu h' ?_
    rw [hdata]
    exact hmethod

/-- A byte behind the version. -/
theorem byte_behind {t u v w : List Byte} {e : Byte} (ht : 32#8 ∉ t) (hu : 32#8 ∉ u)
    (hv : v = bytesOf "HTTP/1.1" ∨ v = bytesOf "HTTP/1.0") (he : e = 13#8 ∨ e = 10#8)
    (hpast : st.past = t ++ 32#8 :: (u ++ 32#8 :: (v ++ e :: w)))
    (hcs : st.cs.madeOf (fun _ ↦ true) otherAction)
    (hmethod : MethodRead b s t st.data.request.method)
    (hversion : VersionRead b s (t.length + 1 + u.length + 1) v st.data.request.version) :
    LinePhase relaxed b s (st.byte requestCallbacks c) := by
  obtain ⟨hcs', hactions⟩ := madeOf_deriv hcs c.toNat
  have hother : ∀ a ∈ (step st.cs c).2, otherAction a := by
    intro a ha
    obtain ⟨e, he, rfl⟩ := List.mem_map.mp ha
    exact hactions e he
  obtain ⟨hsame, hsame'⟩ := byte_other hother
  refine .behind t u v e (w ++ [c]) ht hu hv he ?_ hcs' ?_ ?_
  · rw [HeadState.byte, hpast]
    simp only [List.append_assoc, List.cons_append]
  · rw [hsame]
    exact hmethod
  · rw [hsame']
    exact hversion

/-- Every read and every byte that is not an error leads to a phase. -/
theorem headInvariant (relaxed : Bool) (b : BufferSize) (s : HttpSession) :
    HeadInvariant requestCallbacks b.size s (LinePhase relaxed b s) where
  cut := cut
  byte := by
    intro st c h hin hvoid hfailure
    cases h with
    | start hpast hcs => exact byte_start hpast hcs
    | other d w hpast hd =>
      refine .other d (w ++ [c]) ?_ hd
      rw [HeadState.byte, hpast, List.cons_append]
    | method t ht h => exact byte_method ht h hin hvoid hfailure
    | target t u r ht hu hpast hcs hr' hr hmethod =>
      exact byte_target ht hu hpast hcs hr' hr hmethod hvoid
    | blank t u ht hu hpast hcs hmethod => exact byte_blank ht hu hpast hcs hmethod hvoid
    | version t u v ht hu h hmethod => exact byte_version ht hu h hmethod hin hvoid hfailure
    | behind t u v e w ht hu hv he hpast hcs hmethod hversion =>
      exact byte_behind ht hu hv he hpast hcs hmethod hversion

end LinePhase

/-! ### What the callbacks take the tokens for -/

theorem HttpMethod.mem_all (method : HttpMethod) : method ∈ HttpMethod.all := by
  cases method <;> decide

/-- The texts of the methods: no blank, no zero byte, and an upper-case letter at the beginning. -/
theorem HttpMethod.text_chars (method : HttpMethod) :
    32#8 ∉ bytesOf method.text ∧ cString (bytesOf method.text) = bytesOf method.text ∧
      ∃ c w, bytesOf method.text = c :: w ∧ (union upper digit).mem c.toNat := by
  cases method <;> exact ⟨by decide, by decide, _, _, rfl, by decide⟩

/-- The token of a method is not taken for a method before it in the map. -/
theorem charsToHttpMethod_text (method : HttpMethod) :
    charsToHttpMethod (bytesOf method.text ++ [32#8]) = some method := by
  have hall : ∀ method ∈ HttpMethod.all,
      charsToHttpMethod (bytesOf method.text ++ [32#8]) = some method := by
    decide +kernel
  exact hall method method.mem_all

theorem text_prefix_of_charsToHttpMethod {text : List Byte} {method : HttpMethod}
    (h : charsToHttpMethod text = some method) : bytesOf method.text <+: text := by
  have hcmp := List.find?_some h
  rw [strncmp, decide_eq_true_eq, List.take_length, (HttpMethod.text_chars method).2.1] at hcmp
  rw [hcmp]
  exact (List.takeWhile_prefix _).trans (List.take_prefix _ text)

section Reads

variable {b : BufferSize} {s : HttpSession} {t v : List Byte}

/-- The method is the token when the token is a method and was in one buffer. -/
theorem MethodRead.iff {method : HttpMethod} (h : MethodRead b s t method) :
    t = bytesOf method.text ↔ (∃ method : HttpMethod, t = bytesOf method.text) ∧
      ∀ i, s.readEnd b.size i = 0 ∨ t.length < s.readEnd b.size i := by
  obtain ⟨off, hin, hchars⟩ := h
  constructor
  · intro heq
    refine ⟨⟨method, heq⟩, ?_⟩
    obtain ⟨hblank, -, c, w, hcons, -⟩ := HttpMethod.text_chars method
    have hoff : off = 0 := by
      have hprefix := text_prefix_of_charsToHttpMethod hchars
      rw [List.prefix_concat_iff] at hprefix
      rcases hprefix with hall | hprefix
      · rw [hall, List.mem_append, List.mem_singleton, not_or] at hblank
        exact absurd rfl hblank.2
      · have hle := hprefix.length_le
        rw [List.length_drop, heq, hcons, List.length_cons] at hle
        omega
    intro i
    by_contra hcut
    rw [not_or, Nat.not_lt] at hcut
    have hlast := hin.last i hcut.2
    omega
  · rintro ⟨⟨method', rfl⟩, hreads⟩
    obtain ⟨i, hi⟩ := hin.readEnd
    have hle := hin.le
    have hoff : off = 0 := by
      have hcut := hreads i
      omega
    rw [hoff, List.drop_zero, charsToHttpMethod_text] at hchars
    cases hchars
    rfl

/-- The end of a version: nothing of it is taken for `HTTP/1.1`, a part of it is an error. -/
theorem onRequestVersion_drop {d : RequestData} {j : ℕ}
    (hv : v = bytesOf "HTTP/1.1" ∨ v = bytesOf "HTTP/1.0") (hj : j ≤ v.length)
    (h : (d.onRequestVersion (v.drop j)).failure = none) :
    (j = 0 ∨ j = v.length) ∧ (d.onRequestVersion (v.drop j)).request.version =
      if j = 0 ∧ v = bytesOf "HTTP/1.0" then 0x10 else 0x11 := by
  have hcmp : ∀ v ∈ [bytesOf "HTTP/1.1", bytesOf "HTTP/1.0"], ∀ j ∈ List.range (v.length + 1),
      strncmp (v.drop j) (bytesOf "HTTP/1.1") (v.drop j).length =
          decide (j = v.length ∨ j = 0 ∧ v = bytesOf "HTTP/1.1") ∧
        strncmp (v.drop j) (bytesOf "HTTP/1.0") (v.drop j).length =
          decide (j = v.length ∨ j = 0 ∧ v = bytesOf "HTTP/1.0") := by
    decide
  have hmem : v ∈ [bytesOf "HTTP/1.1", bytesOf "HTTP/1.0"] := by
    rcases hv with rfl | rfl
    · exact List.mem_cons_self
    · exact List.mem_cons_of_mem _ List.mem_cons_self
  obtain ⟨hone, hzero⟩ := hcmp v hmem j (List.mem_range.mpr (Nat.lt_succ_of_le hj))
  have hpos : v.length ≠ 0 := by
    rcases hv with rfl | rfl
    · decide
    · decide
  rw [RequestData.failure_eq_none] at h
  rw [RequestData.onRequestVersion, hone, hzero] at h ⊢
  simp only [decide_eq_true_eq] at h ⊢
  split at h
  · rename_i hfirst
    have hnot : ¬(j = 0 ∧ v = bytesOf "HTTP/1.0") := by
      rintro ⟨rfl, rfl⟩
      exact absurd hfirst (by decide)
    rw [if_pos hfirst, if_neg hnot]
    exact ⟨hfirst.elim .inr fun hboth ↦ .inl hboth.1, rfl⟩
  · rename_i hfirst
    rw [if_neg hfirst]
    split at h
    · rename_i hsecond
      have hboth := hsecond.resolve_left fun hend ↦ hfirst (.inl hend)
      rw [if_pos hsecond, if_pos hboth]
      exact ⟨.inl hboth.1, rfl⟩
    · cases h.2

/-- The version is the token unless only its end, which is empty, was left of `HTTP/1.0`. -/
theorem VersionRead.iff {pos : ℕ} {version : Byte}
    (hv : v = bytesOf "HTTP/1.1" ∨ v = bytesOf "HTTP/1.0") (h : VersionRead b s pos v version) :
    (version = 0x11 ∧ v = bytesOf "HTTP/1.1" ∨ version = 0x10 ∧ v = bytesOf "HTTP/1.0") ↔
      (v = bytesOf "HTTP/1.0" → ∀ i, s.readEnd b.size i ≠ pos + v.length) := by
  obtain ⟨off, hin, d, hfailure, rfl⟩ := h
  have hle := hin.le
  obtain ⟨hend, hversion⟩ := onRequestVersion_drop hv (by omega) hfailure
  have hne : bytesOf "HTTP/1.1" ≠ bytesOf "HTTP/1.0" := by decide
  rw [hversion]
  rcases hv with rfl | rfl
  · rw [if_neg fun hboth ↦ hne hboth.2]
    exact iff_of_true (.inl ⟨rfl, rfl⟩) fun heq ↦ absurd heq hne
  · constructor
    · intro hfaithful _ i hi
      have hzero : off - pos = 0 := by
        by_contra hpos
        rw [if_neg fun hboth ↦ hpos hboth.1] at hfaithful
        rcases hfaithful with ⟨-, heq⟩ | ⟨heq, -⟩
        · exact hne heq.symm
        · exact absurd heq (by decide)
      have hlast := hin.last i (Nat.le_of_eq hi)
      rw [hi] at hlast
      have hlength : (bytesOf "HTTP/1.0").length = 8 := by decide
      omega
    · intro hreads
      obtain ⟨i, hi⟩ := hin.readEnd
      have hcut := hreads rfl i
      have hzero : off - pos = 0 := by omega
      rw [if_pos ⟨hzero, rfl⟩]
      exact .inr ⟨rfl, rfl⟩

end Reads

/-! ### The line of a returned request -/

section Returned

variable {relaxed : Bool} {b : BufferSize} {s s' : HttpSession} {r : HttpRequest}

/-- Receiving the body changes neither the method nor the version. -/
theorem recvBody_line {p : HttpRequestParser} {data : List Byte}
    (h : HttpSession.recvBody p data s = .ok (r, s')) :
    r.method = p.data.request.method ∧ r.version = p.data.request.version := by
  have hinit : ∀ r : HttpRequest, r.init.method = r.method ∧ r.init.version = r.version := by
    intro r
    rw [HttpRequest.init]
    split
    · exact ⟨rfl, rfl⟩
    · exact ⟨rfl, rfl⟩
  simp only [HttpSession.recvBody] at h
  split at h
  · cases h
    exact hinit _
  · split at h
    · cases h
      exact hinit _
    · split at h
      · cases h
      · cases h
        exact hinit _

/-- Where the reading of a returned request ends. -/
theorem phase_of_recvRequest (h : (HttpSession.recvRequest relaxed b s).1 = .ok r) :
    ∃ st : RequestState, LinePhase relaxed b s st ∧ st.past <+: s.bytes ∧ st.cs.nullable ∧
      r.method = st.data.request.method ∧ r.version = st.data.request.version := by
  rw [HttpSession.recvRequest] at h
  cases hhead : requestCallbacks.recvHead b.size (s.bytes.length + 1) (newRequestParser relaxed)
      [] s with
  | error e =>
    rw [hhead] at h
    cases h
  | ok received =>
    obtain ⟨p, data, s'⟩ := received
    rw [hhead] at h
    cases hbody : HttpSession.recvBody p data s' with
    | error e =>
      simp only [bind, Except.bind, hbody] at h
      cases h
    | ok result =>
      obtain ⟨r', s''⟩ := result
      simp only [bind, Except.bind, hbody] at h
      cases h
      obtain ⟨st, hphase, hpast, hnull, hdata, -⟩ := recvHead_invariant
        (LinePhase.headInvariant relaxed b s) (stopsWith_start relaxed) (.start rfl rfl) hhead
      obtain ⟨hmethod, hversion⟩ := recvBody_line hbody
      rw [← hdata] at hmethod hversion
      exact ⟨st, hphase, hpast, hnull, hmethod, hversion⟩

end Returned

/-- The method and the version of a returned request are the tokens that were received, exactly when
the method token is a method that no read cuts and no read ends directly behind the version
`HTTP/1.0`. -/
theorem acceptedLine (relaxed : Bool) (b : BufferSize) (s : HttpSession) (r : HttpRequest)
    (h : (HttpSession.recvRequest relaxed b s).1 = .ok r) :
    FaithfulLine s.bytes r ↔ IntactLine b s := by
  obtain ⟨st, hphase, hpast, hnull, hmethod, hversion⟩ := phase_of_recvRequest h
  obtain ⟨rest, hbytes⟩ := hpast
  cases hphase with
  | start _ hcs =>
    rw [hcs, (atStart relaxed).notNullable] at hnull
    cases hnull
  | method _ _ h =>
    rw [h.cs, not_nullable_inLine] at hnull
    cases hnull
  | target _ _ _ _ _ _ hcs | blank _ _ _ _ _ hcs =>
    rw [hcs, not_nullable_inLine] at hnull
    cases hnull
  | version _ _ _ _ _ h =>
    rw [h.cs, not_nullable_inLine] at hnull
    cases hnull
  | other c w hpast hc =>
    -- neither holds: no method begins with the byte
    have hno : ∀ method : HttpMethod, methodToken s.bytes ≠ bytesOf method.text := by
      intro method heq
      obtain ⟨-, -, d, text, hcons, hd⟩ := HttpMethod.text_chars method
      rw [← hbytes, hpast, hcons, methodToken, List.cons_append, List.takeWhile_cons] at heq
      split at heq
      · injection heq with hcd
        rw [hcd, hd] at hc
        cases hc
      · cases heq
    exact iff_of_false (fun hfaithful ↦ hno _ hfaithful.method)
      fun hintact ↦ hintact.known.elim hno
  | behind t u v c w ht hu hv hc hpast _ hread hread' =>
    have hbytes' : s.bytes = t ++ 32#8 :: (u ++ 32#8 :: (v ++ c :: (w ++ rest))) := by
      rw [← hbytes, hpast]
      simp only [List.append_assoc, List.cons_append]
    have hline : ∀ d ∈ v, d ≠ 13#8 ∧ d ≠ 10#8 := by
      rcases hv with rfl | rfl
      · decide
      · decide
    have hmethodToken : methodToken s.bytes = t := by
      rw [hbytes', methodToken_append ht]
    have htargetToken : targetToken s.bytes = u := by
      rw [hbytes', targetToken_append ht hu]
    have hversionToken : versionToken s.bytes = v := by
      rw [hbytes', versionToken_append ht hu hline hc]
    have hend : versionEnd s.bytes = t.length + 1 + u.length + 1 + v.length := by
      rw [versionEnd, hmethodToken, htargetToken, hversionToken]
    rw [← hmethod] at hread
    rw [← hversion] at hread'
    have hmethodIff := hread.iff
    have hversionIff := hread'.iff hv
    rw [← hend] at hversionIff
    rw [← hmethodToken] at hmethodIff
    rw [← hversionToken] at hversionIff
    constructor
    · intro hfaithful
      obtain ⟨hknown, hreads⟩ := hmethodIff.mp hfaithful.method
      exact ⟨hknown, hreads, hversionIff.mp hfaithful.version⟩
    · intro hintact
      exact ⟨hmethodIff.mpr ⟨hintact.known, hintact.methodReads⟩,
        hversionIff.mpr hintact.versionReads⟩

theorem acceptedLine_getRoot :
    (HttpSession.recvRequest false defaultBuffer (arriving ["GET / HTTP/1.1\r\n\r\n"])).1 =
      .ok getRoot.request ∧
    IntactLine defaultBuffer (arriving ["GET / HTTP/1.1\r\n\r\n"]) := by
  have hreturned : (HttpSession.recvRequest false defaultBuffer
      (arriving ["GET / HTTP/1.1\r\n\r\n"])).1 = .ok getRoot.request := by
    decide +kernel
  refine ⟨hreturned, (acceptedLine _ _ _ _ hreturned).mp ⟨?_, .inl ⟨?_, ?_⟩⟩⟩
  · decide +kernel
  · decide +kernel
  · decide +kernel

/-- A longer token that begins with a method is taken for the method. -/
theorem not_faithfulLine_longer :
    ¬∀ (relaxed : Bool) (b : BufferSize) (s : HttpSession) (r : HttpRequest),
      (HttpSession.recvRequest relaxed b s).1 = .ok r → FaithfulLine s.bytes r := by
  intro h
  have hreturned : (HttpSession.recvRequest false defaultBuffer
      (arriving ["GETX / HTTP/1.1\r\n\r\n"])).1 = .ok getRoot.request := by
    decide +kernel
  have hmethod := (h _ _ _ _ hreturned).method
  revert hmethod
  decide +kernel

/-- The end of a token that a read cuts, and a version of which nothing is left. -/
example :
    (HttpSession.recvRequest false defaultBuffer
      (arriving ["UN", "LOCK / HTTP/1.1\r\n\r\n"])).1.toOption.map HttpRequest.method = some .lock ∧
    (HttpSession.recvRequest false defaultBuffer
      (arriving ["GET / HTTP/1.0", "\r\n\r\n"])).1.toOption.map HttpRequest.version =
        some 0x11 := by
  decide +kernel

end Rsylar.Http
