import Rsylar.Foundations.RegexWords
import Rsylar.Http.DumpedLength
import Rsylar.Http.RequestElements
import Rsylar.Http.ResponseStream

/-!
# The elements of a written response

How the machine of the responses reads what `HttpResponse::dump` writes, element by element: the
version, the status, the reason and the header lines. Three headers have rules of their own beside
the rule for all fields, and a name is read along all of them as long as it may still become one of
theirs. A name that begins like one of the three runs the first action twice, which makes no
difference.

Behind the line `connection: close` the machine is in a state of its own, since the rule for it has
not been left yet. A written response has at most a length behind this line.
-/

set_option autoImplicit false
set_option relaxedAutoImplicit false

namespace Rsylar.Http

open ActionRegex Scanner

/-! ### Elements of any machine -/

namespace Scanner

variable {κ φ : Type} [DecidableEq κ] [DecidableEq φ]

/-- A text with the byte behind it. With its first byte the machine runs the actions `as`, and `bs`
with the byte behind it. -/
def ReadsElement (text : List Byte) (c : Byte) (cs cs' : Expr (ScanAction κ φ))
    (as bs : List (ScanAction κ φ)) : Prop :=
  ∀ (seen : List Byte) (m : Marks), Reaches seen (text ++ [c]) cs m cs'
    (setAll (seen ++ text).length (setAll seen.length m as) bs)
    (callAll (seen ++ text) c (setAll seen.length m as) bs)

variable {seen text name value : List Byte} {c d : Byte} {m : Marks}
  {cs cs' cs₁ cs₂ cs₃ cs₄ : Expr (ScanAction κ φ)} {as bs as' bs' : List (ScanAction κ φ)}

/-- A part of any length between two states of a machine, with the byte behind it. -/
structure ScanElement (κ φ : Type) [DecidableEq κ] [DecidableEq φ] where
  part : Expr (ScanAction κ φ)
  next : Byte
  before : Expr (ScanAction κ φ)
  behind : Expr (ScanAction κ φ)
  first : List (ScanAction κ φ)
  last : List (ScanAction κ φ)
  bounds : List ℕ
  covers : CoversBytes bounds
  marks : first.all onlyMarks
  notDone : .done ∉ last
  passes : Expr.passes bounds 20 part before first [⟨next.toNat, behind, last⟩]

theorem ScanElement.reads (e : ScanElement κ φ) (htext : text ≠ [])
    (haccepts : e.part.accepts (text.map BitVec.toNat)) :
    ReadsElement text e.next e.before e.behind e.first e.last :=
  fun _ _ ↦
    reaches_element e.covers e.passes List.mem_cons_self rfl e.marks e.notDone htext haccepts

/-- Bytes with which no action runs. -/
def silent : Expr (ScanAction κ φ) → List Byte → Bool
  | _, [] => true
  | cs, c :: text => !(step cs c).1.isVoid && (step cs c).2.isEmpty && silent (step cs c).1 text

theorem reaches_silent (h : silent cs text) :
    Reaches seen text cs m (cs.residual (text.map BitVec.toNat)) m [] := by
  induction text generalizing seen cs with
  | nil => exact reaches_nil
  | cons c text ih =>
    simp only [silent, Bool.and_eq_true, Bool.not_eq_true', List.isEmpty_iff] at h
    obtain ⟨⟨hvoid, hactions⟩, htext⟩ := h
    have hbyte : Reaches seen [c] cs m (step cs c).1 m [] :=
      reaches_mark (goes_of_deriv rfl hactions hvoid) rfl
    exact hbyte.append (ih htext)

/-- A text of the source. -/
theorem readsElement_fixed (hfirst : Goes cs d cs₁ as) (hmarks : as.all onlyMarks)
    (hsilent : silent cs₁ text) (hlast : Goes (cs₁.residual (text.map BitVec.toNat)) c cs' bs)
    (hdone : .done ∉ bs) : ReadsElement (d :: text) c cs cs' as bs := by
  intro seen m
  have hbegin : Reaches seen [d] cs m cs₁ (setAll seen.length m as) [] := reaches_mark hfirst hmarks
  have hread := (hbegin.append (reaches_silent hsilent)).append (reaches_byte hlast hdone)
  exact hread

/-- The empty text, with one byte for both actions. -/
theorem readsElement_nil (h : Goes cs c cs' (as ++ bs)) (hmarks : as.all onlyMarks)
    (hdone : .done ∉ bs) : ReadsElement [] c cs cs' as bs := by
  intro seen m
  have hdone' : .done ∉ as ++ bs := by
    rw [List.mem_append, not_or]
    exact ⟨done_notMem_of_onlyMarks hmarks, hdone⟩
  have hbyte : Reaches seen [c] cs m cs' (setAll seen.length m (as ++ bs))
      (callAll seen c m (as ++ bs)) :=
    reaches_byte h hdone'
  have hcalls : ∀ m : Marks, callAll seen c m (as ++ bs) =
      callAll seen c (setAll seen.length m as) bs := by
    clear hbyte h hdone'
    induction as with
    | nil => exact fun m ↦ rfl
    | cons a as ih =>
      intro m
      obtain ⟨ha, has⟩ := Bool.and_eq_true_iff.mp hmarks
      have hmark : [a].all onlyMarks := by rw [List.all_cons, ha]; rfl
      have hnone : callAll seen c m [a] = [] := callAll_of_onlyMarks hmark
      rw [callAll, callAll, List.append_nil] at hnone
      rw [List.cons_append, callAll, hnone, List.nil_append, ih has]
      rfl
  rw [hcalls, setAll, List.foldl_append] at hbyte
  rw [List.append_nil]
  exact hbyte

/-- An element that a callback is given, from the mark at its first byte on. -/
theorem ReadsElement.asToken {k : κ} (h : ReadsElement text c cs cs' [.mark] [.token k]) :
    ∃ m', Reaches seen (text ++ [c]) cs m cs' m' [.token k text c] := by
  have hread := h seen m
  simp only [callAll, call, setAll, List.foldl_cons, List.foldl_nil, Marks.set, List.drop_left,
    List.append_nil] at hread
  exact ⟨_, hread⟩

/-! ### Header lines -/

/-- What the callbacks behind the value of a header are given. -/
def lineCalls (name value : List Byte) (as : List (ScanAction κ φ)) : List (ScanCall κ φ) :=
  as.flatMap fun
    | .token k => [.token k value 13#8]
    | .writeValue => [.field name value]
    | _ => []

/-- The actions behind the value of a header. -/
def endsValue : ScanAction κ φ → Bool
  | .token _ => true
  | .writeValue => true
  | _ => false

omit [DecidableEq κ] [DecidableEq φ] in
theorem callAll_endsValue (has : as.all endsValue) (hmark : m.mark = seen.length)
    (hname : (seen.drop m.fieldStart).take m.fieldLen = name)
    (hinside : m.fieldStart + m.fieldLen ≤ seen.length) :
    callAll (seen ++ value) 13#8 m as = lineCalls name value as := by
  have htake : ((seen ++ value).drop m.fieldStart).take m.fieldLen = name := by
    rw [List.drop_append_of_le_length (by omega),
      List.take_append_of_le_length (by rw [List.length_drop]; omega), hname]
  induction as with
  | nil => rfl
  | cons a as ih =>
    obtain ⟨ha, has⟩ := Bool.and_eq_true_iff.mp has
    cases a with
    | token k =>
      show _ :: _ = _ :: _
      rw [hmark, List.drop_left]
      exact congrArg _ (ih has)
    | writeValue =>
      show _ :: _ = _ :: _
      rw [hmark, List.drop_left, htake]
      exact congrArg _ (ih has)
    | mark | startField | writeField | startQuery | queryString | flag | skip | done => cases ha

omit [DecidableEq κ] [DecidableEq φ] in
theorem done_notMem_endsValue (has : as.all endsValue) :
    (ScanAction.done : ScanAction κ φ) ∉ as := by
  intro hmem
  have hdone := List.all_eq_true.mp has _ hmem
  cases hdone

/-- A name: its beginning and its length are kept until the end of the line. -/
theorem ReadsElement.asName (h : ReadsElement name 58#8 cs cs' as bs)
    (has : ∀ (p : ℕ) (m : Marks), setAll p m as = { m with fieldStart := p })
    (hbs : ∀ (p : ℕ) (m : Marks), setAll p m bs =
      { m with fieldLen := p - m.fieldStart, lenFrom := m.fieldStart })
    (hmarks : bs.all onlyMarks) :
    Reaches seen (name ++ [58#8]) cs m cs' { m with
      fieldStart := seen.length
      fieldLen := name.length
      lenFrom := seen.length } [] := by
  have hread := h seen m
  rw [callAll_of_onlyMarks hmarks, has, hbs] at hread
  simpa only [List.length_append, Nat.add_sub_cancel_left] using hread

/-- A value behind the name of its line. -/
theorem ReadsElement.asValue (h : ReadsElement value 13#8 cs cs' as bs)
    (has : ∀ (p : ℕ) (m : Marks), setAll p m as = { m with mark := p })
    (hbs : bs.all endsValue) (hname : (seen.drop m.fieldStart).take m.fieldLen = name)
    (hinside : m.fieldStart + m.fieldLen ≤ seen.length) :
    ∃ m', Reaches seen (value ++ [13#8]) cs m cs' m' (lineCalls name value bs) := by
  have hread := h seen m
  rw [has] at hread
  have hcalls : callAll (seen ++ value) 13#8 { m with mark := seen.length } bs =
      lineCalls name value bs :=
    callAll_endsValue hbs rfl hname hinside
  rw [hcalls] at hread
  exact ⟨_, hread⟩

/-- A header line, as it is written. -/
theorem reaches_line (hname : ReadsElement name 58#8 cs cs₁ as bs)
    (has : ∀ (p : ℕ) (m : Marks), setAll p m as = { m with fieldStart := p })
    (hbs : ∀ (p : ℕ) (m : Marks), setAll p m bs =
      { m with fieldLen := p - m.fieldStart, lenFrom := m.fieldStart })
    (hmarks : bs.all onlyMarks) (hblank : Goes cs₁ 32#8 cs₂ [.mark])
    (hvalue : ReadsElement value 13#8 cs₂ cs₃ as' bs')
    (has' : ∀ (p : ℕ) (m : Marks), setAll p m as' = { m with mark := p })
    (hbs' : bs'.all endsValue) (hend : Goes cs₃ 10#8 cs₄ []) :
    ∃ m', Reaches seen (HttpRequest.dumpHeader name value) cs m cs₄ m'
      (lineCalls name value bs') := by
  have hfield : Reaches seen (name ++ [58#8]) cs m cs₁ _ [] :=
    hname.asName has hbs hmarks
  have hspace := hfield.append (reaches_mark hblank rfl)
  have hrest : ∃ m', Reaches (seen ++ (name ++ [58#8] ++ [32#8])) (value ++ [13#8]) cs₂ { m with
      mark := (seen ++ (name ++ [58#8])).length
      fieldStart := seen.length
      fieldLen := name.length
      lenFrom := seen.length } cs₃ m' (lineCalls name value bs') := by
    refine hvalue.asValue has' hbs' ?_ ?_
    · simp only [List.append_assoc, List.drop_left, List.take_left]
    · simp only [List.length_append]
      omega
  obtain ⟨m', hrest⟩ := hrest
  have hbyte : Reaches (seen ++ (name ++ [58#8] ++ [32#8] ++ (value ++ [13#8]))) [10#8] cs₃ m' cs₄
      m' [] :=
    reaches_mark hend rfl
  have hline := (hspace.append hrest).append hbyte
  have htext : HttpRequest.dumpHeader name value =
      name ++ [58#8] ++ [32#8] ++ (value ++ [13#8]) ++ [10#8] := by
    rw [HttpRequest.dumpHeader, bytesOf_crlf, bytesOf_colon]
    simp only [List.append_assoc, List.cons_append, List.nil_append]
  rw [htext]
  rw [List.nil_append, List.nil_append, List.append_nil] at hline
  exact ⟨m', hline⟩

end Scanner

namespace HttpClientParser

open Expr CharSet

open HttpParser (digit space)

/-! ### The states between the elements -/

/-- The machine in front of a header line. -/
def headerLines : ResponseExpr := behind "HTTP/1.1 200 OK\r\n"

/-- The machine behind the line `connection: close`. -/
def closingLines : ResponseExpr := behind "HTTP/1.1 200 OK\r\nconnection: close\r\n"

def behindHeader (text : String) : ResponseExpr :=
  headerLines.residual ((bytesOf text).map BitVec.toNat)

/-- What a line may have, beside its end. -/
def lineChars : CharSet := diff (range 0 255) (oneOf "\r\n")

def valueText : ResponseExpr := cat (chars (diff lineChars space)) (star (chars lineChars))

/-- The rules for a status line do not tell the bytes between two neighbours apart. -/
def statusBounds : List ℕ :=
  [0, 10, 11, 13, 14, 32, 33, 46, 47, 48, 58, 72, 73, 80, 81, 84, 85, 256]

/-- Nor do those for a value these. -/
def valueBounds : List ℕ := [0, 9, 10, 11, 13, 14, 32, 33, 48, 58, 256]

def versionElement : ScanElement ResponseToken ResponseFlag where
  part := cat (str "HTTP/") httpNumber
  next := 32
  before := start
  behind := behind "HTTP/1.1 "
  first := [.mark]
  last := [.token .httpVersion]
  bounds := statusBounds
  covers := ⟨rfl, rfl⟩
  marks := rfl
  notDone := by decide
  passes := by decide +kernel

def statusElement : ScanElement ResponseToken ResponseFlag where
  part := plus (chars digit)
  next := 32
  before := behind "HTTP/1.1 "
  behind := behind "HTTP/1.1 200 "
  first := [.mark]
  last := [.token .statusCode]
  bounds := statusBounds
  covers := ⟨rfl, rfl⟩
  marks := rfl
  notDone := by decide
  passes := by decide +kernel

def reasonElement : ScanElement ResponseToken ResponseFlag where
  part := plus (chars lineChars)
  next := 13
  before := behind "HTTP/1.1 200 "
  behind := behind "HTTP/1.1 200 OK\r"
  first := [.mark]
  last := [.token .reasonPhrase]
  bounds := statusBounds
  covers := ⟨rfl, rfl⟩
  marks := rfl
  notDone := by decide
  passes := by decide +kernel

/-- The value of a header that has no rule of its own. -/
def valueElement : ScanElement ResponseToken ResponseFlag where
  part := valueText
  next := 13
  before := behindHeader "a: "
  behind := behindHeader "a:\r"
  first := [.mark]
  last := [.writeValue]
  bounds := valueBounds
  covers := ⟨rfl, rfl⟩
  marks := rfl
  notDone := by decide
  passes := by decide +kernel

/-- The digits of a length. -/
def lengthElement : ScanElement ResponseToken ResponseFlag where
  part := plus (chars digit)
  next := 13
  before := behindHeader "content-length: "
  behind := behindHeader "a:\r"
  first := [.mark, .mark]
  last := [.token .contentLen, .writeValue, .writeValue]
  bounds := valueBounds
  covers := ⟨rfl, rfl⟩
  marks := rfl
  notDone := by decide
  passes := by decide +kernel

/-! ### The names of fields -/

/-- The rule for a header line, with the numbers its actions have in the machine. -/
def headerRule : ResponseExpr := (messageHeader.number 6).1

/-- The machine inside a header line. -/
def inLine (r : ResponseExpr) : ResponseExpr :=
  finish (cat (cat r (star headerRule)) crlf) 28 .done

/-- A letter of a name that is compared without its case. -/
def letter (c : Char) : CharSet := ofList (if c.isAlpha then [c.toUpper, c.toLower] else [c])

/-- The headers that have rules of their own. -/
def ruledNames : List String := ["connection", "content-length", "transfer-encoding"]

def ruledWords : List (List CharSet) := ruledNames.map fun name ↦ name.toList.map letter

/-- What is left of these names and of the rules behind the beginning of a name. -/
def nameEntry (text : List Char) : List (List CharSet) × ResponseExpr :=
  (text.foldl (fun words c ↦ tails (letter c) words) ruledWords,
    headerRule.residual (text.map Char.toNat))

/-- The rule for all fields inside a name. -/
def fieldRule : ResponseExpr := headerRule.residual [120]

def behindColon : ResponseExpr := headerRule.residual [120, 58]

/-- The beginnings of the ruled names; behind each of them the rules go on with a name as
`readsWords` says. -/
def nameTable : { table : List (List (List CharSet) × ResponseExpr) //
    readsWords table fieldRule 58 } where
  val := ruledNames.flatMap fun name ↦
    (List.range name.length).map fun n ↦ nameEntry (name.toList.take (n + 1))
  property := by decide +kernel

theorem headerLines_eq : headerLines = finish (cat (star headerRule) crlf) 28 .done ∧
    behindHeader "a:" = inLine behindColon ∧ fieldRule.isVoid = false ∧
    fieldRule.nullable = false := by
  decide +kernel

/-- The first byte of a name, the bytes behind it and the colon. -/
theorem deriv_names :
    (∀ s ∈ heads ruledWords, ∀ c ∈ s.members, (headerRule.deriv c).2.map Prod.snd =
      [.startField, .startField] ∧ (tails s ruledWords, (headerRule.deriv c).1) ∈ nameTable.val) ∧
    (∀ c ∈ tokenChar.members, (∀ s ∈ heads ruledWords, s.mem c = false) →
      (headerRule.deriv c).2.map Prod.snd = [.startField] ∧ (headerRule.deriv c).1 = fieldRule) ∧
    (∀ c ∈ tokenChar.members, fieldRule.deriv c = (fieldRule, [])) ∧
    (fieldRule.deriv 58).2.map Prod.snd = [.writeField] ∧ (fieldRule.deriv 58).1 = behindColon ∧
    behindColon.nullable = false ∧ behindColon.isVoid = false := by
  refine ⟨?_, ?_, ?_, ?_⟩ <;> decide +kernel

theorem goes_inLine {q q' : ResponseExpr} {c : Byte} {as : List (ℕ × ScanAction _ _)}
    (h : ReadsOn q c.toNat q' as) (hnull : q.nullable = false) :
    Goes (inLine q) c (inLine q') (as.map Prod.snd) := by
  have hline : ReadsOn (inLine q) c.toNat (inLine q') as :=
    ((h.cat hnull _).cat (by rw [Expr.nullable, hnull, Bool.false_and]) _).finish _ _
  exact goes_of_deriv (congrArg Prod.fst hline.deriv) (by rw [hline.deriv]) hline.notVoid

theorem goes_headerLines {q : ResponseExpr} {c : Byte} {as : List (ℕ × ScanAction _ _)}
    (hc : tokenChar.mem c.toNat) (h : ReadsOn headerRule c.toNat q as) :
    Goes headerLines c (inLine q) (as.map Prod.snd) := by
  have hcrlf : ∀ c ∈ tokenChar.members, ((crlf : ResponseExpr).deriv c).1.isVoid := by
    decide
  have hline : ReadsOn headerLines c.toNat (inLine q) as := by
    rw [headerLines_eq.1]
    exact (h.catStar (hcrlf _ (mem_members hc)) rfl).finish _ _
  exact goes_of_deriv (congrArg Prod.fst hline.deriv) (by rw [hline.deriv]) hline.notVoid

/-- Inside a name of which the bytes `w` are still to come, and which is none of the ruled ones. -/
def InName (q : ResponseExpr) (w : List ℕ) : Prop :=
  q = fieldRule ∨ ∃ words, (words, q) ∈ nameTable.val ∧ ∀ word ∈ words, ¬Spells word w

namespace InName

variable {q : ResponseExpr} {c : ℕ} {w : List ℕ}

theorem nullable (h : InName q w) : q.nullable = false := by
  rcases h with rfl | ⟨words, hmem, -⟩
  · exact headerLines_eq.2.2.2
  · exact not_nullable_of_readsWords nameTable.property hmem

theorem isVoid (h : InName q w) : q.isVoid = false := by
  rcases h with rfl | ⟨words, hmem, -⟩
  · exact headerLines_eq.2.2.1
  · exact not_void_of_readsWords nameTable.property hmem headerLines_eq.2.2.1

theorem deriv (h : InName q (c :: w)) (hc : tokenChar.mem c) :
    ∃ q', q.deriv c = (q', []) ∧ InName q' w := by
  have hfield := deriv_names.2.2.1 c (mem_members hc)
  rcases h with rfl | ⟨words, hmem, hother⟩
  · exact ⟨_, hfield, .inl rfl⟩
  · have hcolon : c ≠ 58 := by
      rintro rfl
      exact absurd hc (by decide)
    rcases step_of_readsWords nameTable.property hmem hcolon hother with heq | hnext
    · exact ⟨_, heq.trans hfield, .inl rfl⟩
    · obtain ⟨words', hmem', hactions, hother'⟩ := hnext
      exact ⟨_, Prod.ext rfl hactions, .inr ⟨words', hmem', hother'⟩⟩

theorem deriv_colon (h : InName q []) : q.deriv 58 = fieldRule.deriv 58 := by
  rcases h with rfl | ⟨words, hmem, hother⟩
  · rfl
  · exact end_of_readsWords nameTable.property hmem hother

end InName

theorem accepts_decimal (n : ℕ) :
    (plus (chars digit) : ResponseExpr).accepts ((decimal n).map BitVec.toNat) := by
  have hdigit : ∀ c : Byte, (charOf c).isDigit → digit.mem c.toNat := by
    decide
  have hall : ∀ c ∈ decimal n, digit.mem c.toNat :=
    fun c hc ↦ hdigit c (isDigit_of_mem_decimal hc)
  cases hn : decimal n with
  | nil => exact absurd hn (decimal_ne_nil n)
  | cons c rest =>
    rw [hn] at hall
    obtain ⟨hc, hrest⟩ := List.forall_mem_cons.mp hall
    rw [List.map_cons, plus, accepts_cat_chars hc]
    exact accepts_star_chars (List.forall_mem_map.mpr hrest)

section Lines

variable {seen text name value : List Byte} {m : Marks} {q : ResponseExpr} {c : Byte}

/-- The rest of a name. -/
theorem reaches_inName (h : InName q (text.map BitVec.toNat))
    (htext : ∀ c ∈ text, tokenChar.mem c.toNat) :
    ∃ q', InName q' [] ∧ Reaches seen text (inLine q) m (inLine q') m [] := by
  induction text generalizing seen q with
  | nil => exact ⟨q, h, reaches_nil⟩
  | cons c text ih =>
    obtain ⟨hc, hrest⟩ := List.forall_mem_cons.mp htext
    obtain ⟨q₁, hderiv, hnext⟩ := h.deriv hc
    have hgoes := goes_inLine ⟨hderiv, hnext.isVoid, hnext.nullable⟩ h.nullable
    obtain ⟨q', hq', hread⟩ := ih hnext hrest
    exact ⟨q', hq', (reaches_mark hgoes rfl).append hread⟩

/-- The first byte of a name that is none of the ruled ones. -/
theorem inName_headerRule (hname : ∀ word ∈ ruledWords, ¬Spells word ((c :: text).map BitVec.toNat))
    (hc : tokenChar.mem c.toNat) :
    ∃ q as, headerRule.deriv c.toNat = (q, as) ∧
      (as.map Prod.snd = [.startField] ∨ as.map Prod.snd = [.startField, .startField]) ∧
      InName q (text.map BitVec.toNat) := by
  refine ⟨_, _, rfl, ?_⟩
  by_cases hhead : ∃ s ∈ heads ruledWords, s.mem c.toNat
  · obtain ⟨s, hs, hsc⟩ := hhead
    obtain ⟨hactions, htable⟩ := deriv_names.1 s hs _ (mem_members hsc)
    exact ⟨.inr hactions, .inr ⟨_, htable, not_spells_tails hsc hname⟩⟩
  · have hnone : ∀ s ∈ heads ruledWords, s.mem c.toNat = false :=
      fun s hs ↦ Bool.eq_false_iff.mpr fun hsc ↦ hhead ⟨s, hs, hsc⟩
    obtain ⟨hactions, heq⟩ := deriv_names.2.1 _ (mem_members hc) hnone
    exact ⟨.inl hactions, .inl heq⟩

/-- The name of a field. -/
theorem readsElement_fieldName (hne : name ≠ []) (hchars : ∀ c ∈ name, tokenChar.mem c.toNat)
    (hname : ∀ word ∈ ruledWords, ¬Spells word (name.map BitVec.toNat)) :
    ∃ as : List (ScanAction ResponseToken ResponseFlag),
      (as = [.startField] ∨ as = [.startField, .startField]) ∧
      ReadsElement name 58#8 headerLines (behindHeader "a:") as [.writeField] := by
  cases name with
  | nil => exact absurd rfl hne
  | cons c text =>
    obtain ⟨hc, htext⟩ := List.forall_mem_cons.mp hchars
    obtain ⟨q₀, as, hderiv₀, has, hinside⟩ := inName_headerRule hname hc
    have hmarks : (as.map Prod.snd).all onlyMarks := by
      rcases has with heq | heq
      · rw [heq]
        rfl
      · rw [heq]
        rfl
    have hfirst := goes_headerLines hc ⟨hderiv₀, hinside.isVoid, hinside.nullable⟩
    refine ⟨_, has, fun seen m ↦ ?_⟩
    obtain ⟨q, hq, hread⟩ : ∃ q, InName q [] ∧ Reaches (seen ++ [c]) text (inLine q₀)
        (setAll seen.length m (as.map Prod.snd)) (inLine q)
        (setAll seen.length m (as.map Prod.snd)) [] :=
      reaches_inName hinside htext
    obtain ⟨-, -, -, hcolon, hbehind, hnull, hvoid⟩ := deriv_names
    have hlast : Goes (inLine q) 58#8 (behindHeader "a:") [.writeField] := by
      have hderiv : q.deriv 58 = (behindColon, (fieldRule.deriv 58).2) := by
        rw [hq.deriv_colon, ← hbehind]
      have hgoes := goes_inLine (c := 58#8) ⟨hderiv, hvoid, hnull⟩ hq.nullable
      rwa [hcolon, ← headerLines_eq.2.1] at hgoes
    exact ((reaches_mark hfirst hmarks).append hread).append (reaches_byte hlast (by decide))

/-- The machine behind the line for the connection. -/
def behindConnection (close : Bool) : ResponseExpr := if close then closingLines else headerLines

def connectionValue (close : Bool) : List Byte := bytesOf (if close then "close" else "keep-alive")

/-- The bytes that the writer itself puts in the head: the single bytes, which are the end of the
status line, the blank behind a colon, a value that is empty and the end of a header line; the names
`connection` and `content-length`; and the values of the first. -/
theorem goes_fixed :
    (Goes (behind "HTTP/1.1 200 OK\r") 10#8 headerLines [] ∧
      Goes (behindHeader "a:") 32#8 (behindHeader "a: ") [.mark] ∧
      Goes (behindHeader "a: ") 13#8 (behindHeader "a:\r") [.mark, .writeValue] ∧
      Goes (behindHeader "a:\r") 10#8 headerLines []) ∧
    (∀ close : Bool, Goes (behindConnection close) 99#8 (behindHeader "c")
      (if close then [.skip, .startField, .startField] else [.startField, .startField])) ∧
    (silent (behindHeader "c") (bytesOf "onnection") ∧
      Goes ((behindHeader "c").residual ((bytesOf "onnection").map BitVec.toNat)) 58#8
        (behindHeader "connection:") [.writeField] ∧
      Goes (behindHeader "connection:") 32#8 (behindHeader "connection: ") [.mark] ∧
      bytesOf "connection" = 99#8 :: bytesOf "onnection") ∧
    (silent (behindHeader "c") (bytesOf "ontent-length") ∧
      Goes ((behindHeader "c").residual ((bytesOf "ontent-length").map BitVec.toNat)) 58#8
        (behindHeader "content-length:") [.writeField, .writeField] ∧
      Goes (behindHeader "content-length:") 32#8 (behindHeader "content-length: ") [.mark] ∧
      bytesOf "content-length" = 99#8 :: bytesOf "ontent-length") ∧
    ∀ close : Bool,
      Goes (behindHeader "connection: ") ((connectionValue close).headD 0)
        (behindHeader (if close then "connection: c" else "connection: k")) [.mark] ∧
      silent (behindHeader (if close then "connection: c" else "connection: k"))
        (connectionValue close).tail ∧
      Goes ((behindHeader (if close then "connection: c" else "connection: k")).residual
          ((connectionValue close).tail.map BitVec.toNat)) 13#8
        (behindHeader (if close then "connection: close\r" else "a:\r")) [.writeValue] ∧
      Goes (behindHeader (if close then "connection: close\r" else "a:\r")) 10#8
        (behindConnection close) [] ∧
      connectionValue close = (connectionValue close).headD 0 :: (connectionValue close).tail := by
  refine ⟨?_, ?_, ?_, ?_, ?_⟩ <;> decide +kernel

theorem goes_singleBytes :
    Goes (behind "HTTP/1.1 200 OK\r") 10#8 headerLines [] ∧
    Goes (behindHeader "a:") 32#8 (behindHeader "a: ") [.mark] ∧
    Goes (behindHeader "a: ") 13#8 (behindHeader "a:\r") [.mark, .writeValue] ∧
    Goes (behindHeader "a:\r") 10#8 headerLines [] := goes_fixed.1

theorem setAll_startField {as : List (ScanAction ResponseToken ResponseFlag)}
    (has : as = [.startField] ∨ as = [.startField, .startField]) (p : ℕ) (m : Marks) :
    setAll p m as = { m with fieldStart := p } := by
  rcases has with rfl | rfl
  · rfl
  · rfl

/-- A value does not begin with a blank, which would be taken for one in front of it. -/
theorem readsElement_value (hchars : ∀ c ∈ value, lineChars.mem c.toNat)
    (hfirst : ∀ c, value.head? = some c → space.mem c.toNat = false) :
    ReadsElement value 13#8 (behindHeader "a: ") (behindHeader "a:\r") [.mark] [.writeValue] := by
  cases value with
  | nil => exact readsElement_nil goes_singleBytes.2.2.1 rfl (by decide)
  | cons c value =>
    obtain ⟨hc, hrest⟩ := List.forall_mem_cons.mp hchars
    have hc' : (diff lineChars space).mem c.toNat := by
      rw [mem, hc, hfirst c rfl]
      rfl
    have haccepts : valueText.accepts ((c :: value).map BitVec.toNat) := by
      rw [List.map_cons, valueText, accepts_cat_chars hc']
      exact accepts_star_chars (List.forall_mem_map.mpr hrest)
    exact valueElement.reads (List.cons_ne_nil c value) haccepts

/-- The line of a field without a rule of its own. -/
theorem reaches_fieldLine (hne : name ≠ []) (hchars : ∀ c ∈ name, tokenChar.mem c.toNat)
    (hname : ∀ word ∈ ruledWords, ¬Spells word (name.map BitVec.toNat))
    (hvalue : ∀ c ∈ value, lineChars.mem c.toNat)
    (hfirst : ∀ c, value.head? = some c → space.mem c.toNat = false) :
    ∃ m', Reaches seen (HttpRequest.dumpHeader name value) headerLines m headerLines m'
      [.field name value] := by
  obtain ⟨as, has, hread⟩ := readsElement_fieldName hne hchars hname
  obtain ⟨-, hblank, -, hend⟩ := goes_singleBytes
  exact reaches_line hread (setAll_startField has) (fun _ _ ↦ rfl) rfl hblank
    (readsElement_value hvalue hfirst) (fun _ _ ↦ rfl) rfl hend

/-- The line for the connection. -/
theorem reaches_connection (close : Bool) :
    ∃ m', Reaches seen (HttpRequest.dumpHeader (bytesOf "connection") (connectionValue close))
      headerLines m (behindConnection close) m'
      [.field (bytesOf "connection") (connectionValue close)] := by
  obtain ⟨-, hstart, ⟨hsilent, hcolon, hblank, htext⟩, -, hvalues⟩ := goes_fixed
  have hfirst : Goes headerLines 99#8 (behindHeader "c") [.startField, .startField] := hstart false
  obtain ⟨hfirst', hsilent', hend, hline, hcons⟩ := hvalues close
  have hname : ReadsElement (bytesOf "connection") 58#8 headerLines (behindHeader "connection:")
      [.startField, .startField] [.writeField] := by
    rw [htext]
    exact readsElement_fixed hfirst rfl hsilent hcolon (by decide)
  have hvalue : ReadsElement (connectionValue close) 13#8 (behindHeader "connection: ")
      (behindHeader (if close then "connection: close\r" else "a:\r")) [.mark] [.writeValue] := by
    rw [hcons]
    exact readsElement_fixed hfirst' rfl hsilent' hend (by decide)
  exact reaches_line hname (fun _ _ ↦ rfl) (fun _ _ ↦ rfl) rfl hblank hvalue (fun _ _ ↦ rfl) rfl
    hline

/-- The line for the length, behind the one for the connection. -/
theorem reaches_contentLength (close : Bool) (n : ℕ) :
    ∃ m', Reaches seen (HttpRequest.dumpHeader (bytesOf "content-length") (decimal n))
      (behindConnection close) m headerLines m'
      [.token .contentLen (decimal n) 13#8, .field (bytesOf "content-length") (decimal n),
        .field (bytesOf "content-length") (decimal n)] := by
  obtain ⟨-, hfirst, -, ⟨hsilent, hcolon, hblank, htext⟩, -⟩ := goes_fixed
  have hname : ReadsElement (bytesOf "content-length") 58#8 (behindConnection close)
      (behindHeader "content-length:")
      (if close then [.skip, .startField, .startField] else [.startField, .startField])
      [.writeField, .writeField] := by
    rw [htext]
    exact readsElement_fixed (hfirst close) (by cases close <;> rfl) hsilent hcolon (by decide)
  have hvalue : ReadsElement (decimal n) 13#8 (behindHeader "content-length: ")
      (behindHeader "a:\r") [.mark, .mark] [.token .contentLen, .writeValue, .writeValue] :=
    lengthElement.reads (decimal_ne_nil n) (accepts_decimal n)
  exact reaches_line hname (by cases close <;> exact fun _ _ ↦ rfl) (fun _ _ ↦ rfl) rfl hblank
    hvalue (fun _ _ ↦ rfl) rfl goes_singleBytes.2.2.2

/-- The empty line, behind which the machine is in its final state. -/
theorem exec_emptyLine {cs : ResponseExpr} (hcs : cs = headerLines ∨ cs = closingLines) :
    (exec seen (bytesOf "\r\n") cs m).outcome = .done ∧
    (exec seen (bytesOf "\r\n") cs m).left = [] ∧
    (exec seen (bytesOf "\r\n") cs m).calls = [] ∧
    isFirstFinal (exec seen (bytesOf "\r\n") cs m).cs := by
  have hsteps : step headerLines 13#8 = (behindHeader "\r", []) ∧
      step closingLines 13#8 = (behindHeader "\r", [.skip]) ∧
      step (behindHeader "\r") 10#8 = (behindHeader "\r\n", [.done]) ∧
      (behindHeader "\r").isVoid = false ∧ (behindHeader "\r\n").isVoid = false ∧
      isFirstFinal (behindHeader "\r\n") := by
    decide +kernel
  obtain ⟨hfirst, hclosing, hlast, hvoid, hvoid', hfinal⟩ := hsteps
  rw [bytesOf_crlf]
  rcases hcs with rfl | rfl
  · simp [exec, hfirst, hlast, hvoid, hvoid', callAll, call, hfinal]
  · simp [exec, hclosing, hlast, hvoid, hvoid', callAll, call, hfinal]

end Lines

end HttpClientParser

end Rsylar.Http
