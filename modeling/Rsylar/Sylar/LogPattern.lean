import Rsylar.Sylar.LogConfig

/-!
# Log patterns

`LogFormatter::init` with the items that it makes. A pattern is read as a sequence of pieces: texts,
in which a percent sign is written twice, and directives with or without a format.

Of the two percent signs of a text the loop skips only the first: it appends one to the text and
then takes the second one for the start of a directive, or for the first of another two. So the
items are those of the pieces exactly when no text has a percent sign (`logPattern`).
-/

set_option autoImplicit false
set_option relaxedAutoImplicit false

namespace Rsylar

/-! ### Items -/

/-- The classes of the items with what their objects keep. -/
inductive FormatItem
  | message
  | level
  | elapse
  | name
  | threadId
  | newLine
  | dateTime (format : List Char)
  | filename
  | line
  | tab
  | fiberId
  | threadName
  | string (str : List Char)
deriving DecidableEq

/-- The constructor of `DateTimeFormatItem`. -/
def FormatItem.ofFormat (format : List Char) : FormatItem :=
  .dateTime (if format = [] then "%Y-%m-%d %H:%M:%S".toList else format)

structure LogFormatter where
  pattern : List Char
  items : List FormatItem
  error : Bool

namespace LogFormatter

/-- What the inner loop of `init` reads behind a percent sign. -/
structure Directive where
  str : List Char
  fmt : List Char
deriving DecidableEq

/-- The format from its opening brace on and what is behind it, `none` when it is not closed. -/
def parseFormat (fmt : List Char) : List Char → Option (List Char × List Char)
  | [] => none
  | c :: cs => if c = '}' then some (fmt, cs) else parseFormat (fmt ++ [c]) cs

/-- The inner loop of `init`. -/
def parseName (str : List Char) : List Char → Option (Directive × List Char)
  | [] => some (⟨str, []⟩, [])
  | c :: cs =>
    if ¬c.isAlpha ∧ c ≠ '{' ∧ c ≠ '}' then some (⟨str, []⟩, c :: cs)
    else if c = '{' then (parseFormat [] cs).map fun (fmt, rest) ↦ (⟨str, fmt⟩, rest)
    else parseName (str ++ [c]) cs

/-- An element of `vec`. -/
inductive Entry
  | text (str : List Char)
  | directive (d : Directive)
deriving DecidableEq

def flush (nstr : List Char) : List Entry := if nstr = [] then [] else [.text nstr]

/-- The loop of `init` with `fuel` characters left, which gives `vec` and `m_error`. Of two percent
signs only the first is skipped. -/
def initLoop : ℕ → List Char → List Char → List Entry × Bool
  | fuel + 1, nstr, c :: cs =>
    if c ≠ '%' then initLoop fuel (nstr ++ [c]) cs
    else if cs.head? = some '%' then initLoop fuel (nstr ++ ['%']) cs
    else match parseName [] cs with
      | some (d, rest) =>
        let (vec, error) := initLoop fuel [] rest
        (flush nstr ++ .directive d :: vec, error)
      | none =>
        -- the pattern is read on behind the percent sign
        let (vec, _) := initLoop fuel nstr cs
        (.text "<<pattern_error>>".toList :: vec, true)
  | _, nstr, _ => (flush nstr, false)

/-- `s_format_items` -/
def formatItemMap : List (List Char × (List Char → FormatItem)) :=
  [(['m'], fun _ ↦ .message), (['p'], fun _ ↦ .level), (['r'], fun _ ↦ .elapse),
    (['c'], fun _ ↦ .name), (['t'], fun _ ↦ .threadId), (['n'], fun _ ↦ .newLine),
    (['d'], .ofFormat), (['f'], fun _ ↦ .filename), (['l'], fun _ ↦ .line),
    (['T'], fun _ ↦ .tab), (['F'], fun _ ↦ .fiberId), (['N'], fun _ ↦ .threadName)]

def formatItem (str : List Char) : Option (List Char → FormatItem) :=
  (formatItemMap.find? fun entry ↦ entry.1 = str).map Prod.snd

/-- The item of an entry, and whether it is an error. -/
def Entry.item : Entry → FormatItem × Bool
  | text str => (.string str, false)
  | directive d =>
    match formatItem d.str with
    | some make => (make d.fmt, false)
    | none => (.string ("<<error_format %".toList ++ d.str ++ ">>".toList), true)

/-- The items of `vec` and `m_error`. -/
def finish (r : List Entry × Bool) : List FormatItem × Bool :=
  (r.1.map fun entry ↦ entry.item.1, r.2 || r.1.any fun entry ↦ entry.item.2)

/-- The formatter of a pattern, as the constructor makes it with `init`. -/
def init (pattern : List Char) : LogFormatter where
  pattern := pattern
  items := (finish (initLoop pattern.length [] pattern)).1
  error := (finish (initLoop pattern.length [] pattern)).2

end LogFormatter

/-! ### Pieces -/

/-- The letters of the documentation. -/
inductive Letter
  | m | p | r | c | t | n | d | f | l | T | F | N
deriving DecidableEq

namespace Letter

def char : Letter → Char
  | m => 'm' | p => 'p' | r => 'r' | c => 'c' | t => 't' | n => 'n'
  | d => 'd' | f => 'f' | l => 'l' | T => 'T' | F => 'F' | N => 'N'

/-- The item of a letter with a format. -/
def item (x : Letter) (format : List Char) : FormatItem :=
  match x with
  | m => .message
  | p => .level
  | r => .elapse
  | c => .name
  | t => .threadId
  | n => .newLine
  | d => .ofFormat format
  | f => .filename
  | l => .line
  | T => .tab
  | F => .fiberId
  | N => .threadName

theorem isAlpha (x : Letter) : x.char.isAlpha := by
  cases x <;> decide

theorem formatItem_char (x : Letter) : LogFormatter.formatItem [x.char] = some x.item := by
  cases x <;> rfl

end Letter

inductive Piece
  | literal (text : List Char)
  | directive (x : Letter) (format : Option (List Char))
deriving DecidableEq

/-- A text in a pattern. -/
def escapePercent (text : List Char) : List Char :=
  text.flatMap fun c ↦ if c = '%' then ['%', '%'] else [c]

/-- A directive in a pattern. -/
def renderDirective (x : Letter) : Option (List Char) → List Char
  | none => ['%', x.char]
  | some format => '%' :: x.char :: '{' :: (format ++ ['}'])

namespace Piece

def render : Piece → List Char
  | literal text => escapePercent text
  | directive x format => renderDirective x format

/-- The item of a text, when it is not empty. -/
def textItems (text : List Char) : List FormatItem := if text = [] then [] else [.string text]

/-- The items of the pieces behind a text. -/
def items (text : List Char) : List Piece → List FormatItem
  | [] => textItems text
  | literal t :: ps => items (text ++ t) ps
  | directive x format :: ps => textItems text ++ x.item (format.getD []) :: items [] ps

/-- The text up to the next directive. -/
def leading : List Piece → List Char
  | literal text :: ps => text ++ leading ps
  | _ => []

/-- Formats have no closing brace, and the text behind a directive without a format does not begin
with a letter, a brace or a percent sign. -/
def WellFormed : List Piece → Prop
  | [] => True
  | literal _ :: ps => WellFormed ps
  | directive _ none :: ps =>
    (∀ c ∈ (leading ps).head?, ¬c.isAlpha ∧ c ≠ '{' ∧ c ≠ '}' ∧ c ≠ '%') ∧ WellFormed ps
  | directive _ (some format) :: ps => '}' ∉ format ∧ WellFormed ps

end Piece

/-! ### The loop -/

namespace LogFormatter

section Loop

attribute [local simp] parseFormat parseName initLoop

variable {nstr s str fmt rest : List Char} {c : Char} {d : Directive} {fuel : ℕ}

theorem length_parseFormat (h : parseFormat fmt s = some (str, rest)) :
    rest.length < s.length := by
  induction s generalizing fmt with
  | nil => cases h
  | cons c cs ih =>
    rw [parseFormat] at h
    split at h
    · cases h
      exact Nat.lt_succ_self _
    · exact Nat.lt_succ_of_lt (ih h)

theorem length_parseName (h : parseName str s = some (d, rest)) : rest.length ≤ s.length := by
  induction s generalizing str with
  | nil =>
    cases h
    exact Nat.le_refl _
  | cons c cs ih =>
    rw [parseName] at h
    split_ifs at h
    · cases h
      exact Nat.le_refl _
    · obtain ⟨⟨format, rest'⟩, hformat, heq⟩ := Option.map_eq_some_iff.mp h
      cases heq
      exact Nat.le_succ_of_le (Nat.le_of_lt (length_parseFormat hformat))
    · exact Nat.le_succ_of_le (ih h)

/-- The loop on the rest of a pattern. -/
def parse (nstr s : List Char) : List Entry × Bool := initLoop s.length nstr s

/-- More fuel than characters changes nothing. -/
theorem initLoop_eq (h : s.length ≤ fuel) : initLoop fuel nstr s = parse nstr s := by
  induction hlength : s.length using Nat.strong_induction_on generalizing fuel nstr s with
  | _ length ih =>
    subst hlength
    cases s with
    | nil =>
      cases fuel with
      | zero => rfl
      | succ fuel => rfl
    | cons c cs =>
      cases fuel with
      | zero => cases h
      | succ fuel =>
        have hcs : cs.length < (c :: cs).length := Nat.lt_succ_self _
        have hfuel : cs.length ≤ fuel := Nat.le_of_succ_le_succ h
        have hchars : ∀ nstr, initLoop fuel nstr cs = initLoop cs.length nstr cs := fun nstr ↦
          ih cs.length hcs hfuel rfl
        rw [parse, List.length_cons, initLoop, initLoop, hchars, hchars, hchars]
        cases hname : parseName [] cs with
        | none => rfl
        | some read =>
          obtain ⟨d, rest⟩ := read
          have hrest := length_parseName hname
          have hdirective : initLoop fuel [] rest = initLoop cs.length [] rest := by
            rw [ih rest.length (by omega) (by omega) rfl, ih rest.length (by omega) hrest rfl]
          simp only [hdirective]

theorem parse_nil : parse nstr [] = (flush nstr, false) := rfl

theorem parse_char (h : c ≠ '%') : parse nstr (c :: s) = parse (nstr ++ [c]) s := by
  rw [parse, List.length_cons, initLoop, if_pos h]
  rfl

theorem parse_percents : parse nstr ('%' :: '%' :: s) = parse (nstr ++ ['%']) ('%' :: s) := by
  rw [parse, List.length_cons, initLoop, if_neg (by simp), if_pos List.head?_cons]
  rfl

theorem parse_directive (hs : s.head? ≠ some '%') (h : parseName [] s = some (d, rest)) :
    parse nstr ('%' :: s) =
      (flush nstr ++ .directive d :: (parse [] rest).1, (parse [] rest).2) := by
  rw [parse, List.length_cons, initLoop, if_neg (by simp), if_neg hs, h]
  simp only [initLoop_eq (length_parseName h)]

theorem parse_open (hs : s.head? ≠ some '%') (h : parseName [] s = none) :
    (parse nstr ('%' :: s)).2 = true := by
  rw [parse, List.length_cons, initLoop, if_neg (by simp), if_neg hs, h]

theorem parse_text (h : '%' ∉ str) : parse nstr (str ++ s) = parse (nstr ++ str) s := by
  induction str generalizing nstr with
  | nil => rw [List.nil_append, List.append_nil]
  | cons c str ih =>
    rw [List.mem_cons, not_or] at h
    rw [List.cons_append, parse_char (Ne.symm h.1), ih h.2, List.append_assoc,
      List.singleton_append]

/-- All but the last one of a run of percent signs become text. -/
theorem parse_run (m : ℕ) :
    parse nstr (List.replicate (m + 1) '%' ++ s) =
      parse (nstr ++ List.replicate m '%') ('%' :: s) := by
  induction m generalizing nstr with
  | zero => rw [List.replicate_zero, List.append_nil]; rfl
  | succ m ih =>
    have hrun : List.replicate (m + 1 + 1) '%' ++ s = '%' :: '%' :: (List.replicate m '%' ++ s) :=
      rfl
    have hnext : '%' :: (List.replicate m '%' ++ s) = List.replicate (m + 1) '%' ++ s := rfl
    rw [hrun, parse_percents, hnext, ih, List.append_assoc, List.singleton_append,
      ← List.replicate_succ]

theorem parseFormat_eq (h : '}' ∉ str) :
    parseFormat fmt (str ++ '}' :: s) = some (fmt ++ str, s) := by
  induction str generalizing fmt with
  | nil => rw [List.nil_append, parseFormat, if_pos rfl, List.append_nil]
  | cons c str ih =>
    rw [List.mem_cons, not_or] at h
    rw [List.cons_append, parseFormat, if_neg (Ne.symm h.1), ih h.2, List.append_assoc,
      List.singleton_append]

end Loop

section Items

variable {nstr s : List Char}

theorem map_item_flush (nstr : List Char) :
    (flush nstr).map (fun entry ↦ entry.item.1) = Piece.textItems nstr ∧
      ((flush nstr).any fun entry ↦ entry.item.2) = false := by
  rw [flush, Piece.textItems]
  split
  · exact ⟨rfl, rfl⟩
  · exact ⟨rfl, rfl⟩

theorem finish_directive (nstr : List Char) (d : Directive) (r : List Entry × Bool) :
    finish (flush nstr ++ .directive d :: r.1, r.2) =
      (Piece.textItems nstr ++ (Entry.directive d).item.1 :: (finish r).1,
        (Entry.directive d).item.2 || (finish r).2) := by
  simp only [finish, List.map_append, List.map_cons, List.any_append, List.any_cons,
    (map_item_flush nstr).1, (map_item_flush nstr).2, Bool.false_or, Bool.or_left_comm]

theorem item_directive (x : Letter) (format : List Char) :
    (Entry.directive ⟨[x.char], format⟩).item = (x.item format, false) := by
  rw [Entry.item, x.formatItem_char]

/-- A percent sign behind a text that is not followed by another one ends the text, unless there is
an error. At the end of a pattern there is. -/
theorem finish_percent (hnstr : nstr ≠ []) (hs : s.head? ≠ some '%') :
    (finish (parse nstr ('%' :: s))).2 = true ∨
      s ≠ [] ∧ (finish (parse nstr ('%' :: s))).1.head? = some (.string nstr) := by
  cases hname : parseName [] s with
  | none => exact .inl (by rw [finish, parse_open hs hname, Bool.true_or])
  | some read =>
    obtain ⟨d, rest⟩ := read
    rw [parse_directive hs hname]
    by_cases hend : s = []
    · subst hend
      cases hname
      have hunknown : (Entry.directive ⟨[], []⟩).item.2 = true := rfl
      exact .inl (by rw [finish_directive, hunknown, Bool.true_or])
    · refine .inr ⟨hend, ?_⟩
      rw [finish, flush, if_neg hnstr]
      rfl

theorem scanFormat_eq (fmt s : List Char) : scanFormat s = (parseFormat fmt s).map Prod.snd := by
  induction s generalizing fmt with
  | nil => rfl
  | cons c cs ih =>
    rw [scanFormat, parseFormat]
    split
    · rfl
    · exact ih _

theorem scanName_eq (str s : List Char) :
    scanName str s = (parseName str s).map fun read ↦ (read.1.str, read.2) := by
  induction s generalizing str with
  | nil => rfl
  | cons c cs ih =>
    rw [scanName, parseName]
    split_ifs
    · rfl
    · rw [scanFormat_eq [] cs, Option.map_map, Option.map_map]
      rfl
    · exact ih _

theorem contains_formatItems (str : List Char) :
    formatItems.contains str = (formatItem str).isSome := by
  have hnames : formatItems = formatItemMap.map Prod.fst := rfl
  rw [formatItem, Option.isSome_map, Bool.eq_iff_iff, List.contains_iff_mem, hnames,
    List.find?_isSome, List.mem_map]
  simp only [decide_eq_true_eq]

theorem item_unknown (d : Directive) :
    (Entry.directive d).item.2 = !formatItems.contains d.str := by
  rw [contains_formatItems, Entry.item]
  cases formatItem d.str with
  | none => rfl
  | some make => rfl

/-- The errors of the loop are those of the check of a pattern. -/
theorem hasError_eq (fuel : ℕ) (nstr s : List Char) :
    hasError fuel s = (finish (initLoop fuel nstr s)).2 := by
  have hend : ∀ nstr, (finish (flush nstr, false)).2 = false := by
    intro nstr
    rw [finish, (map_item_flush nstr).2]
    rfl
  induction fuel generalizing nstr s with
  | zero => exact (hend nstr).symm
  | succ fuel ih =>
    cases s with
    | nil => exact (hend nstr).symm
    | cons c cs =>
      by_cases hc : c = '%'
      · subst hc
        by_cases hnext : cs.head? = some '%'
        · obtain ⟨cs, rfl⟩ := List.head?_eq_some_iff.mp hnext
          rw [hasError, ih (nstr ++ ['%']), initLoop, if_neg (by simp), if_pos hnext]
        · rw [hasError.eq_2 fuel cs fun cs' h ↦ hnext (h ▸ rfl), scanName_eq, initLoop,
            if_neg (by simp), if_neg hnext]
          cases parseName [] cs with
          | none => rw [Option.map_none, finish, Bool.true_or]
          | some read =>
            rw [Option.map_some]
            simp only [finish_directive, item_unknown, ih []]
      · rw [hasError.eq_3 fuel c cs (fun cs' h _ ↦ hc h) hc, ih (nstr ++ [c]), initLoop, if_pos hc]

theorem isError_eq (pattern : String) : isError pattern = (init pattern.toList).error := by
  rw [isError, init, ← hasError_eq, String.length_toList]

end Items

end LogFormatter

/-! ### Patterns of pieces -/

/-- A directive with the text behind it. -/
structure PatternSegment where
  letter : Letter
  format : Option (List Char)
  text : List Char

namespace PatternSegment

def render (segments : List PatternSegment) : List Char :=
  segments.flatMap fun seg ↦ renderDirective seg.letter seg.format ++ escapePercent seg.text

def items (segments : List PatternSegment) : List FormatItem :=
  segments.flatMap fun seg ↦
    seg.letter.item (seg.format.getD []) :: Piece.textItems seg.text

/-- The directive is read back with what is behind it. -/
def WellFormed (seg : PatternSegment) : Prop :=
  match seg.format with
  | none => ∀ c ∈ seg.text.head?, ¬c.isAlpha ∧ c ≠ '{' ∧ c ≠ '}' ∧ c ≠ '%'
  | some format => '}' ∉ format

/-- The segments of pieces and the text in front of them. -/
def ofPieces : List Piece → List Char × List PatternSegment
  | [] => ([], [])
  | .literal text :: ps => (text ++ (ofPieces ps).1, (ofPieces ps).2)
  | .directive x format :: ps => ([], ⟨x, format, (ofPieces ps).1⟩ :: (ofPieces ps).2)

section Pieces

variable (ps : List Piece)

theorem leading_eq : Piece.leading ps = (ofPieces ps).1 := by
  induction ps with
  | nil => rfl
  | cons piece ps ih =>
    cases piece with
    | literal text => rw [Piece.leading, ih, ofPieces]
    | directive x format => rfl

theorem render_eq : ps.flatMap Piece.render =
    escapePercent (ofPieces ps).1 ++ render (ofPieces ps).2 := by
  induction ps with
  | nil => rfl
  | cons piece ps ih =>
    rw [List.flatMap_cons, ih]
    cases piece with
    | literal text =>
      rw [Piece.render, ofPieces, escapePercent, escapePercent, escapePercent, List.flatMap_append,
        List.append_assoc]
    | directive x format =>
      rw [Piece.render, ofPieces, render, render, List.flatMap_cons, List.append_assoc]
      rfl

theorem items_eq (text : List Char) : Piece.items text ps =
    Piece.textItems (text ++ (ofPieces ps).1) ++ items (ofPieces ps).2 := by
  induction ps generalizing text with
  | nil => rw [Piece.items, ofPieces, items, List.append_nil, List.flatMap_nil, List.append_nil]
  | cons piece ps ih =>
    cases piece with
    | literal t => rw [Piece.items, ih, ofPieces, List.append_assoc]
    | directive x format =>
      rw [Piece.items, ih, ofPieces, List.nil_append, List.append_nil, items, items,
        List.flatMap_cons]
      rfl

theorem percentFree_iff : (∀ text, .literal text ∈ ps → '%' ∉ text) ↔
    '%' ∉ (ofPieces ps).1 ∧ ∀ seg ∈ (ofPieces ps).2, '%' ∉ seg.text := by
  induction ps with
  | nil => simp [ofPieces]
  | cons piece ps ih =>
    cases piece with
    | literal t =>
      simp only [List.mem_cons, Piece.literal.injEq, forall_eq_or_imp, ofPieces, List.mem_append,
        not_or, and_assoc, ih]
    | directive x format =>
      simp only [List.mem_cons, reduceCtorEq, false_or, ih, ofPieces, List.not_mem_nil,
        not_false_eq_true, true_and, forall_eq_or_imp]

variable {ps}

theorem wellFormed_of_pieces (h : Piece.WellFormed ps) :
    ∀ seg ∈ (ofPieces ps).2, seg.WellFormed := by
  induction ps with
  | nil => simp [ofPieces]
  | cons piece ps ih =>
    cases piece with
    | literal t => exact ih h
    | directive x format =>
      rw [ofPieces, List.forall_mem_cons]
      cases format with
      | none => exact ⟨leading_eq ps ▸ h.1, ih h.2⟩
      | some format => exact ⟨h.1, ih h.2⟩

end Pieces

section Reading

open LogFormatter

variable {text : List Char} {segments : List PatternSegment} {seg : PatternSegment}

/-- The rest of a pattern is empty or begins with a directive. -/
theorem render_cases (segments : List PatternSegment) :
    render segments = [] ∨
      ∃ (x : Letter) (s : List Char), render segments = '%' :: x.char :: s := by
  cases segments with
  | nil => exact .inl rfl
  | cons seg segments =>
    refine .inr ⟨seg.letter, ?_⟩
    rw [render, List.flatMap_cons]
    cases seg.format with
    | none => exact ⟨_, rfl⟩
    | some format => exact ⟨_, rfl⟩

theorem char_ne (x : Letter) : x.char ≠ '%' ∧ x.char ≠ '{' := by
  cases x <;> decide

theorem escapePercent_eq (h : '%' ∉ text) : escapePercent text = text := by
  induction text with
  | nil => rfl
  | cons c text ih =>
    rw [List.mem_cons, not_or] at h
    rw [escapePercent, List.flatMap_cons, if_neg (Ne.symm h.1)]
    exact congrArg (c :: ·) (ih h.2)

theorem escapePercent_replicate (k : ℕ) :
    escapePercent (List.replicate k '%') = List.replicate (2 * k) '%' := by
  induction k with
  | zero => rfl
  | succ k ih =>
    rw [List.replicate_succ, escapePercent, List.flatMap_cons, if_pos rfl, ← escapePercent, ih]
    rfl

/-- A text does not begin otherwise in a pattern. -/
theorem head?_escapePercent (text : List Char) : (escapePercent text).head? = text.head? := by
  cases text with
  | nil => rfl
  | cons c text =>
    rw [escapePercent, List.flatMap_cons, List.head?_cons]
    split
    · rename_i h
      rw [h]
      rfl
    · rfl

theorem parseName_of_head {str s : List Char}
    (h : ∀ c ∈ s.head?, ¬c.isAlpha ∧ c ≠ '{' ∧ c ≠ '}') :
    parseName str s = some (⟨str, []⟩, s) := by
  cases s with
  | nil => rfl
  | cons c s => rw [parseName, if_pos (h c rfl)]

/-- The directive of a segment and what is behind it. -/
theorem parseName_segment (h : seg.WellFormed) (segments : List PatternSegment) :
    ∃ s : List Char, render (seg :: segments) = '%' :: s ∧ s.head? ≠ some '%' ∧
      parseName [] s = some (⟨[seg.letter.char], seg.format.getD []⟩,
        escapePercent seg.text ++ render segments) := by
  obtain ⟨x, format, text⟩ := seg
  have hletter : ∀ s, parseName [] (x.char :: s) = parseName [x.char] s := by
    intro s
    rw [parseName, if_neg (fun h ↦ h.1 x.isAlpha), if_neg (char_ne x).2]
    rfl
  have hfirst : ∀ s : List Char, (x.char :: s).head? ≠ some '%' := by
    intro s heq
    exact (char_ne x).1 (Option.some.inj heq)
  rw [render, List.flatMap_cons, ← render]
  cases format with
  | none =>
    refine ⟨x.char :: (escapePercent text ++ render segments), rfl, hfirst _, ?_⟩
    rw [hletter]
    apply parseName_of_head
    intro c hc
    rw [List.head?_append, head?_escapePercent] at hc
    cases htext : text.head? with
    | some c' =>
      rw [htext] at hc
      cases hc
      obtain ⟨halpha, hopen, hclose, -⟩ := h c htext
      exact ⟨halpha, hopen, hclose⟩
    | none =>
      rw [htext, Option.none_or] at hc
      obtain hnil | ⟨y, s, hs⟩ := render_cases segments
      · rw [hnil] at hc
        cases hc
      · rw [hs] at hc
        cases hc
        exact ⟨by decide, by decide, by decide⟩
  | some format =>
    refine ⟨x.char :: '{' :: (format ++ '}' :: (escapePercent text ++ render segments)), ?_,
      hfirst _, ?_⟩
    · simp [renderDirective]
    · rw [hletter, parseName, if_neg (by simp), if_pos rfl, parseFormat_eq h]
      rfl

/-- The first run of percent signs of a text. -/
theorem exists_run (h : '%' ∈ text) : ∃ (before : List Char) (k : ℕ) (behind : List Char),
    '%' ∉ before ∧ behind.head? ≠ some '%' ∧
      text = before ++ (List.replicate (k + 1) '%' ++ behind) := by
  induction text with
  | nil => cases h
  | cons c text ih =>
    by_cases hc : c = '%'
    · subst hc
      by_cases hnext : text.head? = some '%'
      · obtain ⟨before, k, behind, hbefore, hbehind, htext⟩ := ih (List.mem_of_head? hnext)
        cases before with
        | nil =>
          refine ⟨[], k + 1, behind, hbefore, hbehind, ?_⟩
          rw [htext]
          rfl
        | cons c before =>
          rw [htext] at hnext
          cases hnext
          exact absurd List.mem_cons_self hbefore
      · exact ⟨[], 0, text, List.not_mem_nil, hnext, rfl⟩
    · obtain ⟨before, k, behind, hbefore, hbehind, rfl⟩ :=
        ih ((List.mem_cons.mp h).resolve_left (Ne.symm hc))
      refine ⟨c :: before, k, behind, ?_, hbehind, rfl⟩
      rw [List.mem_cons, not_or]
      exact ⟨Ne.symm hc, hbefore⟩

/-- A run of percent signs in a pattern, with what the loop makes of it. -/
theorem finish_run {before s : List Char} {m : ℕ} (hbefore : '%' ∉ before)
    (hs : s.head? ≠ some '%') (hm : m ≠ 0)
    (hne : s ≠ [] → before ++ List.replicate m '%' ≠ text) :
    (finish (parse [] (before ++ (List.replicate (m + 1) '%' ++ s)))).2 = true ∨
      ∃ str, str ≠ text ∧
        (finish (parse [] (before ++ (List.replicate (m + 1) '%' ++ s)))).1.head? =
          some (.string str) := by
  rw [parse_text hbefore, parse_run, List.nil_append]
  have hrun : before ++ List.replicate m '%' ≠ [] := by
    simp [hm]
  obtain herror | ⟨hend, hfirst⟩ := finish_percent hrun hs
  · exact .inl herror
  · exact .inr ⟨_, hne hend, hfirst⟩

/-- A text with a percent sign is not read back: a run of `k` percent signs is written as a run of
`2 * k`, of which all but the last become text. -/
theorem finish_of_mem (h : '%' ∈ text) (segments : List PatternSegment) :
    (finish (parse [] (escapePercent text ++ render segments))).2 = true ∨
      ∃ str, str ≠ text ∧
        (finish (parse [] (escapePercent text ++ render segments))).1.head? =
          some (.string str) := by
  obtain ⟨before, k, behind, hbefore, hbehind, htext⟩ := exists_run h
  have hescape : escapePercent text =
      before ++ (List.replicate (2 * k + 1 + 1) '%' ++ escapePercent behind) := by
    rw [htext, escapePercent, List.flatMap_append, List.flatMap_append, ← escapePercent,
      ← escapePercent, ← escapePercent, escapePercent_eq hbefore, escapePercent_replicate]
    rfl
  -- the text that is read is another one, as it has another number of percent signs
  have hother : ∀ m, m ≠ k + 1 ∨ behind ≠ [] → before ++ List.replicate m '%' ≠ text := by
    intro m hm heq
    rw [htext, List.append_cancel_left_eq] at heq
    cases behind with
    | nil =>
      have hlength := congrArg List.length heq
      exact hm.resolve_right (fun hnil ↦ hnil rfl) (by simpa using hlength)
    | cons c behind =>
      have hc : c ∈ List.replicate m '%' := by
        rw [heq]
        exact List.mem_append_right _ List.mem_cons_self
      exact hbehind (congrArg some (List.eq_of_mem_replicate hc))
  rw [hescape, List.append_assoc, List.append_assoc]
  cases behind with
  | cons c behind =>
    refine finish_run hbefore ?_ (by omega) fun _ ↦ hother _ (.inr (List.cons_ne_nil c behind))
    rw [List.head?_append, head?_escapePercent]
    exact hbehind
  | nil =>
    rw [show escapePercent [] = [] from rfl, List.nil_append]
    obtain hnil | ⟨x, s, hs⟩ := render_cases segments
    · rw [hnil]
      exact finish_run hbefore (by simp) (by omega) fun hne ↦ absurd rfl hne
    · -- the percent sign of the next directive belongs to the run
      have hrun : List.replicate (2 * k + 1 + 1) '%' ++ '%' :: x.char :: s =
          List.replicate (2 * k + 1 + 1 + 1) '%' ++ x.char :: s := by
        rw [List.replicate_succ' (n := 2 * k + 1 + 1), List.append_assoc]
        rfl
      rw [hs, hrun]
      refine finish_run hbefore ?_ (by omega) fun _ ↦ hother _ (.inl (by omega))
      exact fun heq ↦ (char_ne x).1 (Option.some.inj heq)

theorem finish_ne_of_mem (h : '%' ∈ text) (segments : List PatternSegment)
    (rest : List FormatItem) :
    finish (parse [] (escapePercent text ++ render segments)) ≠
      (Piece.textItems text ++ rest, false) := by
  intro hread
  obtain herror | ⟨str, hstr, hfirst⟩ := finish_of_mem h segments
  · rw [hread] at herror
    cases herror
  · rw [hread, Piece.textItems, if_neg (List.ne_nil_of_mem h)] at hfirst
    cases hfirst
    exact hstr rfl

/-- The segments are read back when no text has a percent sign, and only then. -/
theorem finish_parse_iff (text : List Char) (segments : List PatternSegment)
    (h : ∀ seg ∈ segments, seg.WellFormed) :
    finish (parse [] (escapePercent text ++ render segments)) =
        (Piece.textItems text ++ items segments, false) ↔
      '%' ∉ text ∧ ∀ seg ∈ segments, '%' ∉ seg.text := by
  induction segments generalizing text with
  | nil =>
    by_cases hmem : '%' ∈ text
    · exact iff_of_false (finish_ne_of_mem hmem [] _) fun hfree ↦ hfree.1 hmem
    · refine iff_of_true ?_ ⟨hmem, by simp⟩
      rw [escapePercent_eq hmem, parse_text hmem, List.nil_append]
      exact Prod.ext (by simp [finish, parse_nil, render, items, map_item_flush])
        (by simp [finish, parse_nil, render, map_item_flush])
  | cons seg segments ih =>
    obtain ⟨hseg, hsegments⟩ := List.forall_mem_cons.mp h
    by_cases hmem : '%' ∈ text
    · exact iff_of_false (finish_ne_of_mem hmem _ _) fun hfree ↦ hfree.1 hmem
    · obtain ⟨s, hs, hfirst, hname⟩ := parseName_segment hseg segments
      rw [escapePercent_eq hmem, parse_text hmem, List.nil_append, hs,
        parse_directive hfirst hname, finish_directive, item_directive, Bool.false_or,
        and_iff_right hmem, List.forall_mem_cons, ← ih seg.text hsegments]
      simp only [items, List.flatMap_cons, List.cons_append, Prod.ext_iff,
        List.append_cancel_left_eq, List.cons.injEq, true_and]

end Reading

end PatternSegment

/-- The pattern of well-formed pieces gives their items without an error exactly when no text has a
percent sign. -/
theorem logPattern (ps : List Piece) (h : Piece.WellFormed ps) :
    (LogFormatter.init (ps.flatMap Piece.render)).items = Piece.items [] ps ∧
        (LogFormatter.init (ps.flatMap Piece.render)).error = false ↔
      ∀ text, .literal text ∈ ps → '%' ∉ text := by
  have hread := PatternSegment.finish_parse_iff (PatternSegment.ofPieces ps).1 _
    (PatternSegment.wellFormed_of_pieces h)
  rw [PatternSegment.percentFree_iff, ← hread, ← PatternSegment.render_eq,
    PatternSegment.items_eq, List.nil_append, Prod.ext_iff]
  rfl

/-- A format with percent signs, adjacent texts, and a directive at the end. -/
def datedMessage : List Piece :=
  [.literal "[".toList, .directive .d (some "%H:%M".toList), .literal "] x".toList,
    .literal " ".toList, .directive .m none]

theorem logPattern_datedMessage :
    (LogFormatter.init (datedMessage.flatMap Piece.render)).items = Piece.items [] datedMessage ∧
      (LogFormatter.init (datedMessage.flatMap Piece.render)).error = false :=
  (logPattern datedMessage (by simp [datedMessage, Piece.WellFormed, Piece.leading])).mpr
    (by simp [datedMessage])

/-- The text `%d` comes back as a percent sign and a time. -/
theorem not_logPattern_percent : ¬ ∀ ps : List Piece, Piece.WellFormed ps →
    (LogFormatter.init (ps.flatMap Piece.render)).items = Piece.items [] ps ∧
      (LogFormatter.init (ps.flatMap Piece.render)).error = false := by
  intro h
  have hread := (h [.literal ['%', 'd']] trivial).1
  have hitems : (LogFormatter.init ['%', '%', 'd']).items =
      [.string ['%'], .dateTime "%Y-%m-%d %H:%M:%S".toList] := by decide
  exact absurd (hitems.symm.trans hread) (by decide)

end Rsylar
