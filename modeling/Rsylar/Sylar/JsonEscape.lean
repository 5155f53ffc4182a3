import Rsylar.Sylar.ByteArray

/-!
# Escaping for JSON

`JsonUtil::NeedEscape` and `JsonUtil::Escape`. The size that `Escape` computes is the length of what
it appends (`length_flatMap_escaped`), and this reads back as the string (`unescape_escaped`). But
the buffer is given that size before anything is appended, and so begins with as many zero bytes.
The strings that need no escape are returned as they are, so `Escape` is right for these
(`jsonEscape`).
-/

set_option autoImplicit false
set_option relaxedAutoImplicit false

namespace Rsylar.JsonUtil

/-! ### Escaping -/

def needEscape : List Byte → Bool
  | [] => false
  | c :: v =>
    if c ∈ [12#8, 9#8, 13#8, 10#8, 8#8, 34#8, 92#8] then true else needEscape v

attribute [local simp] needEscape

/-- What a byte adds to the size. -/
def escapedSize (c : Byte) : ℕ :=
  if c ∈ [12#8, 9#8, 13#8, 10#8, 8#8, 34#8, 92#8] then 2 else 1

/-- What is appended for a byte. -/
def escaped (c : Byte) : List Byte :=
  if c = 12#8 then [92#8, 102#8]
  else if c = 9#8 then [92#8, 116#8]
  else if c = 13#8 then [92#8, 114#8]
  else if c = 10#8 then [92#8, 110#8]
  else if c = 8#8 then [92#8, 98#8]
  else if c = 34#8 then [92#8, 34#8]
  else if c = 92#8 then [92#8, 92#8]
  else [c]

/-- The new bytes of a string that is resized are zero. -/
def escape (v : List Byte) : List Byte :=
  let size := v.foldl (fun size c ↦ size + escapedSize c) 0
  if size = v.length then v
  else v.foldl (fun rt c ↦ rt ++ escaped c) (List.replicate size 0#8)

/-! ### Strings of JSON -/

/-- The bytes that stand for themselves: no control characters, quotes and backslashes. -/
def isPlain (c : Byte) : Bool := 32 ≤ c.toNat ∧ c ≠ 34#8 ∧ c ≠ 92#8

/-- The byte that is written with a backslash and the letter `e`. -/
def ofLetter (e : Byte) : Option Byte :=
  if e = 34#8 ∨ e = 92#8 ∨ e = 47#8 then some e
  else if e = 98#8 then some 8#8
  else if e = 102#8 then some 12#8
  else if e = 110#8 then some 10#8
  else if e = 114#8 then some 13#8
  else if e = 116#8 then some 9#8
  else none

/-- The string that stands between two quotes, without the escapes of code points. -/
def unescape : List Byte → Option (List Byte)
  | [] => some []
  | c :: rest =>
    if c = 92#8 then
      match rest with
      | [] => none
      | e :: rest => (ofLetter e).bind fun b ↦ (unescape rest).map (b :: ·)
    else if isPlain c then (unescape rest).map (c :: ·)
    else none

attribute [local simp] unescape

/-- No quote, backslash or control character in the text is outside an escape. -/
inductive Clean : List Byte → Prop
  | nil : Clean []
  | plain (c : Byte) (rest : List Byte) : isPlain c → Clean rest → Clean (c :: rest)
  | escape (e : Byte) (rest : List Byte) : 32 ≤ e.toNat → Clean rest → Clean (92#8 :: e :: rest)

/-- What escaping is for. -/
structure EscapesJson (v : List Byte) : Prop where
  unescape : unescape (escape v) = some v
  clean : Clean (escape v)
  needEscape : needEscape v ↔ escape v ≠ v

/-! ### The three tables -/

section Tables

variable {c : Byte} {v : List Byte}

theorem needEscape_eq_false : needEscape v = false ↔
    ∀ c ∈ v, c ∉ [12#8, 9#8, 13#8, 10#8, 8#8, 34#8, 92#8] := by
  induction v with
  | nil => simp
  | cons c v ih =>
    rw [needEscape, List.forall_mem_cons, ← ih]
    split
    · next h => exact iff_of_false Bool.noConfusion (fun hc ↦ hc.1 h)
    · next h => exact (and_iff_right h).symm

theorem escaped_of_mem (h : c ∈ [12#8, 9#8, 13#8, 10#8, 8#8, 34#8, 92#8]) :
    ∃ e, escaped c = [92#8, e] ∧ ofLetter e = some c ∧ 32 ≤ e.toNat := by
  simp only [List.mem_cons, List.not_mem_nil, or_false] at h
  rcases h with rfl | rfl | rfl | rfl | rfl | rfl | rfl
  all_goals exact ⟨_, rfl, rfl, by decide⟩

theorem escaped_of_not_mem (h : c ∉ [12#8, 9#8, 13#8, 10#8, 8#8, 34#8, 92#8]) :
    escaped c = [c] := by
  simp only [List.mem_cons, List.not_mem_nil, or_false, not_or] at h
  simp only [escaped, h, if_false]

theorem length_escaped (c : Byte) : (escaped c).length = escapedSize c := by
  by_cases h : c ∈ [12#8, 9#8, 13#8, 10#8, 8#8, 34#8, 92#8]
  · obtain ⟨e, hescaped, -⟩ := escaped_of_mem h
    rw [hescaped, escapedSize, if_pos h]
    rfl
  · rw [escaped_of_not_mem h, escapedSize, if_neg h]
    rfl

theorem isPlain_iff : isPlain c ↔
    c ∉ [12#8, 9#8, 13#8, 10#8, 8#8, 34#8, 92#8] ∧ 32 ≤ c.toNat := by
  rw [isPlain, decide_eq_true_iff]
  constructor
  · rintro ⟨hcontrol, hquote, hbackslash⟩
    refine ⟨fun hmem ↦ ?_, hcontrol⟩
    simp only [List.mem_cons, List.not_mem_nil, or_false, hquote, hbackslash] at hmem
    rcases hmem with rfl | rfl | rfl | rfl | rfl
    all_goals exact absurd hcontrol (by decide)
  · rintro ⟨hmem, hcontrol⟩
    simp only [List.mem_cons, not_or] at hmem
    exact ⟨hcontrol, hmem.2.2.2.2.2.1, hmem.2.2.2.2.2.2.1⟩

end Tables

/-! ### What is appended -/

section Appended

variable {v : List Byte}

theorem foldl_escapedSize (v : List Byte) (size : ℕ) :
    v.foldl (fun size c ↦ size + escapedSize c) size = size + (v.flatMap escaped).length := by
  induction v generalizing size with
  | nil => rfl
  | cons c v ih =>
    rw [List.foldl_cons, ih, List.flatMap_cons, List.length_append, length_escaped, Nat.add_assoc]

theorem foldl_escaped (v rt : List Byte) :
    v.foldl (fun rt c ↦ rt ++ escaped c) rt = rt ++ v.flatMap escaped := by
  induction v generalizing rt with
  | nil => exact (List.append_nil rt).symm
  | cons c v ih => rw [List.foldl_cons, ih, List.flatMap_cons, List.append_assoc]

/-- The text of the size that was computed, behind as many zero bytes. -/
theorem escape_eq (v : List Byte) : escape v =
    if (v.flatMap escaped).length = v.length then v
    else List.replicate (v.flatMap escaped).length 0#8 ++ v.flatMap escaped := by
  rw [escape, foldl_escapedSize, Nat.zero_add, foldl_escaped]

theorem length_le_length_flatMap_escaped (v : List Byte) :
    v.length ≤ (v.flatMap escaped).length := by
  induction v with
  | nil => exact Nat.zero_le _
  | cons c v ih =>
    have hpos : 1 ≤ escapedSize c := by
      unfold escapedSize
      split <;> decide
    rw [List.flatMap_cons, List.length_append, length_escaped, List.length_cons]
    omega

/-- The size is that of the string when no byte is escaped. -/
theorem length_flatMap_escaped_eq_iff :
    (v.flatMap escaped).length = v.length ↔ needEscape v = false := by
  rw [needEscape_eq_false]
  induction v with
  | nil => simp
  | cons c v ih =>
    have hle := length_le_length_flatMap_escaped v
    rw [List.flatMap_cons, List.length_append, length_escaped, List.length_cons,
      List.forall_mem_cons, ← ih, escapedSize]
    split
    · next h => exact iff_of_false (by omega) (fun hc ↦ hc.1 h)
    · next h =>
      rw [and_iff_right h]
      omega

theorem unescape_cons_plain {c : Byte} (h : isPlain c) (rest : List Byte) :
    unescape (c :: rest) = (unescape rest).map (c :: ·) := by
  have hne : c ≠ 92#8 := (of_decide_eq_true h).2.2
  cases rest with
  | nil => simp [unescape, hne, h]
  | cons e rest => rw [unescape, if_neg hne, if_pos h]

theorem unescape_eq_self (h : ∀ c ∈ v, isPlain c) : unescape v = some v := by
  induction v with
  | nil => rfl
  | cons c v ih =>
    rw [List.forall_mem_cons] at h
    rw [unescape_cons_plain h.1, ih h.2, Option.map_some]

theorem clean_of_isPlain (h : ∀ c ∈ v, isPlain c) : Clean v := by
  induction v with
  | nil => exact .nil
  | cons c v ih =>
    rw [List.forall_mem_cons] at h
    exact .plain c v h.1 (ih h.2)

/-- What is appended reads back, if there is no control character but those of the table. -/
theorem unescape_flatMap_escaped
    (h : ∀ c ∈ v, c.toNat < 32 → c ∈ [12#8, 9#8, 13#8, 10#8, 8#8]) :
    unescape (v.flatMap escaped) = some v := by
  induction v with
  | nil => rfl
  | cons c v ih =>
    rw [List.forall_mem_cons] at h
    rw [List.flatMap_cons]
    by_cases hc : c ∈ [12#8, 9#8, 13#8, 10#8, 8#8, 34#8, 92#8]
    · obtain ⟨e, hescaped, he, -⟩ := escaped_of_mem hc
      rw [hescaped, List.cons_append, List.cons_append, List.nil_append, unescape, if_pos rfl]
      simp only [he, ih h.2, Option.bind_some, Option.map_some]
    · have hplain : isPlain c := by
        refine isPlain_iff.mpr ⟨hc, Nat.not_lt.mp fun hlt ↦ hc ?_⟩
        exact List.mem_append_left [34#8, 92#8] (h.1 hlt)
      rw [escaped_of_not_mem hc, List.singleton_append, unescape_cons_plain hplain, ih h.2,
        Option.map_some]

/-- Without a backslash nothing is an escape. -/
theorem isPlain_of_clean (h : Clean v) (hv : needEscape v = false) : ∀ c ∈ v, isPlain c := by
  rw [needEscape_eq_false] at hv
  induction h with
  | nil => simp
  | plain c rest hc hrest ih =>
    rw [List.forall_mem_cons] at hv ⊢
    exact ⟨hc, ih hv.2⟩
  | escape e rest he hrest ih => exact absurd (by decide) (hv 92#8 List.mem_cons_self)

theorem not_clean_zero (rest : List Byte) : ¬Clean (0#8 :: rest) := by
  rintro ⟨⟩
  contradiction

end Appended

/-- `Escape` is right for the strings without control characters, quotes and backslashes. -/
theorem jsonEscape (v : List Byte) : EscapesJson v ↔ ∀ c ∈ v, isPlain c := by
  constructor
  · intro h
    cases hneed : needEscape v with
    | false =>
      have hclean := h.clean
      rw [escape_eq, if_pos (length_flatMap_escaped_eq_iff.mpr hneed)] at hclean
      exact isPlain_of_clean hclean hneed
    | true =>
      have hlength : (v.flatMap escaped).length ≠ v.length := by
        rw [Ne, length_flatMap_escaped_eq_iff, hneed]
        exact Bool.noConfusion
      have hle := length_le_length_flatMap_escaped v
      have hpos : (v.flatMap escaped).length ≠ 0 := by omega
      obtain ⟨n, hn⟩ := Nat.exists_eq_succ_of_ne_zero hpos
      have hclean := h.clean
      rw [escape_eq, if_neg hlength, hn] at hclean
      exact absurd hclean (not_clean_zero _)
  · intro h
    have hneed : needEscape v = false :=
      needEscape_eq_false.mpr fun c hc ↦ (isPlain_iff.mp (h c hc)).1
    have hescape : escape v = v := by
      rw [escape_eq, if_pos (length_flatMap_escaped_eq_iff.mpr hneed)]
    refine ⟨?_, ?_, ?_⟩
    · rw [hescape, unescape_eq_self h]
    · rw [hescape]
      exact clean_of_isPlain h
    · rw [hescape, hneed]
      exact iff_of_false Bool.noConfusion (fun hne ↦ hne rfl)

/-- A quote alone is escaped to two zero bytes, a backslash and the quote. -/
theorem not_jsonEscape_quote : ¬ ∀ v : List Byte,
    (∀ c ∈ v, c.toNat < 32 → c ∈ [12#8, 9#8, 13#8, 10#8, 8#8]) → EscapesJson v := by
  intro h
  have hquote := (h [34#8] (by decide)).unescape
  exact absurd hquote (by decide)

end Rsylar.JsonUtil
