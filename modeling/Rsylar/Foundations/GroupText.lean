import Mathlib.Algebra.Group.Nat.Defs
import Mathlib.Data.List.Basic

/-!
# Groups of digits with a gap

The text form of an address that consists of groups of 16 bits: the groups as hexadecimal numbers of
up to four digits, with colons between them. Two colons stand for one or more groups of zero bits,
and can appear once in a text.

Groups that are written without leading zeros are read back, with a gap and without one
(`read_write`, `read_write_gap`).
-/

set_option autoImplicit false
set_option relaxedAutoImplicit false

namespace GroupText

/-! ### Reading -/

def digitValue (c : Char) : Option ℕ :=
  if 48 ≤ c.toNat ∧ c.toNat ≤ 57 then some (c.toNat - 48)
  else if 97 ≤ c.toNat ∧ c.toNat ≤ 102 then some (c.toNat - 87)
  else if 65 ≤ c.toNat ∧ c.toNat ≤ 70 then some (c.toNat - 55)
  else none

/-- The number of the digits, with the value `v` of those before them. -/
def readDigits (v : ℕ) : List Char → Option ℕ
  | [] => some v
  | c :: cs => (digitValue c).bind fun d ↦ readDigits (16 * v + d) cs

/-- A group has one to four digits. -/
def readGroup (text : List Char) : Option ℕ :=
  if text ≠ [] ∧ text.length ≤ 4 then readDigits 0 text else none

def readGroups (texts : List (List Char)) : Option (List ℕ) :=
  match texts with
  | [] => some []
  | text :: texts => (readGroup text).bind fun g ↦ (readGroups texts).map (g :: ·)

/-- What is on one side of a gap. -/
def readSide (text : List Char) : Option (List ℕ) :=
  if text = [] then some [] else readGroups (text.splitOn ':')

/-- What is before and behind the first two colons. -/
def splitGap : List Char → Option (List Char × List Char)
  | [] => none
  | c :: text =>
    if c = ':' ∧ text.head? = some ':' then some ([], text.tail)
    else (splitGap text).map fun sides ↦ (c :: sides.1, sides.2)

/-- The `n` groups of a text. -/
def read (n : ℕ) (text : List Char) : Option (List ℕ) :=
  match splitGap text with
  | none => (readGroups (text.splitOn ':')).filter fun groups ↦ groups.length = n
  | some (before, behind) => do
    let front ← readSide before
    let back ← readSide behind
    if front.length + back.length < n then
      some (front ++ List.replicate (n - (front.length + back.length)) 0 ++ back)
    else none

/-- How many times two colons stand side by side. -/
def gaps : List Char → ℕ
  | [] => 0
  | c :: text => (if c = ':' ∧ text.head? = some ':' then 1 else 0) + gaps text

/-! ### Writing -/

/-- The groups, each behind a colon. -/
def writeBehind (groups : List ℕ) : List Char :=
  groups.flatMap fun g ↦ ':' :: Nat.toDigits 16 g

def write : List ℕ → List Char
  | [] => []
  | g :: groups => Nat.toDigits 16 g ++ writeBehind groups

section Digits

theorem digitValue_digitChar {d : ℕ} (h : d < 16) : digitValue d.digitChar = some d := by
  revert d
  decide

theorem readDigits_append (v : ℕ) (text text' : List Char) :
    readDigits v (text ++ text') = (readDigits v text).bind fun v ↦ readDigits v text' := by
  induction text generalizing v with
  | nil => rfl
  | cons c text ih =>
    rw [List.cons_append, readDigits, readDigits]
    cases digitValue c with
    | none => rfl
    | some d => exact ih _

theorem readDigits_toDigits (n : ℕ) : readDigits 0 (Nat.toDigits 16 n) = some n := by
  induction n using Nat.strongRecOn with
  | ind n ih =>
    rw [Nat.toDigits_eq_if (by decide)]
    split
    · next h => rw [readDigits, digitValue_digitChar h, Option.bind_some, readDigits, Nat.zero_add]
    · next h =>
      have hmod : n % 16 < 16 := Nat.mod_lt n (by decide)
      rw [readDigits_append, ih (n / 16) (by omega), Option.bind_some, readDigits,
        digitValue_digitChar hmod, Option.bind_some, readDigits, Nat.div_add_mod]

/-- Only digits are written for a number. -/
theorem digitValue_ne_none {c : Char} {n : ℕ} (h : c ∈ Nat.toDigits 16 n) :
    digitValue c ≠ none := by
  induction n using Nat.strongRecOn with
  | ind n ih =>
    rw [Nat.toDigits_eq_if (by decide)] at h
    split at h
    · next hlt =>
      rw [List.mem_singleton.mp h, digitValue_digitChar hlt]
      exact Option.some_ne_none _
    · next hge =>
      rcases List.mem_append.mp h with hhigh | hlow
      · exact ih (n / 16) (by omega) hhigh
      · rw [List.mem_singleton.mp hlow, digitValue_digitChar (Nat.mod_lt n (by decide))]
        exact Option.some_ne_none _

theorem colon_notMem_toDigits (n : ℕ) : ':' ∉ Nat.toDigits 16 n := by
  intro h
  exact digitValue_ne_none h rfl

theorem readGroup_toDigits {g : ℕ} (h : g < 16 ^ 4) : readGroup (Nat.toDigits 16 g) = some g := by
  have hlength := (Nat.length_toDigits_le_iff (by decide) (by decide)).mpr h
  rw [readGroup, if_pos ⟨Nat.toDigits_ne_nil, hlength⟩, readDigits_toDigits]

theorem readGroups_toDigits {groups : List ℕ} (h : ∀ g ∈ groups, g < 16 ^ 4) :
    readGroups (groups.map (Nat.toDigits 16)) = some groups := by
  induction groups with
  | nil => rfl
  | cons g groups ih =>
    rw [List.forall_mem_cons] at h
    rw [List.map_cons, readGroups, readGroup_toDigits h.1, Option.bind_some, ih h.2,
      Option.map_some]

end Digits

/-! ### Texts -/

section Texts

variable {groups front back : List ℕ}

theorem write_eq_intercalate (groups : List ℕ) :
    write groups = [':'].intercalate (groups.map (Nat.toDigits 16)) := by
  induction groups with
  | nil => rfl
  | cons g groups ih =>
    cases groups with
    | nil => exact (List.append_nil _).trans List.intercalate_singleton.symm
    | cons g' groups =>
      rw [List.map_cons, List.map_cons, List.intercalate_cons_cons, ← List.map_cons, ← ih,
        List.append_assoc]
      rfl

theorem splitOn_write (h : groups ≠ []) :
    (write groups).splitOn ':' = groups.map (Nat.toDigits 16) := by
  rw [write_eq_intercalate]
  refine List.splitOn_intercalate ':' (fun digits hdigits ↦ ?_) (fun hnil ↦ h ?_)
  · obtain ⟨g, -, rfl⟩ := List.mem_map.mp hdigits
    exact colon_notMem_toDigits g
  · exact List.map_eq_nil_iff.mp hnil

theorem readSide_write (h : ∀ g ∈ groups, g < 16 ^ 4) : readSide (write groups) = some groups := by
  cases groups with
  | nil => rfl
  | cons g groups =>
    have hne : write (g :: groups) ≠ [] := by
      intro hnil
      exact Nat.toDigits_ne_nil (List.append_eq_nil_iff.mp hnil).1
    rw [readSide, if_neg hne, splitOn_write (List.cons_ne_nil g groups), readGroups_toDigits h]

/-- Every character is a colon or a digit. -/
theorem colon_or_digit_of_mem_write {c : Char} (h : c ∈ write groups) :
    c = ':' ∨ digitValue c ≠ none := by
  have hbehind : ∀ groups : List ℕ, c ∈ writeBehind groups → c = ':' ∨ digitValue c ≠ none := by
    intro groups hc
    obtain ⟨g, -, hc⟩ := List.mem_flatMap.mp hc
    exact (List.mem_cons.mp hc).imp_right digitValue_ne_none
  cases groups with
  | nil => cases h
  | cons g groups =>
    rcases List.mem_append.mp h with hfirst | hrest
    · exact .inr (digitValue_ne_none hfirst)
    · exact hbehind groups hrest

/-! ### Gaps -/

/-- Characters that are no colons do not begin a gap. -/
theorem splitGap_append {digits : List Char} (h : ':' ∉ digits) (text : List Char) :
    splitGap (digits ++ text) =
      (splitGap text).map fun sides ↦ (digits ++ sides.1, sides.2) := by
  induction digits with
  | nil => exact Option.map_id'.symm
  | cons c digits ih =>
    rw [List.mem_cons, not_or] at h
    rw [List.cons_append, splitGap, if_neg fun hcolon ↦ h.1 hcolon.1.symm, ih h.2, Option.map_map]
    rfl

theorem gaps_append {digits : List Char} (h : ':' ∉ digits) (text : List Char) :
    gaps (digits ++ text) = gaps text := by
  induction digits with
  | nil => rfl
  | cons c digits ih =>
    rw [List.mem_cons, not_or] at h
    rw [List.cons_append, gaps, if_neg fun hcolon ↦ h.1 hcolon.1.symm, ih h.2, Nat.zero_add]

theorem head?_toDigits_append_ne (g : ℕ) (text : List Char) :
    (Nat.toDigits 16 g ++ text).head? ≠ some ':' := by
  have hcolon := colon_notMem_toDigits g
  cases hdigits : Nat.toDigits 16 g with
  | nil => exact absurd hdigits Nat.toDigits_ne_nil
  | cons c digits =>
    rw [hdigits, List.mem_cons, not_or] at hcolon
    intro hhead
    exact hcolon.1 (Option.some.inj hhead).symm

/-- A colon before a group does not begin a gap. -/
theorem splitGap_writeBehind (groups : List ℕ) (text : List Char) :
    splitGap (writeBehind groups ++ text) =
      (splitGap text).map fun sides ↦ (writeBehind groups ++ sides.1, sides.2) := by
  induction groups with
  | nil => exact Option.map_id'.symm
  | cons g groups ih =>
    have hcons : writeBehind (g :: groups) = ':' :: (Nat.toDigits 16 g ++ writeBehind groups) := rfl
    rw [hcons, List.cons_append, List.append_assoc, splitGap,
      if_neg fun hcolon ↦ head?_toDigits_append_ne g _ hcolon.2,
      splitGap_append (colon_notMem_toDigits g), ih, Option.map_map, Option.map_map]
    refine congrArg (Option.map · _) (funext fun sides ↦ ?_)
    simp only [Function.comp_apply, List.cons_append, List.append_assoc]

theorem gaps_writeBehind (groups : List ℕ) (text : List Char) :
    gaps (writeBehind groups ++ text) = gaps text := by
  induction groups with
  | nil => rfl
  | cons g groups ih =>
    have hcons : writeBehind (g :: groups) = ':' :: (Nat.toDigits 16 g ++ writeBehind groups) := rfl
    rw [hcons, List.cons_append, List.append_assoc, gaps,
      if_neg fun hcolon ↦ head?_toDigits_append_ne g _ hcolon.2,
      gaps_append (colon_notMem_toDigits g), ih, Nat.zero_add]

theorem splitGap_write (groups : List ℕ) (text : List Char) :
    splitGap (write groups ++ text) =
      (splitGap text).map fun sides ↦ (write groups ++ sides.1, sides.2) := by
  cases groups with
  | nil => exact Option.map_id'.symm
  | cons g groups =>
    rw [write, List.append_assoc, splitGap_append (colon_notMem_toDigits g), splitGap_writeBehind,
      Option.map_map]
    refine congrArg (Option.map · _) (funext fun sides ↦ ?_)
    simp only [Function.comp_apply, List.append_assoc]

theorem gaps_write (groups : List ℕ) (text : List Char) :
    gaps (write groups ++ text) = gaps text := by
  cases groups with
  | nil => rfl
  | cons g groups =>
    rw [write, List.append_assoc, gaps_append (colon_notMem_toDigits g), gaps_writeBehind]

/-- A text with a gap has no other one. -/
theorem gaps_write_gap (front back : List ℕ) :
    gaps (write front ++ ':' :: ':' :: write back) = 1 := by
  have hback : gaps (':' :: write back) = 0 := by
    cases back with
    | nil => rfl
    | cons g back =>
      have hnil := gaps_writeBehind (g :: back) []
      rwa [List.append_nil] at hnil
  rw [gaps_write, gaps, if_pos ⟨rfl, rfl⟩, hback]

/-! ### What is written is read -/

theorem read_write (hne : groups ≠ []) (h : ∀ g ∈ groups, g < 16 ^ 4) :
    read groups.length (write groups) = some groups := by
  have hsplit : splitGap (write groups) = none := by
    have hnil := splitGap_write groups []
    rwa [List.append_nil] at hnil
  rw [read, hsplit]
  simp only [splitOn_write hne, readGroups_toDigits h, Option.filter_some, decide_true, if_true]

theorem read_write_gap (hfront : ∀ g ∈ front, g < 16 ^ 4) (hback : ∀ g ∈ back, g < 16 ^ 4)
    {k : ℕ} (hk : 0 < k) :
    read (front.length + k + back.length) (write front ++ ':' :: ':' :: write back) =
      some (front ++ List.replicate k 0 ++ back) := by
  have hsplit : splitGap (write front ++ ':' :: ':' :: write back) =
      some (write front, write back) := by
    rw [splitGap_write, splitGap, if_pos ⟨rfl, rfl⟩, Option.map_some, List.append_nil,
      List.tail_cons]
  have hlt : front.length + back.length < front.length + k + back.length := by omega
  have hzeros : front.length + k + back.length - (front.length + back.length) = k := by omega
  rw [read, hsplit]
  simp only [readSide_write hfront, readSide_write hback, Option.bind_eq_bind, Option.bind_some,
    if_pos hlt, hzeros]

end Texts

end GroupText
