import Mathlib.Data.Int.Notation
import Mathlib.Data.List.Basic

/-!
# Text archives

A `Codec` turns values into strings and back. Programs leave that to a serialization library, so a
codec is what a model takes as a parameter, and its round trip is a field. The archives of such a
library are here as well: a header and a sequence of tokens, each with a blank before it
(`Format.archive`). A `Format` writes tokens and reads them back, whatever tokens follow
(`Format.read_write`). A number is written in decimal, a string after its length, a list after its
length and the version of its items; with `Format.prod`, `Format.after` and `Format.retract` every
record has a format.
-/

set_option autoImplicit false
set_option relaxedAutoImplicit false

namespace TextArchive

/-- Values of `α` as strings, with the round trip. -/
class Codec (α : Type*) where
  encode : α → String
  decode : String → Option α
  decode_encode : ∀ a, decode (encode a) = some a

/-- A codec that gives no value the empty string. -/
class NonemptyCodec (α : Type*) extends Codec α where
  encode_ne_empty : ∀ a, encode a ≠ ""

/-- The end of the text or the blank before the next token. -/
def AtToken (cs : List Char) : Prop :=
  cs = [] ∨ ∃ rest, cs = ' ' :: rest

/-- A writer and a reader that undoes it, whatever tokens follow. -/
structure Format (α : Type*) where
  write : α → List Char
  read : List Char → Option (α × List Char)
  write_atToken : ∀ a rest, AtToken rest → AtToken (write a ++ rest)
  read_write : ∀ a rest, AtToken rest → read (write a ++ rest) = some (a, rest)

namespace Format

variable {α β : Type*}

/-! ### Numbers and strings -/

/-- The digits up to the next token. -/
def readDigits (cs : List Char) : ℕ × List Char :=
  (Nat.ofDigitChars 10 (cs.takeWhile Char.isDigit) 0, cs.dropWhile Char.isDigit)

theorem readDigits_toDigits (n : ℕ) {rest : List Char} (hrest : AtToken rest) :
    readDigits (Nat.toDigits 10 n ++ rest) = (n, rest) := by
  have hdigits : ∀ c ∈ Nat.toDigits 10 n, c.isDigit = true := fun c hc ↦
    Nat.isDigit_of_mem_toDigits (by decide) (by decide) hc
  have hstop : rest.takeWhile Char.isDigit = [] ∧ rest.dropWhile Char.isDigit = rest := by
    rcases hrest with rfl | ⟨cs, rfl⟩
    · exact ⟨rfl, rfl⟩
    · exact ⟨List.takeWhile_cons_of_neg (by decide), List.dropWhile_cons_of_neg (by decide)⟩
  unfold readDigits
  rw [List.dropWhile_append_of_pos hdigits, List.takeWhile_append_of_pos hdigits, hstop.1, hstop.2,
    List.append_nil, Nat.ofDigitChars_ten_toDigits]

def nat : Format ℕ where
  write n := ' ' :: Nat.toDigits 10 n
  read
    | ' ' :: cs => some (readDigits cs)
    | _ => none
  write_atToken _ _ _ := Or.inr ⟨_, rfl⟩
  read_write n _ hrest := congrArg some (readDigits_toDigits n hrest)

/-- A number with a sign when it is negative. -/
def readInt : List Char → Option (ℤ × List Char)
  | ' ' :: '-' :: cs => some (-((readDigits cs).1 : ℤ), (readDigits cs).2)
  | ' ' :: cs => some (((readDigits cs).1 : ℤ), (readDigits cs).2)
  | _ => none

theorem readInt_toDigits (n : ℕ) {rest : List Char} (hrest : AtToken rest) :
    readInt (' ' :: (Nat.toDigits 10 n ++ rest)) = some ((n : ℤ), rest) := by
  have hread := readDigits_toDigits n hrest
  cases hdigits : Nat.toDigits 10 n with
  | nil => exact absurd hdigits Nat.toDigits_ne_nil
  | cons c cs =>
    have hc : c.isDigit = true :=
      Nat.isDigit_of_mem_toDigits (by decide) (by decide) (hdigits ▸ List.mem_cons_self)
    have hsign : c ≠ '-' := by
      rintro rfl
      exact absurd hc (by decide)
    rw [hdigits, List.cons_append] at hread
    rw [List.cons_append, readInt, hread]
    intro cs' heq
    exact hsign (List.cons.inj heq).1

def int : Format ℤ where
  write z := if z < 0 then ' ' :: '-' :: Nat.toDigits 10 z.natAbs else nat.write z.natAbs
  read := readInt
  write_atToken z rest hrest := by
    split
    · exact Or.inr ⟨_, rfl⟩
    · exact nat.write_atToken _ _ hrest
  read_write z rest hrest := by
    by_cases hz : z < 0
    · rw [if_pos hz, List.cons_append, List.cons_append, readInt, readDigits_toDigits _ hrest]
      have habs : -(z.natAbs : ℤ) = z := by omega
      rw [habs]
    · rw [if_neg hz]
      have habs : (z.natAbs : ℤ) = z := by omega
      have hread := readInt_toDigits z.natAbs hrest
      rwa [habs] at hread

/-- The blank and the string of the given length after it. -/
def readChars (n : ℕ) : List Char → Option (String × List Char)
  | ' ' :: cs => some (String.ofList (cs.take n), cs.drop n)
  | _ => none

/-- A string: its length and its characters. -/
def string : Format String where
  write s := nat.write s.toList.length ++ ' ' :: s.toList
  read cs := (nat.read cs).bind fun (n, rest) ↦ readChars n rest
  write_atToken _ _ _ := Or.inr ⟨_, rfl⟩
  read_write s rest _ := by
    rw [List.append_assoc, List.cons_append, nat.read_write _ _ (Or.inr ⟨_, rfl⟩)]
    simp [readChars]

/-! ### Records and lists -/

/-- One value after the other. -/
def prod (F : Format α) (G : Format β) : Format (α × β) where
  write p := F.write p.1 ++ G.write p.2
  read cs := (F.read cs).bind fun (a, rest) ↦ (G.read rest).map fun (b, rest') ↦ ((a, b), rest')
  write_atToken p rest hrest := by
    rw [List.append_assoc]
    exact F.write_atToken _ _ (G.write_atToken _ _ hrest)
  read_write p rest hrest := by
    rw [List.append_assoc, F.read_write _ _ (G.write_atToken _ _ hrest)]
    simp [G.read_write _ _ hrest]

/-- A value after a token that is always the same number. -/
def after (token : ℕ) (F : Format α) : Format α where
  write a := nat.write token ++ F.write a
  read cs := (nat.read cs).bind fun (n, rest) ↦ if n = token then F.read rest else none
  write_atToken _ _ _ := Or.inr ⟨_, rfl⟩
  read_write a rest hrest := by
    rw [List.append_assoc, nat.read_write _ _ (F.write_atToken _ _ hrest)]
    simp [F.read_write _ _ hrest]

/-- A type whose values are some of the values of another one. -/
def retract (F : Format β) (toRecord : α → β) (ofRecord : β → Option α)
    (h : ∀ a, ofRecord (toRecord a) = some a) : Format α where
  write a := F.write (toRecord a)
  read cs := (F.read cs).bind fun (b, rest) ↦ (ofRecord b).map fun a ↦ (a, rest)
  write_atToken a := F.write_atToken _
  read_write a rest hrest := by
    rw [F.read_write _ _ hrest]
    simp [h]

/-- The given number of values. -/
def readMany (F : Format α) : ℕ → List Char → Option (List α × List Char)
  | 0, cs => some ([], cs)
  | n + 1, cs => (F.read cs).bind fun (a, rest) ↦
      (readMany F n rest).map fun (as, rest') ↦ (a :: as, rest')

theorem flatMap_atToken (F : Format α) (as : List α) {rest : List Char} (hrest : AtToken rest) :
    AtToken (as.flatMap F.write ++ rest) := by
  induction as with
  | nil => exact hrest
  | cons a as ih =>
    rw [List.flatMap_cons, List.append_assoc]
    exact F.write_atToken _ _ ih

theorem readMany_flatMap (F : Format α) (as : List α) {rest : List Char} (hrest : AtToken rest) :
    readMany F as.length (as.flatMap F.write ++ rest) = some (as, rest) := by
  induction as with
  | nil => rfl
  | cons a as ih =>
    rw [List.flatMap_cons, List.append_assoc, List.length_cons, readMany,
      F.read_write _ _ (F.flatMap_atToken as hrest)]
    simp [ih]

/-- A list: the number of its items, their version, and the items. -/
def list (F : Format α) : Format (List α) where
  write as := nat.write as.length ++ (nat.write 0 ++ as.flatMap F.write)
  read cs := (nat.read cs).bind fun (n, rest) ↦
    (nat.read rest).bind fun (_, rest') ↦ readMany F n rest'
  write_atToken _ _ _ := Or.inr ⟨_, rfl⟩
  read_write as rest hrest := by
    have hitems := F.flatMap_atToken as hrest
    rw [List.append_assoc, List.append_assoc,
      nat.read_write _ _ (nat.write_atToken _ _ hitems)]
    simp only [Option.bind_some]
    rw [nat.read_write _ _ hitems]
    exact F.readMany_flatMap as hrest

/-! ### Archives -/

/-- The archive of one value: a header and the value. -/
@[reducible]
def archive (F : Format α) (header : String) (hheader : header ≠ "") : NonemptyCodec α where
  encode a := String.ofList (header.toList ++ F.write a)
  decode s :=
    if header.toList <+: s.toList then
      (F.read (s.toList.drop header.toList.length)).map Prod.fst
    else none
  decode_encode a := by
    have hread : F.read (F.write a) = some (a, []) := by
      simpa using F.read_write a [] (Or.inl rfl)
    simp [hread]
  encode_ne_empty a hempty := by
    have hnil : header.toList ++ F.write a = [] := by
      rw [← @String.toList_ofList (header.toList ++ F.write a), hempty]
      rfl
    exact hheader (String.toList_eq_nil_iff.mp (List.append_eq_nil_iff.mp hnil).1)

end Format

end TextArchive
