import Rsylar.Sylar.ByteArray

/-!
# The URL codec

`StringUtil::UrlEncode` and `StringUtil::UrlDecode`. Both create their buffer with the first byte
that they change; until then there is none, and the result is the string itself.

Decoding takes back what encoding has done to any string. The table of the bytes that are left alone
has one byte more than the comment above the function lists, the equals sign, so `urlCodec` excludes
the strings with it.
-/

set_option autoImplicit false
set_option relaxedAutoImplicit false

namespace Rsylar.StringUtil

/-! ### Encoding -/

/-- `uri_chars` -/
def uriChars : List ℕ :=
  List.replicate 32 0 ++
    [0, 0, 0, 0, 0, 0, 0, 0, 0, 0, 0, 0, 0, 1, 1, 0,
      1, 1, 1, 1, 1, 1, 1, 1, 1, 1, 0, 0, 0, 1, 0, 0,
      0, 1, 1, 1, 1, 1, 1, 1, 1, 1, 1, 1, 1, 1, 1, 1,
      1, 1, 1, 1, 1, 1, 1, 1, 1, 1, 1, 0, 0, 0, 0, 1,
      0, 1, 1, 1, 1, 1, 1, 1, 1, 1, 1, 1, 1, 1, 1, 1,
      1, 1, 1, 1, 1, 1, 1, 1, 1, 1, 1, 0, 0, 0, 1, 0] ++
    List.replicate 128 0

/-- `CHAR_IS_UNRESERVED` -/
def charIsUnreserved (c : Byte) : Bool := uriChars.getD c.toNat 0 ≠ 0

/-- `hexdigits` -/
def hexdigits (n : ℕ) : Byte :=
  ("0123456789ABCDEF".toList.map fun c ↦ BitVec.ofNat 8 c.toNat).getD n 0

/-- What is appended for a byte that is not unreserved. -/
def escape (c : Byte) (spaceAsPlus : Bool) : List Byte :=
  if c = 32#8 ∧ spaceAsPlus then [43#8]
  else [37#8, hexdigits (c >>> 4).toNat, hexdigits (c &&& 0xf#8).toNat]

/-- The loop of `UrlEncode` with the bytes before the current one. -/
def urlEncodeLoop (spaceAsPlus : Bool) :
    List Byte → List Byte → Option (List Byte) → Option (List Byte)
  | _, [], ss => ss
  | seen, c :: rest, ss =>
    urlEncodeLoop spaceAsPlus (seen ++ [c]) rest
      (if charIsUnreserved c then ss.map (· ++ [c])
        else some (ss.getD seen ++ escape c spaceAsPlus))

def urlEncode (str : List Byte) (spaceAsPlus : Bool) : List Byte :=
  (urlEncodeLoop spaceAsPlus [] str none).getD str

/-! ### Decoding -/

/-- `isxdigit` in the C locale. -/
def isxdigit (c : Byte) : Bool :=
  (48 ≤ c.toNat ∧ c.toNat ≤ 57) ∨ (65 ≤ c.toNat ∧ c.toNat ≤ 70) ∨ (97 ≤ c.toNat ∧ c.toNat ≤ 102)

/-- `xdigit_chars` -/
def xdigitChars (c : Byte) : Byte :=
  if 48 ≤ c.toNat ∧ c.toNat ≤ 57 then c - 48#8
  else if 65 ≤ c.toNat ∧ c.toNat ≤ 70 then c - 55#8
  else if 97 ≤ c.toNat ∧ c.toNat ≤ 102 then c - 87#8
  else 0#8

/-- The byte that the digits behind a percent sign stand for. -/
def unescape : List Byte → Option Byte
  | h :: l :: _ =>
    if isxdigit h && isxdigit l then some (xdigitChars h <<< 4 ||| xdigitChars l) else none
  | _ => none

/-- What the byte `c` with `rest` behind it is changed to, and how many bytes more are read. -/
def decodeAt (spaceAsPlus : Bool) (c : Byte) (rest : List Byte) : Option (Byte × ℕ) :=
  if c = 43#8 ∧ spaceAsPlus then some (32#8, 0)
  else if c = 37#8 then (unescape rest).map fun b ↦ (b, 2)
  else none

/-- The loop of `UrlDecode`. The first argument is how many bytes are still to be passed over. -/
def urlDecodeLoop (spaceAsPlus : Bool) :
    ℕ → List Byte → List Byte → Option (List Byte) → Option (List Byte)
  | _, _, [], ss => ss
  | skip + 1, seen, c :: rest, ss => urlDecodeLoop spaceAsPlus skip (seen ++ [c]) rest ss
  | 0, seen, c :: rest, ss =>
    match decodeAt spaceAsPlus c rest with
    | some (b, skip) =>
      urlDecodeLoop spaceAsPlus skip (seen ++ [c]) rest (some (ss.getD seen ++ [b]))
    | none => urlDecodeLoop spaceAsPlus 0 (seen ++ [c]) rest (ss.map (· ++ [c]))

def urlDecode (str : List Byte) (spaceAsPlus : Bool) : List Byte :=
  (urlDecodeLoop spaceAsPlus 0 [] str none).getD str

/-! ### What the loops write -/

/-- The text of one byte. -/
def encodeByte (spaceAsPlus : Bool) (c : Byte) : List Byte :=
  if charIsUnreserved c then [c] else escape c spaceAsPlus

/-- The bytes of a text, without a buffer. -/
def decoded (spaceAsPlus : Bool) : ℕ → List Byte → List Byte
  | _, [] => []
  | skip + 1, _ :: rest => decoded spaceAsPlus skip rest
  | 0, c :: rest =>
    match decodeAt spaceAsPlus c rest with
    | some (b, skip) => b :: decoded spaceAsPlus skip rest
    | none => c :: decoded spaceAsPlus 0 rest

attribute [local simp] urlEncodeLoop urlDecodeLoop decoded

section Loops

variable {p : Bool} {c : Byte} {s rest : List Byte}

theorem urlEncodeLoop_eq (seen : List Byte) (ss : Option (List Byte)) :
    (urlEncodeLoop p seen s ss).getD (seen ++ s) = ss.getD seen ++ s.flatMap (encodeByte p) := by
  induction s generalizing seen ss with
  | nil => rw [urlEncodeLoop, List.append_nil, List.flatMap_nil, List.append_nil]
  | cons c rest ih =>
    have hnext := ih (seen ++ [c])
      (if charIsUnreserved c then ss.map (· ++ [c]) else some (ss.getD seen ++ escape c p))
    rw [List.append_assoc, List.singleton_append] at hnext
    rw [urlEncodeLoop, hnext, List.flatMap_cons, ← List.append_assoc, encodeByte]
    congr 1
    split
    · cases ss with
      | none => rfl
      | some ss => rfl
    · rfl

theorem urlEncode_eq (s : List Byte) (p : Bool) : urlEncode s p = s.flatMap (encodeByte p) :=
  urlEncodeLoop_eq [] none

/-- Bytes are passed over only when there is a buffer. -/
theorem urlDecodeLoop_eq (skip : ℕ) (seen : List Byte) (ss : Option (List Byte))
    (hskip : skip = 0 ∨ ss.isSome) :
    (urlDecodeLoop p skip seen s ss).getD (seen ++ s) = ss.getD seen ++ decoded p skip s := by
  induction s generalizing skip seen ss with
  | nil => cases skip <;> simp [urlDecodeLoop, decoded]
  | cons c rest ih =>
    have hassoc : seen ++ c :: rest = seen ++ [c] ++ rest := by
      rw [List.append_assoc, List.singleton_append]
    rw [hassoc]
    cases skip with
    | succ skip =>
      have hsome : ss.isSome := hskip.resolve_left (Nat.succ_ne_zero skip)
      rw [urlDecodeLoop, ih skip (seen ++ [c]) ss (.inr hsome), decoded]
      cases ss with
      | none => cases hsome
      | some ss => rfl
    | zero =>
      rw [urlDecodeLoop, decoded]
      cases decodeAt p c rest with
      | some b =>
        rw [ih _ _ _ (.inr rfl), Option.getD_some, List.append_assoc, List.singleton_append]
      | none =>
        rw [ih _ _ _ (.inl rfl)]
        cases ss with
        | none => rw [Option.map_none, Option.getD_none, Option.getD_none, List.append_assoc,
            List.singleton_append]
        | some ss => rw [Option.map_some, Option.getD_some, Option.getD_some, List.append_assoc,
            List.singleton_append]

theorem urlDecode_eq (s : List Byte) (p : Bool) : urlDecode s p = decoded p 0 s :=
  urlDecodeLoop_eq 0 [] none (.inl rfl)

/-! ### One byte -/

theorem ne_of_unreserved (h : charIsUnreserved c) : c ≠ 37#8 ∧ c ≠ 43#8 := by
  constructor
  · rintro rfl
    cases h
  · rintro rfl
    cases h

/-- The digits of an escape stand for the byte. -/
theorem unescape_hexdigits (c : Byte) (rest : List Byte) :
    unescape (hexdigits (c >>> 4).toNat :: hexdigits (c &&& 0xf#8).toNat :: rest) = some c := by
  have hbyte : ∀ c : Byte,
      (isxdigit (hexdigits (c >>> 4).toNat) && isxdigit (hexdigits (c &&& 0xf#8).toNat)) = true ∧
        xdigitChars (hexdigits (c >>> 4).toNat) <<< 4 |||
          xdigitChars (hexdigits (c &&& 0xf#8).toNat) = c := by decide +kernel
  rw [unescape, if_pos (hbyte c).1, (hbyte c).2]

theorem decoded_encodeByte (p : Bool) (c : Byte) (rest : List Byte) :
    decoded p 0 (encodeByte p c ++ rest) = c :: decoded p 0 rest := by
  rw [encodeByte]
  split
  · rename_i h
    obtain ⟨hpercent, hplus⟩ := ne_of_unreserved h
    rw [List.singleton_append, decoded, decodeAt, if_neg fun hp ↦ hplus hp.1, if_neg hpercent]
  · rw [escape]
    split
    · rename_i h
      rw [List.singleton_append, decoded, decodeAt, if_pos ⟨rfl, h.2⟩, h.1]
    · rw [List.cons_append, decoded, decodeAt, if_neg (by simp), if_pos rfl]
      rw [List.cons_append, List.cons_append, List.nil_append, unescape_hexdigits]
      rfl

end Loops

/-- Decoding takes back encoding. -/
theorem urlDecode_urlEncode (s : List Byte) (p : Bool) : urlDecode (urlEncode s p) p = s := by
  rw [urlDecode_eq, urlEncode_eq]
  induction s with
  | nil => rfl
  | cons c s ih => rw [List.flatMap_cons, decoded_encodeByte, ih]

/-! ### The characters of an encoded text -/

/-- The characters that the comment above `UrlEncode` lists. -/
def listed (c : Byte) : Bool :=
  ("-.0123456789ABCDEFGHIJKLMNOPQRSTUVWXYZ_abcdefghijklmnopqrstuvwxyz~".toList.map fun c ↦
    BitVec.ofNat 8 c.toNat).contains c

/-- Listed characters, percent signs with two hex digits, and plus signs when they are blanks. -/
def onlyEscapes (p : Bool) : List Byte → Bool
  | [] => true
  | 37#8 :: h :: l :: rest => isxdigit h && isxdigit l && onlyEscapes p rest
  | c :: rest => (listed c || p && c = 43#8) && onlyEscapes p rest

attribute [local simp] onlyEscapes

theorem listed_iff (c : Byte) (h : charIsUnreserved c) : listed c ↔ c ≠ 61#8 := by
  revert h c
  decide +kernel

theorem unreserved_of_listed {c : Byte} (h : listed c) : charIsUnreserved c := by
  revert h c
  decide +kernel

theorem isxdigit_hexdigits (c : Byte) :
    isxdigit (hexdigits (c >>> 4).toNat) ∧ isxdigit (hexdigits (c &&& 0xf#8).toNat) := by
  revert c
  decide +kernel

theorem onlyEscapes_encodeByte (p : Bool) (c : Byte) (rest : List Byte) :
    onlyEscapes p (encodeByte p c ++ rest) ↔ c ≠ 61#8 ∧ onlyEscapes p rest := by
  rw [encodeByte]
  split
  · rename_i h
    obtain ⟨hpercent, hplus⟩ := ne_of_unreserved h
    have hcons : onlyEscapes p (c :: rest) =
        ((listed c || p && c = 43#8) && onlyEscapes p rest) := by
      rw [onlyEscapes]
      intro h l rest hc
      exact absurd hc hpercent
    rw [List.singleton_append, hcons, ← listed_iff c h]
    simp [hplus]
  · rename_i h
    have hne : c ≠ 61#8 := by
      rintro rfl
      exact h rfl
    rw [escape]
    split
    · rename_i hblank
      rw [List.singleton_append, onlyEscapes]
      · simp [hblank.2, hne]
      · simp
    · rw [List.cons_append, List.cons_append, List.cons_append, List.nil_append, onlyEscapes,
        (isxdigit_hexdigits c).1, (isxdigit_hexdigits c).2]
      simp [hne]

/-- Every string comes back, and its text is made of what the comment lists, unless it has an equals
sign. -/
theorem urlCodec (s : List Byte) (p : Bool) :
    (urlDecode (urlEncode s p) p = s ∧ onlyEscapes p (urlEncode s p)) ↔ 61#8 ∉ s := by
  rw [and_iff_right (urlDecode_urlEncode s p), urlEncode_eq]
  induction s with
  | nil => simp [onlyEscapes]
  | cons c s ih =>
    rw [List.flatMap_cons, onlyEscapes_encodeByte, ih, List.mem_cons, not_or]
    exact and_congr_left fun _ ↦ ne_comm

/-- The equals sign is encoded as itself. -/
theorem not_urlCodec_equals :
    ¬ ∀ s p, urlDecode (urlEncode s p) p = s ∧ onlyEscapes p (urlEncode s p) := by
  intro h
  exact absurd (h [61#8] true).2 (by decide)

end Rsylar.StringUtil
