import Rsylar.Raft.Server

/-!
# The texts of a server

What `persistData` writes: an entry of the log in the wire format of its message, and the node as a
text archive. The models take both as parameters; these are the instances for runs on fixed inputs.
A character stands for a byte.
-/

set_option autoImplicit false
set_option relaxedAutoImplicit false

namespace Rsylar.Archive

open TextArchive

/-! ### The wire format -/

/-- A number in groups of seven bits, the lowest first; all groups but the last are marked. -/
def varint (k : ℕ) : List Char :=
  if k < 128 then [Char.ofNat k] else Char.ofNat (k % 128 + 128) :: varint (k / 128)
termination_by k

def readVarint : List Char → Option (ℕ × List Char)
  | [] => none
  | c :: cs =>
    if c.toNat < 128 then some (c.toNat, cs)
    else (readVarint cs).map fun (k, rest) ↦ (c.toNat - 128 + 128 * k, rest)

theorem toNat_ofNat_byte {k : ℕ} (h : k < 256) : (Char.ofNat k).toNat = k := by
  have hvalid : k.isValidChar := Or.inl (by omega)
  rw [Char.ofNat, dif_pos hvalid]
  rfl

theorem readVarint_varint (k : ℕ) (rest : List Char) :
    readVarint (varint k ++ rest) = some (k, rest) := by
  induction k using Nat.strongRecOn with
  | ind k ih =>
    rw [varint]
    split
    · rename_i hsmall
      rw [List.singleton_append, readVarint, toNat_ofNat_byte (by omega), if_pos hsmall]
    · rename_i hlarge
      rw [List.cons_append, readVarint, toNat_ofNat_byte (by omega), if_neg (by omega),
        ih (k / 128) (by omega)]
      simp only [Option.map_some, Option.some.injEq, Prod.mk.injEq, and_true]
      omega

/-- A field with a number, left out when the number is zero. -/
def numberField (tag : Char) (k : ℕ) : List Char :=
  if k = 0 then [] else tag :: varint k

def readNumberField (tag : Char) : List Char → Option (ℕ × List Char)
  | [] => some (0, [])
  | c :: cs => if c = tag then readVarint cs else some (0, c :: cs)

theorem readNumberField_numberField (tag : Char) (k : ℕ) {rest : List Char}
    (hrest : ∀ cs, rest ≠ tag :: cs) :
    readNumberField tag (numberField tag k ++ rest) = some (k, rest) := by
  unfold numberField
  split
  · rename_i hzero
    subst hzero
    cases rest with
    | nil => rfl
    | cons c cs =>
      have hc : c ≠ tag := by
        rintro rfl
        exact hrest cs rfl
      simp [readNumberField, hc]
  · rw [List.cons_append, readNumberField, if_pos rfl]
    exact readVarint_varint k rest

/-- A field with a string, left out when the string is empty. -/
def stringField (tag : Char) (s : String) : List Char :=
  if s = "" then [] else tag :: (varint s.toList.length ++ s.toList)

def readStringField (tag : Char) : List Char → Option (String × List Char)
  | [] => some ("", [])
  | c :: cs =>
    if c = tag then
      (readVarint cs).map fun (k, rest) ↦ (String.ofList (rest.take k), rest.drop k)
    else
      some ("", c :: cs)

theorem readStringField_stringField (tag : Char) (s : String) {rest : List Char}
    (hrest : ∀ cs, rest ≠ tag :: cs) :
    readStringField tag (stringField tag s ++ rest) = some (s, rest) := by
  unfold stringField
  split
  · rename_i hempty
    subst hempty
    cases rest with
    | nil => rfl
    | cons c cs =>
      have hc : c ≠ tag := by
        rintro rfl
        exact hrest cs rfl
      simp [readStringField, hc]
  · rw [List.cons_append, readStringField, if_pos rfl, List.append_assoc, readVarint_varint]
    simp

/-- The tags of the fields `command`, `logterm` and `logindex`. -/
def serializeEntry (e : LogEntry) : List Char :=
  stringField '\x0a' e.command ++ (numberField '\x10' e.logTerm ++ numberField '\x18' e.logIndex)

def parseEntry (cs : List Char) : Option LogEntry :=
  (readStringField '\x0a' cs).bind fun (command, cs) ↦
    (readNumberField '\x10' cs).bind fun (logTerm, cs) ↦
      (readNumberField '\x18' cs).map fun (logIndex, _) ↦ ⟨command, logTerm, logIndex⟩

theorem numberField_ne {tag tag' : Char} (h : tag ≠ tag') (k : ℕ) (cs : List Char) :
    numberField tag k ≠ tag' :: cs := by
  unfold numberField
  split
  · simp
  · intro heq
    exact h (List.cons.inj heq).1

theorem parseEntry_serializeEntry (e : LogEntry) : parseEntry (serializeEntry e) = some e := by
  have hindex : ∀ cs, numberField '\x18' e.logIndex ≠ '\x10' :: cs :=
    numberField_ne (by decide) _
  have hterm : ∀ cs,
      numberField '\x10' e.logTerm ++ numberField '\x18' e.logIndex ≠ '\x0a' :: cs := by
    intro cs heq
    rcases List.append_eq_cons_iff.mp heq with ⟨-, heq⟩ | ⟨rest, heq, -⟩
    · exact numberField_ne (by decide) _ _ heq
    · exact numberField_ne (by decide) _ _ heq
  have hlast := @readNumberField_numberField '\x18' e.logIndex [] fun _ heq ↦ by cases heq
  rw [List.append_nil] at hlast
  unfold parseEntry serializeEntry
  rw [readStringField_stringField _ _ hterm]
  simp only [Option.bind_some]
  rw [readNumberField_numberField _ _ hindex]
  simp [hlast]

scoped instance : Codec LogEntry where
  encode e := String.ofList (serializeEntry e)
  decode s := parseEntry s.toList
  decode_encode e := by
    rw [String.toList_ofList]
    exact parseEntry_serializeEntry e

/-! ### The archive of a node -/

variable {n : ℕ}

def votedForNumber : Option (Fin n) → ℤ
  | none => -1
  | some i => i

def votedForOfNumber (z : ℤ) : Option (Option (Fin n)) :=
  if z = -1 then some none else if h : z.toNat < n then some (some ⟨z.toNat, h⟩) else none

theorem votedForOfNumber_votedForNumber (v : Option (Fin n)) :
    votedForOfNumber (votedForNumber v) = some v := by
  cases v with
  | none => rfl
  | some i =>
    have hne : (i : ℤ) ≠ -1 := by omega
    simp [votedForOfNumber, votedForNumber, hne]

def votedForFormat : Format (Option (Fin n)) :=
  Format.int.retract votedForNumber votedForOfNumber votedForOfNumber_votedForNumber

/-- What every text archive begins with. -/
def archiveHeader : String :=
  "22 serialization::archive 19"

theorem archiveHeader_ne_empty : archiveHeader ≠ "" := by
  decide

/-- The numbers before the node and before its list of strings say that the class is not tracked and
has version 0. -/
def nodeFormat : Format (BoostPersistRaftNode n) :=
  Format.after 0 (Format.after 0 (Format.retract
    (Format.nat.prod (votedForFormat.prod (Format.nat.prod (Format.nat.prod
      (Format.after 0 (Format.after 0 Format.string.list))))))
    (fun node ↦ (node.currentTerm, node.votedFor, node.lastSnapshotIncludeIndex,
      node.lastSnapshotIncludeTerm, node.logs))
    (fun (currentTerm, votedFor, index, term, logs) ↦ some ⟨currentTerm, votedFor, index, term, logs⟩)
    (fun _ ↦ rfl)))

scoped instance : NonemptyCodec (BoostPersistRaftNode n) :=
  nodeFormat.archive archiveHeader archiveHeader_ne_empty

end Rsylar.Archive
