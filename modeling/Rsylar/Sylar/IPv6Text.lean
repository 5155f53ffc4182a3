import Rsylar.Foundations.GroupText
import Rsylar.Sylar.IPv6Subnet

/-!
# The text of an IPv6 address

`IPv6Address::insert` writes the groups of an address in one pass. The first groups of zero bits are
skipped; the colons of the gap are written with the group behind them, or after the loop when there
is none. From then on groups of zero bits are written out.

So there is at most one gap, and the text reads back as the address (`insertText`).
-/

set_option autoImplicit false
set_option relaxedAutoImplicit false

namespace Rsylar

namespace IPv6Address

open GroupText

/-! ### Writing -/

/-- `(uint16_t*)m_addr.sin6_addr.s6_addr`, the group `i` in the order of the machine. -/
def group (order : Endian) (a : IPv6Address) (i : Fin 8) : BitVec (8 * 2) :=
  ofMemoryBytes order 2 [a.sin6Addr[2 * i.val], a.sin6Addr[2 * i.val + 1]]

/-- The number that is written for a group. -/
def value (order : Endian) (group : BitVec (8 * 2)) : ℕ :=
  (byteswapOnLittleEndian order group).toNat

/-- The loop with what comes after it: `previous` is the group before, if there is one. -/
def insertGroups (order : Endian) (previous : Option (BitVec (8 * 2))) (usedZeros : Bool) :
    List (BitVec (8 * 2)) → List Char
  | [] => if !usedZeros ∧ previous = some 0 then "::".toList else []
  | group :: groups =>
    if group = 0 ∧ !usedZeros then insertGroups order (some group) usedZeros groups
    else
      let endsZeros := previous = some 0 ∧ !usedZeros
      (if endsZeros then [':'] else []) ++ (if previous = none then [] else [':']) ++
        Nat.toDigits 16 (value order group) ++
          insertGroups order (some group) (if endsZeros then true else usedZeros) groups

attribute [local simp] insertGroups

def insert (order : Endian) (a : IPv6Address) : List Char :=
  '[' :: insertGroups order none false ((List.finRange 8).map (a.group order)) ++ "]:".toList ++
    Nat.toDigits 10 (byteswapOnLittleEndian order a.sin6Port).toNat

/-! ### Groups -/

/-- The groups of the address as numbers, the first byte of a group is the high one. -/
def groups (a : IPv6Address) : List ℕ :=
  (List.finRange 8).map fun i ↦
    256 * a.sin6Addr[2 * i.val].toNat + a.sin6Addr[2 * i.val + 1].toNat

/-- The text is read as this address and no other. -/
structure Denotes (a : IPv6Address) (text : List Char) : Prop where
  characters : ∀ c ∈ text, c = ':' ∨ digitValue c ≠ none
  gaps : gaps text ≤ 1
  read : read 8 text = some a.groups
  unique : ∀ b : IPv6Address, GroupText.read 8 text = some b.groups → b.sin6Addr = a.sin6Addr

section Loop

variable {order : Endian}

theorem toNat_byteswap_ofMemoryBytes (order : Endian) (x y : Byte) :
    (byteswapOnLittleEndian order (ofMemoryBytes order 2 [x, y])).toNat =
      256 * x.toNat + y.toNat := by
  have hx : x.toNat < 256 := x.isLt
  have hy : y.toNat < 256 := y.isLt
  have hvalue : (BitVec.ofNat (8 * 2) (ofLittleBytes [y, x])).toNat =
      256 * x.toNat + y.toNat := by
    rw [BitVec.toNat_ofNat, ofLittleBytes, ofLittleBytes, ofLittleBytes]
    omega
  cases order with
  | big => exact hvalue
  | little =>
    have hbytes : memoryBytes .little (ofMemoryBytes .little 2 [x, y]) = [x, y] :=
      memoryBytes_ofMemoryBytes rfl
    rw [byteswapOnLittleEndian, byteswap, memoryBytes_big, hbytes]
    exact hvalue

theorem value_zero (order : Endian) : value order 0 = 0 := by
  cases order <;> rfl

theorem value_lt (group : BitVec (8 * 2)) : value order group < 16 ^ 4 :=
  (byteswapOnLittleEndian order group).isLt

theorem map_value_group (order : Endian) (a : IPv6Address) :
    ((List.finRange 8).map (a.group order)).map (value order) = a.groups := by
  rw [List.map_map]
  exact List.map_congr_left fun i _ ↦ toNat_byteswap_ofMemoryBytes ..

theorem dropWhile_zero_cons (gs : List (BitVec (8 * 2))) :
    (0 :: gs).dropWhile (· = 0) = gs.dropWhile (· = 0) :=
  List.dropWhile_cons_of_pos (decide_eq_true rfl)

theorem dropWhile_zero_cons_of_ne {g : BitVec (8 * 2)} (hg : g ≠ 0)
    (gs : List (BitVec (8 * 2))) : (g :: gs).dropWhile (· = 0) = g :: gs :=
  List.dropWhile_cons_of_neg fun h ↦ hg (of_decide_eq_true h)

theorem takeWhile_ne_cons {g : BitVec (8 * 2)} (hg : g ≠ 0) (gs : List (BitVec (8 * 2))) :
    (g :: gs).takeWhile (· ≠ 0) = g :: gs.takeWhile (· ≠ 0) :=
  List.takeWhile_cons_of_pos (decide_eq_true hg)

theorem dropWhile_ne_cons {g : BitVec (8 * 2)} (hg : g ≠ 0) (gs : List (BitVec (8 * 2))) :
    (g :: gs).dropWhile (· ≠ 0) = gs.dropWhile (· ≠ 0) :=
  List.dropWhile_cons_of_pos (decide_eq_true hg)

/-- Once there is a gap every group is written. -/
theorem insertGroups_used (p : BitVec (8 * 2)) (gs : List (BitVec (8 * 2))) :
    insertGroups order (some p) true gs = writeBehind (gs.map (value order)) := by
  induction gs generalizing p with
  | nil => simp [writeBehind]
  | cons g gs ih =>
    rw [insertGroups, if_neg (by simp)]
    simp only [Bool.not_true, Bool.false_eq_true, and_false, if_false, ih]
    rfl

/-- Behind groups of zero bits the gap comes before the next other group, or at the end. -/
theorem insertGroups_zero (gs : List (BitVec (8 * 2))) :
    insertGroups order (some 0) false gs =
      ':' :: ':' :: write ((gs.dropWhile (· = 0)).map (value order)) := by
  induction gs with
  | nil => rfl
  | cons g gs ih =>
    by_cases hg : g = 0
    · subst hg
      rw [insertGroups, if_pos ⟨rfl, rfl⟩, ih, dropWhile_zero_cons]
    · rw [insertGroups, if_neg fun h ↦ hg h.1, dropWhile_zero_cons_of_ne hg]
      simp only [Bool.not_false, and_self, if_true, insertGroups_used]
      rfl

/-- What is written from the first group of zero bits on. -/
def gapText (order : Endian) (gs : List (BitVec (8 * 2))) : List Char :=
  if gs = [] then [] else ':' :: ':' :: write ((gs.dropWhile (· = 0)).map (value order))

theorem insertGroups_cons_zero {previous : Option (BitVec (8 * 2))}
    (gs : List (BitVec (8 * 2))) :
    insertGroups order previous false (0 :: gs) = gapText order (0 :: gs) := by
  rw [insertGroups, if_pos ⟨rfl, rfl⟩, insertGroups_zero, gapText, if_neg (List.cons_ne_nil _ _),
    dropWhile_zero_cons]

theorem insertGroups_ne_zero {p : BitVec (8 * 2)} (hp : p ≠ 0) (gs : List (BitVec (8 * 2))) :
    insertGroups order (some p) false gs =
      writeBehind ((gs.takeWhile (· ≠ 0)).map (value order)) ++
        gapText order (gs.dropWhile (· ≠ 0)) := by
  have hprevious : some p ≠ some 0 := fun h ↦ hp (Option.some.inj h)
  induction gs generalizing p with
  | nil =>
    rw [insertGroups, if_neg fun h ↦ hprevious h.2]
    rfl
  | cons g gs ih =>
    by_cases hg : g = 0
    · subst hg
      rw [insertGroups_cons_zero]
      rfl
    · rw [insertGroups, if_neg fun h ↦ hg h.1, takeWhile_ne_cons hg, dropWhile_ne_cons hg,
        List.map_cons]
      simp only [hprevious, false_and, if_false, reduceCtorEq,
        ih hg fun h ↦ hg (Option.some.inj h)]
      rw [List.nil_append, ← List.append_assoc]
      rfl

/-- The groups before the first one of zero bits, and the gap if there is such a group. -/
theorem insertGroups_none (gs : List (BitVec (8 * 2))) :
    insertGroups order none false gs =
      write ((gs.takeWhile (· ≠ 0)).map (value order)) ++
        gapText order (gs.dropWhile (· ≠ 0)) := by
  cases gs with
  | nil => rfl
  | cons g gs =>
    by_cases hg : g = 0
    · subst hg
      rw [insertGroups_cons_zero]
      rfl
    · rw [insertGroups, if_neg fun h ↦ hg h.1, takeWhile_ne_cons hg, dropWhile_ne_cons hg,
        List.map_cons]
      simp only [reduceCtorEq, false_and, if_false, if_true, insertGroups_ne_zero hg]
      rw [List.nil_append, List.nil_append, ← List.append_assoc]
      rfl

/-- The groups are those of one address. -/
theorem sin6Addr_eq_of_groups_eq {a b : IPv6Address} (h : b.groups = a.groups) :
    b.sin6Addr = a.sin6Addr := by
  apply Vector.ext
  intro j hj
  obtain ⟨i, hi⟩ : ∃ i, j = 2 * i ∨ j = 2 * i + 1 := ⟨j / 2, by omega⟩
  have hlt : i < 8 := by omega
  have hgroup : 256 * b.sin6Addr[2 * i].toNat + b.sin6Addr[2 * i + 1].toNat =
      256 * a.sin6Addr[2 * i].toNat + a.sin6Addr[2 * i + 1].toNat :=
    List.map_inj_left.mp h ⟨i, hlt⟩ (List.mem_finRange _)
  have hlow := b.sin6Addr[2 * i + 1].isLt
  have hlow' := a.sin6Addr[2 * i + 1].isLt
  apply BitVec.eq_of_toNat_eq
  rcases hi with rfl | rfl
  · omega
  · omega

theorem Denotes.of_read {a : IPv6Address} {text : List Char}
    (characters : ∀ c ∈ text, c = ':' ∨ digitValue c ≠ none) (gaps : GroupText.gaps text ≤ 1)
    (read : GroupText.read 8 text = some a.groups) : a.Denotes text where
  characters := characters
  gaps := gaps
  read := read
  unique _ hb := sin6Addr_eq_of_groups_eq (Option.some.inj (hb.symm.trans read))

/-! ### The text reads back -/

theorem exists_replicate_append (gs : List (BitVec (8 * 2))) :
    ∃ k, gs = List.replicate k 0 ++ gs.dropWhile (· = 0) := by
  induction gs with
  | nil => exact ⟨0, rfl⟩
  | cons g gs ih =>
    by_cases hg : g = 0
    · obtain ⟨k, hk⟩ := ih
      subst hg
      refine ⟨k + 1, ?_⟩
      rw [dropWhile_zero_cons, List.replicate_succ, List.cons_append, ← hk]
    · refine ⟨0, ?_⟩
      rw [dropWhile_zero_cons_of_ne hg]
      rfl

/-- The groups from the first one of zero bits on begin with such groups. -/
theorem dropWhile_ne_eq (gs : List (BitVec (8 * 2))) (h : gs.dropWhile (· ≠ 0) ≠ []) :
    ∃ k, 0 < k ∧ gs.dropWhile (· ≠ 0) =
      List.replicate k 0 ++ (gs.dropWhile (· ≠ 0)).dropWhile (· = 0) := by
  induction gs with
  | nil => exact absurd rfl h
  | cons g gs ih =>
    by_cases hg : g = 0
    · subst hg
      obtain ⟨k, hk⟩ := exists_replicate_append gs
      have hdrop : ((0 : BitVec (8 * 2)) :: gs).dropWhile (· ≠ 0) = 0 :: gs := rfl
      refine ⟨k + 1, Nat.succ_pos k, ?_⟩
      rw [hdrop, dropWhile_zero_cons, List.replicate_succ, List.cons_append, ← hk]
    · rw [dropWhile_ne_cons hg] at h ⊢
      exact ih h

/-- The text is that of all groups, or has a gap in the place of groups of zero bits. -/
theorem insertGroups_eq (order : Endian) (gs : List (BitVec (8 * 2))) :
    insertGroups order none false gs = write (gs.map (value order)) ∨
      ∃ front k back, 0 < k ∧ gs = front ++ List.replicate k 0 ++ back ∧
        insertGroups order none false gs =
          write (front.map (value order)) ++ ':' :: ':' :: write (back.map (value order)) := by
  have hsplit : gs.takeWhile (· ≠ 0) ++ gs.dropWhile (· ≠ 0) = gs :=
    List.takeWhile_append_dropWhile
  rw [insertGroups_none]
  by_cases hnil : gs.dropWhile (· ≠ 0) = []
  · rw [hnil, List.append_nil] at hsplit
    refine .inl ?_
    rw [hnil, gapText, if_pos rfl, List.append_nil, hsplit]
  · obtain ⟨k, hk, htail⟩ := dropWhile_ne_eq gs hnil
    refine .inr ⟨gs.takeWhile (· ≠ 0), k, (gs.dropWhile (· ≠ 0)).dropWhile (· = 0), hk, ?_, ?_⟩
    · rw [List.append_assoc, ← htail, hsplit]
    · rw [gapText, if_neg hnil]

theorem value_lt_of_mem (order : Endian) (gs : List (BitVec (8 * 2))) :
    ∀ g ∈ gs.map (value order), g < 16 ^ 4 := by
  intro g hg
  obtain ⟨group, -, rfl⟩ := List.mem_map.mp hg
  exact value_lt group

theorem denotes_insertGroups (order : Endian) (a : IPv6Address) :
    a.Denotes (insertGroups order none false ((List.finRange 8).map (a.group order))) := by
  have hgroups := map_value_group order a
  have hlength : ((List.finRange 8).map (a.group order)).length = 8 := by simp
  generalize (List.finRange 8).map (a.group order) = gs at hgroups hlength
  rcases insertGroups_eq order gs with htext | ⟨front, k, back, hk, hgs, htext⟩
  · have hne : gs.map (value order) ≠ [] := by
      intro hnil
      rw [← List.length_map (value order), hnil] at hlength
      cases hlength
    have hgaps := gaps_write (gs.map (value order)) []
    have hread := read_write hne (value_lt_of_mem order gs)
    rw [List.append_nil] at hgaps
    rw [List.length_map, hlength] at hread
    rw [htext]
    exact .of_read (fun c ↦ colon_or_digit_of_mem_write) (hgaps.trans_le (Nat.zero_le 1))
      (hgroups ▸ hread)
  · have hread := read_write_gap (value_lt_of_mem order front) (value_lt_of_mem order back) hk
    rw [hgs, List.map_append, List.map_append, List.map_replicate, value_zero] at hgroups
    rw [hgs, List.length_append, List.length_append, List.length_replicate] at hlength
    rw [List.length_map, List.length_map, hlength, hgroups] at hread
    rw [htext]
    refine .of_read (fun c hc ↦ ?_) (gaps_write_gap _ _).le hread
    rcases List.mem_append.mp hc with hfront | hgap
    · exact colon_or_digit_of_mem_write hfront
    · rw [List.mem_cons, List.mem_cons, ← or_assoc, or_self] at hgap
      exact hgap.elim .inl colon_or_digit_of_mem_write

end Loop

end IPv6Address

/-- The text between the brackets has at most one gap and reads back as the address. The closing
bracket ends it, as all its characters are colons and digits. -/
theorem insertText (order : Endian) (a : IPv6Address) :
    ∃ text, a.insert order = '[' :: text ++ ']' :: ':' ::
        Nat.toDigits 10 (byteswapOnLittleEndian order a.sin6Port).toNat ∧ a.Denotes text := by
  refine ⟨_, ?_, IPv6Address.denotes_insertGroups order a⟩
  rw [IPv6Address.insert, List.append_assoc]
  rfl

end Rsylar
