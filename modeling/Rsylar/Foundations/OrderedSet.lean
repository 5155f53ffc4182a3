import Mathlib.Data.List.Pairwise
import Mathlib.Data.List.TakeWhile
import Mathlib.Order.Lattice

/-!
# Ordered sets

A set whose elements are kept in the order of a key, as a list. The elements below a key come before
its lower bound and the others from there on; searching, inserting and erasing all go to the lower
bound. The key is a function of its own: an element whose key is to change has to be taken out
first, and `Sorted.congr` is what then remains true.
-/

set_option autoImplicit false
set_option relaxedAutoImplicit false

namespace OrderedSet

variable {α κ : Type*} [LinearOrder κ] (key : α → κ)

/-- The elements are in the order of their keys, and no two have the same key. -/
def Sorted (l : List α) : Prop := l.Pairwise fun a b ↦ key a < key b

instance (l : List α) : Decidable (Sorted key l) :=
  inferInstanceAs (Decidable (l.Pairwise _))

/-- The elements before the lower bound of the key. -/
def below (k : κ) (l : List α) : List α := l.takeWhile fun a ↦ key a < k

/-- The elements from the lower bound of the key on. -/
def lowerBound (k : κ) (l : List α) : List α := l.dropWhile fun a ↦ key a < k

/-- The element of the key, `none` when there is none. -/
def find (k : κ) (l : List α) : Option α :=
  (lowerBound key k l).head?.filter fun a ↦ key a ≤ k

/-- Without the first element from the lower bound on. -/
def eraseFound (k : κ) (l : List α) : List α :=
  below key k l ++ (lowerBound key k l).tail

/-- Nothing is inserted when there is an element of the same key. -/
def insert (a : α) (l : List α) : List α :=
  if (find key (key a) l).isSome then l
  else below key (key a) l ++ a :: lowerBound key (key a) l

/-- The element takes the place of the one with its key, when there is one. -/
def assign (a : α) (l : List α) : List α :=
  insert key a (match find key (key a) l with
    | some _ => eraseFound key (key a) l
    | none => l)

variable {key} {key' : α → κ} {l : List α} {a b : α} {k : κ}

namespace Sorted

theorem congr (h : Sorted key l) (hkey : ∀ a ∈ l, key' a = key a) : Sorted key' l := by
  refine List.Pairwise.imp_of_mem ?_ h
  intro a b ha hb hlt
  rwa [hkey a ha, hkey b hb]

theorem nodup (h : Sorted key l) : l.Nodup :=
  List.Pairwise.imp (fun hlt heq ↦ (ne_of_lt hlt) (congrArg key heq)) h

theorem sublist {l' : List α} (h : Sorted key l) (hl : l'.Sublist l) : Sorted key l' :=
  List.Pairwise.sublist hl h

/-- Two elements of one key are the same. -/
theorem eq_of_key (h : Sorted key l) (ha : a ∈ l) (hb : b ∈ l) (hkey : key a = key b) : a = b := by
  obtain ⟨i, hi, rfl⟩ := List.getElem_of_mem ha
  obtain ⟨j, hj, rfl⟩ := List.getElem_of_mem hb
  have hlt := List.pairwise_iff_getElem.mp h
  rcases lt_trichotomy i j with hij | rfl | hij
  · exact absurd hkey (ne_of_lt (hlt i j hi hj hij))
  · rfl
  · exact absurd hkey.symm (ne_of_lt (hlt j i hj hi hij))

/-- The first element has the least key. -/
theorem head_le (h : Sorted key l) (ha : a ∈ l.head?) (hb : b ∈ l) : key a ≤ key b := by
  cases l with
  | nil => cases ha
  | cons c l =>
    cases ha
    rcases List.mem_cons.mp hb with rfl | hb
    · exact le_refl _
    · exact le_of_lt (List.rel_of_pairwise_cons h hb)

end Sorted

theorem below_append_lowerBound (k : κ) (l : List α) :
    below key k l ++ lowerBound key k l = l :=
  List.takeWhile_append_dropWhile

theorem lt_of_mem_below (h : b ∈ below key k l) : key b < k := by
  simpa using List.mem_takeWhile_imp h

theorem le_of_mem_lowerBound (hs : Sorted key l) (h : b ∈ lowerBound key k l) : k ≤ key b := by
  have hsorted : Sorted key (lowerBound key k l) := hs.sublist (List.dropWhile_sublist _)
  cases hl : lowerBound key k l with
  | nil => simp [hl] at h
  | cons c rest =>
    have hc : k ≤ key c := by
      have hhead := List.head?_dropWhile_not (fun a ↦ decide (key a < k)) l
      rw [← lowerBound, hl] at hhead
      simpa using hhead
    exact hc.trans (hsorted.head_le (by rw [hl]; rfl) h)

theorem mem_below_or_lowerBound (h : b ∈ l) (k : κ) :
    b ∈ below key k l ∨ b ∈ lowerBound key k l := by
  rw [← below_append_lowerBound k l] at h
  exact List.mem_append.mp h

theorem mem_of_find (h : find key k l = some a) : a ∈ l ∧ (lowerBound key k l).head? = some a := by
  obtain ⟨hhead, -⟩ := Option.filter_eq_some_iff.mp h
  exact ⟨(List.dropWhile_sublist _).subset (List.mem_of_mem_head? hhead), hhead⟩

/-- What is in the set is found at its key. -/
theorem find_of_mem (hs : Sorted key l) (ha : a ∈ l) : find key (key a) l = some a := by
  have hmem : a ∈ lowerBound key (key a) l := by
    rcases mem_below_or_lowerBound ha (key a) with h | h
    · exact absurd (lt_of_mem_below h) (lt_irrefl _)
    · exact h
  obtain ⟨c, hc⟩ : ∃ c, (lowerBound key (key a) l).head? = some c :=
    Option.ne_none_iff_exists'.mp fun hnone ↦ List.ne_nil_of_mem hmem (List.head?_eq_none_iff.mp hnone)
  have hsorted : Sorted key (lowerBound key (key a) l) := hs.sublist (List.dropWhile_sublist _)
  have hle : key c ≤ key a := hsorted.head_le hc hmem
  have hge : key a ≤ key c := le_of_mem_lowerBound hs (List.mem_of_mem_head? hc)
  obtain rfl : c = a := hsorted.eq_of_key (List.mem_of_mem_head? hc) hmem (le_antisymm hle hge)
  exact Option.filter_eq_some_iff.mpr ⟨hc, by simp⟩

theorem key_of_find (hs : Sorted key l) (h : find key k l = some a) : key a = k := by
  have hle : key a ≤ k := by simpa using (Option.filter_eq_some_iff.mp h).2
  exact le_antisymm hle (le_of_mem_lowerBound hs (List.mem_of_mem_head? (mem_of_find h).2))

theorem find_eq_none (h : ∀ b ∈ l, key b ≠ k) (hs : Sorted key l) : find key k l = none := by
  rw [Option.eq_none_iff_forall_ne_some]
  intro b hb
  exact h b (mem_of_find hb).1 (key_of_find hs hb)

theorem find_cons (hs : Sorted key (a :: l)) :
    find key k (a :: l) = if key a = k then some a else find key k l := by
  have hl : Sorted key l := hs.sublist (List.sublist_cons_self a l)
  split
  · rename_i hk
    rw [← hk]
    exact find_of_mem hs List.mem_cons_self
  · rename_i hk
    cases hb : find key k l with
    | some b =>
      rw [← key_of_find hl hb]
      exact find_of_mem hs (List.mem_cons_of_mem a (mem_of_find hb).1)
    | none =>
      refine find_eq_none (fun b hmem hkey ↦ ?_) hs
      rcases List.mem_cons.mp hmem with rfl | hmem
      · exact hk hkey
      · rw [← hkey, find_of_mem hl hmem] at hb
        cases hb

/-- What is picked with everything of a lower key comes first. -/
theorem Sorted.takeWhile_eq_filter (hs : Sorted key l) {p : α → Bool}
    (hp : ∀ a ∈ l, ∀ b ∈ l, key a < key b → p b → p a) : l.takeWhile p = l.filter p := by
  induction l with
  | nil => rfl
  | cons a l ih =>
    obtain ⟨hfirst, hl⟩ := List.pairwise_cons.mp hs
    cases ha : p a with
    | true =>
      rw [List.takeWhile_cons_of_pos ha, List.filter_cons_of_pos ha,
        ih hl fun b hb c hc ↦ hp b (List.mem_cons_of_mem a hb) c (List.mem_cons_of_mem a hc)]
    | false =>
      have hnone : l.filter p = [] :=
        List.filter_eq_nil_iff.mpr fun b hb hpb ↦ by
          rw [hp a List.mem_cons_self b (List.mem_cons_of_mem a hb) (hfirst b hb) hpb] at ha
          cases ha
      rw [List.takeWhile_cons_of_neg (by simp [ha]), List.filter_cons_of_neg (by simp [ha]), hnone]

/-! ### Inserting and erasing -/

theorem insert_eq (hs : Sorted key l) (h : ∀ b ∈ l, key b ≠ key a) :
    insert key a l = below key (key a) l ++ a :: lowerBound key (key a) l := by
  rw [insert, find_eq_none h hs]
  rfl

theorem mem_insert (hs : Sorted key l) (h : ∀ b ∈ l, key b ≠ key a) :
    b ∈ insert key a l ↔ b = a ∨ b ∈ l := by
  have hmem : b ∈ l ↔ b ∈ below key (key a) l ∨ b ∈ lowerBound key (key a) l := by
    rw [← List.mem_append, below_append_lowerBound]
  rw [insert_eq hs h, List.mem_append, List.mem_cons, hmem]
  exact or_left_comm

theorem Sorted.insert (hs : Sorted key l) (h : ∀ b ∈ l, key b ≠ key a) :
    Sorted key (insert key a l) := by
  rw [insert_eq hs h]
  have hsplit := hs
  rw [← below_append_lowerBound (key a) l] at hsplit
  obtain ⟨hbelow, hrest, hacross⟩ := List.pairwise_append.mp hsplit
  refine List.pairwise_append.mpr ⟨hbelow, List.pairwise_cons.mpr ⟨?_, hrest⟩, ?_⟩
  · intro b hb
    have hmem : b ∈ l := (List.dropWhile_sublist _).subset hb
    exact lt_of_le_of_ne (le_of_mem_lowerBound hs hb) (h b hmem).symm
  · intro b hb c hc
    rcases List.mem_cons.mp hc with rfl | hc
    · exact lt_of_mem_below hb
    · exact hacross b hb c hc

/-- Also when there is an element of the same key already, which then stays. -/
theorem Sorted.insertNew (hs : Sorted key l) : Sorted key (OrderedSet.insert key a l) := by
  by_cases hfound : (find key (key a) l).isSome
  · rwa [OrderedSet.insert, if_pos hfound]
  · refine hs.insert fun b hb hkey ↦ hfound ?_
    rw [← hkey, find_of_mem hs hb]
    rfl

/-- What is found after inserting. -/
theorem find_insert (hs : Sorted key l) :
    find key k (OrderedSet.insert key a l) =
      (find key k l).or (if key a = k then some a else none) := by
  cases hb : find key (key a) l with
  | some b =>
    rw [OrderedSet.insert, hb, Option.isSome_some, if_pos rfl]
    split
    · rename_i hk
      rw [← hk, hb]
      rfl
    · exact (Option.or_none).symm
  | none =>
    have hne : ∀ c ∈ l, key c ≠ key a := by
      intro c hc hkey
      rw [← hkey, find_of_mem hs hc] at hb
      cases hb
    split
    · rename_i hk
      rw [← hk, hb]
      exact find_of_mem (hs.insert hne) ((mem_insert hs hne).mpr (.inl rfl))
    · rename_i hk
      rw [Option.or_none]
      cases hc : find key k l with
      | some c =>
        have hkey := key_of_find hs hc
        rw [← hkey]
        exact find_of_mem (hs.insert hne) ((mem_insert hs hne).mpr (.inr (mem_of_find hc).1))
      | none =>
        refine find_eq_none (fun c hmem hkey ↦ ?_) (hs.insert hne)
        rcases (mem_insert hs hne).mp hmem with rfl | hmem
        · exact hk hkey
        · rw [← hkey, find_of_mem hs hmem] at hc
          cases hc

theorem eraseFound_sublist (k : κ) (l : List α) : (eraseFound key k l).Sublist l := by
  have hsublist : (eraseFound key k l).Sublist (below key k l ++ lowerBound key k l) :=
    List.Sublist.append_left (List.tail_sublist _) _
  rwa [below_append_lowerBound] at hsublist

theorem Sorted.eraseFound (hs : Sorted key l) (k : κ) : Sorted key (eraseFound key k l) :=
  hs.sublist (eraseFound_sublist k l)

theorem mem_eraseFound (hs : Sorted key l) (ha : a ∈ l) :
    b ∈ eraseFound key (key a) l ↔ b ∈ l ∧ b ≠ a := by
  obtain ⟨-, hhead⟩ := mem_of_find (find_of_mem hs ha)
  obtain ⟨rest, hrest⟩ := List.head?_eq_some_iff.mp hhead
  have hl : below key (key a) l ++ a :: rest = l := by
    rw [← hrest]
    exact below_append_lowerBound _ _
  have hnodup := hs.nodup
  rw [← hl] at hnodup
  obtain ⟨-, hrestNodup, hdisjoint⟩ := List.nodup_append.mp hnodup
  have hbelow : a ∉ below key (key a) l := fun h ↦ hdisjoint a h a (List.mem_cons_self) rfl
  have hafter : a ∉ rest := (List.nodup_cons.mp hrestNodup).1
  have hmem : b ∈ l ↔ b ∈ below key (key a) l ∨ b = a ∨ b ∈ rest := by
    rw [← hl, List.mem_append, List.mem_cons, hl]
  rw [OrderedSet.eraseFound, hrest, List.tail_cons, List.mem_append, hmem]
  constructor
  · rintro (hb | hb)
    · exact ⟨.inl hb, fun heq ↦ hbelow (heq ▸ hb)⟩
    · exact ⟨.inr (.inr hb), fun heq ↦ hafter (heq ▸ hb)⟩
  · rintro ⟨hb | rfl | hb, hne⟩
    · exact .inl hb
    · exact absurd rfl hne
    · exact .inr hb

/-! ### Assigning -/

theorem mem_assign (hs : Sorted key l) :
    b ∈ assign key a l ↔ b = a ∨ b ∈ l ∧ key b ≠ key a := by
  rw [assign]
  split
  · rename_i c hc
    have hkey := key_of_find hs hc
    obtain ⟨hmem, -⟩ := mem_of_find hc
    have hiff : ∀ d, d ∈ eraseFound key (key a) l ↔ d ∈ l ∧ key d ≠ key a := by
      intro d
      rw [← hkey, mem_eraseFound hs hmem]
      exact and_congr_right fun hd ↦ not_congr ⟨congrArg key, hs.eq_of_key hd hmem⟩
    rw [mem_insert (hs.eraseFound _) fun d hd ↦ ((hiff d).mp hd).2, hiff]
  · rename_i hnone
    have hne : ∀ d ∈ l, key d ≠ key a := by
      intro d hd hkey
      rw [← hkey, find_of_mem hs hd] at hnone
      cases hnone
    rw [mem_insert hs hne]
    exact or_congr_right ⟨fun hb ↦ ⟨hb, hne b hb⟩, And.left⟩

theorem Sorted.assign (hs : Sorted key l) : Sorted key (assign key a l) := by
  rw [OrderedSet.assign]
  split
  · rename_i c hc
    have hkey := key_of_find hs hc
    obtain ⟨hmem, -⟩ := mem_of_find hc
    refine (hs.eraseFound _).insert fun d hd hda ↦ ?_
    rw [← hkey, mem_eraseFound hs hmem] at hd
    exact hd.2 (hs.eq_of_key hd.1 hmem (hda.trans hkey.symm))
  · rename_i hnone
    refine hs.insert fun d hd hkey ↦ ?_
    rw [← hkey, find_of_mem hs hd] at hnone
    cases hnone

/-- What is found after assigning. -/
theorem find_assign (hs : Sorted key l) :
    find key k (assign key a l) = if key a = k then some a else find key k l := by
  split
  · rename_i hk
    rw [← hk]
    exact find_of_mem hs.assign ((mem_assign hs).mpr (.inl rfl))
  · rename_i hk
    cases hb : find key k l with
    | some b =>
      have hkey := key_of_find hs hb
      rw [← hkey] at hk
      rw [← hkey]
      exact find_of_mem hs.assign ((mem_assign hs).mpr (.inr ⟨(mem_of_find hb).1, Ne.symm hk⟩))
    | none =>
      refine find_eq_none (fun b hb' hkey ↦ ?_) hs.assign
      rcases (mem_assign hs).mp hb' with rfl | ⟨hmem, -⟩
      · exact hk hkey
      · rw [← hkey, find_of_mem hs hmem] at hb
        cases hb

/-- In an ordered set the last element of a key is the one that is found. -/
theorem getLast?_filter {p : α → Bool} (hl : Sorted key l) (hp : ∀ a, p a ↔ key a = k) :
    (l.filter p).getLast? = find key k l := by
  cases hfind : find key k l with
  | none =>
    refine List.getLast?_eq_none_iff.mpr (List.filter_eq_nil_iff.mpr fun a ha hkey ↦ ?_)
    rw [← (hp a).mp hkey, find_of_mem hl ha] at hfind
    cases hfind
  | some a =>
    have hfound := key_of_find hl hfind
    have hmem : a ∈ l.filter p :=
      List.mem_filter.mpr ⟨(mem_of_find hfind).1, (hp a).mpr hfound⟩
    cases hlast : (l.filter p).getLast? with
    | none =>
      rw [List.getLast?_eq_none_iff.mp hlast] at hmem
      cases hmem
    | some c =>
      obtain ⟨hc, hkey⟩ := List.mem_filter.mp (List.mem_of_getLast? hlast)
      rw [hl.eq_of_key hc (mem_of_find hfind).1 (((hp c).mp hkey).trans hfound.symm)]

end OrderedSet
