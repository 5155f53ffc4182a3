import Mathlib.Data.List.AList
import Mathlib.Data.List.Induction
import Mathlib.Data.List.Nodup

/-!
# The latest entries of a history

A registry is changed by setting and by erasing the entries of keys. What it holds after a history
of changes is what the last change of each key has left: for a map the value of that change
(`lastValue`), and for a list in which a new entry takes the last place the entries that no later
change touches, in the order of their changes (`latest`).
-/

set_option autoImplicit false
set_option relaxedAutoImplicit false

namespace LatestEntries

variable {κ α : Type} [DecidableEq κ] {k k' : κ} {v : Option α} {l : List (κ × α)}
  {h : List (κ × Option α)}

/-- Without the first entry of the key. -/
def erase (k : κ) (l : List (κ × α)) : List (κ × α) := l.eraseP fun e ↦ e.1 = k

/-- A change sets the entry of a key or erases it; an entry that is set takes the last place. -/
def change (l : List (κ × α)) (c : κ × Option α) : List (κ × α) :=
  erase c.1 l ++ (c.2.map fun a ↦ (c.1, a)).toList

def changeMap (m : AList fun _ : κ ↦ α) (c : κ × Option α) : AList fun _ : κ ↦ α :=
  match c.2 with
  | some a => m.insert c.1 a
  | none => m.erase c.1

/-- What the last change of the key has set. -/
def lastValue (k : κ) (h : List (κ × Option α)) : Option α :=
  ((h.filter fun c ↦ c.1 = k).getLast?).bind Prod.snd

/-- The entries that no later change touches. -/
def latest : List (κ × Option α) → List (κ × α)
  | [] => []
  | c :: h =>
    if c.1 ∈ h.map Prod.fst then latest h else (c.2.map fun a ↦ (c.1, a)).toList ++ latest h

theorem mem_keys_of_mem_latest (hk : k ∈ (latest h).map Prod.fst) : k ∈ h.map Prod.fst := by
  induction h with
  | nil => exact hk
  | cons c h ih =>
    rw [latest] at hk
    rw [List.map_cons, List.mem_cons]
    split at hk
    · exact .inr (ih hk)
    · rw [List.map_append, List.mem_append] at hk
      rcases hk with hfirst | hrest
      · cases hc : c.2 with
        | none =>
          rw [hc] at hfirst
          cases hfirst
        | some a =>
          rw [hc] at hfirst
          exact .inl (List.mem_singleton.mp hfirst)
      · exact .inr (ih hrest)

/-- There is one entry of a key at most. -/
theorem nodup_latest (h : List (κ × Option α)) : ((latest h).map Prod.fst).Nodup := by
  induction h with
  | nil => exact List.nodup_nil
  | cons c h ih =>
    rw [latest]
    split
    · exact ih
    · rename_i hlast
      cases c.2 with
      | none => exact ih
      | some a => exact List.nodup_cons.mpr ⟨fun hmem ↦ hlast (mem_keys_of_mem_latest hmem), ih⟩

theorem erase_eq_filter (hl : (l.map Prod.fst).Nodup) :
    erase k l = l.filter fun e ↦ !decide (e.1 = k) := by
  induction l with
  | nil => rfl
  | cons e l ih =>
    obtain ⟨hnot, hrest⟩ := List.nodup_cons.mp hl
    rw [erase]
    by_cases hkey : e.1 = k
    · have hnone : ∀ x ∈ l, !decide (x.1 = k) := by
        intro x hx
        rw [Bool.not_eq_true', decide_eq_false_iff_not]
        rintro rfl
        exact hnot (hkey ▸ List.mem_map_of_mem hx)
      rw [List.eraseP_cons_of_pos (by simpa using hkey),
        List.filter_cons_of_neg (by simpa using hkey), List.filter_eq_self.mpr hnone]
    · rw [List.eraseP_cons_of_neg (by simpa using hkey),
        List.filter_cons_of_pos (by simpa using hkey)]
      exact congrArg _ (ih hrest)

/-- A further change at the end of a history. -/
theorem latest_concat (h : List (κ × Option α)) (c : κ × Option α) :
    latest (h ++ [c]) = change (latest h) c := by
  rw [change, erase_eq_filter (nodup_latest h)]
  induction h with
  | nil => simp [latest]
  | cons d h ih =>
    have hkeys : d.1 ∈ (h ++ [c]).map Prod.fst ↔ d.1 ∈ h.map Prod.fst ∨ d.1 = c.1 := by
      simp only [List.map_append, List.mem_append, List.map_cons, List.map_nil, List.mem_singleton]
    rw [List.cons_append, latest, latest, ih]
    by_cases hlater : d.1 ∈ h.map Prod.fst
    · rw [if_pos (hkeys.mpr (.inl hlater)), if_pos hlater]
    · rw [if_neg hlater]
      by_cases hsame : d.1 = c.1
      · rw [if_pos (hkeys.mpr (.inr hsame)), List.filter_append]
        have hnone : (d.2.map fun a ↦ (d.1, a)).toList.filter (fun e ↦ !decide (e.1 = c.1)) = [] := by
          cases d.2 with
          | none => rfl
          | some a => exact List.filter_cons_of_neg (by simpa using hsame)
        rw [hnone, List.nil_append]
      · have hnot : d.1 ∉ (h ++ [c]).map Prod.fst := fun hmem ↦ (hkeys.mp hmem).elim hlater hsame
        rw [if_neg hnot, List.filter_append, List.append_assoc]
        congr 1
        cases d.2 with
        | none => rfl
        | some a =>
          show [(d.1, a)] = [(d.1, a)].filter fun e ↦ !decide (e.1 = c.1)
          simp [hsame]

/-- The list after a history of changes. -/
theorem foldl_change (h : List (κ × Option α)) : h.foldl change [] = latest h := by
  induction h using List.reverseRecOn with
  | nil => rfl
  | append_singleton h c ih => rw [List.foldl_concat, ih, latest_concat]

theorem lastValue_concat (h : List (κ × Option α)) (c : κ × Option α) :
    lastValue k (h ++ [c]) = if c.1 = k then c.2 else lastValue k h := by
  rw [lastValue, List.filter_append]
  by_cases hkey : c.1 = k
  · rw [if_pos hkey, List.filter_cons_of_pos (by simpa using hkey), List.filter_nil,
      List.getLast?_concat]
    rfl
  · rw [if_neg hkey, List.filter_cons_of_neg (by simpa using hkey), List.filter_nil,
      List.append_nil]
    rfl

theorem find_erase (hl : (l.map Prod.fst).Nodup) :
    ((erase k' l).find? fun e ↦ e.1 = k) = if k' = k then none else l.find? fun e ↦ e.1 = k := by
  rw [erase_eq_filter hl, List.find?_filter]
  by_cases hkey : k' = k
  · rw [if_pos hkey, List.find?_eq_none]
    intro e _ hboth
    simp [hkey] at hboth
  · rw [if_neg hkey]
    congr 1
    ext e
    by_cases he : e.1 = k
    · simp [he, Ne.symm hkey]
    · simp [he]

/-- The list has the value of a key that the map has. -/
theorem find_latest (h : List (κ × Option α)) :
    ((latest h).find? fun e ↦ e.1 = k).map Prod.snd = lastValue k h := by
  induction h using List.reverseRecOn with
  | nil => rfl
  | append_singleton h c ih =>
    rw [latest_concat, lastValue_concat, change, List.find?_append, find_erase (nodup_latest h)]
    by_cases hkey : c.1 = k
    · rw [if_pos hkey, if_pos hkey, Option.none_or]
      cases c.2 with
      | none => rfl
      | some a =>
        show (List.find? (fun e ↦ decide (e.1 = k)) [(c.1, a)]).map Prod.snd = some a
        simp [hkey]
    · have hadded : (c.2.map fun a ↦ (c.1, a)).toList.find? (fun e ↦ decide (e.1 = k)) = none := by
        cases c.2 with
        | none => rfl
        | some a =>
          show List.find? (fun e ↦ decide (e.1 = k)) [(c.1, a)] = none
          simp [hkey]
      rw [hadded, Option.or_none, if_neg hkey, if_neg hkey, ih]

/-- The map after a history of changes. -/
theorem lookup_foldl_changeMap (h : List (κ × Option α)) :
    (h.foldl changeMap ∅).lookup k = lastValue k h := by
  induction h using List.reverseRecOn with
  | nil => rfl
  | append_singleton h c ih =>
    rw [List.foldl_concat, lastValue_concat, ← ih]
    generalize h.foldl changeMap ∅ = m
    obtain ⟨k', v⟩ := c
    by_cases hkey : k' = k
    · subst hkey
      rw [if_pos rfl]
      cases v with
      | none => exact AList.lookup_erase k' m
      | some a => exact AList.lookup_insert m
    · rw [if_neg hkey]
      cases v with
      | none => exact AList.lookup_erase_ne (Ne.symm hkey)
      | some a => exact AList.lookup_insert_ne (Ne.symm hkey)

/-- What the steps of a history change one after the other. -/
theorem filterMap_concat_toList {α β : Type} (f : α → Option β) (history : List α) (step : α) :
    (history ++ [step]).filterMap f = history.filterMap f ++ (f step).toList := by
  rw [List.filterMap_append]
  cases hstep : f step with
  | none => simp [hstep]
  | some b => simp [hstep]

end LatestEntries
