import Mathlib.Data.List.Nodup

/-!
# Linked lists

Nodes of a memory that are linked by pointers of one kind. `next p` is what the node at `p` points
to: another node, `some none` at the end of the list, and `none` when there is no such node to read.
`Linked next p l` says that the nodes after `p` are those of `l`, in order. A walk along the list
stops in front of the first node that does not satisfy its condition (`Linked.walk`); a node is put
into a list, or taken out of it, by changing the pointer of its predecessor (`Linked.insert`,
`Linked.remove`).
-/

set_option autoImplicit false
set_option relaxedAutoImplicit false

namespace LinkedList

variable {P α : Type*}

/-- The nodes after `p` are those of the list, in order. -/
def Linked (next : P → Option (Option P)) : P → List P → Prop
  | p, [] => next p = some none
  | p, q :: l => next p = some (some q) ∧ Linked next q l

/-- The last node whose successors all satisfy the condition, from `p` on. The first argument bounds
the number of steps. -/
def walk (next : P → Option (Option P)) (condition : P → Option Bool) : ℕ → P → Option P
  | 0, _ => none
  | fuel + 1, p =>
    match next p with
    | none => none
    | some none => some p
    | some (some q) =>
      match condition q with
      | none => none
      | some true => walk next condition fuel q
      | some false => some p

/-- What `get` finds at the nodes after `p`. -/
def collect (next : P → Option (Option P)) (get : P → Option α) : ℕ → P → Option (List α)
  | 0, _ => none
  | fuel + 1, p =>
    match next p with
    | none => none
    | some none => some []
    | some (some q) => do
      let a ← get q
      let rest ← collect next get fuel q
      some (a :: rest)

variable {next next' : P → Option (Option P)} {p x : P} {l l' : List P}

theorem getLastD_append (l l' : List P) (p : P) :
    (l ++ l').getLastD p = l'.getLastD (l.getLastD p) := by
  induction l generalizing p with
  | nil => rfl
  | cons q l ih => rw [List.cons_append, List.getLastD_cons, List.getLastD_cons, ih]

/-- The nodes behind the first ones come after the last of these. -/
theorem Linked.drop (h : Linked next p (l ++ l')) : Linked next (l.getLastD p) l' := by
  induction l generalizing p with
  | nil => exact h
  | cons q l ih =>
    rw [List.getLastD_cons]
    exact ih h.2

theorem Linked.next_head (h : Linked next p l) : next p = some l.head? := by
  cases l with
  | nil => exact h
  | cons q l => exact h.1

/-- The first node after the first ones is what the last of these points to. -/
theorem Linked.next_eq (h : Linked next p (l ++ l')) : next (l.getLastD p) = some l'.head? :=
  h.drop.next_head

theorem Linked.congr (h : Linked next p l) (hsame : ∀ q ∈ p :: l, next' q = next q) :
    Linked next' p l := by
  induction l generalizing p with
  | nil => exact (hsame p List.mem_cons_self).trans h
  | cons q l ih =>
    obtain ⟨hnext, hrest⟩ := h
    exact ⟨(hsame p List.mem_cons_self).trans hnext,
      ih hrest fun q' hq' ↦ hsame q' (List.mem_cons_of_mem _ hq')⟩

/-! ### Walks -/

/-- A walk ends in front of the first node that does not satisfy the condition. -/
theorem Linked.walk {condition : P → Option Bool} (h : Linked next p (l ++ l'))
    (htrue : ∀ q ∈ l, condition q = some true)
    (hfalse : ∀ q ∈ l'.head?, condition q = some false) {fuel : ℕ} (hfuel : l.length < fuel) :
    LinkedList.walk next condition fuel p = some (l.getLastD p) := by
  induction l generalizing p fuel with
  | nil =>
    obtain ⟨fuel, rfl⟩ : ∃ k, fuel = k + 1 := ⟨fuel - 1, by omega⟩
    have hnext : next p = some l'.head? := Linked.next_eq h
    unfold LinkedList.walk
    cases l' with
    | nil => simp [hnext]
    | cons q l' =>
      have hstop := hfalse q rfl
      simp [hnext, hstop]
  | cons q l ih =>
    obtain ⟨fuel, rfl⟩ : ∃ k, fuel = k + 1 := ⟨fuel - 1, by omega⟩
    obtain ⟨hnext, hrest⟩ := h
    have hstep := htrue q List.mem_cons_self
    have htail := ih hrest (fun q' hq' ↦ htrue q' (List.mem_cons_of_mem _ hq'))
      (Nat.lt_of_succ_lt_succ hfuel)
    rw [List.getLastD_cons, ← htail]
    conv_lhs => unfold LinkedList.walk
    simp [hnext, hstep]

theorem Linked.collect {get : P → Option α} {as : List α} (h : Linked next p l)
    (hget : l.map get = as.map some) {fuel : ℕ} (hfuel : l.length < fuel) :
    LinkedList.collect next get fuel p = some as := by
  induction l generalizing p as fuel with
  | nil =>
    obtain ⟨fuel, rfl⟩ : ∃ k, fuel = k + 1 := ⟨fuel - 1, by omega⟩
    have hend : next p = some none := h
    obtain rfl : as = [] := by simpa using hget.symm
    unfold LinkedList.collect
    simp [hend]
  | cons q l ih =>
    obtain ⟨fuel, rfl⟩ : ∃ k, fuel = k + 1 := ⟨fuel - 1, by omega⟩
    obtain ⟨hnext, hrest⟩ := h
    cases as with
    | nil => simp at hget
    | cons a as =>
      obtain ⟨hfirst, htail⟩ := List.cons_eq_cons.mp hget
      have hcollect := ih hrest htail (Nat.lt_of_succ_lt_succ hfuel)
      unfold LinkedList.collect
      simp [hnext, hfirst, hcollect]

/-! ### Changing one pointer -/

/-- A new node comes in after the first ones: it points to what the last of these pointed to. -/
theorem Linked.insert (h : Linked next p (l ++ l')) (hnodup : (p :: (l ++ l')).Nodup)
    (hlast : next' (l.getLastD p) = some (some x)) (hnew : next' x = next (l.getLastD p))
    (hsame : ∀ q ∈ p :: (l ++ l'), q ≠ l.getLastD p → next' q = next q) :
    Linked next' p (l ++ x :: l') := by
  induction l generalizing p with
  | nil =>
    refine ⟨hlast, ?_⟩
    cases l' with
    | nil => exact hnew.trans h
    | cons q l' =>
      obtain ⟨hnext, hrest⟩ := h
      obtain ⟨hp, -⟩ := List.nodup_cons.mp hnodup
      refine ⟨hnew.trans hnext, hrest.congr fun q' hq' ↦ ?_⟩
      refine hsame q' (List.mem_cons_of_mem _ hq') fun heq ↦ ?_
      obtain rfl : q' = p := heq
      exact hp hq'
  | cons q l ih =>
    obtain ⟨hnext, hrest⟩ := h
    obtain ⟨hp, htail⟩ := List.nodup_cons.mp hnodup
    rw [List.getLastD_cons] at hlast hnew hsame
    have hother : p ≠ l.getLastD q := by
      intro heq
      refine hp (heq ▸ ?_)
      rw [List.cons_append, ← List.cons_append]
      exact List.mem_append_left _ List.getLastD_mem_cons
    exact ⟨(hsame p List.mem_cons_self hother).trans hnext,
      ih hrest htail hlast hnew fun q' hq' ↦ hsame q' (List.mem_cons_of_mem _ hq')⟩

/-- A node goes out: its predecessor points to what it pointed to. -/
theorem Linked.remove (h : Linked next p (l ++ x :: l')) (hnodup : (p :: (l ++ x :: l')).Nodup)
    (hlast : next' (l.getLastD p) = next x)
    (hsame : ∀ q ∈ p :: (l ++ l'), q ≠ l.getLastD p → next' q = next q) :
    Linked next' p (l ++ l') := by
  induction l generalizing p with
  | nil =>
    obtain ⟨-, hrest⟩ := h
    obtain ⟨hp, -⟩ := List.nodup_cons.mp hnodup
    cases l' with
    | nil => exact hlast.trans hrest
    | cons q l' =>
      refine ⟨hlast.trans hrest.1, hrest.2.congr fun q' hq' ↦ ?_⟩
      refine hsame q' (List.mem_cons_of_mem _ hq') fun heq ↦ ?_
      obtain rfl : q' = p := heq
      exact hp (List.mem_cons_of_mem _ hq')
  | cons q l ih =>
    obtain ⟨hnext, hrest⟩ := h
    obtain ⟨hp, htail⟩ := List.nodup_cons.mp hnodup
    rw [List.getLastD_cons] at hlast hsame
    have hother : p ≠ l.getLastD q := by
      intro heq
      refine hp (heq ▸ ?_)
      rw [List.cons_append, ← List.cons_append]
      exact List.mem_append_left _ List.getLastD_mem_cons
    exact ⟨(hsame p List.mem_cons_self hother).trans hnext,
      ih hrest htail hlast fun q' hq' ↦ hsame q' (List.mem_cons_of_mem _ hq')⟩

end LinkedList
