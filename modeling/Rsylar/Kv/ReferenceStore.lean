import Rsylar.Kv.SnapshotInstall

/-!
# The store and its reference

The reference of a command sequence is the map in which a Put sets the value of its key and an
Append adds to it. The store of a server that executes every command is another fold of the
sequence, in which an Append sets the value as a Put does (`storeInv_run`). Both folds give a key
what its last write gives it, so they agree exactly when no Append that is the last write of its key
finds a value there (`referenceSemantics`).
-/

set_option autoImplicit false
set_option relaxedAutoImplicit false

namespace Rsylar

open TextArchive TransitionSystem

/-! ### Folds of the writes -/

/-- One command on a map, where `append` gives what an Append makes of the value it finds. -/
def writeWith (append : Option String → String → String) (map : String → Option String) (op : Op) :
    String → Option String :=
  match op.operation with
  | .put => Function.update map op.key (some op.value)
  | .append => Function.update map op.key (some (append (map op.key) op.value))
  | .get => map

def mapWith (append : Option String → String → String) (ops : List Op) : String → Option String :=
  ops.foldl (writeWith append) fun _ ↦ none

/-- Put sets, and Append adds to what there is. -/
def reference (ops : List Op) : String → Option String :=
  mapWith (fun old value ↦ old.getD "" ++ value) ops

/-- No write of the key. -/
def Untouched (key : String) (ops : List Op) : Prop :=
  ∀ op ∈ ops, op.key = key → op.operation = .get

/-- Every Append that is the last write of its key finds no value there, or the empty one. -/
def LastAppendsFindNothing (ops : List Op) : Prop :=
  ∀ before op after, ops = before ++ op :: after → op.operation = .append →
    Untouched op.key after → (reference before op.key).getD "" = ""

section Folds

variable {append append' : Option String → String → String} {map : String → Option String}
  {ops : List Op} {op : Op} {key : String}

theorem mapWith_append (append : Option String → String → String) (ops : List Op) (op : Op) :
    mapWith append (ops ++ [op]) = writeWith append (mapWith append ops) op :=
  List.foldl_concat _ _ _ _

/-- A command changes the value of its own key, and a read none. -/
theorem writeWith_of_untouched (h : op.key = key → op.operation = .get) :
    writeWith append map op key = map key := by
  have hother : op.operation ≠ .get → key ≠ op.key := fun hop heq ↦ hop (h heq.symm)
  unfold writeWith
  cases hop : op.operation with
  | put => exact Function.update_of_ne (hother (by rw [hop]; nofun)) _ _
  | append => exact Function.update_of_ne (hother (by rw [hop]; nofun)) _ _
  | get => rfl

theorem mapWith_of_untouched (before after : List Op) (h : Untouched key after) :
    mapWith append (before ++ after) key = mapWith append before key := by
  induction after using List.reverseRecOn with
  | nil => rw [List.append_nil]
  | append_singleton after op ih =>
    rw [← List.append_assoc, mapWith_append,
      writeWith_of_untouched (h op (List.mem_append_right _ List.mem_cons_self))]
    exact ih fun op' hop' ↦ h op' (List.mem_append_left _ hop')

/-- A key has the value that its last write gives it. -/
theorem mapWith_of_last (before : List Op) (op : Op) (after : List Op)
    (h : Untouched op.key after) : mapWith append (before ++ op :: after) op.key =
      writeWith append (mapWith append before) op op.key := by
  rw [List.append_cons, mapWith_of_untouched _ after h, mapWith_append]

/-- A key is written, and then there is a last write, or it is not. -/
theorem untouched_or_last (key : String) (ops : List Op) :
    Untouched key ops ∨ ∃ before op after, ops = before ++ op :: after ∧ op.key = key ∧
      op.operation ≠ .get ∧ Untouched key after := by
  induction ops using List.reverseRecOn with
  | nil => exact Or.inl nofun
  | append_singleton ops op ih =>
    by_cases hwrite : op.key = key ∧ op.operation ≠ .get
    · exact Or.inr ⟨ops, op, [], rfl, hwrite.1, hwrite.2, nofun⟩
    · have hread : op.key = key → op.operation = .get := by tauto
      have hmore : ∀ after, Untouched key after → Untouched key (after ++ [op]) := by
        intro after hafter op' hop'
        rcases List.mem_append.mp hop' with hold | hnew
        · exact hafter op' hold
        · rw [List.mem_singleton.mp hnew]
          exact hread
      rcases ih with huntouched | ⟨before, last, after, rfl, hkey, hop, hafter⟩
      · exact Or.inl (hmore ops huntouched)
      · exact Or.inr ⟨before, last, after ++ [op], by simp, hkey, hop, hmore after hafter⟩

/-- An Append finds nothing when it leaves what it was given. -/
theorem append_eq_self_iff (old : Option String) (value : String) :
    old.getD "" ++ value = value ↔ old.getD "" = "" := by
  rw [← String.toList_inj, String.toList_append, List.append_left_eq_self, String.toList_eq_nil_iff]

/-- Writes that replace agree with the reference. -/
theorem overwrites_eq_reference_iff (ops : List Op) :
    (∀ key, mapWith (fun _ value ↦ value) ops key = reference ops key) ↔
      LastAppendsFindNothing ops := by
  unfold reference
  constructor
  · rintro hsame before op after rfl happend hafter
    have hkey := hsame op.key
    rw [mapWith_of_last before op after hafter, mapWith_of_last before op after hafter] at hkey
    unfold writeWith at hkey
    simp only [happend, Function.update_self] at hkey
    exact (append_eq_self_iff _ _).mp (Option.some.inj hkey).symm
  · intro hnothing key
    rcases untouched_or_last key ops with hnone | ⟨before, op, after, rfl, rfl, hop, hafter⟩
    · have huntouched := fun append ↦ @mapWith_of_untouched append key [] ops hnone
      rw [List.nil_append] at huntouched
      rw [huntouched, huntouched]
      rfl
    · rw [mapWith_of_last before op after hafter, mapWith_of_last before op after hafter]
      unfold writeWith
      cases hoperation : op.operation with
      | put => simp only [Function.update_self]
      | append =>
        have hempty := hnothing before op after rfl hoperation hafter
        simp only [Function.update_self]
        exact congrArg some ((append_eq_self_iff _ _).mpr hempty).symm
      | get => exact absurd hoperation hop

end Folds

/-! ### The store of a server -/

/-- The command that is checked is not a duplicate. -/
def FreshCommands (s : KvServer) (a : KvAction) : Prop :=
  ∀ op ∈ s.checking a, s.ifRequestDuplicate op.clientId op.requestId = false

instance : DecidableRel FreshCommands := fun s a ↦ by
  unfold FreshCommands
  infer_instance

/-- The store is the fold of the commands in which every write replaces the value. -/
def StoreInv (s : KvServer) : Prop :=
  ∀ key, s.skipList.searchElement key = mapWith (fun _ value ↦ value) s.applied key

section Runs

variable [Codec Op] [Codec KvData] [Codec (SkipList.Dump String String)]
variable {s s' : KvServer} {a : KvAction}

/-- What one step preserves. -/
theorem StoreInv.step (h : StoreInv s) (hsorted : s.skipList.Sorted) (hsnapshot : NoSnapshot s a)
    (hfresh : FreshCommands s a) (hstep : s.step a = some s') : StoreInv s' := by
  intro key
  cases KvServer.step_store hstep with
  | idle _ hlist _ happlied _ => rw [hlist, happlied, h key]
  | fresh op _ _ _ hlist _ happlied _ => rw [hlist, happlied, h key]
  | pass op hpass _ hlist _ happlied _ =>
    have hget : op.operation = .get := by
      rcases hpass with hget | ⟨hchecking, hdup⟩
      · exact hget
      · rw [hfresh op hchecking] at hdup
        cases hdup
    rw [hlist, happlied, h key, mapWith_append, writeWith_of_untouched fun _ ↦ hget]
  | execute op hop _ _ hlist _ happlied _ =>
    rw [hlist, happlied, mapWith_append, SkipList.searchElement_insertSetElement hsorted, h key]
    have hset : writeWith (fun _ value ↦ value) (mapWith (fun _ value ↦ value) s.applied) op =
        Function.update (mapWith (fun _ value ↦ value) s.applied) op.key (some op.value) := by
      unfold writeWith
      cases hoperation : op.operation with
      | put => rfl
      | append => rfl
      | get => exact absurd hoperation hop
    rw [hset, Function.update_apply]
  | serve op _ _ hlist _ happlied _ => rw [hlist, happlied, h key]
  | install data hinstalling _ _ _ _ =>
    unfold NoSnapshot at hsnapshot
    rw [hinstalling] at hsnapshot
    cases hsnapshot

theorem storeInv_run (r : Run kvServer) (hsnapshot : r.Obeys NoSnapshot)
    (hfresh : r.Obeys FreshCommands) (k : ℕ) : StoreInv (r.state k) := by
  induction k with
  | zero =>
    rw [r.state_zero]
    exact fun key ↦ rfl
  | succ k ih =>
    cases ha : r.act k with
    | none => rw [r.pause k ha]; exact ih
    | some a =>
      exact ih.step (sorted_run r k) (hsnapshot k a ha) (hfresh k a ha) (r.next k a ha)

/-- The server finds for every key what the reference of its commands has. -/
def MatchesReference (s : KvServer) : Prop :=
  ∀ key, s.skipList.searchElement key = reference s.applied key

/-- Reference semantics. After any sequence of commands that are no duplicates, the store is the
reference of the sequence if and only if each Append that is the last write of its key finds nothing
there. -/
theorem referenceSemantics (r : Run kvServer) (hsnapshot : r.Obeys NoSnapshot)
    (hfresh : r.Obeys FreshCommands) (k : ℕ) :
    MatchesReference (r.state k) ↔ LastAppendsFindNothing (r.state k).applied := by
  rw [← overwrites_eq_reference_iff]
  exact forall_congr' fun key ↦ by rw [storeInv_run r hsnapshot hfresh k key]

end Runs

/-! ### Two appends -/

section Examples

open scoped Archive

def appendRequest (value : String) (requestId : ℤ) : Request :=
  .putAppend { key := "x", value := value, op := .append, clientId := "c", requestId := requestId }

/-- A client appends twice to one key. -/
def twoAppends : List KvAction :=
  [KvAction.deliver (commandMessage (appendRequest "a" 1).op 1)] ++ iteration ++
  [KvAction.deliver (commandMessage (appendRequest "b" 2).op 2)] ++ iteration

def twoAppendsRun : Run kvServer :=
  Run.ofActions kvServer twoAppends (by decide +kernel)

/-- The store has `b`, the reference `ab`. -/
theorem referenceSemantics_twoAppends : ∃ (r : Run kvServer) (k : ℕ), r.Obeys NoSnapshot ∧
    r.Obeys FreshCommands ∧ ¬ MatchesReference (r.state k) := by
  refine ⟨twoAppendsRun, 12, ?_, ?_, fun h ↦ ?_⟩
  · rw [twoAppendsRun, Run.obeys_ofActions_iff]
    decide +kernel
  · rw [twoAppendsRun, Run.obeys_ofActions_iff]
    decide +kernel
  · have hne : (twoAppendsRun.state 12).skipList.searchElement "x" ≠
        reference (twoAppendsRun.state 12).applied "x" := by decide +kernel
    exact hne (h "x")

/-- After the first of them the store is the reference. -/
theorem referenceSemantics_oneAppend : MatchesReference (twoAppendsRun.state 6) := by
  refine (referenceSemantics twoAppendsRun ?_ ?_ 6).mpr ?_
  · rw [twoAppendsRun, Run.obeys_ofActions_iff]
    decide +kernel
  · rw [twoAppendsRun, Run.obeys_ofActions_iff]
    decide +kernel
  · have happlied : (twoAppendsRun.state 6).applied = [(appendRequest "a" 1).op] := by
      decide +kernel
    rw [happlied]
    intro before op after heq _ _
    obtain rfl : before = [] := by
      cases before with
      | nil => rfl
      | cons first before => simp at heq
    rfl

end Examples

end Rsylar
