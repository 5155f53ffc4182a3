import Mathlib.Data.List.Basic
import Mathlib.Logic.Function.Basic
import Rsylar.Sylar.Yaml

/-!
# Loading a configuration

`Config::LoadFromYaml` goes through the nodes of a YAML tree with their paths and sets the variables
that are registered under the lower-cased paths. The text of a node that is no scalar is made by the
YAML library, which is a parameter (`emit`). What `fromString` throws it catches itself.

Paths are checked against an alphabet before they are lower-cased, and the alphabet, here and in
`Config::Lookup`, lacks the digit 9. So the nodes that belong to a variable are all reached when
their paths have neither an upper-case letter nor a 9, and a name of the documented alphabet can be
registered when it has no 9 (`configLoad`).
-/

set_option autoImplicit false
set_option relaxedAutoImplicit false

namespace Rsylar

/-! ### Paths -/

namespace Yaml

/-- The path of a child: the empty path adds no dot. -/
def childPath (path : String) (key : Yaml) : String :=
  if path = "" then key.scalarText else path ++ "." ++ key.scalarText

mutual

/-- All nodes of a tree with their paths. -/
def nodes (path : String) : Yaml → List (String × Yaml)
  | map entries => (path, map entries) :: childNodes path entries
  | n => [(path, n)]
termination_by structural n => n

def childNodes (path : String) : List (Yaml × Yaml) → List (String × Yaml)
  | [] => []
  | (key, value) :: rest => nodes (childPath path key) value ++ childNodes path rest
termination_by structural entries => entries

end

end Yaml

/-! ### Variables -/

/-- The characters of a name in `ListAllMember` and in `Lookup`. -/
def nameCharacters : List Char := "abcdefghikjlmnopqrstuvwxyz._012345678".toList

/-- `find_first_not_of` finds nothing. -/
def validName (name : String) : Bool := name.toList.all fun c ↦ nameCharacters.contains c

def toLowerName (name : String) : String := name.map Char.toLower

structure ConfigVarBase where
  name : String
  typeName : String
deriving DecidableEq

/-- `GetDatas()` -/
structure ConfigDatas where
  find : String → Option ConfigVarBase

namespace ConfigDatas

/-- `Lookup<T>` with a default value: the variable, or none when it has another type. It throws for
a new name that is not valid. -/
def lookup (datas : ConfigDatas) (typeName name : String) :
    Except String (Option ConfigVarBase × ConfigDatas) :=
  match datas.find name with
  | some var => .ok (if var.typeName = typeName then some var else none, datas)
  | none =>
    if validName name then
      let var : ConfigVarBase := ⟨toLowerName name, typeName⟩
      .ok (some var, ⟨Function.update datas.find name (some var)⟩)
    else .error name

end ConfigDatas

mutual

/-- `ListAllMember`: the nodes under a path that is not valid are left out. -/
def listAllMember (path : String) : Yaml → List (String × Yaml)
  | .map entries =>
    if validName path then (path, .map entries) :: listMembers path entries else []
  | n => if validName path then [(path, n)] else []
termination_by structural n => n

/-- The loop over the entries of a map. -/
def listMembers (path : String) : List (Yaml × Yaml) → List (String × Yaml)
  | [] => []
  | (key, value) :: rest =>
    listAllMember (if path = "" then key.scalarText else path ++ "." ++ key.scalarText) value ++
      listMembers path rest
termination_by structural entries => entries

end

/-- The calls of `fromString` that `LoadFromYaml` makes, by the keys of the variables and with their
arguments. -/
def loadFromYaml (emit : Yaml → String) (datas : ConfigDatas) (root : Yaml) :
    List (String × String) :=
  (listAllMember "" root).filterMap fun i ↦
    if i.1 = "" then none
    else
      let key := toLowerName i.1
      if (datas.find key).isSome then some (key, i.2.text emit) else none

/-! ### What should be loaded -/

/-- The documented alphabet of names. -/
def documentedCharacter (c : Char) : Bool := c.isDigit || c.isLower || c = '_' || c = '.'

def Documented (name : String) : Prop := ∀ c ∈ name.toList, documentedCharacter c

instance (name : String) : Decidable (Documented name) :=
  List.decidableBAll (fun c ↦ documentedCharacter c = true) name.toList

/-- One call for every node whose path, lower-cased, is the name of a variable. -/
def namedNodes (emit : Yaml → String) (datas : ConfigDatas) (root : Yaml) :
    List (String × String) :=
  (root.nodes "").filterMap fun i ↦
    if (datas.find (toLowerName i.1)).isSome then some (toLowerName i.1, i.2.text emit) else none

/-- The variables are set from the nodes that belong to them, each exactly once. -/
def ReachesVariables (emit : Yaml → String) (datas : ConfigDatas) (root : Yaml) : Prop :=
  (loadFromYaml emit datas root).Perm (namedNodes emit datas root)

/-- `Lookup` makes the variable of a name that is new. -/
def Registrable (name : String) : Prop :=
  ∀ (datas : ConfigDatas) (typeName : String), datas.find name = none →
    ∃ var datas', datas.lookup typeName name = .ok (some var, datas') ∧ datas'.find name = some var

section Loading

variable {path name : String}

theorem validName_of_childPath {key : Yaml} (h : validName (Yaml.childPath path key)) :
    validName path := by
  rw [Yaml.childPath] at h
  split at h
  · rename_i hempty
    rw [hempty]
    rfl
  · rw [validName, String.toList_append, String.toList_append, List.all_append,
      List.all_append, Bool.and_eq_true, Bool.and_eq_true] at h
    exact h.1.1

/-- Under a path that is not valid no path is. -/
theorem not_validName_nodes :
    (∀ path n, ¬validName path → ∀ i ∈ Yaml.nodes path n, ¬validName i.1) ∧
      ∀ path entries, ¬validName path → ∀ i ∈ Yaml.childNodes path entries, ¬validName i.1 := by
  apply Yaml.nodes.mutual_induct
  case case1 =>
    intro path entries ih h i hi
    rw [Yaml.nodes, List.mem_cons] at hi
    obtain rfl | hi := hi
    · exact h
    · exact ih h i hi
  case case2 =>
    intro path n hn h i hi
    rw [Yaml.nodes.eq_2 path n hn, List.mem_singleton] at hi
    rwa [hi]
  case case3 =>
    intro path h i hi
    cases hi
  case case4 =>
    intro path key value rest hvalue hrest h i hi
    rw [Yaml.childNodes, List.mem_append] at hi
    obtain hi | hi := hi
    · exact hvalue (fun hchild ↦ h (validName_of_childPath hchild)) i hi
    · exact hrest h i hi

/-- The members are the nodes with a valid path. -/
theorem listAllMember_eq :
    (∀ path n, listAllMember path n = (Yaml.nodes path n).filter fun i ↦ validName i.1) ∧
      ∀ path entries, validName path →
        listMembers path entries = (Yaml.childNodes path entries).filter fun i ↦ validName i.1 := by
  apply Yaml.nodes.mutual_induct
  case case1 =>
    intro path entries ih
    rw [listAllMember, Yaml.nodes]
    by_cases h : validName path
    · simp only [if_pos h, List.filter_cons, ih h]
    · rw [if_neg h]
      refine (List.filter_eq_nil_iff.mpr fun i hi ↦ ?_).symm
      rw [← Yaml.nodes] at hi
      exact not_validName_nodes.1 path _ h i hi
  case case2 =>
    intro path n hn
    rw [listAllMember.eq_2 path n hn, Yaml.nodes.eq_2 path n hn]
    by_cases h : validName path
    · simp only [if_pos h, List.filter_cons, List.filter_nil]
    · simp only [if_neg h, List.filter_cons, List.filter_nil]
  case case3 =>
    intro path h
    rfl
  case case4 =>
    intro path key value rest hvalue hrest h
    rw [listMembers, Yaml.childNodes, List.filter_append, ← hvalue, ← hrest h]
    rfl

/-- Leaving out elements leaves a `filterMap` as it is when none of them counts. -/
theorem perm_filterMap_filter_iff {α β : Type*} {l : List α} {f : α → Option β} {p : α → Bool} :
    ((l.filter p).filterMap f).Perm (l.filterMap f) ↔ ∀ a ∈ l, (f a).isSome → p a := by
  constructor
  · intro hperm
    have hlength := hperm.length_eq
    clear hperm
    induction l with
    | nil => simp
    | cons a l ih =>
      have hle : ((l.filter p).filterMap f).length ≤ (l.filterMap f).length :=
        (List.filter_sublist.filterMap f).length_le
      rw [List.forall_mem_cons]
      by_cases hp : p a
      · rw [List.filter_cons_of_pos hp, List.filterMap_cons, List.filterMap_cons] at hlength
        refine ⟨fun _ ↦ hp, ih ?_⟩
        cases hf : f a with
        | none => simpa only [hf] using hlength
        | some b => simpa only [hf, List.length_cons, Nat.add_right_cancel_iff] using hlength
      · rw [List.filter_cons_of_neg hp, List.filterMap_cons] at hlength
        cases hf : f a with
        | none => exact ⟨by simp, ih (by simpa only [hf] using hlength)⟩
        | some b =>
          simp only [hf, List.length_cons] at hlength
          omega
  · intro h
    rw [List.filterMap_filter]
    refine List.Perm.of_eq (List.filterMap_congr fun a ha ↦ ?_)
    split
    · rfl
    · rename_i hp
      exact (Option.not_isSome_iff_eq_none.mp fun hsome ↦ hp (h a ha hsome)).symm

theorem documentedCharacter_iff (c : Char) :
    documentedCharacter c ↔ c.isDigit ∨ c.isLower ∨ c = '_' ∨ c = '.' := by
  simp only [documentedCharacter, Bool.or_eq_true, decide_eq_true_eq, or_assoc]

theorem toNat_of_documented {c : Char} (h : documentedCharacter c) :
    c.toNat < 128 ∧ (c.toNat < 65 ∨ 90 < c.toNat) := by
  rw [documentedCharacter_iff] at h
  obtain hdigit | hlower | rfl | rfl := h
  · simp only [Char.isDigit, Bool.and_eq_true, decide_eq_true_eq] at hdigit
    have hle : c.toNat ≤ 57 := hdigit.2
    omega
  · obtain ⟨hge, hle⟩ := Bool.and_eq_true_iff.mp
      (show (decide (97 ≤ c.toNat) && decide (c.toNat ≤ 122)) = true from hlower)
    rw [decide_eq_true_eq] at hge hle
    omega
  · decide
  · decide

theorem isUpper_iff (c : Char) : c.isUpper ↔ 65 ≤ c.toNat ∧ c.toNat ≤ 90 := by
  change decide (65 ≤ c.toNat ∧ c.toNat ≤ 90) = true ↔ _
  rw [decide_eq_true_eq]

theorem toLower_eq {c : Char} (h : ¬c.isUpper) : c.toLower = c := by
  rw [isUpper_iff] at h
  exact dif_neg h

/-- The code has the documented characters without the 9. -/
theorem contains_nameCharacters (c : Char) :
    nameCharacters.contains c = (documentedCharacter c && c ≠ '9') := by
  have hascii : ∀ n < 128, nameCharacters.contains (Char.ofNat n) =
      (documentedCharacter (Char.ofNat n) && Char.ofNat n ≠ '9') := by
    decide +kernel
  by_cases hc : c.toNat < 128
  · rw [← Char.ofNat_toNat c]
    exact hascii c.toNat hc
  · have hall : (nameCharacters.all fun d ↦ decide (d.toNat < 128)) := by decide
    have hnames : ∀ d ∈ nameCharacters, d.toNat < 128 := fun d hd ↦
      of_decide_eq_true (List.all_eq_true.mp hall d hd)
    have hleft : nameCharacters.contains c = false :=
      Bool.eq_false_iff.mpr fun h ↦ hc (hnames c (List.contains_iff_mem.mp h))
    have hright : documentedCharacter c = false :=
      Bool.eq_false_iff.mpr fun h ↦ hc (toNat_of_documented h).1
    rw [hleft, hright, Bool.false_and]

theorem not_isUpper_of_documented {c : Char} (h : documentedCharacter c) : ¬c.isUpper := by
  have hrange := (toNat_of_documented h).2
  rw [isUpper_iff]
  omega

/-- A name that is documented when it is lower-cased is one of the code when it has neither an
upper-case letter nor a 9. -/
theorem validName_iff (h : Documented (toLowerName name)) :
    validName name ↔ ∀ c ∈ name.toList, ¬c.isUpper ∧ c ≠ '9' := by
  rw [validName, List.all_eq_true]
  refine forall₂_congr fun c hc ↦ ?_
  have hlower : documentedCharacter c.toLower := by
    apply h
    rw [toLowerName, String.toList_map]
    exact List.mem_map_of_mem hc
  rw [contains_nameCharacters, Bool.and_eq_true, decide_eq_true_eq]
  refine and_congr_left fun _ ↦ ⟨not_isUpper_of_documented, fun hupper ↦ ?_⟩
  rwa [toLower_eq hupper] at hlower

theorem registrable_iff (name : String) : Registrable name ↔ validName name := by
  constructor
  · intro h
    obtain ⟨var, datas', hlookup, -⟩ := h ⟨fun _ ↦ none⟩ "" rfl
    by_contra hvalid
    simp only [ConfigDatas.lookup, if_neg hvalid] at hlookup
    cases hlookup
  · intro hvalid datas typeName hnew
    have hlookup : datas.lookup typeName name = .ok (some ⟨toLowerName name, typeName⟩,
        ⟨Function.update datas.find name (some ⟨toLowerName name, typeName⟩)⟩) := by
      simp only [ConfigDatas.lookup, hnew, if_pos hvalid]
    exact ⟨_, _, hlookup, Function.update_self name _ datas.find⟩

end Loading

/-- All variables are reached from their nodes when the paths of these have neither an upper-case
letter nor a 9, and names without a 9 can be registered. -/
theorem configLoad (emit : Yaml → String) (datas : ConfigDatas)
    (hdatas : ∀ name, (datas.find name).isSome → Documented name) (root : Yaml) :
    (ReachesVariables emit datas root ↔
      ∀ i ∈ root.nodes "", (datas.find (toLowerName i.1)).isSome →
        i.1 ≠ "" ∧ ∀ c ∈ i.1.toList, ¬c.isUpper ∧ c ≠ '9') ∧
      ∀ name, Documented name → (Registrable name ↔ '9' ∉ name.toList) := by
  constructor
  · have hcalls : loadFromYaml emit datas root = ((root.nodes "").filter fun i ↦
        validName i.1 && i.1 ≠ "").filterMap fun i ↦
          if (datas.find (toLowerName i.1)).isSome then some (toLowerName i.1, i.2.text emit)
          else none := by
      rw [loadFromYaml, listAllMember_eq.1, List.filterMap_filter, List.filterMap_filter]
      refine List.filterMap_congr fun i _ ↦ ?_
      by_cases hvalid : validName i.1
      · by_cases hempty : i.1 = ""
        · simp [hempty]
        · simp [hvalid, hempty]
      · simp [hvalid]
    rw [ReachesVariables, hcalls, namedNodes, perm_filterMap_filter_iff]
    refine forall₂_congr fun i _ ↦ ?_
    by_cases hvar : (datas.find (toLowerName i.1)).isSome
    · rw [if_pos hvar, Bool.and_eq_true, validName_iff (hdatas _ hvar), decide_eq_true_eq]
      simp [hvar, and_comm]
    · simp [hvar]
  · intro name hname
    rw [registrable_iff, validName, List.all_eq_true]
    simp only [contains_nameCharacters, Bool.and_eq_true, decide_eq_true_eq]
    constructor
    · intro hvalid hmem
      exact (hvalid _ hmem).2 rfl
    · intro hnine c hc
      exact ⟨hname c hc, fun heq ↦ hnine (heq ▸ hc)⟩

/-- A scalar and a map that belong to variables. -/
def systemTree : Yaml :=
  .map [(.scalar "system", .map [(.scalar "port", .scalar "80")])]

def systemEmit : Yaml → String
  | .map [(.scalar "port", _)] => "port: 80"
  | _ => "system:\n  port: 80"

def systemDatas : ConfigDatas where
  find name :=
    if name = "system" ∨ name = "system.port" then some ⟨name, "type"⟩ else none

theorem documented_systemDatas (name : String) (h : (systemDatas.find name).isSome) :
    Documented name := by
  rw [systemDatas] at h
  dsimp only at h
  split at h
  · rename_i hname
    obtain rfl | rfl := hname
    · decide
    · decide
  · cases h

theorem systemTree_names : ∀ i ∈ Yaml.nodes "" systemTree,
    (systemDatas.find (toLowerName i.1)).isSome →
      i.1 ≠ "" ∧ ∀ c ∈ i.1.toList, ¬c.isUpper ∧ c ≠ '9' := by
  have hall : ((Yaml.nodes "" systemTree).all fun i ↦
      !(systemDatas.find (toLowerName i.1)).isSome ||
        decide (i.1 ≠ "") && i.1.toList.all fun c ↦ !c.isUpper && decide (c ≠ '9')) := by
    decide +kernel
  intro i hi hsome
  have hname := List.all_eq_true.mp hall i hi
  rw [hsome, Bool.not_true, Bool.false_or, Bool.and_eq_true, decide_eq_true_eq] at hname
  refine ⟨hname.1, fun c hc ↦ ?_⟩
  have hchar := List.all_eq_true.mp hname.2 c hc
  rw [Bool.and_eq_true, Bool.not_eq_true', decide_eq_true_eq] at hchar
  exact ⟨Bool.eq_false_iff.mp hchar.1, hchar.2⟩

theorem configLoad_system : ReachesVariables systemEmit systemDatas systemTree ∧
    Registrable "system.port" :=
  have h := configLoad systemEmit systemDatas documented_systemDatas systemTree
  ⟨h.1.mpr systemTree_names, (h.2 "system.port" (by decide)).mpr (by decide)⟩

/-- A key in capital letters is not reached. -/
theorem not_reachesVariables_capital :
    ¬ ∀ (emit : Yaml → String) (datas : ConfigDatas),
      (∀ name, (datas.find name).isSome → Documented name) →
      ∀ root, ReachesVariables emit datas root := by
  intro h
  have hreach := h systemEmit systemDatas documented_systemDatas
    (.map [(.scalar "system", .map [(.scalar "Port", .scalar "80")])])
  exact absurd hreach.length_eq (by decide +kernel)

end Rsylar
