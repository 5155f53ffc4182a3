import Mathlib.Data.List.Basic
import Mathlib.Data.List.Count

/-!
# The names of a host

`Address::Lookup` up to the call of `getaddrinfo`. A host is an address of IPv6 in brackets, with or
without a service, a name with a service, or a name.

The pointer to the service is left at the first colon when a second one is found, so a host with
more colons is looked up with a service that begins with a colon; what follows the closing bracket
is dropped when it is no service, and an empty name is replaced by the whole host. In all other
cases the names are those of the host (`hostNames`).
-/

set_option autoImplicit false
set_option relaxedAutoImplicit false

namespace Rsylar.Address

/-- `memchr` in the bytes of the string from `start` on, as a position in the string. -/
def memchr (host : List Char) (start : ℕ) (c : Char) : Option ℕ :=
  ((host.drop start).idxOf? c).map (start + ·)

/-- What is read of a string without its length. -/
def cString (s : List Char) : List Char := s.takeWhile (· ≠ '\x00')

/-- The two names that `getaddrinfo` is called with. -/
structure Names where
  node : List Char
  service : Option (List Char)
deriving DecidableEq

def Names.ofText (node : List Char) (service : Option (List Char)) : Names :=
  ⟨cString node, service.map cString⟩

/-- The node and the position of the service when the host begins with a bracket. Behind the last
byte of the string there is a zero. -/
def ipv6Names (host : List Char) : List Char × Option ℕ :=
  if host.head? = some '[' then
    match memchr host 1 ']' with
    | some endipv6 =>
      ((host.drop 1).take (endipv6 - 1),
        if host[endipv6 + 1]? = some ':' then some (endipv6 + 2) else none)
    | none => ([], none)
  else ([], none)

/-- The node and the position of the service when no node was found in brackets. -/
def nodeNames (host : List Char) : List Char × Option ℕ :=
  match memchr host 0 ':' with
  | some service =>
    if memchr host (service + 1) ':' = none then (host.take service, some (service + 1))
    else ([], some service)
  | none => ([], none)

/-- The names that `Lookup` calls `getaddrinfo` with. -/
def lookupNames (host : List Char) : Names :=
  let bracketed := ipv6Names host
  let (node, service) := if bracketed.1 = [] then nodeNames host else bracketed
  .ofText (if node = [] then host else node) (service.map host.drop)

/-! ### Forms of a host -/

/-- The host begins with an address in brackets, `rest` is behind it. -/
def InBrackets (v6 rest host : List Char) : Prop :=
  v6 ≠ [] ∧ ']' ∉ v6 ∧ host = '[' :: v6 ++ ']' :: rest

/-- The host is an address in brackets, with or without a service. -/
def Bracketed (host : List Char) : Prop :=
  ∃ v6 rest, InBrackets v6 rest host ∧ (rest = [] ∨ ∃ svc, rest = ':' :: svc)

/-- What the names of a host are. -/
structure SplitsHost (host : List Char) : Prop where
  bracketService : ∀ v6 svc, InBrackets v6 (':' :: svc) host →
    lookupNames host = .ofText v6 (some svc)
  bracket : ∀ v6, InBrackets v6 [] host → lookupNames host = .ofText v6 none
  nameService : ∀ name svc, ¬Bracketed host → ':' ∉ name → ':' ∉ svc →
    host = name ++ ':' :: svc → lookupNames host = .ofText name (some svc)
  other : ¬Bracketed host → host.count ':' ≠ 1 → lookupNames host = .ofText host none

/-! ### Scans -/

section Scans

variable {c : Char}

theorem memchr_eq (front before behind : List Char) (hc : c ∉ before) :
    memchr (front ++ (before ++ c :: behind)) front.length c =
      some (front.length + before.length) := by
  have hfirst : (before ++ c :: behind).idxOf? c = some before.length := by
    refine List.idxOf?_eq_some_iff.mpr ⟨by simp, by simp, fun j hj heq ↦ ?_⟩
    rw [List.getElem_append_left hj] at heq
    exact hc (heq ▸ List.getElem_mem hj)
  rw [memchr, List.drop_left, hfirst, Option.map_some]

theorem memchr_eq_none (front behind : List Char) :
    memchr (front ++ behind) front.length c = none ↔ c ∉ behind := by
  rw [memchr, List.drop_left, Option.map_eq_none_iff, List.idxOf?_eq_none_iff]

end Scans

section Phases

variable {host v6 rest name svc : List Char}

theorem ipv6Names_eq (h : InBrackets v6 rest host) :
    ipv6Names host = (v6, if rest.head? = some ':' then some (v6.length + 3) else none) := by
  obtain ⟨-, hv6, rfl⟩ := h
  have hscan : memchr ('[' :: v6 ++ ']' :: rest) 1 ']' = some (1 + v6.length) :=
    memchr_eq ['['] v6 rest hv6
  have hnode : (('[' :: v6 ++ ']' :: rest).drop 1).take (1 + v6.length - 1) = v6 := by
    rw [Nat.add_sub_cancel_left]
    exact List.take_left
  have hbehind : ('[' :: v6 ++ ']' :: rest)[1 + v6.length + 1]? = rest.head? := by
    rw [List.getElem?_append_right (by simp), List.head?_eq_getElem?]
    simp [Nat.add_comm]
  have hplace : 1 + v6.length + 2 = v6.length + 3 := by omega
  rw [ipv6Names, List.cons_append, List.head?_cons, if_pos rfl, ← List.cons_append, hscan]
  simp only [hnode, hbehind, hplace]

/-- Without an address in brackets there is no node after the first scan. -/
theorem ipv6Names_fst_eq_nil (h : ¬∃ v6 rest, InBrackets v6 rest host) :
    (ipv6Names host).1 = [] := by
  by_contra hne
  cases host with
  | nil => exact hne rfl
  | cons c host =>
    by_cases hc : c = '['
    · subst hc
      by_cases hbracket : ']' ∈ host
      · obtain ⟨v6, rest, rfl, hv6⟩ := List.eq_append_cons_of_mem hbracket
        refine h ⟨v6, rest, fun hnil ↦ hne ?_, hv6, rfl⟩
        subst hnil
        rfl
      · have hscan : memchr ('[' :: host) 1 ']' = none :=
          (memchr_eq_none ['['] host).mpr hbracket
        rw [ipv6Names, List.head?_cons, if_pos rfl, hscan] at hne
        exact hne rfl
    · rw [ipv6Names, List.head?_cons, if_neg (fun heq ↦ hc (Option.some.inj heq))] at hne
      exact hne rfl

theorem nodeNames_eq_one (hname : ':' ∉ name) (hsvc : ':' ∉ svc) :
    nodeNames (name ++ ':' :: svc) = (name, some (name.length + 1)) := by
  have hscan : memchr (name ++ ':' :: svc) 0 ':' = some name.length := by
    have hfirst := memchr_eq [] name svc hname
    rwa [List.length_nil, Nat.zero_add] at hfirst
  have hsecond : memchr (name ++ ':' :: svc) (name.length + 1) ':' = none := by
    have hnone := (memchr_eq_none (name ++ [':']) svc).mpr hsvc
    rwa [List.append_assoc, List.length_append] at hnone
  rw [nodeNames, hscan]
  simp only [hsecond, if_true, List.take_left]

theorem nodeNames_eq_more (hname : ':' ∉ name) (hsvc : ':' ∈ svc) :
    nodeNames (name ++ ':' :: svc) = ([], some name.length) := by
  have hscan : memchr (name ++ ':' :: svc) 0 ':' = some name.length := by
    have hfirst := memchr_eq [] name svc hname
    rwa [List.length_nil, Nat.zero_add] at hfirst
  have hsecond : memchr (name ++ ':' :: svc) (name.length + 1) ':' ≠ none := by
    intro hnone
    have hiff := memchr_eq_none (c := ':') (name ++ [':']) svc
    rw [List.append_assoc, List.length_append] at hiff
    exact hiff.mp hnone hsvc
  rw [nodeNames, hscan]
  simp only [if_neg hsecond]

theorem nodeNames_eq_none (h : ':' ∉ host) : nodeNames host = ([], none) := by
  have hscan : memchr host 0 ':' = none := (memchr_eq_none [] host).mpr h
  rw [nodeNames, hscan]

end Phases

section Names

variable {host v6 rest name svc : List Char}

theorem lookupNames_of_brackets (h : InBrackets v6 rest host) :
    lookupNames host = .ofText v6 (if rest.head? = some ':' then some rest.tail else none) := by
  have hlength : ('[' :: v6 ++ [']']).length = v6.length + 2 := by simp
  have hhost : host = '[' :: v6 ++ [']'] ++ rest := by
    rw [List.append_assoc]
    exact h.2.2
  have hdrop : host.drop (v6.length + 3) = rest.tail := by
    rw [← List.tail_drop, hhost, List.drop_left' hlength]
  rw [lookupNames, ipv6Names_eq h]
  simp only [if_neg h.1]
  split
  · rw [Option.map_some, hdrop]
  · rfl

theorem lookupNames_of_not_brackets (h : ¬∃ v6 rest, InBrackets v6 rest host) :
    lookupNames host = .ofText (if (nodeNames host).1 = [] then host else (nodeNames host).1)
      ((nodeNames host).2.map host.drop) := by
  rw [lookupNames, ipv6Names_fst_eq_nil h]
  rfl

/-- An empty name is replaced by the host. -/
theorem lookupNames_of_one (h : ¬∃ v6 rest, InBrackets v6 rest (name ++ ':' :: svc))
    (hname : ':' ∉ name) (hsvc : ':' ∉ svc) :
    lookupNames (name ++ ':' :: svc) =
      .ofText (if name = [] then name ++ ':' :: svc else name) (some svc) := by
  rw [lookupNames_of_not_brackets h, nodeNames_eq_one hname hsvc, Option.map_some,
    ← List.tail_drop, List.drop_left, List.tail_cons]

/-- The service is what is left from the first of several colons on. -/
theorem lookupNames_of_more (h : ¬∃ v6 rest, InBrackets v6 rest (name ++ ':' :: svc))
    (hname : ':' ∉ name) (hsvc : ':' ∈ svc) :
    lookupNames (name ++ ':' :: svc) = .ofText (name ++ ':' :: svc) (some (':' :: svc)) := by
  rw [lookupNames_of_not_brackets h, nodeNames_eq_more hname hsvc, Option.map_some,
    List.drop_left]
  rfl

theorem lookupNames_of_none (h : ¬∃ v6 rest, InBrackets v6 rest host) (hcolon : ':' ∉ host) :
    lookupNames host = .ofText host none := by
  rw [lookupNames_of_not_brackets h, nodeNames_eq_none hcolon]
  rfl

end Names

/-! ### The hosts that are split -/

section Split

variable {host v6 rest : List Char}

theorem length_cString_append (s t : List Char) : (cString s).length ≤ (cString (s ++ t)).length := by
  induction s with
  | nil => exact Nat.zero_le _
  | cons c s ih =>
    rw [List.cons_append, cString, cString, List.takeWhile_cons, List.takeWhile_cons]
    split
    · exact Nat.succ_le_succ ih
    · exact Nat.le_refl _

/-- The text in brackets is not read for the host. -/
theorem cString_host_ne (h : InBrackets v6 rest host) : cString host ≠ cString v6 := by
  intro heq
  have hlength := congrArg List.length heq
  have hle := length_cString_append v6 (']' :: rest)
  have hhost : cString host = '[' :: cString (v6 ++ ']' :: rest) := by
    rw [h.2.2]
    rfl
  rw [hhost, List.length_cons] at hlength
  omega

theorem count_eq_one (h : host.count ':' = 1) :
    ∃ name svc, host = name ++ ':' :: svc ∧ ':' ∉ name ∧ ':' ∉ svc := by
  have hmem : ':' ∈ host := List.count_pos_iff.mp (by omega)
  obtain ⟨name, svc, rfl, hname⟩ := List.eq_append_cons_of_mem hmem
  rw [List.count_append, List.count_cons_self, List.count_eq_zero.mpr hname] at h
  exact ⟨name, svc, rfl, hname, List.count_eq_zero.mp (by omega)⟩

theorem one_lt_count (h : 1 < host.count ':') :
    ∃ name svc, host = name ++ ':' :: svc ∧ ':' ∉ name ∧ ':' ∈ svc := by
  have hmem : ':' ∈ host := List.count_pos_iff.mp (by omega)
  obtain ⟨name, svc, rfl, hname⟩ := List.eq_append_cons_of_mem hmem
  rw [List.count_append, List.count_cons_self, List.count_eq_zero.mpr hname] at h
  exact ⟨name, svc, rfl, hname, List.count_pos_iff.mp (by omega)⟩

theorem splitsHost_of_bracketed (h : Bracketed host) : SplitsHost host where
  bracketService _ _ hin := lookupNames_of_brackets hin
  bracket _ hin := lookupNames_of_brackets hin
  nameService _ _ hnot := absurd h hnot
  other hnot := absurd h hnot

theorem splitsHost_of_count (h : ¬∃ v6 rest, InBrackets v6 rest host)
    (hcount : host.count ':' ≤ 1) (hhead : host.head? ≠ some ':') : SplitsHost host where
  bracketService _ _ hin := absurd ⟨_, _, hin⟩ h
  bracket _ hin := absurd ⟨_, _, hin⟩ h
  nameService name svc _ hname hsvc heq := by
    subst heq
    have hne : name ≠ [] := by
      rintro rfl
      exact hhead rfl
    rw [lookupNames_of_one h hname hsvc, if_neg hne]
  other _ hone := lookupNames_of_none h (List.count_eq_zero.mp (by omega))

/-- What follows the bracket is dropped. -/
theorem not_splitsHost_of_brackets (h : InBrackets v6 rest host) (hnot : ¬Bracketed host) :
    ¬SplitsHost host := by
  intro hsplit
  have hhead : rest.head? ≠ some ':' := by
    intro hcolon
    obtain ⟨svc, rfl⟩ := List.head?_eq_some_iff.mp hcolon
    exact hnot ⟨v6, _, h, .inr ⟨svc, rfl⟩⟩
  have hnames := lookupNames_of_brackets h
  rw [if_neg hhead] at hnames
  by_cases hcount : host.count ':' = 1
  · obtain ⟨name, svc, heq, hname, hsvc⟩ := count_eq_one hcount
    have hservice := hsplit.nameService name svc hnot hname hsvc heq
    cases congrArg Names.service (hnames.symm.trans hservice)
  · have hnode := congrArg Names.node (hnames.symm.trans (hsplit.other hnot hcount))
    exact cString_host_ne h hnode.symm

theorem splitsHost_iff_of_not_brackets (h : ¬∃ v6 rest, InBrackets v6 rest host) :
    SplitsHost host ↔ host.count ':' ≤ 1 ∧ host.head? ≠ some ':' := by
  have hnot : ¬Bracketed host := fun ⟨v6, rest, hin, _⟩ ↦ h ⟨v6, rest, hin⟩
  refine ⟨fun hsplit ↦ ?_, fun ⟨hcount, hhead⟩ ↦ splitsHost_of_count h hcount hhead⟩
  have hcount : host.count ':' ≤ 1 := by
    by_contra hmore
    have hnames := hsplit.other hnot (by omega)
    obtain ⟨name, svc, rfl, hname, hsvc⟩ := one_lt_count (Nat.not_le.mp hmore)
    rw [lookupNames_of_more h hname hsvc] at hnames
    cases congrArg Names.service hnames
  refine ⟨hcount, fun hhead ↦ ?_⟩
  obtain ⟨svc, rfl⟩ := List.head?_eq_some_iff.mp hhead
  have hsvc : ':' ∉ svc := by
    rw [List.count_cons_self] at hcount
    exact List.count_eq_zero.mp (by omega)
  have hnames := hsplit.nameService [] svc hnot List.not_mem_nil hsvc rfl
  have hcode : lookupNames ([] ++ ':' :: svc) = .ofText ([] ++ ':' :: svc) (some svc) :=
    lookupNames_of_one h List.not_mem_nil hsvc
  cases congrArg Names.node (hcode.symm.trans hnames)

end Split

/-- The names of a host are found if it is an address in brackets with nothing or a service behind
it, or does not begin with one and has at most one colon, which is not its first character. -/
theorem hostNames (host : List Char) : SplitsHost host ↔ Bracketed host ∨
    (¬∃ v6 rest, InBrackets v6 rest host) ∧ host.count ':' ≤ 1 ∧ host.head? ≠ some ':' := by
  by_cases h : ∃ v6 rest, InBrackets v6 rest host
  · rw [or_iff_left (fun hright ↦ hright.1 h)]
    obtain ⟨v6, rest, hin⟩ := h
    constructor
    · intro hsplit
      by_contra hnot
      exact not_splitsHost_of_brackets hin hnot hsplit
    · exact splitsHost_of_bracketed
  · have hnot : ¬Bracketed host := fun ⟨v6, rest, hin, _⟩ ↦ h ⟨v6, rest, hin⟩
    rw [or_iff_right hnot, and_iff_right h]
    exact splitsHost_iff_of_not_brackets h

/-- The address of IPv6 for the host itself is looked up with the service `::1`. -/
theorem not_hostNames_loopback : ¬ ∀ host : List Char, SplitsHost host := by
  intro h
  have hbracketed : ¬Bracketed "::1".toList := by
    rintro ⟨v6, rest, ⟨-, -, heq⟩, -⟩
    cases heq
  have hnames := (h "::1".toList).other hbracketed (by decide)
  exact absurd hnames (by decide)

end Rsylar.Address
