import Mathlib.Data.String.Basic

/-!
# YAML nodes

The nodes of the YAML library as far as the source uses them. Emission and parsing are not modelled:
they are parameters where they are needed. An undefined node, which is what is found for a key that
is not there, is `none`.
-/

set_option autoImplicit false
set_option relaxedAutoImplicit false

namespace Rsylar

/-- `YAML::Node`. Keys are nodes, too. -/
inductive Yaml
  | null
  | scalar (value : String)
  | sequence (items : List Yaml)
  | map (entries : List (Yaml × Yaml))

/-- The exceptions of the library and those that the source throws itself. -/
inductive LoadError
  | parser
  | badSubscript
  | badConversion
  | logic (what : String)
deriving DecidableEq

namespace Yaml

/-- `Scalar()`, which is empty for a node that is no scalar. -/
def scalarText : Yaml → String
  | scalar value => value
  | _ => ""

/-- The text that a variable is set from. -/
def text (emit : Yaml → String) : Yaml → String
  | scalar value => value
  | n => emit n

def isScalar (key : String) : Yaml → Bool
  | scalar value => value = key
  | _ => false

/-- `node[key]` -/
def get (key : String) : Yaml → Except LoadError (Option Yaml)
  | map entries => .ok ((entries.find? fun entry ↦ entry.1.isScalar key).map Prod.snd)
  | scalar _ => .error .badSubscript
  | _ => .ok none

/-- `as<std::string>()` -/
def asString : Yaml → Except LoadError String
  | scalar value => .ok value
  | _ => .error .badConversion

/-- The text under a key, empty when there is none. -/
def getString (key : String) (n : Yaml) : Except LoadError String := do
  match ← n.get key with
  | some value => value.asString
  | none => return ""

/-- `node[x]` for the indices below `size()`; an undefined node is read like one without a value. -/
def items : Yaml → List Yaml
  | sequence items => items
  | map entries =>
    (List.range entries.length).map fun x ↦
      ((entries.find? fun entry ↦ entry.1.isScalar (toString x)).map Prod.snd).getD .null
  | _ => []

/-- An entry of a map of texts. -/
def field (key value : String) : Yaml × Yaml := (scalar key, scalar value)

end Yaml

end Rsylar
