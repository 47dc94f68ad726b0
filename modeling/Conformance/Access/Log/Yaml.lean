import Conformance.Access.Log
import Conformance.Yaml.Node

/-!
# Access logs as YAML

A log is a map with its roots, a root a map with name, elements and accesses, and an access a map
with source, destination and kind. Elements, accesses, kind and the roots may be left out, other
fields are passed over, and where nothing is written a list or map has no contents. Any scalar is a
name.
-/

namespace Conformance

open Yaml

namespace Yaml.Node

/-- The text of a scalar. -/
def text? : Node → Option String
  | scalar text _ => some text
  | _ => none

/-- The items of a list. -/
def items? : Node → Option (List Node)
  | list items => some items
  | scalar "" true => some []
  | _ => none

/-- The fields of a record by name. Each of `names` may come once. -/
def fields? (names : List String) : Node → Option (List (String × Node))
  | scalar "" true => some []
  | map fields => do
    let named ← fields.mapM fun (key, value) => key.text?.map fun name => (name, value)
    if names.all fun n => (named.map Prod.fst).count n ≤ 1 then some named else none
  | _ => none

/-- The list of values in a field, which may be left out. -/
def listIn? {α : Type} (read : Node → Option α) (name : String) (fields : List (String × Node)) :
    Option (List α) :=
  match fields.lookup name with
  | some node => do (← node.items?).mapM read
  | none => some []

end Yaml.Node

namespace AccessRecord

/-- The access in a node. -/
def ofYaml? (node : Node) : Option AccessRecord := do
  let fields ← node.fields? ["source", "dest", "kind"]
  let source ← (← fields.lookup "source").text?
  let dest ← (← fields.lookup "dest").text?
  match fields.lookup "kind" with
  | some kind => return ⟨source, dest, ← AccessKind.ofName? (← kind.text?)⟩
  | none => return ⟨source, dest, .other⟩

end AccessRecord

namespace AccessRoot

/-- The root in a node. -/
def ofYaml? (node : Node) : Option AccessRoot := do
  let fields ← node.fields? ["name", "elements", "accesses"]
  let name ← (← fields.lookup "name").text?
  return ⟨name, ← Node.listIn? Node.text? "elements" fields,
    ← Node.listIn? AccessRecord.ofYaml? "accesses" fields⟩

end AccessRoot

namespace AccessLog

/-- The log in a node. -/
def ofYaml? (node : Node) : Option AccessLog := do
  let fields ← node.fields? ["roots"]
  return ⟨← Node.listIn? AccessRoot.ofYaml? "roots" fields⟩

/-- Reads the text of a log; none if it is refused. -/
def ofYamlText? (text : String) : Option AccessLog := do
  ofYaml? (← Node.ofText? text)

end AccessLog

end Conformance
