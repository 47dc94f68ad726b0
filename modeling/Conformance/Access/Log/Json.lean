import Conformance.Access.Log
import Conformance.Json.Reader
import Conformance.Json.Value

/-!
# Access logs as JSON

A log is an object with its roots, a root an object with name, elements and accesses, and an access
an object with source, destination and kind. In reading, a list of the fields in this order stands
for an object; elements, accesses, kind and the roots themselves may be left out; other fields are
skipped.
-/

namespace Conformance

open Json

/-! ## Writing -/

/-- An access as JSON. -/
def AccessRecord.toJson (a : AccessRecord) : Value :=
  .object [("source", .text a.source), ("dest", .text a.dest), ("kind", .text a.kind.name)]

/-- A root as JSON. -/
def AccessRoot.toJson (r : AccessRoot) : Value :=
  .object
    [("name", .text r.name), ("elements", .texts r.elements),
      ("accesses", .list (r.accesses.map AccessRecord.toJson))]

/-- A log as JSON. -/
def AccessLog.toJson (log : AccessLog) : Value :=
  .object [("roots", .list (log.roots.map AccessRoot.toJson))]

/-- A log as the text of its JSON. -/
def AccessLog.toJsonText (log : AccessLog) : String :=
  log.toJson.toText

/-! ## Reading -/

open Reader

namespace AccessKind

/-- Reads the name of a kind. -/
def readName : Reader AccessKind := do
  match ← peekPiece? with
  | none => ended
  | some c =>
    if c = '"' then
      drop
      let name ← stringRest
      match ofName? name with
      | some k => return k
      | none => fail (.data (.unknownVariant name (all.map AccessKind.name)))
    -- nothing but a string can be a name
    else malformed

/-- Reads the value null. -/
def readNull : Reader Unit := do
  match ← peekPiece? with
  | none => ended
  | some c => if c = 'n' then word "null".toList else invalidType "unit"

/-- Reads a kind: its name, or an object with null under its name. -/
def read : Reader AccessKind := do
  match ← peekPiece? with
  | none => ended
  | some c =>
    if c = '"' then readName
    else if c = '\x7b' then
      drop
      let k ← readName
      colon
      readNull
      close '\x7d'
      return k
    else malformed

end AccessKind

namespace AccessRecord

/-- What has been read of an access. -/
structure Fields where
  source : Option String
  dest : Option String
  kind : Option AccessKind

/-- How to read the value of a field. -/
def readField (name : String) : Option (Fields → Reader Fields) :=
  if name = "source" then
    some fun s => return { s with source := some (← once name s.source string) }
  else if name = "dest" then
    some fun s => return { s with dest := some (← once name s.dest string) }
  else if name = "kind" then
    some fun s => return { s with kind := some (← once name s.kind AccessKind.read) }
  else none

/-- Reads the fields of an access. -/
def readObject : Reader AccessRecord := do
  let s ← fieldsOf readField ⟨none, none, none⟩
  let source ← required "source" s.source
  let dest ← required "dest" s.dest
  return ⟨source, dest, s.kind.getD .other⟩

/-- Reads an access from a list. -/
def readList : Reader AccessRecord := do
  let wanted := "struct AccessRecord with 3 elements"
  let source ← requiredItem string 0 wanted
  let dest ← requiredItem string 1 wanted
  let kind ← item? AccessKind.read false
  return ⟨source, dest, kind.getD .other⟩

/-- Reads an access. -/
def read : Reader AccessRecord :=
  recordOf "struct AccessRecord" readObject readList

end AccessRecord

namespace AccessRoot

/-- What has been read of a root. -/
structure Fields where
  name : Option String
  elements : Option (List String)
  accesses : Option (List AccessRecord)

/-- How to read the value of a field. -/
def readField (name : String) : Option (Fields → Reader Fields) :=
  if name = "name" then
    some fun s => return { s with name := some (← once name s.name string) }
  else if name = "elements" then
    some fun s => return { s with elements := some (← once name s.elements (listOf string)) }
  else if name = "accesses" then
    some fun s =>
      return { s with accesses := some (← once name s.accesses (listOf AccessRecord.read)) }
  else none

/-- Reads the fields of a root. -/
def readObject : Reader AccessRoot := do
  let s ← fieldsOf readField ⟨none, none, none⟩
  let name ← required "name" s.name
  return ⟨name, s.elements.getD [], s.accesses.getD []⟩

/-- Reads a root from a list. -/
def readList : Reader AccessRoot := do
  let name ← requiredItem string 0 "struct ClasspathRoot with 3 elements"
  let elements ← item? (listOf string) false
  let accesses ← item? (listOf AccessRecord.read) false
  return ⟨name, elements.getD [], accesses.getD []⟩

/-- Reads a root. -/
def read : Reader AccessRoot :=
  recordOf "struct ClasspathRoot" readObject readList

end AccessRoot

namespace AccessLog

/-- How to read the value of a field. -/
def readField (name : String) :
    Option (Option (List AccessRoot) → Reader (Option (List AccessRoot))) :=
  if name = "roots" then
    some fun roots => return some (← once name roots (listOf AccessRoot.read))
  else none

/-- Reads the fields of a log. -/
def readObject : Reader AccessLog := do
  return ⟨(← fieldsOf readField none).getD []⟩

/-- Reads a log from a list. -/
def readList : Reader AccessLog := do
  return ⟨(← item? (listOf AccessRoot.read) true).getD []⟩

/-- Reads a log. -/
def read : Reader AccessLog :=
  recordOf "struct AccessLog" readObject readList

/-- Reads the text of a log. -/
def ofJsonText (text : String) : Except Failure AccessLog :=
  whole read text

end AccessLog

end Conformance
