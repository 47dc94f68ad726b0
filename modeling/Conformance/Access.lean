/-!
# Accesses

What a scan of code reports, event by event: elements that were found, and accesses from one element
to another.
-/

namespace Conformance

/-- How an element refers to another. -/
inductive AccessKind where
  | invoke
  | fieldAccess
  | typeReference
  | inheritance
  | annotation
  | other
deriving DecidableEq, Repr

namespace AccessKind

/-- All kinds. -/
def all : List AccessKind :=
  [invoke, fieldAccess, typeReference, inheritance, annotation, other]

/-- The name of a kind in records. -/
def name : AccessKind → String
  | invoke => "invoke"
  | fieldAccess => "field_access"
  | typeReference => "type_reference"
  | inheritance => "inheritance"
  | annotation => "annotation"
  | other => "other"

/-- The kind of a name. -/
def ofName? (name : String) : Option AccessKind :=
  all.find? (·.name = name)

theorem ofName?_name (k : AccessKind) : ofName? k.name = some k := by
  cases k <;> decide

end AccessKind

/-- One report of a scan. -/
inductive AccessEvent where
  /-- The element was found. -/
  | node (element : String)
  /-- The element `source` refers to `dest`. -/
  | access (source dest : String) (kind : AccessKind)
deriving DecidableEq, Repr

namespace AccessEvent

/-- The elements that an event mentions, in order. -/
def elements : AccessEvent → List String
  | node element => [element]
  | access source dest _ => [source, dest]

end AccessEvent

/-- What a scanner reports: events, and at last an error text if the scan failed. -/
structure Scan where
  events : List AccessEvent
  failure : Option String
deriving DecidableEq, Repr

end Conformance
