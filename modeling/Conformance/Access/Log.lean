import Conformance.Access

/-!
# Access logs

Accesses recorded ahead of time, root by root. `AccessLog.events` replays them: of each root first
its elements, then its accesses.
-/

namespace Conformance

/-- An access on record. -/
structure AccessRecord where
  source : String
  dest : String
  kind : AccessKind
deriving DecidableEq, Repr

/-- What was found in one place that code is loaded from. -/
structure AccessRoot where
  name : String
  elements : List String
  accesses : List AccessRecord
deriving DecidableEq, Repr

/-- Recorded accesses of several roots. -/
structure AccessLog where
  roots : List AccessRoot
deriving DecidableEq, Repr

namespace AccessRoot

/-- A root without contents. -/
def empty (name : String) : AccessRoot := ⟨name, [], []⟩

/-- Records an event behind the others of its sort. -/
def record (r : AccessRoot) : AccessEvent → AccessRoot
  | .node element => { r with elements := r.elements ++ [element] }
  | .access source dest kind => { r with accesses := r.accesses ++ [⟨source, dest, kind⟩] }

/-- The events that a root replays. -/
def events (r : AccessRoot) : List AccessEvent :=
  r.elements.map .node ++ r.accesses.map fun a => .access a.source a.dest a.kind

end AccessRoot

namespace AccessLog

/-- The log without roots. -/
def empty : AccessLog := ⟨[]⟩

/-- Adds a root behind the others. -/
def addRoot (log : AccessLog) (name : String) : AccessLog :=
  ⟨log.roots ++ [.empty name]⟩

/-- Records an event in the last root; without a root it is not recorded. -/
def record (log : AccessLog) (e : AccessEvent) : AccessLog :=
  ⟨log.roots.modify (log.roots.length - 1) (·.record e)⟩

/-- The events that a log replays. -/
def events (log : AccessLog) : List AccessEvent :=
  log.roots.flatMap AccessRoot.events

/-- A log as the report of a scanner. -/
def scan (log : AccessLog) : Scan := ⟨log.events, none⟩

end AccessLog

end Conformance
