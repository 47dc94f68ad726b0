import Conformance.Access
import Conformance.Graph

/-!
# Surveys of code

A `Survey` turns the events of a scan into the graph of accesses between modules. An element belongs
to every declared module that contains it, and to the catch-all module if there is none. On the way
findings about the modules are noted: names that are used more than once, elements of more than one
module, and in the end modules without elements.
-/

namespace Conformance

/-- A finding of a survey. It is no violation. -/
inductive Diagnostic where
  | duplicateModuleName (name : String)
  /-- An element belongs to several declared modules, whose names are given. -/
  | ambiguousElement (element : String) (modules : List String)
  /-- No element belongs to the module. -/
  | deadModule (name : String)
deriving DecidableEq, Repr

/-- The wording of a finding. -/
def Diagnostic.text : Diagnostic → String
  | duplicateModuleName name =>
    s!"construction warning: module name `{name}` is used more than once"
  | ambiguousElement element modules =>
    let names := ", ".intercalate modules
    s!"ambiguous element `{element}` belongs to multiple modules: {names}"
  | deadModule name => s!"module `{name}` does not match any scanned element"

/-- A survey under way. -/
structure Survey where
  /-- The declared modules. -/
  modules : List Module
  /-- The catch-all module. -/
  other : Module
  graph : ModuleGraph
  /-- The findings so far, in the order in which they were made. -/
  diagnostics : List Diagnostic
  /-- For each declared module, whether an element was found in it. -/
  live : List Bool
deriving DecidableEq

namespace Survey

/-- The names that two or more of the modules have, in ascending order. -/
def repeatedNames (modules : List Module) : List String :=
  let names := modules.map Module.name
  ((distinct names).filter fun n => 1 < names.count n).mergeSort (· ≤ ·)

/-- The survey before the first event. -/
def start (modules : List Module) (other : Module) : Survey where
  modules := modules
  other := other
  graph := (ModuleGraph.empty.addModules modules).addModule other
  diagnostics := (repeatedNames modules).map .duplicateModuleName
  live := modules.map fun _ => false

/-- The declared modules that contain an element. -/
def owners (s : Survey) (element : String) : List Module :=
  s.modules.filter (·.contains element)

/-- The modules that an element belongs to, repetitions among the declared modules included. -/
def modulesOf (s : Survey) (element : String) : List Module :=
  if (s.owners element).isEmpty then [s.other] else s.owners element

/-- Has the element been reported to belong to several modules? -/
def isReported (s : Survey) (element : String) : Bool :=
  s.diagnostics.any fun
    | .ambiguousElement e _ => e = element
    | _ => false

/-- Takes note of an element: its modules are live, and if there are several the element is
reported, once. -/
def mention (s : Survey) (element : String) : Survey :=
  let owners := s.owners element
  { s with
    live := List.zipWith (fun live (m : Module) => live || m.contains element) s.live s.modules
    diagnostics :=
      if 1 < owners.length && !s.isReported element then
        s.diagnostics ++ [.ambiguousElement element (owners.map Module.name)]
      else s.diagnostics }

/-- Counts an access from each module of one element to each other module of another. -/
def connect (s : Survey) (source dest : String) : Survey :=
  let pairs := (distinct (s.modulesOf source)).flatMap fun a =>
    (distinct (s.modulesOf dest)).map fun b => (a, b)
  -- a module that both elements belong to gets no edge to itself
  { s with
    graph := (pairs.filter fun p => p.1 ≠ p.2).foldl (fun g p => g.addDependency p.1 p.2) s.graph }

/-- Takes in an event. -/
def record (s : Survey) : AccessEvent → Survey
  | .node element => s.mention element
  | .access source dest _ => ((s.mention source).mention dest).connect source dest

/-- Takes in several events in order. -/
def recordAll (s : Survey) (events : List AccessEvent) : Survey :=
  events.foldl record s

/-- The declared modules in which no element was found. -/
def deadModules (s : Survey) : List Module :=
  (s.modules.zip s.live).filterMap fun (m, live) => if live then none else some m

/-- All findings once the events are over. -/
def findings (s : Survey) : List Diagnostic :=
  s.diagnostics ++ s.deadModules.map fun m => .deadModule m.name

end Survey

end Conformance
