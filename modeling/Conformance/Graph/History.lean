import Conformance.Graph

/-!
# Histories of graphs

A graph grows by vertices and accesses. Its history is the list of all calls, accesses that are
dropped included.
-/

namespace Conformance.ModuleGraph

/-- A call that a graph can grow by. -/
inductive Step where
  | addModule (m : Module)
  | addDependency (source dest : Module)
deriving DecidableEq

/-- The graph after a call. -/
def after (g : ModuleGraph) : Step → ModuleGraph
  | .addModule m => g.addModule m
  | .addDependency source dest => g.addDependency source dest

/-- The graph after a history. -/
def afterAll (g : ModuleGraph) (history : List Step) : ModuleGraph :=
  history.foldl after g

end Conformance.ModuleGraph
