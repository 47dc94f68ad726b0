import Conformance.Graph
import Conformance.Graph.Distance

/-!
# Shortest walks between all modules

A `Closure` holds, for a list of modules, which of them are joined by edges of a graph and how long
the shortest walk from each to each is, over these modules alone. A walk has at least one edge, so
the distance from a module to itself is the length of its shortest cycle. Distances come from
allowing one vertex after the other as a stop on the way.
-/

namespace Conformance

/-- A square table. -/
abbrev Grid (n : Nat) (α : Type) := Vector (Vector α n) n

/-- The table of a function. -/
def Grid.tabulate {n : Nat} {α : Type} (f : Fin n → Fin n → α) : Grid n α :=
  Vector.ofFn fun i => Vector.ofFn fun j => f i j

/-- The entry in a row and column. -/
def Grid.entry {n : Nat} {α : Type} (g : Grid n α) (i j : Fin n) : α :=
  g[i][j]

@[simp]
theorem Grid.entry_tabulate {n : Nat} {α : Type} (f : Fin n → Fin n → α) (i j : Fin n) :
    (Grid.tabulate f).entry i j = f i j := by
  simp [Grid.entry, Grid.tabulate]

/-- Which modules are joined by edges, and the distances between them. -/
structure Closure where
  vertices : List Module
  adjacent : Grid vertices.length Bool
  distance : Grid vertices.length Distance

namespace Closure

/-- The distances of single edges. -/
def oneStep {n : Nat} (adjacent : Grid n Bool) : Grid n Distance :=
  .tabulate fun i j => if adjacent.entry i j then .finite 1 else .infinite

/-- The distances when walks may also stop at `k` on their way. -/
def allowStop {n : Nat} (d : Grid n Distance) (k : Fin n) : Grid n Distance :=
  .tabulate fun i j => Distance.min (d.entry i j) ((d.entry i k).plus (d.entry k j))

/-- The distances when walks may stop anywhere. -/
def distances {n : Nat} (adjacent : Grid n Bool) : Grid n Distance :=
  (List.finRange n).foldl allowStop (oneStep adjacent)

/-- The closure of a graph over some modules; each of them counts once. -/
def ofGraph (g : ModuleGraph) (modules : List Module) : Closure :=
  let vertices := distinct modules
  let adjacent : Grid vertices.length Bool :=
    .tabulate fun i j => g.hasEdge vertices[i] vertices[j]
  ⟨vertices, adjacent, distances adjacent⟩

/-- The position of a module. -/
def index? (c : Closure) (m : Module) : Option (Fin c.vertices.length) :=
  c.vertices.finIdxOf? m

/-- The distance between two modules; none if one of them is not in the closure. -/
def distance? (c : Closure) (source dest : Module) : Option Distance := do
  return c.distance.entry (← c.index? source) (← c.index? dest)

/-- Does a walk lead from one module to the other? -/
def isReachable (c : Closure) (source dest : Module) : Bool :=
  (c.distance? source dest).any Distance.isFinite

/-- Is `s` on the way from `i` to `j` when `left` steps are to be made behind it? -/
def leads (c : Closure) (i j : Fin c.vertices.length) (left : Nat) (s : Fin c.vertices.length) :
    Bool :=
  -- the distance of `j` to itself is that of a cycle, so the last step has to be told apart
  c.adjacent.entry i s
    && if left = 0 then s = j else c.distance.entry s j = .finite left

/-- The stops of a walk of so many steps from `i` to `j`, each the first vertex that is on the way.
-/
def stops? (c : Closure) (j : Fin c.vertices.length) :
    Nat → Fin c.vertices.length → Option (List (Fin c.vertices.length))
  | 0, _ => some []
  | left + 1, i => do
    let s ← (List.finRange c.vertices.length).find? (c.leads i j left)
    return s :: (← c.stops? j left s)

/-- A shortest walk between two positions, or nothing if there is none. -/
def walkBetween (c : Closure) (i j : Fin c.vertices.length) : List (Fin c.vertices.length) :=
  match c.distance.entry i j with
  | .finite steps => ((c.stops? j steps i).map (i :: ·)).getD []
  | .infinite => []

/-- A shortest walk between two modules, both included; empty if there is none, and nothing at all
if one of them is not in the closure. Of several it is the one whose stops come first in the order
of vertices. -/
def path? (c : Closure) (source dest : Module) : Option (List Module) := do
  let walk := c.walkBetween (← c.index? source) (← c.index? dest)
  return walk.map fun i => c.vertices[i]

/-- Are both modules in the closure and joined by an edge? -/
def isEdge (c : Closure) (source dest : Module) : Bool :=
  match c.index? source, c.index? dest with
  | some i, some j => c.adjacent.entry i j
  | _, _ => false

/-- Is each module of the list joined to the next one by an edge? -/
def isWalk (c : Closure) : List Module → Bool
  | a :: b :: rest => c.isEdge a b && c.isWalk (b :: rest)
  | _ => true

end Closure

end Conformance
