import Conformance.Graph
import Mathlib.Data.List.Chain

/-!
# Walks

What it means that one module leads to another, on any relation of single steps: a list is a walk
when each item is one step before the next, and has one step less than items. `IsShortest` says that
no walk between the same ends is shorter, `IsFirstShortest` that of the shortest ones it comes first
when its stops are compared one after the other.
-/

namespace Conformance

variable {α : Type}

/-- Does `path` lead from `a` to `b` by at least one step? -/
def IsWalk (step : α → α → Prop) (a b : α) (path : List α) : Prop :=
  2 ≤ path.length ∧ path.head? = some a ∧ path.getLast? = some b ∧ path.IsChain step

/-- Is there a walk from `a` to `b`? -/
def Leads (step : α → α → Prop) (a b : α) : Prop :=
  ∃ path, IsWalk step a b path

/-- Is `path` a walk of the least number of steps? -/
def IsShortest (step : α → α → Prop) (a b : α) (path : List α) : Prop :=
  IsWalk step a b path ∧ ∀ other, IsWalk step a b other → path.length ≤ other.length

/-- Is `path` the shortest walk that comes first, its stops compared by their ranks one after the
other? -/
def IsFirstShortest (step : α → α → Prop) (rank : α → Nat) (a b : α) (path : List α) : Prop :=
  IsShortest step a b path ∧
    ∀ other, IsShortest step a b other → path.map rank ≤ other.map rank

namespace ModuleGraph

/-- Is there an edge between two modules that are both on the list? -/
def StepWithin (g : ModuleGraph) (modules : List Module) (a b : Module) : Prop :=
  a ∈ modules ∧ b ∈ modules ∧ g.hasEdge a b = true

end ModuleGraph

end Conformance
