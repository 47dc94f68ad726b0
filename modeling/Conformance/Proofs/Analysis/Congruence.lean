import Conformance.Analysis
import Conformance.Proofs.Graph.Degrees

/-!
# What an analysis reads of a graph

An analysis looks at the vertices of the actual graph and at which of them are joined, and never at
how often: `run_congr` says that graphs which agree on both have the same results.
-/

namespace Conformance

/-- Do two graphs have the same vertices, in one order, and edges between the same ones? -/
structure ModuleGraph.SameEdges (g h : ModuleGraph) : Prop where
  modules : g.modules = h.modules
  hasEdge : ∀ a b, g.hasEdge a b = h.hasEdge a b

namespace ModuleGraph.SameEdges

variable {g h : ModuleGraph}

/-- Edges that come in are counted from the vertices that they come from. -/
theorem fanIn? (same : g.SameEdges h) (m : Module) : g.fanIn? m = h.fanIn? m := by
  simp only [fanIn?_eq, same.modules, same.hasEdge]

theorem fanOut? (same : g.SameEdges h) (m : Module) : g.fanOut? m = h.fanOut? m := by
  simp only [fanOut?_eq, same.modules, same.hasEdge]

/-- A closure is made from vertices and edges alone. -/
theorem ofGraph (same : g.SameEdges h) (modules : List Module) :
    Closure.ofGraph g modules = Closure.ofGraph h modules := by
  simp only [Closure.ofGraph, same.hasEdge]

end ModuleGraph.SameEdges

namespace Analysis

variable {d : Definition} {g h : ModuleGraph} {other : Module}

/-- Metrics count edges, not accesses. -/
theorem metrics_congr (same : g.SameEdges h) : metrics ⟨d, g, other⟩ = metrics ⟨d, h, other⟩ := by
  simp only [metrics, same.fanIn?, same.fanOut?, same.hasEdge]

theorem actualClosure_congr (same : g.SameEdges h) :
    actualClosure ⟨d, g, other⟩ = actualClosure ⟨d, h, other⟩ :=
  same.ofGraph _

/-- Graphs with the same vertices and edges have the same result in either mode. -/
theorem run_congr (same : g.SameEdges h) (mode : AnalysisMode) :
    run ⟨d, g, other⟩ mode = run ⟨d, h, other⟩ mode := by
  have hclosure : actualClosure ⟨d, g, other⟩ = actualClosure ⟨d, h, other⟩ :=
    actualClosure_congr same
  have hmetrics : metrics ⟨d, g, other⟩ = metrics ⟨d, h, other⟩ := metrics_congr same
  cases mode with
  -- the rules and what they specify do not come from the graph
  | strict =>
    have hspecified : specifiedClosure ⟨d, g, other⟩ = specifiedClosure ⟨d, h, other⟩ := rfl
    have htouches : touchesOther ⟨d, g, other⟩ = touchesOther ⟨d, h, other⟩ := rfl
    simp only [run, strict, hclosure, hmetrics, hspecified, htouches]
  | loose => simp only [run, loose, hclosure, hmetrics]

/-- An analysis of a definition with modules has a result. -/
theorem exists_run {a : Analysis} (h : a.definition.modules ≠ []) (mode : AnalysisMode) :
    ∃ result, a.run mode = .ok result := by
  have hempty : a.definition.modules.isEmpty = false := by simpa using h
  cases mode with
  | strict => exact ⟨_, by simp only [run, strict, hempty]; rfl⟩
  | loose => exact ⟨_, by simp only [run, loose, hempty]; rfl⟩

end Analysis

end Conformance
