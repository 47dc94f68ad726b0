import Conformance.Proofs.Analysis.Metrics
import Conformance.Proofs.Graph.Listings

/-!
# Strangers in the metrics

Metrics take the edges at a vertex and leave out a loop and the edge that joins it to the catch-all
module. Both were counted before, so nothing is taken off that is not there. What is left are the
edges to other declared modules and those to strangers, vertices of the code that are neither
declared nor the catch-all module (`metrics_count_neighbours`). So metrics count declared modules
only as long as no stranger is joined to a declared module; an edge of one counts
(`fanIn_strangerSample`).
-/

namespace Conformance

namespace ModuleGraph

variable {g : ModuleGraph} {m : Module} {i d : Nat}

/-! ## Edges at a vertex -/

/-- The edges to a vertex are its fan-in and a loop, if it has one. -/
theorem countP_dest_eq (hi : g.index? m = some i) (hd : g.fanIn? m = some d) :
    (g.edges.countP fun e => e.dest = i) = d + (g.hasEdge m m).toNat := by
  rw [fanIn?_eq_countP_edges, hi, Option.map_some, Option.some.injEq] at hd
  rw [countP_dest_eq_add, hd, hasLoop_eq_hasEdge hi]

/-- The edges from a vertex are its fan-out and a loop, if it has one. -/
theorem countP_source_eq (hi : g.index? m = some i) (hd : g.fanOut? m = some d) :
    (g.edges.countP fun e => e.source = i) = d + (g.hasEdge m m).toNat := by
  rw [fanOut?_eq_countP_edges, hi, Option.map_some, Option.some.injEq] at hd
  rw [countP_source_eq_add, hd, hasLoop_eq_hasEdge hi]

end ModuleGraph

namespace Analysis

variable {a : Analysis} {m : Module}

/-! ## Neighbours -/

/-- The declared modules other than one of them and the catch-all module. -/
def others (a : Analysis) (m : Module) : List Module :=
  a.definition.modules.filter fun n => n ≠ m && n ≠ a.other

/-- The vertices of the code that are neither declared nor the catch-all module. -/
def strangers (a : Analysis) : List Module :=
  a.actual.modules.filter fun n => n ∉ a.definition.modules && n ≠ a.other

/-- A vertex joined to a declared module is declared or a stranger, unless it is that module or the
catch-all one. -/
theorem countP_neighbours (hm : m ∈ a.definition.modules) {joined : Module → Bool}
    (hjoined : ∀ n, joined n = true → n ∈ a.actual.modules) :
    (a.actual.modules.countP fun n => n ≠ a.other && (n ≠ m && joined n))
      = (a.others m).countP joined + a.strangers.countP joined := by
  have hdeclared : (a.actual.modules.countP fun n =>
        (n ≠ a.other && (n ≠ m && joined n)) && n ∈ a.definition.modules)
      = (a.others m).countP joined := by
    rw [others, List.countP_filter, List.countP_eq_length_filter, List.countP_eq_length_filter]
    refine List.Perm.length_eq ((List.perm_ext_iff_of_nodup (a.actual.modules_nodup.filter _)
      ((a.definition.names_nodup.of_map _).filter _)).2 fun n => ?_)
    simp only [List.mem_filter, Bool.and_eq_true, decide_eq_true_eq]
    have hmem := hjoined n
    tauto
  have hundeclared : (a.actual.modules.countP fun n =>
        (n ≠ a.other && (n ≠ m && joined n)) && !decide (n ∈ a.definition.modules))
      = a.strangers.countP joined := by
    rw [strangers, List.countP_filter]
    refine List.countP_congr fun n _ => ?_
    simp only [Bool.and_eq_true, decide_eq_true_eq, Bool.not_eq_true', decide_eq_false_iff_not]
    have hne : n ∉ a.definition.modules → n ≠ m := fun hn heq => hn (heq ▸ hm)
    tauto
  rw [countP_eq_add _ _ fun n => n ∈ a.definition.modules, hdeclared, hundeclared]

/-! ## Metrics -/

/-- The entries of the metrics, and what they count. -/
theorem mem_metrics {e : ModuleMetrics} (h : e ∈ a.metrics) :
    (e.module ∈ a.definition.modules ∧ e.module ≠ a.other)
      ∧ e.fanIn = (a.others e.module).countP (a.actual.hasEdge · e.module)
        + a.strangers.countP (a.actual.hasEdge · e.module)
      ∧ e.fanOut = (a.others e.module).countP (a.actual.hasEdge e.module)
        + a.strangers.countP (a.actual.hasEdge e.module) := by
  rw [metrics_eq] at h
  obtain ⟨m, hm, rfl⟩ := List.mem_map.1 h
  rw [List.mem_filter, decide_eq_true_eq] at hm
  exact ⟨hm, countP_neighbours hm.1 fun n hn => (ModuleGraph.mem_of_hasEdge hn).1,
    countP_neighbours hm.1 fun n hn => (ModuleGraph.mem_of_hasEdge hn).2⟩

/-- The subtractions of the metrics take off no more than was counted: of the edges to a vertex, and
of those from it, the metrics leave out a loop and the edge that joins it to the catch-all module,
each if it is there. -/
theorem countP_edges_of_mem_metrics {e : ModuleMetrics} (h : e ∈ a.metrics) {i : Nat}
    (hi : a.actual.index? e.module = some i) :
    (a.actual.edges.countP fun x => x.dest = i)
        = e.fanIn + (a.actual.hasEdge a.other e.module).toNat
          + (a.actual.hasEdge e.module e.module).toNat
      ∧ (a.actual.edges.countP fun x => x.source = i)
        = e.fanOut + (a.actual.hasEdge e.module a.other).toNat
          + (a.actual.hasEdge e.module e.module).toNat := by
  have hne : a.other ≠ e.module := (mem_metrics h).1.2.symm
  rw [metrics_eq] at h
  obtain ⟨m, -, rfl⟩ := List.mem_map.1 h
  obtain ⟨d, hd⟩ : ∃ d, a.actual.fanIn? m = some d := ⟨_, by rw [ModuleGraph.fanIn?, hi]; rfl⟩
  obtain ⟨d', hd'⟩ : ∃ d, a.actual.fanOut? m = some d := ⟨_, by rw [ModuleGraph.fanOut?, hi]; rfl⟩
  have hin := ModuleGraph.getD_fanIn?_eq a.actual hne
  have hout := ModuleGraph.getD_fanOut?_eq a.actual hne
  rw [hd, Option.getD_some] at hin
  rw [hd', Option.getD_some] at hout
  rw [ModuleGraph.countP_dest_eq hi hd, ModuleGraph.countP_source_eq hi hd', hin, hout]
  exact ⟨rfl, rfl⟩

/-- Of what is no vertex nothing is counted and nothing is taken off. -/
theorem metrics_of_notMem {e : ModuleMetrics} (h : e ∈ a.metrics)
    (hvertex : e.module ∉ a.actual.modules) :
    e.fanIn = 0 ∧ e.fanOut = 0 ∧ a.actual.hasEdge a.other e.module = false
      ∧ a.actual.hasEdge e.module a.other = false := by
  have hto : ∀ n, a.actual.hasEdge n e.module = false := fun n =>
    Bool.eq_false_iff.2 fun hn => hvertex (ModuleGraph.mem_of_hasEdge hn).2
  have hfrom : ∀ n, a.actual.hasEdge e.module n = false := fun n =>
    Bool.eq_false_iff.2 fun hn => hvertex (ModuleGraph.mem_of_hasEdge hn).1
  obtain ⟨-, hin, hout⟩ := mem_metrics h
  refine ⟨?_, ?_, hto _, hfrom _⟩
  · rw [hin]
    simp [hto]
  · rw [hout]
    simp [hfrom]

/-- A count is that of the declared modules alone just if no stranger is counted. -/
theorem eq_others_iff {e : ModuleMetrics} {count : Nat} {joined : Module → Bool}
    (hcount : count = (a.others e.module).countP joined + a.strangers.countP joined) :
    count = (a.others e.module).countP joined ↔ ∀ n ∈ a.strangers, joined n = false := by
  rw [hcount, Nat.add_eq_left, List.countP_eq_zero]
  simp only [Bool.not_eq_true]

/-- Metrics have one entry for each declared module but the catch-all one, in the order of
declarations. An entry counts the other declared modules with an edge to its module, or from it, and
with them the strangers with such an edge; so it counts declared modules alone just if there is no
such stranger. What is no vertex has no edges, and neither subtraction goes below zero: of a vertex
the edges that are counted first are those of the entry, a loop, and the edge that joins it to the
catch-all module. -/
theorem metrics_count_neighbours (a : Analysis) :
    a.metrics.map ModuleMetrics.module = a.definition.modules.filter (· ≠ a.other)
      ∧ ∀ e ∈ a.metrics,
        (e.fanIn = (a.others e.module).countP (a.actual.hasEdge · e.module)
            + a.strangers.countP (a.actual.hasEdge · e.module)
          ∧ e.fanOut = (a.others e.module).countP (a.actual.hasEdge e.module)
            + a.strangers.countP (a.actual.hasEdge e.module))
        ∧ (e.fanIn = (a.others e.module).countP (a.actual.hasEdge · e.module)
            ↔ ∀ n ∈ a.strangers, a.actual.hasEdge n e.module = false)
        ∧ (e.fanOut = (a.others e.module).countP (a.actual.hasEdge e.module)
            ↔ ∀ n ∈ a.strangers, a.actual.hasEdge e.module n = false)
        ∧ (e.module ∉ a.actual.modules → e.fanIn = 0 ∧ e.fanOut = 0
          ∧ a.actual.hasEdge a.other e.module = false
          ∧ a.actual.hasEdge e.module a.other = false)
        ∧ ∀ i, a.actual.index? e.module = some i →
          (a.actual.edges.countP fun x => x.dest = i)
              = e.fanIn + (a.actual.hasEdge a.other e.module).toNat
                + (a.actual.hasEdge e.module e.module).toNat
            ∧ (a.actual.edges.countP fun x => x.source = i)
              = e.fanOut + (a.actual.hasEdge e.module a.other).toNat
                + (a.actual.hasEdge e.module e.module).toNat := by
  refine ⟨?_, fun e he => ?_⟩
  · rw [metrics, List.map_map]
    exact List.map_id _
  · obtain ⟨-, hin, hout⟩ := mem_metrics he
    exact ⟨⟨hin, hout⟩, eq_others_iff hin, eq_others_iff hout, metrics_of_notMem he,
      fun i hi => countP_edges_of_mem_metrics he hi⟩

/-- Code in which `Api` has a loop and edges from `Cli`, from a stranger and from the catch-all
module, and an edge to each of the last two. Of the declared modules `Lib` is no vertex. -/
def strangerSample : Analysis :=
  let a : Module := ⟨"Api", []⟩
  let b : Module := ⟨"Cli", []⟩
  let c : Module := ⟨"Lib", []⟩
  let stranger : Module := ⟨"Old", []⟩
  let edges := [(a, a), (a, stranger), (a, Module.other), (b, a), (stranger, a), (Module.other, a)]
  { definition :=
      { modules := [a, b, c]
        dependencies := []
        noDependencies := []
        names_nodup := by decide
        dependencies_declared := by decide
        noDependencies_declared := by decide
        dependencies_nodup := List.nodup_nil
        noDependencies_nodup := List.nodup_nil }
    actual := edges.foldl (fun g e => g.addDependency e.1 e.2)
      (ModuleGraph.empty.addModules [a, b, stranger, Module.other])
    other := Module.other }

/-- The four edges to `Api` are its fan-in, the loop and the one from the catch-all module. What is
no vertex has no edges, although it is declared. -/
theorem metrics_count_neighbours_strangerSample :
    ∃ e ∈ strangerSample.metrics, ∃ f ∈ strangerSample.metrics,
      strangerSample.actual.index? e.module = some 0
        ∧ (strangerSample.actual.edges.countP fun x => x.dest = 0) = e.fanIn + 1 + 1
        ∧ (strangerSample.others e.module).countP (strangerSample.actual.hasEdge · e.module) = 1
        ∧ strangerSample.strangers.countP (strangerSample.actual.hasEdge · e.module) = 1
        ∧ f.module ∉ strangerSample.actual.modules ∧ f.fanIn = 0 := by
  have he : ⟨⟨"Api", []⟩, 2, 1⟩ ∈ strangerSample.metrics := by decide
  have hf : ⟨⟨"Lib", []⟩, 0, 0⟩ ∈ strangerSample.metrics := by decide
  have hvertex : strangerSample.actual.index? ⟨"Api", []⟩ = some 0 := by decide
  have hmissing : (⟨"Lib", []⟩ : Module) ∉ strangerSample.actual.modules := by decide
  obtain ⟨-, hentries⟩ := metrics_count_neighbours strangerSample
  obtain ⟨-, -, -, -, hedges⟩ := hentries _ he
  obtain ⟨-, -, -, hnothing, -⟩ := hentries _ hf
  exact ⟨_, he, _, hf, hvertex, (hedges 0 hvertex).1, by decide, by decide, hmissing,
    (hnothing hmissing).1⟩

/-- Of the declared modules only `Cli` depends on `Api`, but the fan-in of `Api` is two; and `Api`
depends on no other one, but its fan-out is one. -/
theorem fanIn_strangerSample :
    ∃ e ∈ strangerSample.metrics,
      (strangerSample.others e.module).countP (strangerSample.actual.hasEdge · e.module) = 1
        ∧ e.fanIn = 2
        ∧ (strangerSample.others e.module).countP (strangerSample.actual.hasEdge e.module) = 0
        ∧ e.fanOut = 1 :=
  ⟨⟨⟨"Api", []⟩, 2, 1⟩, by decide, by decide, rfl, by decide, rfl⟩

end Analysis

end Conformance
