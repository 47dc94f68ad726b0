import Conformance.Analysis
import Conformance.Proofs.Graph.Degrees

/-!
# What the metrics count

Metrics are computed from the fan-in and fan-out of a vertex, which count the catch-all module like
any other, by taking one off if it is a neighbour. `metrics_eq` says what this leaves: the number of
neighbours other than the module itself and the catch-all one. It holds of any graph, also of one
that lacks some of the declared modules or has further vertices.
-/

namespace Conformance

/-- The metrics of either result. -/
def AnalysisResult.metrics : AnalysisResult → List ModuleMetrics
  | strict r => r.metrics
  | loose r => r.metrics

namespace ModuleGraph

theorem mem_of_hasEdge {g : ModuleGraph} {m n : Module} (h : g.hasEdge m n = true) :
    m ∈ g.modules ∧ n ∈ g.modules :=
  mem_of_accesses_pos (hasEdge_iff.1 h)

/-- An item that is left out of a count makes a difference of one, if it would be counted. -/
private theorem countP_ne_add {xs : List Module} (hnodup : xs.Nodup) {p : Module → Bool}
    {o : Module} (ho : p o = true → o ∈ xs) :
    (xs.countP fun n => n ≠ o && p n) + (p o).toNat = xs.countP p := by
  have hsplit := List.countP_eq_countP_filter_add xs p fun n => n ≠ o
  have hrest : (xs.filter fun n => n ≠ o).countP p = xs.countP fun n => n ≠ o && p n := by
    rw [List.countP_filter]
    exact List.countP_congr fun n _ => by rw [Bool.and_comm]
  -- the item left out is counted once if it passes, as it is there once
  have hitem : (xs.filter fun n => !decide (n ≠ o)).countP p = (p o).toNat := by
    rw [List.countP_filter]
    cases hp : p o with
    | false =>
      apply List.countP_eq_zero.2
      intro n _ hn
      simp only [ne_eq, decide_not, Bool.not_not, Bool.and_eq_true, decide_eq_true_eq] at hn
      rw [hn.2, hp] at hn
      exact absurd hn.1 Bool.false_ne_true
    | true =>
      have hcount : (xs.countP fun n => p n && !decide (n ≠ o)) = xs.count o := by
        rw [List.count_eq_countP]
        refine List.countP_congr fun n _ => ?_
        simp only [ne_eq, decide_not, Bool.not_not, Bool.and_eq_true, decide_eq_true_eq, beq_iff_eq]
        exact ⟨fun h => h.2, fun h => ⟨h ▸ hp, h⟩⟩
      rw [hcount, List.count_eq_one_of_mem hnodup (ho hp)]
      rfl
  rw [hsplit, hrest, hitem]

/-- A degree counts a neighbour that is singled out, and the other ones. -/
private theorem getD_eq_add {g : ModuleGraph} {m o : Module} {degree : Option Nat}
    (joined : Module → Bool)
    (hdegree : degree = if m ∈ g.modules then some (g.modules.countP fun n => n ≠ m && joined n)
      else none)
    (hjoined : ∀ n, joined n = true → m ∈ g.modules ∧ n ∈ g.modules) (hne : o ≠ m) :
    degree.getD 0
      = (g.modules.countP fun n => n ≠ o && (n ≠ m && joined n)) + (joined o).toNat := by
  by_cases hm : m ∈ g.modules
  · have hadd := countP_ne_add g.modules_nodup (p := fun n => n ≠ m && joined n) (o := o) fun h => by
      simp only [Bool.and_eq_true] at h
      exact (hjoined o h.2).2
    have hcounted : (decide (o ≠ m) && joined o) = joined o := by simp [hne]
    rw [hcounted] at hadd
    rw [hdegree, if_pos hm, Option.getD_some, hadd]
  · have hnone : ∀ n, joined n = false := fun n =>
      Bool.eq_false_iff.2 fun h => hm (hjoined n h).1
    rw [hdegree, if_neg hm, Option.getD_none, hnone o]
    exact (List.countP_eq_zero.2 fun n _ => by simp [hnone]).symm

/-- The fan-in of a vertex, one neighbour singled out. It is zero for what is no vertex. -/
theorem getD_fanIn?_eq (g : ModuleGraph) {m o : Module} (hne : o ≠ m) :
    (g.fanIn? m).getD 0 = (g.modules.countP fun n => n ≠ o && (n ≠ m && g.hasEdge n m))
      + (g.hasEdge o m).toNat :=
  getD_eq_add (fun n => g.hasEdge n m) (fanIn?_eq g m) (fun _ h => (mem_of_hasEdge h).symm) hne

/-- The fan-out of a vertex, one neighbour singled out. It is zero for what is no vertex. -/
theorem getD_fanOut?_eq (g : ModuleGraph) {m o : Module} (hne : o ≠ m) :
    (g.fanOut? m).getD 0 = (g.modules.countP fun n => n ≠ o && (n ≠ m && g.hasEdge m n))
      + (g.hasEdge m o).toNat :=
  getD_eq_add (fun n => g.hasEdge m n) (fanOut?_eq g m) (fun _ h => mem_of_hasEdge h) hne

end ModuleGraph

namespace Analysis

/-- The metrics of a module count its neighbours other than itself and the catch-all module. -/
theorem metrics_eq (a : Analysis) :
    a.metrics = (a.definition.modules.filter (· ≠ a.other)).map fun m =>
      { module := m
        fanIn := a.actual.modules.countP fun n =>
          n ≠ a.other && (n ≠ m && a.actual.hasEdge n m)
        fanOut := a.actual.modules.countP fun n =>
          n ≠ a.other && (n ≠ m && a.actual.hasEdge m n) } := by
  refine List.map_congr_left fun m hm => ?_
  have hne : a.other ≠ m := by
    rw [List.mem_filter, decide_eq_true_eq] at hm
    exact hm.2.symm
  rw [ModuleGraph.getD_fanIn?_eq _ hne, ModuleGraph.getD_fanOut?_eq _ hne, Nat.add_sub_cancel,
    Nat.add_sub_cancel]

/-- Of a definition with modules, either analysis has a result with these metrics. -/
theorem exists_run_metrics {a : Analysis} (h : a.definition.modules ≠ []) (mode : AnalysisMode) :
    ∃ result, a.run mode = .ok result ∧ result.metrics = a.metrics := by
  have hempty : a.definition.modules.isEmpty = false := by simpa using h
  cases mode with
  | strict => exact ⟨_, by simp only [run, strict, hempty]; rfl, rfl⟩
  | loose => exact ⟨_, by simp only [run, loose, hempty]; rfl, rfl⟩

end Analysis

end Conformance
