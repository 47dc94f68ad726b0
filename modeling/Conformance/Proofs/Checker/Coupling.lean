import Conformance.Proofs.Analysis.Metrics
import Conformance.Proofs.Checker.Reports
import Mathlib.Algebra.GroupWithZero.Nat
import Mathlib.Data.List.ProdSigma

/-!
# Coupling in a report

The metrics in the report of a check, read off the log: a module is coupled to another one when some
recorded access goes from an element of the one to an element of the other. `check_metrics` says that
the metrics count these couplings among the declared modules other than the catch-all one. Each
coupling is counted at both of its ends, so fan-in and fan-out have the same sum.
-/

namespace Conformance

/-- Does the log record an access from an element of one module to an element of another? -/
def AccessLog.Couples (log : AccessLog) (a b : Module) : Prop :=
  ∃ root ∈ log.roots, ∃ r ∈ root.accesses, a.contains r.source = true ∧ b.contains r.dest = true

instance (log : AccessLog) (a b : Module) : Decidable (log.Couples a b) :=
  inferInstanceAs (Decidable (∃ _ ∈ _, _))

theorem AccessLog.couples_iff {log : AccessLog} {a b : Module} :
    log.Couples a b ↔ ∃ source dest, log.Accesses source dest
      ∧ a.contains source = true ∧ b.contains dest = true := by
  constructor
  · intro hsome
    obtain ⟨root, hroot, r, hr, ha, hb⟩ := hsome
    exact ⟨r.source, r.dest, ⟨root, hroot, r, hr, rfl, rfl⟩, ha, hb⟩
  · intro hsome
    obtain ⟨source, dest, ⟨root, hroot, r, hr, rfl, rfl⟩, ha, hb⟩ := hsome
    exact ⟨root, hroot, r, hr, ha, hb⟩

/-- To a declared module other than the catch-all one the elements belong that it contains. -/
theorem belongs_iff_contains {declared : List Module} {other m : Module} {element : String}
    (hm : m ∈ declared) (hne : m ≠ other) :
    Belongs declared other element m ↔ m.contains element = true := by
  unfold Belongs
  rw [or_iff_left fun h => hne h.1, and_iff_right hm]

/-! ## Counting at either end -/

section
variable {α : Type} (p : α → α → Bool) (xs : List α)

/-- Pairs are counted first item by first item. -/
theorem sum_countP_eq_countP_product :
    (xs.map fun a => xs.countP (p a)).sum = (xs ×ˢ xs).countP fun q => p q.1 q.2 := by
  show _ = (xs.flatMap fun a => xs.map (Prod.mk a)).countP _
  rw [List.countP_flatMap]
  refine congrArg List.sum (List.map_congr_left fun a _ => ?_)
  rw [Function.comp_apply, List.countP_map]
  rfl

/-- They are as well counted second item by second item. -/
theorem sum_countP_flip_eq_countP_product (hnodup : xs.Nodup) :
    (xs.map fun b => xs.countP fun a => p a b).sum = (xs ×ˢ xs).countP fun q => p q.1 q.2 := by
  have hproduct : (xs ×ˢ xs).Nodup := hnodup.product hnodup
  have hswap : ((xs ×ˢ xs).map Prod.swap).Perm (xs ×ˢ xs) := by
    refine (List.perm_ext_iff_of_nodup (hproduct.map Prod.swap_injective) hproduct).2 fun q => ?_
    obtain ⟨a, b⟩ := q
    rw [List.mem_map]
    constructor
    · intro hsome
      obtain ⟨⟨b', a'⟩, hmem, heq⟩ := hsome
      obtain ⟨rfl, rfl⟩ := Prod.mk.inj heq
      exact List.pair_mem_product.2 (List.pair_mem_product.1 hmem).symm
    · intro hmem
      exact ⟨(b, a), List.pair_mem_product.2 (List.pair_mem_product.1 hmem).symm, rfl⟩
  rw [sum_countP_eq_countP_product (fun b a => p a b), ← hswap.countP_eq, List.countP_map]
  rfl

end

namespace Checker

variable {c : Checker} {d : Definition} {log : AccessLog}

/-- Code joins two declared modules other than the catch-all one when the log couples them. -/
theorem hasEdge_survey_iff_couples {m n : Module} (hm : m ∈ d.modules.filter (· ≠ Module.other))
    (hn : n ∈ d.modules.filter (· ≠ Module.other)) :
    (survey d log.events).graph.hasEdge m n = true ↔ m ≠ n ∧ log.Couples m n := by
  rw [List.mem_filter, decide_eq_true_eq] at hm hn
  rw [hasEdge_survey_events, AccessLog.couples_iff]
  simp only [belongs_iff_contains hm.1 hm.2, belongs_iff_contains hn.1 hn.2]

/-- The vertices of a survey without the catch-all module are the declared modules without it. -/
theorem countP_graph_survey (p : Module → Bool) :
    ((survey d log.events).graph.modules.countP fun n => n ≠ Module.other && p n)
      = (d.modules.filter (· ≠ Module.other)).countP p := by
  have hfilter : ((survey d log.events).graph.modules.filter (· ≠ Module.other))
      = d.modules.filter (· ≠ Module.other) := by
    rw [survey, Survey.graph_modules_recordAll, Survey.graph_modules_start,
      distinct_of_nodup (List.Nodup.of_map _ d.names_nodup), insertNew]
    split
    · rfl
    · rw [List.filter_append]
      simp
  rw [← hfilter, List.countP_filter]
  exact List.countP_congr fun n _ => by rw [Bool.and_comm]

/-- The metrics of the code of a log. -/
theorem metrics_analysis_survey :
    (analysis d (survey d log.events)).metrics
      = (d.modules.filter (· ≠ Module.other)).map fun a =>
        { module := a
          fanIn := (d.modules.filter (· ≠ Module.other)).countP fun b => b ≠ a ∧ log.Couples b a
          fanOut := (d.modules.filter (· ≠ Module.other)).countP fun b => a ≠ b ∧ log.Couples a b } := by
  rw [Analysis.metrics_eq]
  refine List.map_congr_left fun a ha => ?_
  change a ∈ d.modules.filter (· ≠ Module.other) at ha
  have hin : (d.modules.filter (· ≠ Module.other)).countP (fun b =>
        b ≠ a && (survey d log.events).graph.hasEdge b a)
      = (d.modules.filter (· ≠ Module.other)).countP fun b => b ≠ a ∧ log.Couples b a := by
    refine List.countP_congr fun b hb => ?_
    rw [Bool.and_eq_true, decide_eq_true_eq, decide_eq_true_eq, hasEdge_survey_iff_couples hb ha,
      and_self_left]
  have hout : (d.modules.filter (· ≠ Module.other)).countP (fun b =>
        b ≠ a && (survey d log.events).graph.hasEdge a b)
      = (d.modules.filter (· ≠ Module.other)).countP fun b => a ≠ b ∧ log.Couples a b := by
    refine List.countP_congr fun b hb => ?_
    rw [Bool.and_eq_true, decide_eq_true_eq, decide_eq_true_eq, hasEdge_survey_iff_couples ha hb,
      ne_comm, and_self_left]
  rw [← hin, ← hout, ← countP_graph_survey, ← countP_graph_survey]
  rfl

/-- The report of a check has one entry of metrics for each declared module but the catch-all one, in
order of declaration. Its fan-out is the number of others that the log couples it to, and its fan-in
the number of those coupled to it. Both add up to the number of pairs of different modules that are
coupled. -/
theorem check_metrics (hd : c.definition = some d) (hm : d.modules ≠ []) (log : AccessLog) :
    let own := d.modules.filter (· ≠ Module.other)
    let joined := fun a b : Module => a ≠ b ∧ log.Couples a b
    ∃ r, c.check log.scan = .ok r
      ∧ r.result.metrics = own.map (fun a =>
          ⟨a, own.countP fun b => joined b a, own.countP fun b => joined a b⟩)
      ∧ (r.result.metrics.map ModuleMetrics.fanIn).sum
          = (own ×ˢ own).countP (fun p => joined p.1 p.2)
      ∧ (r.result.metrics.map ModuleMetrics.fanOut).sum
          = (own ×ˢ own).countP fun p => joined p.1 p.2 := by
  intro own joined
  obtain ⟨result, hrun, hmetrics⟩ :=
    Analysis.exists_run_metrics (a := analysis d (survey d log.events)) hm c.mode
  have hown : own.Nodup := (List.Nodup.of_map _ d.names_nodup).filter _
  rw [metrics_analysis_survey] at hmetrics
  refine ⟨_, check_scan_of_run hd hrun, hmetrics, ?_, ?_⟩
  · rw [hmetrics, List.map_map]
    exact sum_countP_flip_eq_countP_product (fun a b => decide (joined a b)) own hown
  · rw [hmetrics, List.map_map]
    exact sum_countP_eq_countP_product (fun a b => decide (joined a b)) own

/-- Two modules with elements in common, and the catch-all module declared as a third one. -/
def hubSample : Definition where
  modules := [⟨"Long", [⟨"??*", by decide⟩]⟩, ⟨"Short", [⟨"??", by decide⟩]⟩, Module.other]
  dependencies := []
  noDependencies := []
  names_nodup := by decide
  dependencies_declared := by decide
  noDependencies_declared := by decide
  dependencies_nodup := List.nodup_nil
  noDependencies_nodup := List.nodup_nil

/-- An access from an element of both modules to an element of the first alone. -/
def hubLog : AccessLog := ⟨[⟨"one", [], [⟨"xy", "xyz", .invoke⟩]⟩]⟩

/-- The access couples the second module to the first, and not the first to itself. -/
theorem check_metrics_hubSample :
    (new.setDefinition hubSample).definition = some hubSample ∧ hubSample.modules ≠ []
      ∧ ∃ r, (new.setDefinition hubSample).check hubLog.scan = .ok r
        ∧ r.result.metrics
          = [⟨⟨"Long", [⟨"??*", by decide⟩]⟩, 1, 0⟩, ⟨⟨"Short", [⟨"??", by decide⟩]⟩, 0, 1⟩]
        ∧ (r.result.metrics.map ModuleMetrics.fanIn).sum = 1
        ∧ (r.result.metrics.map ModuleMetrics.fanOut).sum = 1 := by
  have hmodules : hubSample.modules ≠ [] := by decide
  obtain ⟨r, hr, hmetrics, hin, hout⟩ :=
    check_metrics (c := new.setDefinition hubSample) rfl hmodules hubLog
  exact ⟨rfl, hmodules, r, hr, hmetrics.trans (by decide), hin.trans (by decide),
    hout.trans (by decide)⟩

end Checker

end Conformance
