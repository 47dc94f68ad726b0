import Conformance.Graph.History
import Conformance.Proofs.Distinct
import Conformance.Proofs.Graph.Listings

/-!
# What a history says about a graph

Everything that a graph answers is told by the calls it has grown by: its vertices are the modules
that were added, and its counts are the numbers of accesses that came when both ends had been
added. One call extends both (`modules_after`, `accesses_after`), so they hold of all graphs that
grow from the empty one, and `afterAll_counts_history` reads all answers off them.
-/

namespace Conformance.ModuleGraph

/-! ## Reading a history -/

/-- The modules that are added by a history, repetitions included. -/
def added (history : List Step) : List Module :=
  history.filterMap fun
    | .addModule m => some m
    | .addDependency _ _ => none

/-- Is the call at a place an access between two modules that were both added before? -/
def CountsAt (history : List Step) (a b : Module) (i : Nat) : Prop :=
  history[i]? = some (.addDependency a b)
    ∧ .addModule a ∈ history.take i ∧ .addModule b ∈ history.take i

instance (history : List Step) (a b : Module) : DecidablePred (CountsAt history a b) := fun _ =>
  inferInstanceAs (Decidable (_ ∧ _ ∧ _))

/-- How many calls of a history are accesses between two modules that were both added before. -/
def counted (history : List Step) (a b : Module) : Nat :=
  (List.range history.length).countP fun i => CountsAt history a b i

theorem mem_added {history : List Step} {m : Module} :
    m ∈ added history ↔ .addModule m ∈ history := by
  unfold added
  rw [List.mem_filterMap]
  constructor
  · rintro ⟨step, hstep, hm⟩
    cases step with
    | addModule n =>
      obtain rfl := Option.some.inj hm
      exact hstep
    | addDependency a b => cases hm
  · intro hm
    exact ⟨_, hm, rfl⟩

/-- A later call does not change what counts before it. -/
theorem countsAt_append {history later : List Step} {a b : Module} {i : Nat}
    (hi : i < history.length) : CountsAt (history ++ later) a b i ↔ CountsAt history a b i := by
  unfold CountsAt
  rw [List.getElem?_append_left hi, List.take_append_of_le_length (Nat.le_of_lt hi)]

/-- The last call counts if it is an access and both its ends were added before it. -/
theorem countsAt_length {history : List Step} {step : Step} {a b : Module} :
    CountsAt (history ++ [step]) a b history.length
      ↔ step = .addDependency a b ∧ a ∈ added history ∧ b ∈ added history := by
  unfold CountsAt
  rw [List.getElem?_concat_length, List.take_left', mem_added, mem_added, Option.some_inj]
  rfl

/-- One more call counts if it is an access between modules that were added before. -/
theorem counted_append_singleton (history : List Step) (step : Step) (a b : Module) :
    counted (history ++ [step]) a b
      = counted history a b
        + if step = .addDependency a b ∧ a ∈ added history ∧ b ∈ added history then 1 else 0 := by
  have hold : (List.range history.length).countP (fun i => CountsAt (history ++ [step]) a b i)
      = counted history a b := by
    refine List.countP_congr fun i hi => ?_
    rw [decide_eq_true_eq, decide_eq_true_eq, countsAt_append (List.mem_range.1 hi)]
  rw [counted, List.length_append, List.length_singleton, List.range_succ, List.countP_append, hold,
    List.countP_singleton]
  simp only [decide_eq_true_eq, countsAt_length]

/-! ## Growing by one call -/

/-- One call keeps that the vertices are the modules added. -/
theorem modules_after {g : ModuleGraph} {history : List Step}
    (h : g.modules = distinct (added history)) (step : Step) :
    (g.after step).modules = distinct (added (history ++ [step])) := by
  unfold added at h ⊢
  rw [List.filterMap_append]
  cases step with
  | addModule m =>
    show insertNew g.modules m = distinct (_ ++ [m])
    rw [h, distinct_append_singleton]
  | addDependency a b =>
    show (g.addDependency a b).modules = distinct (_ ++ [])
    rw [modules_addDependency, h, List.append_nil]

/-- One call keeps that the counts are those of the history. -/
theorem accesses_after {g : ModuleGraph} {history : List Step}
    (hmodules : g.modules = distinct (added history))
    (haccesses : ∀ a b, g.accesses a b = counted history a b) (step : Step) (a b : Module) :
    (g.after step).accesses a b = counted (history ++ [step]) a b := by
  rw [counted_append_singleton, ← haccesses]
  cases step with
  | addModule m =>
    simp only [reduceCtorEq, false_and, if_false, Nat.add_zero]
    exact accesses_addModule g m a b
  | addDependency source dest =>
    show (g.addDependency source dest).accesses a b = _
    rw [accesses_addDependency]
    refine congrArg (g.accesses a b + ·) (if_congr ?_ rfl rfl)
    rw [hmodules, mem_distinct, mem_distinct, Step.addDependency.injEq]
    constructor
    · rintro ⟨⟨rfl, rfl⟩, hmem⟩
      exact ⟨⟨rfl, rfl⟩, hmem⟩
    · rintro ⟨⟨rfl, rfl⟩, hmem⟩
      exact ⟨⟨rfl, rfl⟩, hmem⟩

/-! ## Growing by a history -/

theorem afterAll_append_singleton (g : ModuleGraph) (history : List Step) (step : Step) :
    g.afterAll (history ++ [step]) = (g.afterAll history).after step :=
  List.foldl_append ..

/-- The vertices are the added modules, in the order in which they first came. -/
theorem modules_afterAll (history : List Step) :
    (empty.afterAll history).modules = distinct (added history) := by
  induction history using List.reverseRecOn with
  | nil => rfl
  | append_singleton history step ih =>
    rw [afterAll_append_singleton]
    exact modules_after ih step

theorem accesses_afterAll (history : List Step) (a b : Module) :
    (empty.afterAll history).accesses a b = counted history a b := by
  induction history using List.reverseRecOn generalizing a b with
  | nil => rfl
  | append_singleton history step ih =>
    rw [afterAll_append_singleton]
    exact accesses_after (modules_afterAll history) ih step a b

theorem hasEdge_afterAll (history : List Step) (a b : Module) :
    (empty.afterAll history).hasEdge a b = decide (0 < counted history a b) := by
  rw [Bool.eq_iff_iff, decide_eq_true_eq, hasEdge_iff, accesses_afterAll]

/-- There is an edge where something was counted, with that count. -/
theorem find?_afterAll {history : List Step} {a b : Module} {e : ModuleDependency} :
    (empty.afterAll history).find? a b = some e
      ↔ e = ⟨a, b, counted history a b⟩ ∧ 1 ≤ counted history a b := by
  rw [find?_eq, accesses_afterAll]
  constructor
  · intro hsome
    split at hsome
    · next hpos => exact ⟨(Option.some.inj hsome).symm, hpos⟩
    · cases hsome
  · rintro ⟨rfl, hpos⟩
    exact if_pos hpos

/-- Whatever calls a graph has grown by, its vertices are the modules that were added, each once and
in the order in which they first came, and are indexed by their places. Between two modules as many
accesses are found as came when both had been added. The edges are listed row by row of the table
of all pairs of vertices, and kept by the indices of their ends; successors are listed in the order
of vertices. Vertices alone have a fan-in and a fan-out, the numbers of other vertices with an edge
to or from them. -/
theorem afterAll_counts_history (history : List Step) :
    let g := empty.afterAll history
    let count := counted history
    g.modules = (added history).eraseDups
      ∧ (∀ m i, g.index? m = some i ↔ g.modules[i]? = some m)
      ∧ (∀ a b e, g.find? a b = some e ↔ e = ⟨a, b, count a b⟩ ∧ 1 ≤ count a b)
      ∧ g.dependencies = ((g.modules ×ˢ g.modules).filter fun p => 1 ≤ count p.1 p.2).map
          (fun p => ⟨p.1, p.2, count p.1 p.2⟩)
      ∧ (g.edges.map fun e => (some e.source, some e.dest))
          = (g.dependencies.map fun e => (g.index? e.source, g.index? e.dest))
      ∧ (∀ m, g.successors m = g.modules.filter fun n => 1 ≤ count m n)
      ∧ (∀ m, g.fanOut? m = if m ∈ g.modules
          then some (g.modules.countP fun n => n ≠ m && decide (1 ≤ count m n)) else none)
      ∧ (∀ m, g.fanIn? m = if m ∈ g.modules
          then some (g.modules.countP fun n => n ≠ m && decide (1 ≤ count n m)) else none) := by
  refine ⟨?_, fun m i => index?_eq_iff_getElem?, fun a b e => find?_afterAll, ?_,
    (map_index?_dependencies _).symm, fun m => ?_, fun m => ?_, fun m => ?_⟩
  · rw [modules_afterAll, distinct_eq_eraseDups]
  · rw [dependencies_eq]
    simp only [accesses_afterAll]
    rfl
  · rw [successors_eq]
    exact List.filter_congr fun n _ => hasEdge_afterAll history m n
  · rw [fanOut?_eq]
    simp only [hasEdge_afterAll]
    rfl
  · rw [fanIn?_eq]
    simp only [hasEdge_afterAll]
    rfl

end Conformance.ModuleGraph
