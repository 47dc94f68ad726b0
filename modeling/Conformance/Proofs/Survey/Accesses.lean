import Conformance.Proofs.Distinct
import Conformance.Proofs.Graph.Counts
import Conformance.Survey
import Mathlib.Data.List.ProdSigma

/-!
# The graph of a survey

A survey counts, for each two modules, the accesses from elements of the one to elements of the
other. `Belongs` says which modules an element belongs to and `AccessEvent.Joins` which events
therefore join two modules. One event adds at most one to each count (`accesses_record`), so in the
end the count between two different modules is the number of events that join them, and a module
never has an edge to itself (`graph_recordAll`).
-/

namespace Conformance

/-- Does the element belong to the module: is it in it by declaration, or is the module the
catch-all one and no declared module contains the element? -/
def Belongs (declared : List Module) (other : Module) (element : String) (m : Module) : Prop :=
  (m ∈ declared ∧ m.contains element = true)
    ∨ (m = other ∧ ∀ n ∈ declared, n.contains element = false)

instance (declared : List Module) (other : Module) (element : String) (m : Module) :
    Decidable (Belongs declared other element m) :=
  inferInstanceAs (Decidable (_ ∨ _))

/-- Is the event an access from an element of one module to an element of another? -/
def AccessEvent.Joins (declared : List Module) (other a b : Module) : AccessEvent → Prop
  | .node _ => False
  | .access source dest _ => Belongs declared other source a ∧ Belongs declared other dest b

instance (declared : List Module) (other a b : Module) :
    DecidablePred (AccessEvent.Joins declared other a b)
  | .node _ => inferInstanceAs (Decidable False)
  | .access _ _ _ => inferInstanceAs (Decidable (_ ∧ _))

/-- An element belongs to declared modules or to the catch-all module. -/
theorem Belongs.mem {declared : List Module} {other : Module} {element : String} {m : Module}
    (h : Belongs declared other element m) : m ∈ declared ∨ m = other :=
  h.imp And.left And.left

namespace Survey

/-! ## What events leave alone -/

@[simp]
theorem modules_record (s : Survey) (e : AccessEvent) : (s.record e).modules = s.modules := by
  cases e <;> rfl

@[simp]
theorem other_record (s : Survey) (e : AccessEvent) : (s.record e).other = s.other := by
  cases e <;> rfl

/-- Events change no declared modules. -/
@[simp]
theorem modules_recordAll (s : Survey) (events : List AccessEvent) :
    (s.recordAll events).modules = s.modules := by
  induction events generalizing s with
  | nil => rfl
  | cons e events ih => exact (ih (s.record e)).trans (modules_record s e)

@[simp]
theorem other_recordAll (s : Survey) (events : List AccessEvent) :
    (s.recordAll events).other = s.other := by
  induction events generalizing s with
  | nil => rfl
  | cons e events ih => exact (ih (s.record e)).trans (other_record s e)

/-! ## One event -/

/-- The modules that a survey finds for an element are those that it belongs to. -/
theorem mem_modulesOf {s : Survey} {element : String} {m : Module} :
    m ∈ s.modulesOf element ↔ Belongs s.modules s.other element m := by
  have hnone : s.owners element = [] ↔ ∀ n ∈ s.modules, n.contains element = false := by
    simp [owners, List.filter_eq_nil_iff]
  unfold modulesOf Belongs
  -- an element without owners goes to the catch-all module
  by_cases hempty : s.owners element = []
  · have hno := hnone.1 hempty
    simp only [hempty, List.isEmpty_nil, if_true, List.mem_singleton]
    refine ⟨fun hm => .inr ⟨hm, hno⟩, ?_⟩
    intro hor
    obtain ⟨hm, hc⟩ | ⟨hm, -⟩ := hor
    · exact absurd hc (by simp [hno m hm])
    · exact hm
  · rw [if_neg (by simpa using hempty), owners, List.mem_filter]
    exact ⟨.inl, fun hm => hm.resolve_right fun hr => hempty (hnone.2 hr.2)⟩

/-- In a list of different pairs a pair is counted once if it is there. -/
private theorem countP_pair {pairs : List (Module × Module)} (h : pairs.Nodup) (a b : Module) :
    (pairs.countP fun p => p.1 = a && p.2 = b) = if (a, b) ∈ pairs then 1 else 0 := by
  rw [← h.count, List.count_eq_countP]
  refine List.countP_congr fun p _ => ?_
  rw [beq_iff_eq, Prod.ext_iff]
  simp

/-- An access is counted once for each two different modules that its elements belong to. -/
private theorem accesses_connect {s : Survey} {source dest : String} {a b : Module}
    (ha : Belongs s.modules s.other source a → a ∈ s.graph.modules)
    (hb : Belongs s.modules s.other dest b → b ∈ s.graph.modules) :
    (s.connect source dest).graph.accesses a b
      = s.graph.accesses a b
        + if a ≠ b ∧ Belongs s.modules s.other source a ∧ Belongs s.modules s.other dest b then 1
          else 0 := by
  have hnodup : ((distinct (s.modulesOf source)).flatMap fun a =>
      (distinct (s.modulesOf dest)).map fun b => (a, b)).Nodup :=
    (nodup_distinct _).product (nodup_distinct _)
  have hmem : (a, b) ∈ (((distinct (s.modulesOf source)).flatMap fun a =>
      (distinct (s.modulesOf dest)).map fun b => (a, b)).filter fun p => p.1 ≠ p.2)
        ↔ a ≠ b ∧ Belongs s.modules s.other source a ∧ Belongs s.modules s.other dest b := by
    simp [mem_modulesOf, and_comm]
  simp only [connect, ModuleGraph.accesses_foldl_addDependency,
    countP_pair (hnodup.filter fun p => p.1 ≠ p.2), hmem]
  congr 1
  by_cases hab : a ≠ b ∧ Belongs s.modules s.other source a ∧ Belongs s.modules s.other dest b
  · rw [if_pos ⟨ha hab.2.1, hb hab.2.2⟩]
  · simp [hab]

/-- A survey under way has all its modules as vertices. -/
def HasVertices (s : Survey) : Prop :=
  ∀ m, m ∈ s.modules ∨ m = s.other → m ∈ s.graph.modules

/-- An event adds no vertices, as all modules are vertices from the start. -/
@[simp]
theorem graph_modules_record (s : Survey) (e : AccessEvent) :
    (s.record e).graph.modules = s.graph.modules := by
  cases e with
  | node element => rfl
  | access source dest kind =>
    exact ModuleGraph.modules_foldl_addDependency Prod.fst Prod.snd s.graph _

/-- An event takes no vertices away. -/
theorem HasVertices.record {s : Survey} (h : s.HasVertices) (e : AccessEvent) :
    (s.record e).HasVertices := fun m hm => by
  rw [modules_record, other_record] at hm
  rw [graph_modules_record]
  exact h m hm

/-- An event adds one to the counts of the different modules that it joins. -/
theorem accesses_record {s : Survey} (h : s.HasVertices) (e : AccessEvent) (a b : Module) :
    (s.record e).graph.accesses a b
      = s.graph.accesses a b
        + if a ≠ b ∧ e.Joins s.modules s.other a b then 1 else 0 := by
  cases e with
  | node element =>
    -- an element that is only mentioned brings nothing to the graph
    have hgraph : (s.record (.node element)).graph = s.graph := rfl
    simp [hgraph, AccessEvent.Joins]
  | access source dest kind =>
    exact accesses_connect (s := (s.mention source).mention dest)
      (fun ha => h a ha.mem) (fun hb => h b hb.mem)

/-! ## Several events -/

@[simp]
theorem graph_modules_recordAll (s : Survey) (events : List AccessEvent) :
    (s.recordAll events).graph.modules = s.graph.modules := by
  induction events generalizing s with
  | nil => rfl
  | cons e events ih => exact (ih (s.record e)).trans (graph_modules_record s e)

/-- In the end the count between two different modules has grown by the number of events that join
them, and no module has got an edge to itself. -/
theorem accesses_recordAll {s : Survey} (h : s.HasVertices) (events : List AccessEvent)
    (a b : Module) :
    (s.recordAll events).graph.accesses a b
      = s.graph.accesses a b
        + if a = b then 0 else events.countP fun e => e.Joins s.modules s.other a b := by
  induction events generalizing s with
  | nil => simp [recordAll]
  | cons e events ih =>
    have hstep := ih (h.record e)
    rw [modules_record, other_record, accesses_record h] at hstep
    rw [List.countP_cons]
    refine hstep.trans ?_
    -- the two sides agree by the count of the first event and those of the others
    by_cases hab : a = b
    · simp [hab]
    · simp only [ne_eq, hab, not_false_eq_true, true_and, if_false, decide_eq_true_eq]
      omega

/-! ## From the start -/

@[simp]
theorem modules_start (modules : List Module) (other : Module) :
    (start modules other).modules = modules := rfl

@[simp]
theorem other_start (modules : List Module) (other : Module) :
    (start modules other).other = other := rfl

/-- At the start the vertices are the declared modules and then the catch-all module. -/
theorem graph_modules_start (modules : List Module) (other : Module) :
    (start modules other).graph.modules = insertNew (distinct modules) other := by
  simp only [start, ModuleGraph.modules_addModule, ModuleGraph.modules_addModules,
    ModuleGraph.modules_empty, distinct]

/-- At the start nothing has been counted. -/
theorem accesses_start (modules : List Module) (other a b : Module) :
    (start modules other).graph.accesses a b = 0 := by
  simp only [start, ModuleGraph.accesses_addModule, ModuleGraph.accesses_addModules,
    ModuleGraph.accesses_empty]

theorem hasVertices_start (modules : List Module) (other : Module) :
    (start modules other).HasVertices := fun m hm => by
  rw [graph_modules_start, mem_insertNew, mem_distinct]
  exact hm

/-- The count between two modules at the end of a survey. -/
theorem accesses_survey (modules : List Module) (other : Module) (events : List AccessEvent)
    (a b : Module) :
    ((start modules other).recordAll events).graph.accesses a b
      = if a = b then 0 else events.countP fun e => e.Joins modules other a b := by
  rw [accesses_recordAll (hasVertices_start modules other), accesses_start, Nat.zero_add,
    modules_start, other_start]

/-- A survey joins two different modules if an element of the one accesses an element of the other.
-/
theorem hasEdge_survey {modules : List Module} {other : Module} {events : List AccessEvent}
    {a b : Module} :
    ((start modules other).recordAll events).graph.hasEdge a b = true
      ↔ a ≠ b ∧ ∃ source dest, (∃ kind, .access source dest kind ∈ events)
          ∧ Belongs modules other source a ∧ Belongs modules other dest b := by
  rw [ModuleGraph.hasEdge_iff, accesses_survey]
  by_cases hab : a = b
  · simp [hab]
  · rw [if_neg hab, List.countP_pos_iff]
    simp only [ne_eq, hab, not_false_eq_true, true_and, decide_eq_true_eq]
    constructor
    · intro hsome
      obtain ⟨e, he, hjoins⟩ := hsome
      cases e with
      | node element => exact hjoins.elim
      | access source dest kind => exact ⟨source, dest, ⟨kind, he⟩, hjoins⟩
    · intro hsome
      obtain ⟨source, dest, ⟨kind, he⟩, hjoins⟩ := hsome
      exact ⟨_, he, hjoins⟩

/-- The graph of a survey has the declared modules as vertices, in their order, and then the
catch-all module. No vertex has an edge to itself, and two different ones have an edge when some
event joins them, which then counts these events. The modules that an element belongs to are those
that the survey finds for it, repetitions left out, and that an element was found never changes the
graph. -/
theorem graph_recordAll (modules : List Module) (other : Module) (events : List AccessEvent) :
    let s := (start modules other).recordAll events
    s.graph.modules = modules.eraseDups ++ (if other ∈ modules then [] else [other])
      ∧ (∀ a, s.graph.find? a a = none)
      ∧ (∀ a b, a ≠ b → s.graph.find? a b
          = if ∃ e ∈ events, e.Joins modules other a b then
              some ⟨a, b, events.countP fun e => e.Joins modules other a b⟩
            else none)
      ∧ (∀ element m, m ∈ distinct (s.modulesOf element) ↔ Belongs modules other element m)
      ∧ ∀ element, (s.record (.node element)).graph = s.graph := by
  refine ⟨?_, fun a => ?_, fun a b hab => ?_, fun element m => ?_, fun element => rfl⟩
  · rw [graph_modules_recordAll, graph_modules_start, insertNew, distinct_eq_eraseDups]
    by_cases ho : other ∈ modules
    · simp [ho]
    · simp [ho]
  · rw [ModuleGraph.find?_eq, accesses_survey, if_pos rfl]
    rfl
  · rw [ModuleGraph.find?_eq, accesses_survey, if_neg hab]
    simp only [List.countP_pos_iff, decide_eq_true_eq]
  · rw [mem_distinct, mem_modulesOf, modules_recordAll, other_recordAll, modules_start, other_start]

end Survey

end Conformance
