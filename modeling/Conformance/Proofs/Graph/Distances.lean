import Conformance.Proofs.Graph.Histories
import Conformance.Proofs.Graph.InPlace
import Conformance.Proofs.Graph.Paths

/-!
# What distances mean

A distance is the number of steps of a shortest walk, and infinity means that no walk leads from one
module to the other: a walk need not visit a module twice, so as long as the list of modules is no
longer than `Distance.limit` no walk is too long to be counted (`leadsWithin_limit_iff`). Distances
therefore depend on nothing but the numbers of steps that lead from one module to the other
(`distance?_congr`). For a graph that has grown by a history, the steps are read off the history
(`distance?_afterAll`).
-/

namespace Conformance

/-- A shortest walk has `n` steps when `n` steps lead from one end to the other and no fewer do. -/
theorem exists_isShortest_iff {α : Type} {step : α → α → Prop} {a b : α} {n : ℕ} :
    (∃ path, IsShortest step a b path ∧ path.length = n + 1)
      ↔ LeadsIn step n a b ∧ ∀ k, LeadsIn step k a b → n ≤ k := by
  constructor
  · rintro ⟨path, ⟨hwalk, hmin⟩, hlength⟩
    have hsteps : path.length - 1 = n := by omega
    refine ⟨hsteps ▸ hwalk.leadsIn, fun k hk => ?_⟩
    obtain ⟨other, hother, hotherLength⟩ := hk.exists_isWalk
    have hle := hmin other hother
    omega
  · rintro ⟨hwalk, hleast⟩
    obtain ⟨path, hpath, hlength⟩ := hwalk.exists_isWalk
    refine ⟨path, ⟨hpath, fun other hother => ?_⟩, hlength⟩
    have hle := hleast _ hother.leadsIn
    have htwo := hother.1
    omega

namespace Closure

section
variable {g g' : ModuleGraph} {modules modules' : List Module} {a b a' b' : Module}

theorem distance?_eq_none_iff :
    (ofGraph g modules).distance? a b = none ↔ ¬(a ∈ modules ∧ b ∈ modules) := by
  refine ⟨fun hnone hmem => ?_, distance?_of_notMem⟩
  obtain ⟨d, hd, -⟩ := distance?_ofGraph (g := g) hmem.1 hmem.2
  rw [hnone] at hd
  cases hd

theorem distance?_eq_infinite_iff :
    (ofGraph g modules).distance? a b = some .infinite
      ↔ (a ∈ modules ∧ b ∈ modules)
        ∧ ¬LeadsWithin (g.StepWithin modules) Distance.limit a b := by
  rw [← isReachable_ofGraph, isReachable]
  by_cases hmem : a ∈ modules ∧ b ∈ modules
  · obtain ⟨d, hd, -⟩ := distance?_ofGraph (g := g) hmem.1 hmem.2
    rw [hd]
    cases d <;> simp [hmem, Distance.isFinite]
  · simp [distance?_of_notMem hmem, hmem]

/-- If some walk leads from one module to another, then one that is no longer than the list of
modules does. -/
theorem leadsWithin_limit_iff (hlimit : (distinct modules).length ≤ Distance.limit) :
    LeadsWithin (g.StepWithin modules) Distance.limit a b ↔ Leads (g.StepWithin modules) a b := by
  rw [leads_iff]
  constructor
  · rintro ⟨n, -, hwalk⟩
    exact ⟨n, hwalk⟩
  · rintro ⟨n, hwalk⟩
    obtain ⟨m, hm, hshort⟩ : LeadsWithin _ (distinct modules).length a b :=
      hwalk.leadsWithin_length fun _ _ hstep => mem_distinct.2 hstep.2.1
    exact ⟨m, hm.trans hlimit, hshort⟩

/-- Distances in two closures are the same where the same numbers of steps lead from end to end. -/
theorem distance?_congr (hmem : a ∈ modules ∧ b ∈ modules ↔ a' ∈ modules' ∧ b' ∈ modules')
    (hleads : ∀ n, LeadsIn (g.StepWithin modules) n a b
      ↔ LeadsIn (g'.StepWithin modules') n a' b') :
    (ofGraph g modules).distance? a b = (ofGraph g' modules').distance? a' b' := by
  by_cases h : a ∈ modules ∧ b ∈ modules
  · obtain ⟨d, hd, hiff⟩ := distance?_ofGraph (g := g) h.1 h.2
    obtain ⟨d', hd', hiff'⟩ := distance?_ofGraph (g := g') (hmem.1 h).1 (hmem.1 h).2
    have heq : d = d' := Distance.eq_of_atMost fun m => by
      rw [hiff, hiff']
      exact exists_congr fun k => and_congr_right fun _ => hleads k
    rw [hd, hd', heq]
  · rw [distance?_of_notMem h, distance?_of_notMem fun h' => h (hmem.2 h')]

end

end Closure

namespace ModuleGraph

/-- Are two modules on the list, and is there an access between them in the history that came when
both had been added? -/
def Joins (history : List Step) (modules : List Module) (a b : Module) : Prop :=
  a ∈ modules ∧ b ∈ modules ∧ 1 ≤ counted history a b

theorem stepWithin_afterAll (history : List Step) (modules : List Module) :
    (empty.afterAll history).StepWithin modules = Joins history modules := by
  funext a b
  unfold StepWithin Joins
  rw [hasEdge_iff, accesses_afterAll]
  rfl

/-- Whatever calls a graph has grown by, and however a list of modules is ordered and repeats them:
the table of distances is the one that can be computed in place, and of two modules that are not
both on the list there is no distance. The distance of others is the number of steps of a shortest
walk along accesses between modules of the list, at least one, and infinite just if there is no
walk. Another history and another list give the same distance when they have the same modules and
join the same of them, however often. -/
theorem distance?_afterAll (history : List Step) {modules : List Module}
    (hlimit : modules.eraseDups.length ≤ Distance.limit) (a b : Module) :
    let closure := Closure.ofGraph (empty.afterAll history) modules
    let step := Joins history modules
    closure.distance = Closure.distancesInPlace closure.adjacent
      ∧ (closure.distance? a b = none ↔ ¬(a ∈ modules ∧ b ∈ modules))
      ∧ (∀ d, closure.distance? a b = some (.finite d)
          ↔ 1 ≤ d ∧ ∃ path, IsShortest step a b path ∧ path.length = d + 1)
      ∧ (closure.distance? a b = some .infinite
          ↔ (a ∈ modules ∧ b ∈ modules) ∧ ¬Leads step a b)
      ∧ ∀ history' modules', (∀ m, m ∈ modules' ↔ m ∈ modules) →
          (∀ m ∈ modules, ∀ n ∈ modules, 1 ≤ counted history' m n ↔ 1 ≤ counted history m n) →
          (Closure.ofGraph (empty.afterAll history') modules').distance? a b
            = closure.distance? a b := by
  intro closure step
  rw [← distinct_eq_eraseDups] at hlimit
  have hstep : step = (empty.afterAll history).StepWithin modules :=
    (stepWithin_afterAll history modules).symm
  refine ⟨(Closure.distancesInPlace_eq _).symm, Closure.distance?_eq_none_iff, fun d => ?_, ?_,
    fun history' modules' hmem hjoins => ?_⟩
  · rw [hstep, exists_isShortest_iff, Closure.distance?_eq_finite_iff]
    constructor
    · rintro ⟨-, hwalk, hleast⟩
      exact ⟨hwalk.pos, hwalk, hleast⟩
    · rintro ⟨-, hwalk, hleast⟩
      obtain ⟨n, hn, hshort⟩ :=
        (Closure.leadsWithin_limit_iff hlimit).2 (leads_iff.2 ⟨d, hwalk⟩)
      exact ⟨(hleast n hshort).trans hn, hwalk, hleast⟩
  · rw [hstep, ← Closure.leadsWithin_limit_iff hlimit]
    exact Closure.distance?_eq_infinite_iff
  · -- the same steps between the same modules, in whatever order they were added
    have hsteps : (empty.afterAll history').StepWithin modules'
        = (empty.afterAll history).StepWithin modules := by
      rw [stepWithin_afterAll, stepWithin_afterAll]
      funext m n
      unfold Joins
      rw [hmem, hmem]
      exact propext (and_congr_right fun hm => and_congr_right fun hn => hjoins m hm n hn)
    refine Closure.distance?_congr (by rw [hmem, hmem]) fun n => ?_
    rw [hsteps]

/-- Calls that join three modules to a cycle, one of the accesses counted twice, and to a fourth
module that makes a shorter one. -/
def cycleHistory : List Step :=
  let a : Module := ⟨"A", []⟩
  let b : Module := ⟨"B", []⟩
  let c : Module := ⟨"C", []⟩
  let d : Module := ⟨"D", []⟩
  [.addDependency a c, .addModule a, .addModule b, .addModule c, .addModule d, .addDependency a b,
    .addDependency b c, .addDependency a b, .addDependency c a, .addDependency a d,
    .addDependency d a]

/-- The three modules and one that is not in the graph, out of order and with a repetition. -/
def cycleModules : List Module :=
  [⟨"C", []⟩, ⟨"E", []⟩, ⟨"A", []⟩, ⟨"C", []⟩, ⟨"B", []⟩]

/-- From a module of the cycle back to itself there are three steps, the fourth module being left
out, and no walk leads to the module that is not in the graph. -/
theorem distance?_afterAll_cycleHistory :
    cycleModules.eraseDups.length ≤ Distance.limit
      ∧ (∃ path, IsShortest (Joins cycleHistory cycleModules) ⟨"A", []⟩ ⟨"A", []⟩ path
          ∧ path.length = 4)
      ∧ ¬Leads (Joins cycleHistory cycleModules) ⟨"A", []⟩ ⟨"E", []⟩
      ∧ (Closure.ofGraph (empty.afterAll cycleHistory) cycleModules).distance? ⟨"A", []⟩ ⟨"D", []⟩
          = none := by
  have hlimit : cycleModules.eraseDups.length ≤ Distance.limit := by decide
  refine ⟨hlimit, ?_, ?_, ?_⟩
  · exact (((distance?_afterAll cycleHistory hlimit _ _).2.2.1 3).1 (by decide)).2
  · exact ((distance?_afterAll cycleHistory hlimit _ _).2.2.2.1.1 (by decide)).2
  · exact (distance?_afterAll cycleHistory hlimit _ _).2.1.2 (by decide)

end ModuleGraph

end Conformance
