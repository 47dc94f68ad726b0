import Conformance.Proofs.Analysis.Findings

/-!
# Declarations in another order

The order in which modules are declared decides which of several shortest ways the strict analysis
compares, and nothing else that its differences are about. So two definitions that differ in this
order alone have the same differences in ways, except between modules that are *tied*: dependencies
make several shortest ways between them, and the code some of these but not all
(`strict_routes_reorder`). Whether there is any difference at all never depends on the order.
-/

namespace Conformance

/-- Do two definitions have the same rules on the same modules, declared in whatever order? -/
structure Definition.Reorders (d d' : Definition) : Prop where
  modules : d.modules.Perm d'.modules
  dependencies : d.dependencies = d'.dependencies
  noDependencies : d.noDependencies = d'.noDependencies

/-- The modules at both ends of a difference in ways. -/
def RouteViolation.pair (v : RouteViolation) : ModulePair := ⟨v.source, v.dest⟩

/-- Which edges are steps depends on the modules of a list and not on their order. -/
theorem ModuleGraph.stepWithin_congr {modules modules' : List Module}
    (h : ∀ m, m ∈ modules ↔ m ∈ modules') (g : ModuleGraph) :
    g.StepWithin modules = g.StepWithin modules' := by
  funext a b
  exact propext (and_congr (h a) (and_congr (h b) Iff.rfl))

namespace Analysis

/-! ## One order -/

section
variable {a : Analysis} {m n : Module}

/-- A step in the code, over declared modules and the catch-all module. -/
abbrev CodeStep (a : Analysis) : Module → Module → Prop := a.actual.StepWithin a.vertices

/-- Do dependencies and the code lead from one module to the other in the same numbers of steps? -/
def LengthsAgree (a : Analysis) (m n : Module) : Prop :=
  ∀ bound ≤ Distance.limit, LeadsWithin a.Depends bound m n ↔ LeadsWithin a.CodeStep bound m n

/-- Do dependencies make several shortest ways from one module to the other, of which one is a
shortest way in the code and another cannot be walked there? -/
def Tied (a : Analysis) (m n : Module) : Prop :=
  ∃ p q, IsShortest a.Depends m n p ∧ IsShortest a.CodeStep m n p
    ∧ IsShortest a.Depends m n q ∧ ¬ q.IsChain a.CodeStep

theorem stepWithin_specifiedGraph_eq :
    a.specifiedGraph.StepWithin a.vertices = a.Depends := by
  funext m n
  exact propext stepWithin_specifiedGraph

/-- Where lengths agree, a shortest way along dependencies that the code can walk is a shortest way
in the code. -/
theorem LengthsAgree.isShortest (h : a.LengthsAgree m n) {path : List Module}
    (hpath : IsShortest a.Depends m n path) (hlimit : LeadsWithin a.Depends Distance.limit m n)
    (hchain : path.IsChain a.CodeStep) : IsShortest a.CodeStep m n path := by
  obtain ⟨⟨hlength, hhead, hlast, -⟩, hmin⟩ := hpath
  refine ⟨⟨hlength, hhead, hlast, hchain⟩, fun other hother => ?_⟩
  -- a shortest way makes no more steps than the limit, so a longer one need not be looked at
  obtain ⟨k, hk, hwalk⟩ := hlimit
  obtain ⟨short, hshort, hshortLength⟩ := hwalk.exists_isWalk
  have hle := hmin short hshort
  by_cases hother' : other.length - 1 ≤ Distance.limit
  · obtain ⟨l, hl, hback⟩ := (h _ hother').2 ⟨_, Nat.le_refl _, hother.leadsIn⟩
    obtain ⟨way, hway, hwayLength⟩ := hback.exists_isWalk
    have hle' := hmin way hway
    have htwo := hother.1
    omega
  · omega

/-- The comparison of two declared modules finds nothing when lengths agree and the code can walk
the way along dependencies that it looks at, a shortest one. -/
theorem exists_isShortest_compareRoute (hm : a.Declares m) (hn : a.Declares n) :
    ∃ path, (LeadsWithin a.Depends Distance.limit m n → IsShortest a.Depends m n path)
      ∧ (compareRoute a.specifiedClosure a.actualClosure m n = none
        ↔ a.LengthsAgree m n
          ∧ (LeadsWithin a.Depends Distance.limit m n → path.IsChain a.CodeStep)) := by
  obtain ⟨d, e, path, hspecified, hactual, hpath, -, hiff⟩ := exists_compareRoute hm hn
  simp only [stepWithin_specifiedGraph_eq] at hspecified
  -- the lengths agree up to any bound just if they are the same
  have hlengths : d = e ↔ a.LengthsAgree m n := by
    constructor
    · rintro rfl bound hbound
      have hboth := (hspecified bound).symm.trans (hactual bound)
      rwa [Nat.min_eq_left hbound] at hboth
    · refine fun hagree => Distance.eq_of_atMost fun bound => ?_
      rw [hspecified, hactual]
      exact hagree _ (Nat.min_le_right _ _)
  have hinfinite : d ≠ .infinite ↔ LeadsWithin a.Depends Distance.limit m n := by
    constructor
    · intro hd
      cases d with
      | infinite => exact absurd rfl hd
      | finite k =>
        obtain ⟨l, hl, hwalk⟩ := (hspecified k).1 (Distance.atMost_finite.2 (Nat.le_refl k))
        exact ⟨l, hl.trans (Nat.min_le_right _ _), hwalk⟩
    · intro hleads
      have hatMost : d.AtMost Distance.limit := by
        rwa [hspecified, Nat.min_self]
      rintro rfl
      exact Distance.not_atMost_infinite hatMost
  refine ⟨path, fun hleads => ?_, ?_⟩
  · rw [← stepWithin_specifiedGraph_eq] at hleads ⊢
    obtain ⟨path', hpath', hshortest⟩ := Closure.exists_path?_of_leadsWithin hleads
    obtain rfl := Option.some.inj (hpath.symm.trans hpath')
    exact hshortest
  · rw [hiff, routesDiffer_eq_false_iff, hlengths, ← hinfinite]
    refine and_congr_right fun _ => ?_
    have hwalk : a.actualClosure.isWalk path = true ↔ path.IsChain a.CodeStep :=
      Closure.isWalk_ofGraph
    rw [hwalk, or_iff_not_imp_left]

/-- Unless two modules are tied, which shortest way the comparison looks at does not matter. -/
theorem compareRoute_eq_none_iff_of_not_tied (hm : a.Declares m) (hn : a.Declares n)
    (h : ¬ a.Tied m n) :
    compareRoute a.specifiedClosure a.actualClosure m n = none
      ↔ a.LengthsAgree m n ∧ (LeadsWithin a.Depends Distance.limit m n →
        ∀ path, IsShortest a.Depends m n path → path.IsChain a.CodeStep) := by
  obtain ⟨path, hshortest, hiff⟩ := exists_isShortest_compareRoute hm hn
  rw [hiff]
  refine and_congr_right fun hagree => forall_congr' fun hleads => ?_
  refine ⟨fun hchain other hother => ?_, fun hall => hall path (hshortest hleads)⟩
  by_contra hnot
  exact h ⟨path, other, hshortest hleads, hagree.isShortest (hshortest hleads) hleads hchain,
    hother, hnot⟩

/-- The pairs that a strict result reports are those whose comparison finds a difference. -/
theorem ReportsStrictly.mem_pairs_iff {r : StrictResult} (h : a.ReportsStrictly r) :
    ⟨m, n⟩ ∈ r.routes.map RouteViolation.pair ↔ a.Declares m ∧ a.Declares n
      ∧ compareRoute a.specifiedClosure a.actualClosure m n ≠ none := by
  rw [List.mem_map]
  constructor
  · intro hsome
    obtain ⟨v, hv, hpair⟩ := hsome
    obtain ⟨rfl, rfl⟩ := ModulePair.mk.inj hpair
    obtain ⟨hsource, hdest, hcompare⟩ := (h.mem_routes_iff v).1 hv
    exact ⟨hsource, hdest, by simp [hcompare]⟩
  · intro hall
    obtain ⟨hm, hn, hcompare⟩ := hall
    obtain ⟨v, hv⟩ := Option.ne_none_iff_exists'.1 hcompare
    obtain ⟨rfl, rfl⟩ := ends_of_compareRoute hv
    exact ⟨v, (h.mem_routes_iff v).2 ⟨hm, hn, hv⟩, rfl⟩

end

/-! ## Two orders -/

section
variable {d d' : Definition} (h : d.Reorders d') (g : ModuleGraph) (other : Module)
include h

theorem declares_reorder (m : Module) :
    Declares ⟨d, g, other⟩ m ↔ Declares ⟨d', g, other⟩ m :=
  h.modules.mem_iff

theorem depends_reorder : Depends ⟨d, g, other⟩ = Depends ⟨d', g, other⟩ := by
  funext m n
  show ((⟨m, n⟩ : ModulePair) ∈ d.dependencies) = (⟨m, n⟩ ∈ d'.dependencies)
  rw [h.dependencies]

theorem codeStep_reorder : CodeStep ⟨d, g, other⟩ = CodeStep ⟨d', g, other⟩ := by
  apply ModuleGraph.stepWithin_congr
  intro m
  rw [mem_vertices, mem_vertices, declares_reorder h]

theorem lengthsAgree_reorder (m n : Module) :
    LengthsAgree ⟨d, g, other⟩ m n ↔ LengthsAgree ⟨d', g, other⟩ m n := by
  unfold LengthsAgree
  rw [depends_reorder h, codeStep_reorder h]

theorem tied_reorder (m n : Module) : Tied ⟨d, g, other⟩ m n ↔ Tied ⟨d', g, other⟩ m n := by
  unfold Tied
  rw [depends_reorder h, codeStep_reorder h]

/-- Whether edges match does not depend on the order of declarations. -/
theorem edgesMatch_reorder : EdgesMatch ⟨d, g, other⟩ ↔ EdgesMatch ⟨d', g, other⟩ := by
  rw [edgesMatch_iff, edgesMatch_iff]
  have hmem (m : Module) : m ∈ d.modules ↔ m ∈ d'.modules := h.modules.mem_iff
  simp only [depends_reorder h, hmem]

/-- A comparison of modules that are not tied does not depend on the order of declarations. -/
theorem compareRoute_reorder {m n : Module} (hm : Declares ⟨d, g, other⟩ m)
    (hn : Declares ⟨d, g, other⟩ n) (htied : ¬ Tied ⟨d, g, other⟩ m n) :
    compareRoute (specifiedClosure ⟨d, g, other⟩) (actualClosure ⟨d, g, other⟩) m n = none
      ↔ compareRoute (specifiedClosure ⟨d', g, other⟩) (actualClosure ⟨d', g, other⟩) m n
        = none := by
  have hm' := (declares_reorder h g other m).1 hm
  have hn' := (declares_reorder h g other n).1 hn
  have htied' := mt (tied_reorder h g other m n).2 htied
  rw [compareRoute_eq_none_iff_of_not_tied hm hn htied,
    compareRoute_eq_none_iff_of_not_tied hm' hn' htied', lengthsAgree_reorder h,
    depends_reorder h, codeStep_reorder h]

/-- Definitions that differ in the order of declarations alone are refused together, for having no
modules. Otherwise either both analyses find differences in ways or none does, and they find them
between the same modules, apart from modules that are tied. -/
theorem strict_routes_reorder :
    (d.modules = [] → strict ⟨d, g, other⟩ = .error .noModulesProvided
        ∧ strict ⟨d', g, other⟩ = .error .noModulesProvided)
      ∧ (d.modules ≠ [] → ∃ r r', strict ⟨d, g, other⟩ = .ok r ∧ strict ⟨d', g, other⟩ = .ok r'
        ∧ (r.routes = [] ↔ r'.routes = [])
        ∧ ∀ m n, ¬ Tied ⟨d, g, other⟩ m n →
          (⟨m, n⟩ ∈ r.routes.map RouteViolation.pair
            ↔ ⟨m, n⟩ ∈ r'.routes.map RouteViolation.pair)) := by
  have hempty : d.modules = [] ↔ d'.modules = [] := by
    rw [← List.length_eq_zero_iff, ← List.length_eq_zero_iff, h.modules.length_eq]
  constructor
  · intro hnil
    have hnil' := hempty.1 hnil
    exact ⟨by simp [strict, hnil], by simp [strict, hnil']⟩
  · intro hsome
    obtain ⟨r, hr, hreport⟩ := exists_strict (a := ⟨d, g, other⟩) hsome
    obtain ⟨r', hr', hreport'⟩ := exists_strict (a := ⟨d', g, other⟩) (mt hempty.2 hsome)
    refine ⟨r, r', hr, hr', ?_, fun m n htied => ?_⟩
    · rw [hreport.routes_eq_nil_iff, hreport'.routes_eq_nil_iff]
      exact edgesMatch_reorder h g other
    · rw [hreport.mem_pairs_iff, hreport'.mem_pairs_iff, ← declares_reorder h, ← declares_reorder h]
      refine and_congr_right fun hm => and_congr_right fun hn => not_congr ?_
      exact compareRoute_reorder h g other hm hn htied

end

/-- A module that may get to another one by way of either of two. -/
def diamondSample : Definition :=
  let a : Module := ⟨"A", []⟩
  let b : Module := ⟨"B", []⟩
  let c : Module := ⟨"C", []⟩
  let d : Module := ⟨"D", []⟩
  { modules := [a, b, c, d]
    dependencies := [⟨a, b⟩, ⟨a, c⟩, ⟨b, d⟩, ⟨c, d⟩]
    noDependencies := []
    names_nodup := by decide
    dependencies_declared := by decide
    noDependencies_declared := by decide
    dependencies_nodup := by decide
    noDependencies_nodup := List.nodup_nil }

/-- The same modules and rules, the two in the middle declared the other way round. -/
def diamondSwapped : Definition :=
  { diamondSample with
    modules := [⟨"A", []⟩, ⟨"C", []⟩, ⟨"B", []⟩, ⟨"D", []⟩]
    names_nodup := by decide
    dependencies_declared := by decide
    noDependencies_declared := by decide }

theorem reorders_diamondSwapped : diamondSample.Reorders diamondSwapped where
  modules := by decide
  dependencies := rfl
  noDependencies := rfl

/-- Code that has all of these dependencies but the last. -/
def diamondGraph : ModuleGraph :=
  let a : Module := ⟨"A", []⟩
  let b : Module := ⟨"B", []⟩
  let c : Module := ⟨"C", []⟩
  let d : Module := ⟨"D", []⟩
  ((((ModuleGraph.empty.addModules [a, b, c, d, Module.other]).addDependency a b).addDependency
    a c).addDependency b d)

/-- The dependency that the code lacks is found in both orders. -/
theorem strict_routes_reorder_diamondSample :
    diamondSample.Reorders diamondSwapped ∧ diamondSample.modules ≠ []
      ∧ ¬ Tied ⟨diamondSample, diamondGraph, .other⟩ ⟨"C", []⟩ ⟨"D", []⟩
      ∧ ∃ r r', strict ⟨diamondSample, diamondGraph, .other⟩ = .ok r
        ∧ strict ⟨diamondSwapped, diamondGraph, .other⟩ = .ok r'
        ∧ ⟨⟨"C", []⟩, ⟨"D", []⟩⟩ ∈ r.routes.map RouteViolation.pair
        ∧ ⟨⟨"C", []⟩, ⟨"D", []⟩⟩ ∈ r'.routes.map RouteViolation.pair := by
  have hmodules : diamondSample.modules ≠ [] := by decide
  have htied : ¬ Tied ⟨diamondSample, diamondGraph, .other⟩ ⟨"C", []⟩ ⟨"D", []⟩ := by
    -- a dependency is the only shortest way between its ends
    intro hsome
    obtain ⟨p, q, hp, hcode, hq, hnot⟩ := hsome
    have hdepends : Depends ⟨diamondSample, diamondGraph, .other⟩ ⟨"C", []⟩ ⟨"D", []⟩ := by decide
    rw [hq.eq_pair hdepends, ← hp.eq_pair hdepends] at hnot
    exact hnot hcode.1.2.2.2
  obtain ⟨r, r', hr, hr', -, hpairs⟩ :=
    (strict_routes_reorder reorders_diamondSwapped diamondGraph .other).2 hmodules
  obtain ⟨s, hs, hreport⟩ := exists_strict (a := ⟨diamondSample, diamondGraph, .other⟩) hmodules
  obtain rfl := Except.ok.inj (hr.symm.trans hs)
  have hmem : (⟨⟨"C", []⟩, ⟨"D", []⟩⟩ : ModulePair) ∈ r.routes.map RouteViolation.pair :=
    hreport.mem_pairs_iff.2 ⟨by decide, by decide, by decide⟩
  exact ⟨reorders_diamondSwapped, hmodules, htied, r, r', hr, hr', hmem, (hpairs _ _ htied).1 hmem⟩

/-- Modules that are tied may differ in one order and not in the other: here the way by `B` is
compared first, which the code can walk, and then the way by `C`, which it cannot. -/
theorem pairs_diamondSwapped :
    diamondSample.Reorders diamondSwapped
      ∧ ∃ r r', strict ⟨diamondSample, diamondGraph, .other⟩ = .ok r
        ∧ strict ⟨diamondSwapped, diamondGraph, .other⟩ = .ok r'
        ∧ ⟨⟨"A", []⟩, ⟨"D", []⟩⟩ ∉ r.routes.map RouteViolation.pair
        ∧ ⟨⟨"A", []⟩, ⟨"D", []⟩⟩ ∈ r'.routes.map RouteViolation.pair := by
  obtain ⟨r, hr, hreport⟩ := exists_strict (a := ⟨diamondSample, diamondGraph, .other⟩) (by decide)
  obtain ⟨r', hr', hreport'⟩ :=
    exists_strict (a := ⟨diamondSwapped, diamondGraph, .other⟩) (by decide)
  refine ⟨reorders_diamondSwapped, r, r', hr, hr', fun hmem => ?_, ?_⟩
  · obtain ⟨-, -, hcompare⟩ := hreport.mem_pairs_iff.1 hmem
    exact hcompare (by decide)
  · exact hreport'.mem_pairs_iff.2 ⟨by decide, by decide, by decide⟩

end Analysis

end Conformance
