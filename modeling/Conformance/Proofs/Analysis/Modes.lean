import Conformance.Proofs.Analysis.Findings

/-!
# The two modes side by side

A no-dependency rule that an edge breaks is reported in either mode, in the loose one with that edge
as its way. Where the strict analysis finds no difference in ways, the loose analysis misses no
dependency, and its undesired ways join just those modules that dependencies alone join
(`strict_loose_consistent`). Both rest on what a strict result says about edges: ways of any length
in the code are no shorter than ways along dependencies, and no longer (`EdgesMatch.reaches_iff`).
-/

namespace Conformance.Analysis

variable {a : Analysis}

/-- An edge between declared modules is a way. -/
theorem reaches_of_hasEdge {m n : Module} (hm : a.Declares m) (hn : a.Declares n)
    (h : a.actual.hasEdge m n = true) : a.Reaches m n :=
  ⟨1, by decide, .last ⟨hm.mem_vertices, hn.mem_vertices, h⟩⟩

/-- If edges match, then the code leads where dependencies lead, within the same number of steps. -/
theorem EdgesMatch.reaches_iff (h : a.EdgesMatch) {m n : Module} (hm : a.Declares m)
    (hn : a.Declares n) : a.Reaches m n ↔ LeadsWithin a.Depends Distance.limit m n := by
  rw [Reaches, ← h.leadsWithin_iff hm hn]
  exact ⟨LeadsWithin.mono fun _ _ => stepWithin_specifiedGraph.1,
    LeadsWithin.mono fun _ _ => stepWithin_specifiedGraph.2⟩

/-- Ways along dependencies need not be longer than there are modules. -/
theorem leadsWithin_depends_iff (h : a.definition.modules.length ≤ Distance.limit) {m n : Module} :
    LeadsWithin a.Depends Distance.limit m n ↔ Leads a.Depends m n := by
  rw [leads_iff]
  constructor
  · intro hsome
    obtain ⟨k, -, hwalk⟩ := hsome
    exact ⟨k, hwalk⟩
  · intro hsome
    obtain ⟨k, hwalk⟩ := hsome
    obtain ⟨l, hl, hshort⟩ := hwalk.leadsWithin_length fun _ _ hdep => hdep.declares.2
    exact ⟨l, Nat.le_trans hl h, hshort⟩

/-- A direct violation has its edge as the only shortest way. -/
theorem mem_undesired_of_mem_direct {s : StrictResult} {l : LooseResult} (hs : a.ReportsStrictly s)
    (hl : a.ReportsLoosely l) {p : ModulePair} (hp : p ∈ s.direct) :
    ⟨p.source, p.dest, [p.source, p.dest]⟩ ∈ l.undesired := by
  obtain ⟨hrule, -, hedge⟩ := (hs.mem_direct_iff p).1 hp
  obtain ⟨hsource, hdest⟩ := declares_of_mem_noDependencies hrule
  have hpair := (hl.mem_pairs_iff p).2 ⟨hrule, reaches_of_hasEdge hsource hdest hedge⟩
  obtain ⟨v, hv, rfl⟩ := List.mem_map.1 hpair
  have hpath : v.path = [v.source, v.dest] :=
    (hl.isShortest v hv).eq_pair ⟨hsource.mem_vertices, hdest.mem_vertices, hedge⟩
  have hv' : v = ⟨v.source, v.dest, [v.source, v.dest]⟩ := by rw [← hpath]
  exact hv' ▸ hv

/-- Of a definition with modules, every rule that the strict analysis reports as broken by an edge
is reported by the loose analysis on the path of that edge. If the strict analysis reports no
difference in ways, then the loose one reports no dependency as absent, and of the no-dependency
rules those whose source leads to their destination along dependencies alone. As everywhere, ways
longer than `Distance.limit` do not count; without more modules than that no way has to be longer.
-/
theorem strict_loose_consistent (h : a.definition.modules ≠ []) :
    ∃ s l, a.strict = .ok s ∧ a.loose = .ok l
      ∧ (∀ p ∈ s.direct, ⟨p.source, p.dest, [p.source, p.dest]⟩ ∈ l.undesired)
      ∧ (s.routes = [] → l.absent = []
        ∧ (∀ p, p ∈ l.undesired.map ReachViolation.pair ↔ p ∈ a.definition.noDependencies
            ∧ LeadsWithin a.Depends Distance.limit p.source p.dest)
        ∧ (a.definition.modules.length ≤ Distance.limit →
          ∀ p, p ∈ l.undesired.map ReachViolation.pair ↔ p ∈ a.definition.noDependencies
            ∧ Leads a.Depends p.source p.dest)) := by
  obtain ⟨s, hs, hstrict⟩ := exists_strict h
  obtain ⟨l, hl, hloose⟩ := exists_loose h
  refine ⟨s, l, hs, hl, fun p hp => mem_undesired_of_mem_direct hstrict hloose hp, fun hnil => ?_⟩
  have hmatch : a.EdgesMatch := hstrict.routes_eq_nil_iff.1 hnil
  have hnames : ∀ p, p ∈ l.undesired.map ReachViolation.pair ↔ p ∈ a.definition.noDependencies
      ∧ LeadsWithin a.Depends Distance.limit p.source p.dest := fun p => by
    rw [hloose.mem_pairs_iff]
    refine and_congr_right fun hp => ?_
    obtain ⟨hsource, hdest⟩ := declares_of_mem_noDependencies hp
    exact hmatch.reaches_iff hsource hdest
  refine ⟨List.eq_nil_iff_forall_not_mem.2 fun p hp => ?_, hnames, fun hsize p => ?_⟩
  · obtain ⟨hdep, hno⟩ := (hloose.mem_absent_iff p).1 hp
    have hdepends : a.Depends p.source p.dest := hdep
    obtain ⟨hsource, hdest⟩ := hdepends.declares
    exact hno ((hmatch.reaches_iff hsource hdest).2 ⟨1, by decide, .last hdepends⟩)
  · rw [hnames, leadsWithin_depends_iff hsize]

/-- Modules of three layers. -/
def webSample : Module := ⟨"Web", []⟩

@[inherit_doc webSample]
def coreSample : Module := ⟨"Core", []⟩

@[inherit_doc webSample]
def dbSample : Module := ⟨"Db", []⟩

/-- Layers that depend each on the next one, in the rules and in the code, while other rules forbid
both the first of these dependencies and the way that they make together. -/
def layersSample : Analysis where
  definition :=
    { modules := [webSample, coreSample, dbSample]
      dependencies := [⟨webSample, coreSample⟩, ⟨coreSample, dbSample⟩]
      noDependencies := [⟨webSample, dbSample⟩, ⟨webSample, coreSample⟩]
      names_nodup := by decide
      dependencies_declared := by decide
      noDependencies_declared := by decide
      dependencies_nodup := by decide
      noDependencies_nodup := by decide }
  actual :=
    ((ModuleGraph.empty.addModules [webSample, coreSample, dbSample, Module.other]).addDependency
      webSample coreSample).addDependency coreSample dbSample
  other := Module.other

/-- Both forbidden ways are reported: the one that is an edge by itself, and the one that only
dependencies together make. -/
theorem strict_loose_layersSample :
    layersSample.definition.modules ≠ []
      ∧ ∃ s l, layersSample.strict = .ok s ∧ layersSample.loose = .ok l
        ∧ ⟨webSample, coreSample⟩ ∈ s.direct ∧ s.routes = []
        ∧ ⟨webSample, coreSample, [webSample, coreSample]⟩ ∈ l.undesired ∧ l.absent = []
        ∧ ⟨webSample, dbSample⟩ ∈ l.undesired.map ReachViolation.pair := by
  have hmodules : layersSample.definition.modules ≠ [] := by decide
  obtain ⟨s, l, hs, hl, hdirect, hagree⟩ := strict_loose_consistent hmodules
  obtain ⟨s', hs', hstrict⟩ := exists_strict hmodules
  obtain rfl := Except.ok.inj (hs.symm.trans hs')
  have hmem : ⟨webSample, coreSample⟩ ∈ s.direct := (hstrict.mem_direct_iff _).2 (by decide)
  have hnil : s.routes = [] := hstrict.routes_eq_nil_iff.2 (by decide)
  have hsize : layersSample.definition.modules.length ≤ Distance.limit := by decide
  have hway : Leads layersSample.Depends webSample dbSample :=
    ⟨[webSample, coreSample, dbSample], by decide, rfl, rfl, by decide⟩
  obtain ⟨habsent, -, hnames⟩ := hagree hnil
  exact ⟨hmodules, s, l, hs, hl, hmem, hnil, hdirect _ hmem, habsent,
    (hnames hsize _).2 ⟨by decide, hway⟩⟩

end Conformance.Analysis
