import Conformance.Proofs.Checker.Coupling
import Conformance.Proofs.Checker.Satisfiable
import Conformance.Proofs.Module.Glob

/-!
# Modules with the pattern `*`

The pattern `*` accepts every name without a line feed, and no pattern accepts a name with one. So
where a module with this pattern is declared, just the names with a line feed are left to the
catch-all module, and it has edges only if some access joins a name with a line feed to one without
(`exists_hasEdge_other_iff`, `exists_hasEdge_from_other_iff`). The check of this module alone can
fail for one reason, a way from the module to the catch-all one and back (`check_star`).
-/

namespace Conformance

/-- Is there a line feed in the name? -/
def HasLineFeed (element : String) : Prop := '\n' ∈ element.toList

instance : DecidablePred HasLineFeed := fun _ => inferInstanceAs (Decidable (_ ∈ _))

/-- Is `*` a pattern of the module? -/
def Module.HasStar (m : Module) : Prop := "*" ∈ m.patternTexts

instance : DecidablePred Module.HasStar := fun _ => inferInstanceAs (Decidable (_ ∈ _))

namespace AccessLog

/-- Does the log record an access from a name of one sort to a name of another? -/
def Records (log : AccessLog) (p q : String → Prop) : Prop :=
  ∃ root ∈ log.roots, ∃ r ∈ root.accesses, p r.source ∧ q r.dest

/-- Does an access lead from a name without a line feed to one with a line feed? -/
def LeadsOut (log : AccessLog) : Prop := log.Records (¬HasLineFeed ·) HasLineFeed

/-- Does an access lead from a name with a line feed to one without a line feed? -/
def LeadsBack (log : AccessLog) : Prop := log.Records HasLineFeed (¬HasLineFeed ·)

instance (log : AccessLog) (p q : String → Prop) [DecidablePred p] [DecidablePred q] :
    Decidable (log.Records p q) :=
  inferInstanceAs (Decidable (∃ _ ∈ _, _))

instance : DecidablePred LeadsOut := fun log =>
  inferInstanceAs (Decidable (log.Records (¬HasLineFeed ·) HasLineFeed))

instance : DecidablePred LeadsBack := fun log =>
  inferInstanceAs (Decidable (log.Records HasLineFeed (¬HasLineFeed ·)))

theorem records_iff {log : AccessLog} {p q : String → Prop} :
    log.Records p q ↔ ∃ source dest, log.Accesses source dest ∧ p source ∧ q dest := by
  constructor
  · rintro ⟨root, hroot, r, hr, hsource, hdest⟩
    exact ⟨r.source, r.dest, ⟨root, hroot, r, hr, rfl, rfl⟩, hsource, hdest⟩
  · rintro ⟨_, _, ⟨root, hroot, r, hr, rfl, rfl⟩, hsource, hdest⟩
    exact ⟨root, hroot, r, hr, hsource, hdest⟩

end AccessLog

/-! ## Which names a module contains -/

/-- No module contains a name with a line feed. -/
theorem Module.contains_eq_false_of_hasLineFeed (m : Module) {element : String}
    (h : HasLineFeed element) : m.contains element = false := by
  unfold Module.contains
  rw [List.any_eq_false]
  intro g _
  rw [g.accepts_eq_false_of_lineFeed h]
  exact Bool.false_ne_true

/-- A module with the pattern `*` contains all names without a line feed. -/
theorem Module.HasStar.contains_iff {m : Module} (hm : m.HasStar) {element : String} :
    m.contains element = true ↔ ¬HasLineFeed element := by
  constructor
  · intro hcontains hfeed
    rw [m.contains_eq_false_of_hasLineFeed hfeed] at hcontains
    cases hcontains
  · intro hfeed
    obtain ⟨g, hg, hstar⟩ := List.mem_map.1 hm
    unfold Module.contains
    exact List.any_eq_true.2 ⟨g, hg, (Glob.accepts_star_iff hstar).2 hfeed⟩

/-- A module with a pattern is not the catch-all one. -/
theorem Module.HasStar.ne_other {m : Module} (hm : m.HasStar) : m ≠ Module.other := by
  rintro rfl
  cases hm

section
variable {declared : List Module} {m : Module} {element : String}

/-- Beside a module with the pattern `*` names with a line feed are left to the catch-all module. -/
theorem belongs_other_iff (hm : m ∈ declared) (hstar : m.HasStar) :
    Belongs declared Module.other element Module.other ↔ HasLineFeed element := by
  constructor
  · rintro (⟨-, hcontains⟩ | ⟨-, hnone⟩)
    · cases hcontains
    · by_contra hfeed
      have hcontains := hstar.contains_iff.2 hfeed
      rw [hnone m hm] at hcontains
      cases hcontains
  · intro hfeed
    exact .inr ⟨rfl, fun n _ => n.contains_eq_false_of_hasLineFeed hfeed⟩

theorem Module.HasStar.belongs_iff (hm : m ∈ declared) (hstar : m.HasStar) :
    Belongs declared Module.other element m ↔ ¬HasLineFeed element :=
  (belongs_iff_contains hm hstar.ne_other).trans hstar.contains_iff

end

namespace Checker

variable {c : Checker} {d : Definition} {m : Module} {log : AccessLog}

/-! ## Edges of the catch-all module -/

/-- The code leads from a module with the pattern `*` to the catch-all module by accesses that lead
out. -/
theorem hasEdge_star_other_iff (hm : m ∈ d.modules) (hstar : m.HasStar) :
    (survey d log.events).graph.hasEdge m Module.other = true ↔ log.LeadsOut := by
  rw [hasEdge_survey_events, and_iff_right hstar.ne_other]
  simp only [hstar.belongs_iff hm, belongs_other_iff hm hstar]
  exact AccessLog.records_iff.symm

theorem hasEdge_other_star_iff (hm : m ∈ d.modules) (hstar : m.HasStar) :
    (survey d log.events).graph.hasEdge Module.other m = true ↔ log.LeadsBack := by
  rw [hasEdge_survey_events, and_iff_right hstar.ne_other.symm]
  simp only [hstar.belongs_iff hm, belongs_other_iff hm hstar]
  exact AccessLog.records_iff.symm

/-- What belongs to another module than the catch-all one has no line feed. -/
theorem not_hasLineFeed_of_belongs {n : Module} {element : String} (hn : n ≠ Module.other)
    (h : Belongs d.modules Module.other element n) : ¬HasLineFeed element := by
  rcases h with ⟨-, hcontains⟩ | ⟨rfl, -⟩
  · intro hfeed
    rw [n.contains_eq_false_of_hasLineFeed hfeed] at hcontains
    cases hcontains
  · exact absurd rfl hn

/-- Beside a module with the pattern `*`, no edge leads to the catch-all module but by accesses that
lead out. -/
theorem exists_hasEdge_other_iff (hm : m ∈ d.modules) (hstar : m.HasStar) :
    (∃ n, (survey d log.events).graph.hasEdge n Module.other = true) ↔ log.LeadsOut := by
  constructor
  · rintro ⟨n, hedge⟩
    obtain ⟨hn, source, dest, haccess, hsource, hdest⟩ := hasEdge_survey_events.1 hedge
    exact AccessLog.records_iff.2 ⟨source, dest, haccess, not_hasLineFeed_of_belongs hn hsource,
      (belongs_other_iff hm hstar).1 hdest⟩
  · intro hout
    exact ⟨m, (hasEdge_star_other_iff hm hstar).2 hout⟩

theorem exists_hasEdge_from_other_iff (hm : m ∈ d.modules) (hstar : m.HasStar) :
    (∃ n, (survey d log.events).graph.hasEdge Module.other n = true) ↔ log.LeadsBack := by
  constructor
  · rintro ⟨n, hedge⟩
    obtain ⟨hn, source, dest, haccess, hsource, hdest⟩ := hasEdge_survey_events.1 hedge
    exact AccessLog.records_iff.2 ⟨source, dest, haccess, (belongs_other_iff hm hstar).1 hsource,
      not_hasLineFeed_of_belongs hn.symm hdest⟩
  · intro hback
    exact ⟨m, (hasEdge_other_star_iff hm hstar).2 hback⟩

/-! ## The module alone -/

/-- Is this the only module of the definition, and are there no rules? -/
structure IsAlone (d : Definition) (m : Module) : Prop where
  modules : d.modules = [m]
  dependencies : d.dependencies = []
  noDependencies : d.noDependencies = []

namespace IsAlone

variable (h : IsAlone d m)
include h

theorem mem : m ∈ d.modules := by
  rw [h.modules]
  exact List.mem_singleton_self m

theorem modules_ne_nil : d.modules ≠ [] := by
  rw [h.modules]
  exact List.cons_ne_nil m []

/-- There is nothing to compare but ways from the module to itself, and without accesses inside a
module these go by way of the catch-all module. -/
theorem edgesMatch_iff (hstar : m.HasStar) :
    (analysis d (survey d log.events)).EdgesMatch ↔ ¬(log.LeadsOut ∧ log.LeadsBack) := by
  have hdepends (n k : Module) : ¬(analysis d (survey d log.events)).Depends n k := by
    intro hdepends
    have hmem : (⟨n, k⟩ : ModulePair) ∈ d.dependencies := hdepends
    rw [h.dependencies] at hmem
    cases hmem
  have hself : (survey d log.events).graph.hasEdge m m ≠ true := fun hedge =>
    (hasEdge_survey_events.1 hedge).1 rfl
  rw [Analysis.edgesMatch_iff]
  show (∀ n ∈ d.modules, ∀ k ∈ d.modules, _) ↔ _
  simp only [h.modules, List.forall_mem_singleton, hdepends, false_or, exists_false, and_false,
    false_iff]
  rw [← hasEdge_star_other_iff h.mem hstar, ← hasEdge_other_star_iff h.mem hstar, not_and]
  exact and_iff_right hself

/-- The coupling of a module without others is zero. -/
theorem metrics_eq (hstar : m.HasStar) :
    (analysis d (survey d log.events)).metrics = [⟨m, 0, 0⟩] := by
  have hown : d.modules.filter (· ≠ Module.other) = [m] := by
    rw [h.modules]
    exact List.filter_cons_of_pos (by simpa using hstar.ne_other)
  rw [metrics_analysis_survey, hown]
  simp

/-- A strict check finds nothing but a way out to the catch-all module and back. -/
theorem accepts_strict_iff (hstar : m.HasStar) (hd : c.definition = some d)
    (hmode : c.mode = .strict) : c.Accepts log ↔ ¬(log.LeadsOut ∧ log.LeadsBack) := by
  have hother : Module.other ∉ d.modules := by
    rw [h.modules, List.mem_singleton]
    exact hstar.ne_other.symm
  rw [accepts_iff hd hmode h.modules_ne_nil hother, h.edgesMatch_iff hstar]
  refine and_iff_left fun p hp => ?_
  rw [h.noDependencies] at hp
  cases hp

/-- A loose check looks at rules, and there are none. -/
theorem accepts_loose (hd : c.definition = some d) (hmode : c.mode = .loose) : c.Accepts log := by
  obtain ⟨r, l, hr, hl, hreport⟩ := exists_check_loose hd hmode h.modules_ne_nil log
  have habsent : l.absent = [] := by
    refine List.eq_nil_iff_forall_not_mem.2 fun p hp => ?_
    have hrule := ((hreport.mem_absent_iff p).1 hp).1
    change p ∈ d.dependencies at hrule
    rw [h.dependencies] at hrule
    cases hrule
  have hundesired : l.undesired = [] := by
    refine List.eq_nil_iff_forall_not_mem.2 fun v hv => ?_
    have hrule := ((hreport.mem_pairs_iff v.pair).1 (List.mem_map_of_mem hv)).1
    change v.pair ∈ d.noDependencies at hrule
    rw [h.noDependencies] at hrule
    cases hrule
  refine ⟨r, hr, ?_⟩
  rw [hl]
  simp [AnalysisResult.isConformant, LooseResult.isConformant, habsent, hundesired]

end IsAlone

/-- Where a module with the pattern `*` is declared, the names with a line feed are left to the
catch-all module and no others; edges lead to it by accesses from a name without a line feed to one
with a line feed, and from it by accesses the other way. A check of this module alone, without
rules, counts no coupling. In loose mode it conforms, and in strict mode it does unless both sorts
of accesses are recorded. -/
theorem check_star (hd : c.definition = some d) (hm : m ∈ d.modules) (hstar : m.HasStar)
    (log : AccessLog) :
    let s := survey d log.events
    (∀ element, Module.other ∈ s.modulesOf element ↔ HasLineFeed element)
      ∧ ((∃ n, s.graph.hasEdge n Module.other = true) ↔ log.LeadsOut)
      ∧ ((∃ n, s.graph.hasEdge Module.other n = true) ↔ log.LeadsBack)
      ∧ (IsAlone d m → ∃ r, c.check log.scan = .ok r ∧ r.result.metrics = [⟨m, 0, 0⟩]
        ∧ (r.result.isConformant = true
          ↔ c.mode = .loose ∨ ¬(log.LeadsOut ∧ log.LeadsBack))) := by
  refine ⟨fun element => ?_, exists_hasEdge_other_iff hm hstar,
    exists_hasEdge_from_other_iff hm hstar, fun halone => ?_⟩
  · rw [Survey.mem_modulesOf]
    simp only [survey, Survey.modules_recordAll, Survey.other_recordAll, Survey.modules_start,
      Survey.other_start]
    exact belongs_other_iff hm hstar
  · obtain ⟨result, hrun, hmetrics⟩ := Analysis.exists_run_metrics
      (a := analysis d (survey d log.events)) halone.modules_ne_nil c.mode
    have hcheck := check_scan_of_run hd hrun
    -- what a check accepts is known of logs, so the verdict is told by them
    have haccepts : c.Accepts log ↔ result.isConformant = true := by
      simp only [Accepts, hcheck, Except.ok.injEq, exists_eq_left']
    refine ⟨_, hcheck, hmetrics.trans (halone.metrics_eq hstar), ?_⟩
    show result.isConformant = true ↔ _
    rw [← haccepts]
    cases hmode : c.mode with
    | strict => simp [halone.accepts_strict_iff hstar hd hmode]
    | loose => simp [halone.accepts_loose hd hmode]

theorem isGlobText_star : isGlobText "*" = true := by decide

/-- A module with the pattern `*`. -/
def starModule : Module := ⟨"All", [⟨"*", isGlobText_star⟩]⟩

/-- This module alone, without rules. -/
def starRules : Definition where
  modules := [starModule]
  dependencies := []
  noDependencies := []
  names_nodup := List.nodup_singleton _
  dependencies_declared := List.forall_mem_nil _
  noDependencies_declared := List.forall_mem_nil _
  dependencies_nodup := List.nodup_nil
  noDependencies_nodup := List.nodup_nil

/-- An access to a name with a line feed, and one between the empty name and a name of blanks and a
carriage return. -/
def oneWayLog : AccessLog :=
  ⟨[⟨"root", [], [⟨"a", "b\nc", .invoke⟩, ⟨"", "\t \r", .other⟩]⟩]⟩

/-- A way out alone is no difference in ways. -/
theorem check_star_oneWayLog :
    (new.setDefinition starRules).definition = some starRules
      ∧ starModule ∈ starRules.modules
      ∧ starModule.HasStar
      ∧ IsAlone starRules starModule
      ∧ Module.other ∉ (survey starRules oneWayLog.events).modulesOf "\t \r"
      ∧ (∃ n, (survey starRules oneWayLog.events).graph.hasEdge n Module.other = true)
      ∧ ∃ r, (new.setDefinition starRules).check oneWayLog.scan = .ok r
        ∧ r.result.isConformant = true := by
  have hm : starModule ∈ starRules.modules := List.mem_singleton_self _
  have hstar : starModule.HasStar := by decide
  have halone : IsAlone starRules starModule := ⟨rfl, rfl, rfl⟩
  obtain ⟨hother, hout, -, hcheck⟩ :=
    check_star (c := new.setDefinition starRules) rfl hm hstar oneWayLog
  obtain ⟨r, hr, -, hconformant⟩ := hcheck halone
  have hblanks : ¬HasLineFeed "\t \r" := by decide
  have hback : ¬oneWayLog.LeadsBack := by decide
  exact ⟨rfl, hm, hstar, halone, fun hmem => hblanks ((hother _).1 hmem), hout.2 (by decide),
    r, hr, hconformant.2 (.inr fun hboth => hback hboth.2)⟩

/-- An access to a name with a line feed, and one from there. -/
def bothWaysLog : AccessLog :=
  ⟨[⟨"root", [], [⟨"a", "b\nc", .invoke⟩, ⟨"b\nc", "a", .invoke⟩]⟩]⟩

/-- A name with a line feed is left to the catch-all module although a module has the pattern `*`,
and the strict check finds a way there and back. -/
theorem not_conformant_bothWaysLog :
    Module.other ∈ (survey starRules bothWaysLog.events).modulesOf "b\nc"
      ∧ ∃ r, (new.setDefinition starRules).check bothWaysLog.scan = .ok r
        ∧ r.result.isConformant = false := by
  obtain ⟨r, s, hr, hs, hreport⟩ := exists_check_strict (c := new.setDefinition starRules)
    (d := starRules) rfl rfl (by decide) bothWaysLog
  have hroutes : s.routes ≠ [] := fun hnil => absurd (hreport.routes_eq_nil_iff.1 hnil) (by decide)
  refine ⟨by decide, r, hr, ?_⟩
  rw [hs, AnalysisResult.isConformant, StrictResult.isConformant]
  simp [hroutes]

end Checker

end Conformance
