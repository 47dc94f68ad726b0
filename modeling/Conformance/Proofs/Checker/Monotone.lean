import Conformance.Proofs.Checker.Reports

/-!
# Loose checks of growing code

More accesses never take a way away. So under loose checks of two logs, of which the second records
all accesses of the first and maybe more, dependencies that are absent in the second are absent in
the first, and rules that the first breaks are broken in the second, on ways that are no longer
(`check_loose_mono`). The argument is about graphs: every step in the one is a step in the other,
hence every walk is a walk, and a shortest walk of the larger graph is no longer than any of them.
-/

namespace Conformance

/-! ## A graph with more edges -/

section
variable {d : Definition} {g g' : ModuleGraph} {other : Module}

/-- A step of a graph is a step of every graph with its edges. -/
theorem ModuleGraph.StepWithin.mono
    (hedges : ∀ m n, g.hasEdge m n = true → g'.hasEdge m n = true) {modules : List Module}
    {m n : Module} (h : g.StepWithin modules m n) : g'.StepWithin modules m n :=
  ⟨h.1, h.2.1, hedges m n h.2.2⟩

namespace Analysis

variable (hedges : ∀ m n, g.hasEdge m n = true → g'.hasEdge m n = true)
  {l l' : LooseResult} (hl : ReportsLoosely ⟨d, g, other⟩ l) (hl' : ReportsLoosely ⟨d, g', other⟩ l')

include hedges

theorem Reaches.mono {m n : Module} (h : Reaches ⟨d, g, other⟩ m n) : Reaches ⟨d, g', other⟩ m n :=
  LeadsWithin.mono (fun _ _ hstep => hstep.mono hedges) h

include hl hl'

/-- What is absent with more edges is absent with fewer. -/
theorem mem_absent_mono {p : ModulePair} (hp : p ∈ l'.absent) : p ∈ l.absent := by
  obtain ⟨hdep, hno⟩ := (hl'.mem_absent_iff p).1 hp
  exact (hl.mem_absent_iff p).2 ⟨hdep, fun hreaches => hno (hreaches.mono hedges)⟩

/-- A rule that is broken with fewer edges is broken with more. -/
theorem mem_pairs_mono {v : ReachViolation} (hv : v ∈ l.undesired) :
    v.pair ∈ l'.undesired.map ReachViolation.pair := by
  obtain ⟨hrule, hreaches⟩ := (hl.mem_pairs_iff v.pair).1 (List.mem_map_of_mem hv)
  exact (hl'.mem_pairs_iff v.pair).2 ⟨hrule, hreaches.mono hedges⟩

/-- With more edges the way on which a rule is broken is as short as with fewer, or shorter. -/
theorem length_path_mono {v v' : ReachViolation} (hv : v ∈ l.undesired) (hv' : v' ∈ l'.undesired)
    (hpair : v'.pair = v.pair) : v'.path.length ≤ v.path.length := by
  obtain ⟨hsource, hdest⟩ := ModulePair.mk.inj hpair
  have hwalk : IsWalk (g'.StepWithin (vertices ⟨d, g', other⟩)) v.source v.dest v.path :=
    (hl.isShortest v hv).1.mono fun _ _ hstep => hstep.mono hedges
  have hshortest := hl'.isShortest v' hv'
  rw [hsource, hdest] at hshortest
  exact hshortest.2 v.path hwalk

end Analysis

end

/-! ## A log with more accesses -/

namespace Checker

/-- The code of a log with more accesses has more edges. -/
theorem hasEdge_survey_mono {d : Definition} {log log' : AccessLog}
    (hlog : ∀ source dest, log.Accesses source dest → log'.Accesses source dest) (m n : Module)
    (h : (survey d log.events).graph.hasEdge m n = true) :
    (survey d log'.events).graph.hasEdge m n = true := by
  obtain ⟨hne, source, dest, haccess, hboth⟩ := hasEdge_survey_events.1 h
  exact hasEdge_survey_events.2 ⟨hne, source, dest, hlog source dest haccess, hboth⟩

/-- If a log records all accesses of another, then in loose mode every dependency that is absent in
it is absent in the other, and every rule that is undesired in the other is undesired in it, on a
path that is no longer. -/
theorem check_loose_mono {c : Checker} {d : Definition} (hd : c.definition = some d)
    (hmode : c.mode = .loose) (hm : d.modules ≠ []) {log log' : AccessLog}
    (hlog : ∀ source dest, log.Accesses source dest → log'.Accesses source dest) :
    ∃ r r' l l', c.check log.scan = .ok r ∧ r.result = .loose l
      ∧ c.check log'.scan = .ok r' ∧ r'.result = .loose l'
      ∧ (∀ p ∈ l'.absent, p ∈ l.absent)
      ∧ ∀ v ∈ l.undesired, v.pair ∈ l'.undesired.map ReachViolation.pair
        ∧ ∀ v' ∈ l'.undesired, v'.pair = v.pair → v'.path.length ≤ v.path.length := by
  obtain ⟨r, l, hr, hl, hreport⟩ := exists_check_loose hd hmode hm log
  obtain ⟨r', l', hr', hl', hreport'⟩ := exists_check_loose hd hmode hm log'
  have hedges := hasEdge_survey_mono (d := d) hlog
  refine ⟨r, r', l, l', hr, hl, hr', hl', fun p hp => ?_, fun v hv => ⟨?_, fun v' hv' hpair => ?_⟩⟩
  · exact Analysis.mem_absent_mono hedges hreport hreport' hp
  · exact Analysis.mem_pairs_mono hedges hreport hreport' hv
  · exact Analysis.length_path_mono hedges hreport hreport' hv hv' hpair

/-- Three modules of which the last is to depend on the first, and not the other way round. -/
def shortcutSample : Definition :=
  let ui : Module := ⟨"Ui", [⟨"ui.*", by decide⟩]⟩
  let service : Module := ⟨"Service", [⟨"service.*", by decide⟩]⟩
  let store : Module := ⟨"Store", [⟨"store.*", by decide⟩]⟩
  { modules := [ui, service, store]
    dependencies := [⟨store, ui⟩]
    noDependencies := [⟨ui, store⟩]
    names_nodup := by decide
    dependencies_declared := by decide
    noDependencies_declared := by decide
    dependencies_nodup := by decide
    noDependencies_nodup := by decide }

/-- A loose check of the definition. -/
def shortcutChecker : Checker := (new.setDefinition shortcutSample).setMode .loose

/-- Code that leads from the first of three modules to the last by way of the other. -/
def detourLog : AccessLog :=
  ⟨[⟨"app", [], [⟨"ui.Page", "service.Orders", .invoke⟩,
    ⟨"service.Orders", "store.Orders", .invoke⟩]⟩]⟩

/-- The same code, and a shortcut. -/
def shortcutLog : AccessLog :=
  ⟨[⟨"plugin", [], [⟨"ui.Page", "store.Orders", .other⟩]⟩,
    ⟨"app", ["ui.Page"], [⟨"service.Orders", "store.Orders", .other⟩,
      ⟨"ui.Page", "service.Orders", .invoke⟩]⟩]⟩

/-- What is absent stays absent here, and the shortcut shows in the evidence. -/
theorem check_loose_mono_shortcut :
    shortcutChecker.definition = some shortcutSample ∧ shortcutChecker.mode = .loose
      ∧ shortcutSample.modules ≠ []
      ∧ (∀ source dest, detourLog.Accesses source dest → shortcutLog.Accesses source dest)
      ∧ ∃ r r' l l', shortcutChecker.check detourLog.scan = .ok r ∧ r.result = .loose l
        ∧ shortcutChecker.check shortcutLog.scan = .ok r' ∧ r'.result = .loose l'
        ∧ l'.absent ⊆ l.absent
        ∧ ∃ v ∈ l.undesired, v.path.length = 3
          ∧ ∃ v' ∈ l'.undesired, v'.pair = v.pair ∧ v'.path.length ≤ 3 := by
  have hmodules : shortcutSample.modules ≠ [] := by decide
  have haccesses : ∀ source dest,
      detourLog.Accesses source dest → shortcutLog.Accesses source dest := fun source dest h => by
    simp only [AccessLog.Accesses, detourLog, shortcutLog, List.mem_cons, List.not_mem_nil,
      or_false, exists_eq_or_imp, exists_eq_left] at h ⊢
    tauto
  obtain ⟨r, r', l, l', hr, hl, hr', hl', habsent, hundesired⟩ :=
    check_loose_mono (c := shortcutChecker) rfl rfl hmodules haccesses
  have hlengths : ((shortcutChecker.check detourLog.scan).bind fun r =>
      (r.loose.mapError fun _ => .noSpecification).map fun l => l.undesired.map (·.path.length))
        = .ok [3] := by decide
  rw [hr, Except.bind, Report.loose, hl] at hlengths
  have hthree : l.undesired.map (·.path.length) = [3] := Except.ok.inj hlengths
  obtain ⟨v, hv⟩ := List.length_eq_one_iff.1 ((List.length_map _).symm.trans (congrArg _ hthree))
  have hmem : v ∈ l.undesired := hv ▸ List.mem_singleton_self v
  have hlength : v.path.length = 3 := by simpa [hv] using hthree
  obtain ⟨hpair, hshorter⟩ := hundesired v hmem
  obtain ⟨v', hv', hsame⟩ := List.mem_map.1 hpair
  exact ⟨rfl, rfl, hmodules, haccesses, r, r', l, l', hr, hl, hr', hl', habsent, v, hmem, hlength,
    v', hv', hsame, hlength ▸ hshorter v' hv' hsame⟩

end Checker

end Conformance
