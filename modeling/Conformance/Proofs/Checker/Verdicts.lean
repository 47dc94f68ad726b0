import Conformance.Checker
import Conformance.Proofs.Analysis.Findings
import Conformance.Proofs.Outcome
import Conformance.Proofs.Survey.Findings

/-!
# What a report is refused for

The complaints of a report are its violations and, if they count, its findings, one behind the
other. A report is refused just if it has complaints, and then with a line for each of them
(`ensureConformant_eq_error_iff`). In the report of a check no complaint stands twice
(`nodup_listed_of_run`, `nodup_findings`): modules have names of their own, rules stand in a
definition once, and the survey reports an element once.
-/

namespace Conformance

/-- A violation of either analysis. -/
inductive Violation where
  | route (v : RouteViolation)
  | direct (p : ModulePair)
  | absent (p : ModulePair)
  | undesired (v : ReachViolation)

/-- The wording of a violation. -/
def Violation.text : Violation → String
  | route v => v.text
  | direct p => s!"{p.source.name} depends directly on {p.dest.name}"
  | absent p => s!"{p.source.name} does not depend on {p.dest.name}"
  | undesired v => v.text

/-- What a report can be refused for. -/
inductive Complaint where
  | violation (v : Violation)
  | finding (d : Diagnostic)

/-- The wording of a complaint. -/
def Complaint.text : Complaint → String
  | violation v => v.text
  | finding d => d.text

namespace AnalysisResult

/-- The violations of a result, in the order in which they were found. -/
def listed : AnalysisResult → List Violation
  | strict r => r.routes.map .route ++ r.direct.map .direct
  | loose r => r.absent.map .absent ++ r.undesired.map .undesired

/-- The lines of a result are the wording of its violations, in order. -/
theorem violations_eq (r : AnalysisResult) : r.violations = r.listed.map Violation.text := by
  cases r with
  | strict r =>
    rw [listed, List.map_append, List.map_map, List.map_map]
    rfl
  | loose r =>
    rw [listed, List.map_append, List.map_map, List.map_map]
    rfl

/-- A result conforms if it has no violations. -/
theorem isConformant_iff (r : AnalysisResult) : r.isConformant = true ↔ r.listed = [] := by
  cases r with
  | strict r => simp [isConformant, StrictResult.isConformant, listed]
  | loose r => simp [isConformant, LooseResult.isConformant, listed]

end AnalysisResult

/-- The wording of a refusal has each line behind a line break and two blanks. -/
theorem ReportError.message_notConformant {lines : List String} (h : lines ≠ []) :
    (notConformant lines).message
      = "architecture does not conform to specification:"
        ++ String.join (lines.map fun line => "\n  " ++ line) := by
  have hlines : ∀ lines : List String, lines ≠ [] →
      "\n  " ++ "\n  ".intercalate lines = String.join (lines.map fun line => "\n  " ++ line) := by
    intro lines h
    induction lines with
    | nil => exact absurd rfl h
    | cons line lines ih =>
      by_cases hlast : lines = []
      · simp [hlast]
      · rw [String.intercalate_cons_of_ne_nil hlast, List.map_cons, String.join_cons, ← ih hlast,
          String.append_assoc, String.append_assoc]
  rw [← hlines lines h, ← String.append_assoc]
  rfl

namespace Report

/-- The violations of a report, then its findings if they count. -/
def complaints (r : Report) : List Complaint :=
  r.result.listed.map .violation
    ++ if r.failOnDiagnostics then r.diagnostics.map .finding else []

/-- The lines of a report are the wording of its complaints, in order. -/
theorem reasons_eq (r : Report) : r.reasons = r.complaints.map Complaint.text := by
  have htexts : ∀ ds : List Diagnostic,
      (ds.map Complaint.finding).map Complaint.text = ds.map Diagnostic.text := by
    intro ds
    rw [List.map_map]
    rfl
  rw [reasons, complaints, AnalysisResult.violations_eq, List.map_append, List.map_map]
  congr 1
  split
  · exact (htexts _).symm
  · rfl

/-- A report has no complaints if there are no violations, and no findings where these count. -/
theorem complaints_eq_nil_iff (r : Report) :
    r.complaints = []
      ↔ r.result.listed = [] ∧ (r.failOnDiagnostics = true → r.diagnostics = []) := by
  cases h : r.failOnDiagnostics <;> simp [complaints, h]

theorem isConformant_iff (r : Report) : r.isConformant = true ↔ r.complaints = [] := by
  rw [complaints_eq_nil_iff, isConformant, Bool.and_eq_true, AnalysisResult.isConformant_iff]
  cases r.failOnDiagnostics <;> simp

/-- A report passes if it has no complaints. -/
theorem ensureConformant_eq_ok_iff (r : Report) :
    r.ensureConformant = .ok () ↔ r.complaints = [] := by
  rw [← isConformant_iff, ensureConformant]
  cases r.isConformant <;> simp

/-- A refusal names the complaints, of which there are some. -/
theorem ensureConformant_eq_error_iff (r : Report) {e : ReportError} :
    r.ensureConformant = .error e
      ↔ r.complaints ≠ [] ∧ e = .notConformant (r.complaints.map Complaint.text) := by
  rw [Ne, ← isConformant_iff, ← reasons_eq, ensureConformant]
  cases r.isConformant <;> simp [eq_comm]

end Report

/-! ## No complaint twice -/

/-- Modules with names of their own are different. -/
theorem Definition.modules_nodup (d : Definition) : d.modules.Nodup :=
  .of_map _ d.names_nodup

namespace Analysis

variable {a : Analysis}

/-- A pair of modules has one difference in ways at most, no other pair has it, and every rule is
broken once. -/
theorem nodup_of_strict {r : StrictResult} (h : a.strict = .ok r) :
    r.routes.Nodup ∧ r.direct.Nodup := by
  rw [strict] at h
  split at h
  · cases h
  · obtain rfl := Except.ok.inj h
    refine ⟨?_, a.definition.noDependencies_nodup.filter _⟩
    -- a difference names the pair that it was found for
    have hmodules := a.definition.modules_nodup
    refine List.nodup_flatMap.2 ⟨fun m _ => ?_, hmodules.imp_of_mem ?_⟩
    · refine hmodules.filterMap fun n n' v hv hv' => ?_
      rw [← (ends_of_compareRoute hv).2, (ends_of_compareRoute hv').2]
    · intro m m' _ _ hne v hv hv'
      obtain ⟨n, -, hv⟩ := List.mem_filterMap.1 hv
      obtain ⟨n', -, hv'⟩ := List.mem_filterMap.1 hv'
      exact hne ((ends_of_compareRoute hv).1.symm.trans (ends_of_compareRoute hv').1)

/-- Every rule is broken once, be it by the lack of a way or by one. -/
theorem nodup_of_loose {r : LooseResult} (h : a.loose = .ok r) :
    r.absent.Nodup ∧ r.undesired.Nodup := by
  rw [loose] at h
  split at h
  · cases h
  · obtain rfl := Except.ok.inj h
    refine ⟨a.definition.dependencies_nodup.filter _,
      (a.definition.noDependencies_nodup.filter _).map fun p q hpq => ?_⟩
    obtain ⟨hsource, hdest, -⟩ := ReachViolation.mk.inj hpq
    cases p
    cases q
    exact congrArg₂ ModulePair.mk hsource hdest

/-- No violation stands twice in a result of either kind. -/
theorem nodup_listed_of_run {mode : AnalysisMode} {r : AnalysisResult} (h : a.run mode = .ok r) :
    r.listed.Nodup := by
  cases mode with
  | strict =>
    obtain ⟨s, hs, rfl⟩ := map_eq_ok_iff.1 h
    obtain ⟨hroutes, hdirect⟩ := nodup_of_strict hs
    refine .append (hroutes.map fun _ _ => Violation.route.inj)
      (hdirect.map fun _ _ => Violation.direct.inj) ?_
    simp [List.Disjoint]
  | loose =>
    obtain ⟨l, hl, rfl⟩ := map_eq_ok_iff.1 h
    obtain ⟨habsent, hundesired⟩ := nodup_of_loose hl
    refine .append (habsent.map fun _ _ => Violation.absent.inj)
      (hundesired.map fun _ _ => Violation.undesired.inj) ?_
    simp [List.Disjoint]

end Analysis

/-- Of modules with names of their own nothing is found twice. -/
theorem Survey.nodup_findings {modules : List Module} (hnames : (modules.map Module.name).Nodup)
    (other : Module) (events : List AccessEvent) :
    ((start modules other).recordAll events).findings.Nodup := by
  rw [(noted_recordAll modules other events).findings_eq, modules_recordAll, modules_start]
  have hnodup : (repeatedNames modules).Nodup :=
    (pairwise_repeatedNames modules).imp String.ne_of_lt
  have hrepeated : ((repeatedNames modules).map Diagnostic.duplicateModuleName).Nodup :=
    hnodup.map fun _ _ => Diagnostic.duplicateModuleName.inj
  have hambiguous : (ambiguities modules (AccessEvent.mentioned events)).Nodup :=
    ((nodup_distinct _).filter _).map fun _ _ h => (Diagnostic.ambiguousElement.inj h).1
  have hdead : ((unmentioned modules (AccessEvent.mentioned events)).map
      fun m => Diagnostic.deadModule m.name).Nodup := by
    have hkept : ((unmentioned modules (AccessEvent.mentioned events)).map Module.name).Nodup :=
      hnames.sublist (List.filter_sublist.map Module.name)
    have hdistinct := hkept.map fun _ _ => Diagnostic.deadModule.inj
    rwa [List.map_map] at hdistinct
  -- the three sorts of findings have nothing in common
  refine .append (.append hrepeated hambiguous ?_) hdead ?_
  · simp [List.Disjoint, ambiguities, ambiguity]
  · simp only [List.Disjoint, ambiguities, ambiguity, List.mem_append, List.mem_map]
    rintro _ (⟨_, -, rfl⟩ | ⟨_, -, rfl⟩) ⟨_, -, h⟩ <;> cases h

namespace Report

theorem nodup_complaints {r : Report} (hlisted : r.result.listed.Nodup)
    (hdiagnostics : r.diagnostics.Nodup) : r.complaints.Nodup := by
  refine .append (hlisted.map fun _ _ => Complaint.violation.inj) ?_ ?_
  · split
    · exact hdiagnostics.map fun _ _ => Complaint.finding.inj
    · exact .nil
  · split <;> simp [List.Disjoint]

end Report

end Conformance
