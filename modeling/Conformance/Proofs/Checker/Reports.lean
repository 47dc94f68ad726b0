import Conformance.Proofs.Analysis.Findings
import Conformance.Proofs.Checker.TwoLogs

/-!
# What a check of a log reports

A check surveys the code that a log is about and reports what the analysis of it reports. The edges
of that code are read off the log (`hasEdge_survey_events`), and the result off the edges
(`exists_check_strict`, `exists_check_loose`): proofs about checks need nothing else.
-/

namespace Conformance.Checker

variable {c : Checker} {d : Definition} {log : AccessLog}

/-- The code joins two modules when the log records an access from an element of the one to an
element of the other. -/
theorem hasEdge_survey_events {m n : Module} :
    (survey d log.events).graph.hasEdge m n = true
      ↔ m ≠ n ∧ ∃ source dest, log.Accesses source dest
          ∧ Belongs d.modules Module.other source m ∧ Belongs d.modules Module.other dest n := by
  rw [survey, Survey.hasEdge_survey]
  simp only [AccessLog.exists_access_mem_events]

/-- A report holds the result of the analysis and the findings of the survey. -/
theorem check_scan_of_run (hd : c.definition = some d) {result : AnalysisResult}
    (h : (analysis d (survey d log.events)).run c.mode = .ok result) :
    c.check log.scan = .ok ⟨result, (survey d log.events).findings, c.failOnDiagnostics⟩ := by
  simp only [check, hd, AccessLog.scan, h]

/-- The report of a strict check is what the strict analysis of the code reports. -/
theorem exists_check_strict (hd : c.definition = some d) (hmode : c.mode = .strict)
    (hm : d.modules ≠ []) (log : AccessLog) :
    ∃ r s, c.check log.scan = .ok r ∧ r.result = .strict s
      ∧ (analysis d (survey d log.events)).ReportsStrictly s := by
  obtain ⟨s, hs, hreport⟩ := Analysis.exists_strict (a := analysis d (survey d log.events)) hm
  have hrun : (analysis d (survey d log.events)).run c.mode = .ok (.strict s) := by
    rw [hmode, Analysis.run, hs]
    rfl
  exact ⟨_, s, check_scan_of_run hd hrun, rfl, hreport⟩

/-- The report of a loose check is what the loose analysis of the code reports. -/
theorem exists_check_loose (hd : c.definition = some d) (hmode : c.mode = .loose)
    (hm : d.modules ≠ []) (log : AccessLog) :
    ∃ r l, c.check log.scan = .ok r ∧ r.result = .loose l
      ∧ (analysis d (survey d log.events)).ReportsLoosely l := by
  obtain ⟨l, hl, hreport⟩ := Analysis.exists_loose (a := analysis d (survey d log.events)) hm
  have hrun : (analysis d (survey d log.events)).run c.mode = .ok (.loose l) := by
    rw [hmode, Analysis.run, hl]
    rfl
  exact ⟨_, l, check_scan_of_run hd hrun, rfl, hreport⟩

end Conformance.Checker
