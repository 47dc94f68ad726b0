import Conformance.Checker
import Conformance.Proofs.Analysis.Congruence
import Conformance.Proofs.Survey.Accesses
import Conformance.Proofs.Survey.Findings

/-!
# What a check depends on

Two access logs are compared under one checker. Which elements access which others decides the
result of the analysis; which elements are mentioned decides the findings. The order of events, how
often an access comes, its kind and the root that it stands under make no difference to the result,
and to the findings only in their order (`check_twoLogs`).
-/

namespace Conformance

namespace AccessLog

/-- Does the log record an access from one element to another? -/
def Accesses (log : AccessLog) (source dest : String) : Prop :=
  ∃ root ∈ log.roots, ∃ r ∈ root.accesses, r.source = source ∧ r.dest = dest

/-- Does the log name the element, as found or at either end of an access? -/
def Mentions (log : AccessLog) (element : String) : Prop :=
  ∃ root ∈ log.roots,
    element ∈ root.elements ∨ ∃ r ∈ root.accesses, element = r.source ∨ element = r.dest

theorem exists_access_mem_events {log : AccessLog} {source dest : String} :
    (∃ kind, .access source dest kind ∈ log.events) ↔ log.Accesses source dest := by
  simp only [events, AccessRoot.events, List.mem_flatMap, List.mem_append, List.mem_map, Accesses]
  constructor
  · intro hsome
    obtain ⟨kind, root, hroot, ⟨e, -, he⟩ | ⟨r, hr, he⟩⟩ := hsome
    · cases he
    · obtain ⟨rfl, rfl, rfl⟩ := AccessEvent.access.inj he
      exact ⟨root, hroot, r, hr, rfl, rfl⟩
  · intro hsome
    obtain ⟨root, hroot, r, hr, rfl, rfl⟩ := hsome
    exact ⟨r.kind, root, hroot, .inr ⟨r, hr, rfl⟩⟩

theorem mem_mentioned_events {log : AccessLog} {element : String} :
    element ∈ AccessEvent.mentioned log.events ↔ log.Mentions element := by
  simp only [AccessEvent.mentioned, events, AccessRoot.events, List.mem_flatMap, List.mem_append,
    List.mem_map, Mentions]
  constructor
  · intro hsome
    obtain ⟨event, ⟨root, hroot, ⟨e, he, rfl⟩ | ⟨r, hr, rfl⟩⟩, helement⟩ := hsome
    · obtain rfl : element = e := by simpa [AccessEvent.elements] using helement
      exact ⟨root, hroot, .inl he⟩
    · exact ⟨root, hroot, .inr ⟨r, hr, by simpa [AccessEvent.elements] using helement⟩⟩
  · intro hsome
    obtain ⟨root, hroot, he | ⟨r, hr, helement⟩⟩ := hsome
    · exact ⟨_, ⟨root, hroot, .inl ⟨element, he, rfl⟩⟩, by simp [AccessEvent.elements]⟩
    · exact ⟨_, ⟨root, hroot, .inr ⟨r, hr, rfl⟩⟩, by simpa [AccessEvent.elements] using helement⟩

end AccessLog

/-- Is the finding about an element in several modules? -/
def Diagnostic.isAmbiguity : Diagnostic → Bool
  | ambiguousElement _ _ => true
  | _ => false

/-- Is the finding about a module without elements? -/
def Diagnostic.isDead : Diagnostic → Bool
  | deadModule _ => true
  | _ => false

namespace Survey

/-- Surveys of the same accesses join the same modules. -/
theorem sameEdges_recordAll {modules : List Module} {other : Module}
    {events events' : List AccessEvent}
    (h : ∀ source dest, (∃ kind, .access source dest kind ∈ events)
      ↔ ∃ kind, .access source dest kind ∈ events') :
    ((start modules other).recordAll events).graph.SameEdges
      ((start modules other).recordAll events').graph where
  modules := by rw [graph_modules_recordAll, graph_modules_recordAll]
  hasEdge a b := by
    rw [Bool.eq_iff_iff, hasEdge_survey, hasEdge_survey]
    simp only [h]

/-- Of all findings those about modules without elements. -/
theorem Noted.filter_isDead {s : Survey} {elements : List String} (h : s.Noted elements) :
    s.findings.filter Diagnostic.isDead
      = (unmentioned s.modules elements).map fun m => .deadModule m.name := by
  have hnames : ((repeatedNames s.modules).map Diagnostic.duplicateModuleName).filter
      Diagnostic.isDead = [] := List.filter_eq_nil_iff.2 (by simp [Diagnostic.isDead])
  have hambiguous : (ambiguities s.modules elements).filter Diagnostic.isDead = [] :=
    List.filter_eq_nil_iff.2 fun a ha => by
      obtain ⟨e, -, rfl⟩ := List.mem_map.1 ha
      exact Bool.false_ne_true
  have hall : ((unmentioned s.modules elements).map fun m => Diagnostic.deadModule m.name).filter
      Diagnostic.isDead = (unmentioned s.modules elements).map fun m => .deadModule m.name :=
    List.filter_eq_self.2 (by simp [Diagnostic.isDead])
  rw [h.findings_eq, List.filter_append, List.filter_append, hnames, hambiguous, hall,
    List.nil_append, List.nil_append]

/-- The findings about the same elements are the same up to the order of their mentions. -/
theorem Noted.findings_perm {s s' : Survey} {elements elements' : List String}
    (h : s.Noted elements) (h' : s'.Noted elements') (hmodules : s.modules = s'.modules)
    (hmem : ∀ e, e ∈ elements ↔ e ∈ elements') : s.findings.Perm s'.findings := by
  rw [h.findings_eq, h'.findings_eq, hmodules, unmentioned_congr hmem]
  exact ((ambiguities_perm hmem _).append_left _).append_right _

end Survey

namespace Checker

/-- Logs of the same accesses have the same result. If they also mention the same elements, they
have the same findings up to the order of those about elements, and the same verdict. -/
theorem check_twoLogs {c : Checker} {d : Definition} (hd : c.definition = some d)
    (hm : d.modules ≠ []) {log log' : AccessLog}
    (hlog : ∀ source dest, log.Accesses source dest ↔ log'.Accesses source dest) :
    ∃ r r', c.check log.scan = .ok r ∧ c.check log'.scan = .ok r' ∧ r.result = r'.result
      ∧ ((∀ element, log.Mentions element ↔ log'.Mentions element) →
        r.diagnostics.filter Diagnostic.isDead = r'.diagnostics.filter Diagnostic.isDead
        ∧ (r.diagnostics.filter Diagnostic.isAmbiguity).Perm
            (r'.diagnostics.filter Diagnostic.isAmbiguity)
        ∧ r.diagnostics.Perm r'.diagnostics
        ∧ r.isConformant = r'.isConformant) := by
  -- equal accesses make equal edges, and a result depends on nothing else
  have hsame : (survey d log.events).graph.SameEdges (survey d log'.events).graph := by
    refine Survey.sameEdges_recordAll fun source dest => ?_
    rw [AccessLog.exists_access_mem_events, AccessLog.exists_access_mem_events]
    exact hlog source dest
  have hrun : (analysis d (survey d log.events)).run c.mode
      = (analysis d (survey d log'.events)).run c.mode := Analysis.run_congr hsame c.mode
  obtain ⟨result, hresult⟩ :=
    Analysis.exists_run (a := analysis d (survey d log.events)) hm c.mode
  refine ⟨⟨result, (survey d log.events).findings, c.failOnDiagnostics⟩,
    ⟨result, (survey d log'.events).findings, c.failOnDiagnostics⟩, ?_, ?_, rfl, ?_⟩
  · simp only [check, hd, AccessLog.scan, hresult]
  · simp only [check, hd, AccessLog.scan, ← hrun, hresult]
  · intro hmentions
    have hmem : ∀ e, e ∈ AccessEvent.mentioned log.events
        ↔ e ∈ AccessEvent.mentioned log'.events := fun e => by
      rw [AccessLog.mem_mentioned_events, AccessLog.mem_mentioned_events, hmentions]
    have hnoted : (survey d log.events).Noted _ :=
      Survey.noted_recordAll d.modules Module.other log.events
    have hnoted' : (survey d log'.events).Noted _ :=
      Survey.noted_recordAll d.modules Module.other log'.events
    have hmodules : (survey d log.events).modules = (survey d log'.events).modules := by
      rw [survey, survey, Survey.modules_recordAll, Survey.modules_recordAll]
    have hperm := hnoted.findings_perm hnoted' hmodules hmem
    refine ⟨?_, hperm.filter _, hperm, ?_⟩
    · show (survey d log.events).findings.filter _ = (survey d log'.events).findings.filter _
      rw [hnoted.filter_isDead, hnoted'.filter_isDead, hmodules, Survey.unmentioned_congr hmem]
    · simp only [Report.isConformant, hperm.isEmpty_eq]

/-- Two modules with elements in common. -/
def overlapSample : Definition where
  modules := [⟨"All", [⟨"*", by decide⟩]⟩, ⟨"Short", [⟨"?", by decide⟩]⟩]
  dependencies := []
  noDependencies := []
  names_nodup := by decide
  dependencies_declared := by decide
  noDependencies_declared := by decide
  dependencies_nodup := List.nodup_nil
  noDependencies_nodup := List.nodup_nil

/-- An access between two elements. -/
def onceSample : AccessLog := ⟨[⟨"one", ["x", "y"], [⟨"x", "y", .invoke⟩]⟩]⟩

/-- The same access, twice and in two roots. -/
def twiceSample : AccessLog :=
  ⟨[⟨"one", ["y"], [⟨"x", "y", .fieldAccess⟩]⟩, ⟨"two", [], [⟨"x", "y", .invoke⟩]⟩]⟩

/-- It makes no difference where and how often the access is recorded. -/
theorem check_twoLogs_samples :
    (new.setDefinition overlapSample).definition = some overlapSample ∧ overlapSample.modules ≠ []
      ∧ (∀ source dest, onceSample.Accesses source dest ↔ twiceSample.Accesses source dest)
      ∧ ∃ r r', (new.setDefinition overlapSample).check onceSample.scan = .ok r
        ∧ (new.setDefinition overlapSample).check twiceSample.scan = .ok r'
        ∧ r.result = r'.result ∧ r.diagnostics.Perm r'.diagnostics := by
  have hmodules : overlapSample.modules ≠ [] := by decide
  have haccesses : ∀ source dest,
      onceSample.Accesses source dest ↔ twiceSample.Accesses source dest := fun source dest => by
    simp [AccessLog.Accesses, onceSample, twiceSample]
  have hmentions : ∀ element,
      onceSample.Mentions element ↔ twiceSample.Mentions element := fun element => by
    simp only [AccessLog.Mentions, onceSample, twiceSample, List.mem_cons, List.not_mem_nil,
      or_false, exists_eq_or_imp, exists_eq_left, false_or]
    tauto
  obtain ⟨r, r', hr, hr', hresult, hrest⟩ :=
    check_twoLogs (c := new.setDefinition overlapSample) rfl hmodules haccesses
  exact ⟨rfl, hmodules, haccesses, r, r', hr, hr', hresult, (hrest hmentions).2.2.1⟩

end Checker

end Conformance
