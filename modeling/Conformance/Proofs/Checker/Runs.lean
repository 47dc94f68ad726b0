import Conformance.Proofs.Checker.Verdicts

/-!
# Runs of a checker

What a run of steps leaves in force is read off the steps (`run_snd`): the definition of the last
step that put one in force, the mode and the setting of the last step that chose them. A
specification that is refused puts nothing in force, so a run without it ends in the same state and
has the same outcomes elsewhere (`run_insert_refused`). A check at any point answers for what is in
force there (`run_history`).
-/

namespace Conformance.Checker

/-- The definition that a step puts in force, if it does. -/
def Step.definition? : Step → Option Definition
  | .addSpecification src => (Definition.ofSource src).toOption
  | .setDefinition d => some d
  | _ => none

/-- The mode that a step chooses, if it does. -/
def Step.mode? : Step → Option AnalysisMode
  | .setMode mode => some mode
  | _ => none

/-- What a step says on whether findings make a check fail, if it does. -/
def Step.failOnDiagnostics? : Step → Option Bool
  | .setFailOnDiagnostics b => some b
  | _ => none

variable {c : Checker} {d : Definition} {src : Source} {e : SpecificationError} {scan : Scan}

/-! ## One step -/

/-- What a step does not say stays as it is. -/
theorem step_snd (c : Checker) (s : Step) :
    (c.step s).2
      = ⟨s.definition?.or c.definition, s.mode?.getD c.mode,
        s.failOnDiagnostics?.getD c.failOnDiagnostics⟩ := by
  cases s with
  | addSpecification src =>
    cases h : Definition.ofSource src <;>
      simp [step, addSpecification, h, Except.map, setDefinition, Step.definition?, Except.toOption,
        Step.mode?, Step.failOnDiagnostics?]
  | setDefinition d => rfl
  | setMode mode => rfl
  | setFailOnDiagnostics b => rfl
  | check scan => rfl

theorem step_refused (h : Definition.ofSource src = .error e) (c : Checker) :
    c.step (.addSpecification src) = (.specificationRefused src e, c) := by
  rw [step, addSpecification, h]
  rfl

/-- A text is put in force if it is within the limit of size and the step for it is done. -/
theorem addText_eq_ok_iff {c' : Checker} {file contents : String} :
    c.addText file contents = .ok c'
      ↔ contents.utf8ByteSize ≤ Source.sizeLimit
        ∧ c.step (.addSpecification ⟨file, contents⟩) = (.done, c') := by
  unfold addText step
  cases hsource : Source.ofContents? file contents with
  | none =>
    constructor
    · intro herror
      cases herror
    · rintro ⟨hsize, -⟩
      have hsome : Source.ofContents? file contents = some ⟨file, contents⟩ :=
        Source.ofContents?_eq_some_iff.2 ⟨hsize, rfl⟩
      rw [hsource] at hsome
      cases hsome
  | some src =>
    obtain ⟨hsize, rfl⟩ := Source.ofContents?_eq_some_iff.1 hsource
    rw [and_iff_right hsize]
    dsimp only
    cases c.addSpecification ⟨file, contents⟩ with
    | ok c'' => simp [Except.mapError]
    | error e => simp [Except.mapError]

/-! ## Runs -/

theorem run_cons (c : Checker) (s : Step) (steps : List Step) :
    c.run (s :: steps)
      = ((c.step s).1 :: ((c.step s).2.run steps).1, ((c.step s).2.run steps).2) :=
  rfl

/-- A run goes on from where the steps before it end. -/
theorem run_append (c : Checker) (steps more : List Step) :
    c.run (steps ++ more)
      = ((c.run steps).1 ++ ((c.run steps).2.run more).1, ((c.run steps).2.run more).2) := by
  induction steps generalizing c with
  | nil => rfl
  | cons s steps ih =>
    rw [List.cons_append, run_cons, ih, run_cons]
    rfl

theorem length_run (c : Checker) (steps : List Step) : (c.run steps).1.length = steps.length := by
  induction steps generalizing c with
  | nil => rfl
  | cons s steps ih => rw [run_cons, List.length_cons, ih, List.length_cons]

/-- The last value is given by a later item, or else by the first. -/
private theorem getLast?_filterMap_cons {α β : Type} (f : α → Option β) (x : α) (xs : List α) :
    ((x :: xs).filterMap f).getLast? = (xs.filterMap f).getLast?.or (f x) := by
  cases h : f x with
  | none => rw [List.filterMap_cons_none h, Option.or_none]
  | some y =>
    rw [List.filterMap_cons_some h, List.getLast?_cons]
    cases (xs.filterMap f).getLast? <;> rfl

/-- In force is what was said last. -/
theorem run_snd (c : Checker) (steps : List Step) :
    (c.run steps).2
      = ⟨(steps.filterMap Step.definition?).getLast?.or c.definition,
        (steps.filterMap Step.mode?).getLast?.getD c.mode,
        (steps.filterMap Step.failOnDiagnostics?).getLast?.getD c.failOnDiagnostics⟩ := by
  induction steps generalizing c with
  | nil => rfl
  | cons s steps ih =>
    rw [run_cons, ih, step_snd]
    simp only [getLast?_filterMap_cons, Option.or_assoc, Option.getD_or]

/-- A specification that is refused leaves nothing behind but its refusal. -/
theorem run_insert_refused (h : Definition.ofSource src = .error e) (c : Checker)
    (steps more : List Step) :
    c.run (steps ++ .addSpecification src :: more)
      = ((c.run (steps ++ more)).1.insertIdx steps.length (.specificationRefused src e),
        (c.run (steps ++ more)).2) := by
  -- as many outcomes stand in front of the refusal as there are steps
  rw [run_append, run_append, run_cons, step_refused h, ← length_run c steps]
  congr 1
  exact (List.modifyTailIdx_add _ 0 _ _).symm

/-- A check answers for what is in force when it comes. -/
theorem run_check (c : Checker) (steps : List Step) (scan : Scan) (more : List Step) :
    (c.run (steps ++ .check scan :: more)).1[steps.length]?
      = some (.checked ((c.run steps).2.check scan)) := by
  rw [run_append, run_cons, ← length_run c steps, List.getElem?_append_right (Nat.le_refl _),
    Nat.sub_self]
  rfl

/-! ## Checks -/

/-- The analysis of a definition fails for want of modules only. -/
theorem analysis_run_eq_error_iff {s : Survey} {mode : AnalysisMode} {e : AnalysisError} :
    (analysis d s).run mode = .error e ↔ d.modules = [] ∧ e = .noModulesProvided := by
  by_cases hmodules : d.modules = []
  · have hrun : (analysis d s).run mode = .error .noModulesProvided := by
      cases mode <;>
        simp [Analysis.run, Analysis.strict, Analysis.loose, analysis, Except.map, hmodules]
    simp [hrun, hmodules]
  · have hrun : ∃ r, (analysis d s).run mode = .ok r := by
      cases mode with
      | strict =>
        obtain ⟨r, hr, -⟩ := Analysis.exists_strict (a := analysis d s) hmodules
        exact ⟨_, map_eq_ok_iff.2 ⟨r, hr, rfl⟩⟩
      | loose =>
        obtain ⟨r, hr, -⟩ := Analysis.exists_loose (a := analysis d s) hmodules
        exact ⟨_, map_eq_ok_iff.2 ⟨r, hr, rfl⟩⟩
    obtain ⟨r, hr⟩ := hrun
    simp [hr, hmodules]

/-- A check fails without a definition, by the failure of the scan, or for want of modules. -/
theorem check_eq_error_iff {e : CheckError} :
    c.check scan = .error e
      ↔ (c.definition = none ∧ e = .noSpecification)
        ∨ (∃ d text, c.definition = some d ∧ scan.failure = some text ∧ e = .scanFailed text)
        ∨ ∃ d, c.definition = some d ∧ scan.failure = none ∧ d.modules = []
          ∧ e = .analysis .noModulesProvided := by
  rcases hd : c.definition with _ | d
  · simp [check, hd, eq_comm]
  rcases hfailure : scan.failure with _ | text
  · cases hrun : (analysis d (survey d scan.events)).run c.mode with
    | ok result =>
      have hmodules : d.modules ≠ [] := fun h =>
        nomatch hrun.symm.trans (analysis_run_eq_error_iff.2 ⟨h, rfl⟩)
      simp [check, hd, hfailure, hrun, hmodules]
    | error e' =>
      obtain ⟨hmodules, rfl⟩ := analysis_run_eq_error_iff.1 hrun
      simp [check, hd, hfailure, hrun, hmodules, eq_comm]
  · simp [check, hd, hfailure, eq_comm]

/-- A check that does not fail reports the analysis of the current mode. -/
theorem exists_of_check_eq_ok {r : Report} (h : c.check scan = .ok r) :
    ∃ d, c.definition = some d
      ∧ (analysis d (survey d scan.events)).run c.mode = .ok r.result
      ∧ r.diagnostics = (survey d scan.events).findings
      ∧ r.failOnDiagnostics = c.failOnDiagnostics := by
  rw [check] at h
  split at h
  · cases h
  · cases h
  · next d hd hfailure =>
    cases hrun : (analysis d (survey d scan.events)).run c.mode with
    | ok result =>
      simp only [hrun] at h
      obtain rfl := Except.ok.inj h
      exact ⟨d, hd, hrun, rfl, rfl⟩
    | error e =>
      simp only [hrun] at h
      cases h

/-- Whatever steps were made, in force is the definition of the last one that put one in force, and
the mode and the setting that were chosen last. A refused specification might as well not have been
added: without it the run ends in the same state and every other outcome is the same. A check fails
without a definition, by the failure of the scan, or for want of modules; otherwise it reports the
analysis of the current mode. Such a report is accepted if it has no violations, and no findings
while these count, and refused with a line for each of them otherwise, none of which stands twice.
-/
theorem run_history (steps more : List Step) (scan : Scan) :
    let c := (new.run steps).2
    c = ⟨(steps.filterMap Step.definition?).getLast?,
        (steps.filterMap Step.mode?).getLast?.getD .strict,
        (steps.filterMap Step.failOnDiagnostics?).getLast?.getD false⟩
      ∧ (∀ src e, Definition.ofSource src = .error e →
        new.run (steps ++ .addSpecification src :: more)
          = ((new.run (steps ++ more)).1.insertIdx steps.length (.specificationRefused src e),
            (new.run (steps ++ more)).2))
      ∧ (new.run (steps ++ .check scan :: more)).1[steps.length]? = some (.checked (c.check scan))
      ∧ (∀ e, c.check scan = .error e
        ↔ (c.definition = none ∧ e = .noSpecification)
          ∨ (∃ d text, c.definition = some d ∧ scan.failure = some text ∧ e = .scanFailed text)
          ∨ ∃ d, c.definition = some d ∧ scan.failure = none ∧ d.modules = []
            ∧ e = .analysis .noModulesProvided)
      ∧ ∀ r, c.check scan = .ok r →
        (∃ d, c.definition = some d
          ∧ (analysis d (survey d scan.events)).run c.mode = .ok r.result
          ∧ r.diagnostics = (survey d scan.events).findings
          ∧ r.failOnDiagnostics = c.failOnDiagnostics)
        ∧ (r.ensureConformant = .ok ()
          ↔ r.result.listed = [] ∧ (c.failOnDiagnostics = true → r.diagnostics = []))
        ∧ ∀ e, r.ensureConformant = .error e →
          r.complaints.Nodup
            ∧ e = .notConformant (r.complaints.map Complaint.text)
            ∧ e.message = "architecture does not conform to specification:"
              ++ String.join (r.complaints.map fun complaint => "\n  " ++ complaint.text) := by
  intro c
  refine ⟨?_, fun src e h => run_insert_refused h new steps more, run_check new steps scan more,
    fun e => check_eq_error_iff, fun r hr => ?_⟩
  · rw [← Option.or_none (o := (steps.filterMap Step.definition?).getLast?)]
    exact run_snd new steps
  · obtain ⟨d, hd, hrun, hdiagnostics, hflag⟩ := exists_of_check_eq_ok hr
    refine ⟨⟨d, hd, hrun, hdiagnostics, hflag⟩, ?_, fun e he => ?_⟩
    · rw [Report.ensureConformant_eq_ok_iff, Report.complaints_eq_nil_iff, hflag]
    · obtain ⟨hsome, rfl⟩ := r.ensureConformant_eq_error_iff.1 he
      -- both parts of the listing come from lists without repetitions
      have hfindings : r.diagnostics.Nodup := by
        rw [hdiagnostics]
        exact Survey.nodup_findings d.names_nodup _ _
      refine ⟨Report.nodup_complaints (Analysis.nodup_listed_of_run hrun) hfindings, rfl, ?_⟩
      rw [ReportError.message_notConformant (by simpa using hsome), List.map_map]
      rfl

/-- A specification, the wish that findings count, and a text whose string is never closed. -/
def refusedSample : List Step :=
  [.addSpecification ⟨"a.arch", "modules:\nA = \"a*\"\nB = \"b*\"\nrules:\nA -> B\n"⟩,
    .setFailOnDiagnostics true,
    .addSpecification ⟨"b.arch", "modules:\nA = \"c*\n"⟩]

/-- The text is refused, so code without elements is still checked against the specification, which
it does not conform to. -/
theorem run_history_refusedSample :
    ∃ r e, (new.run (refusedSample ++ [.check ⟨[], none⟩])).1[3]? = some (.checked (.ok r))
      ∧ r.ensureConformant = .error e
      ∧ r.complaints.Nodup
      ∧ e.message = "architecture does not conform to specification:"
        ++ "\n  A to B: specified A -> B, actual (none)"
        ++ "\n  module `A` does not match any scanned element"
        ++ "\n  module `B` does not match any scanned element" := by
  obtain ⟨-, -, houtcome, -, hreport⟩ := run_history refusedSample [] ⟨[], none⟩
  have hchecked : (((new.run refusedSample).2.check ⟨[], none⟩).toOption.map
      fun r => r.complaints.map Complaint.text)
        = some ["A to B: specified A -> B, actual (none)",
          "module `A` does not match any scanned element",
          "module `B` does not match any scanned element"] := by
    decide +kernel
  cases hcheck : (new.run refusedSample).2.check ⟨[], none⟩ with
  | error e => simp [hcheck, Except.toOption] at hchecked
  | ok r =>
    rw [hcheck] at hchecked houtcome
    have htexts : r.complaints.map Complaint.text = _ := Option.some.inj hchecked
    have hcomplaints : r.complaints ≠ [] := by
      intro h
      simp [h] at htexts
    have hrefused := r.ensureConformant_eq_error_iff.2 ⟨hcomplaints, rfl⟩
    obtain ⟨-, -, hlines⟩ := hreport r hcheck
    obtain ⟨hnodup, -, hmessage⟩ := hlines _ hrefused
    refine ⟨r, _, houtcome, hrefused, hnodup, ?_⟩
    have hmap : (r.complaints.map fun complaint => "\n  " ++ complaint.text)
        = (r.complaints.map Complaint.text).map fun line => "\n  " ++ line := by
      rw [List.map_map]
      rfl
    rw [hmessage, hmap, htexts]
    rfl

end Conformance.Checker
