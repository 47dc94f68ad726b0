import Conformance.Proofs.Checker.Reports

/-!
# Definitions that some code conforms to

In strict mode code conforms when its edges match the dependencies and no edge breaks a rule
(`accepts_iff`). Accesses inside a module make no edge, so no code has a module depend on itself; and
an edge is either wanted or forbidden. These are the only obstacles as long as every module has an
element of its own: code with one access between own elements for each dependency conforms
(`exists_accepted_iff`).
-/

namespace Conformance

/-- Is the element in the module, and in no other declared one? -/
def Definition.Owns (d : Definition) (m : Module) (element : String) : Prop :=
  m.contains element = true ∧ ∀ n ∈ d.modules, n.contains element = true → n = m

instance (d : Definition) (m : Module) (element : String) : Decidable (d.Owns m element) :=
  inferInstanceAs (Decidable (_ ∧ _))

/-- Does no dependency lead from a module to itself, and is none forbidden by a rule? -/
structure Definition.Coherent (d : Definition) : Prop where
  no_self : ∀ p ∈ d.dependencies, p.source ≠ p.dest
  not_forbidden : ∀ p ∈ d.dependencies, p ∉ d.noDependencies

/-- The log of one access for each dependency, between the given elements of its modules. -/
def Definition.plainLog (d : Definition) (elementOf : Module → String) : AccessLog :=
  ⟨[{ name := "", elements := []
      accesses := d.dependencies.map fun p => ⟨elementOf p.source, elementOf p.dest, .other⟩ }]⟩

/-- Does the log record accesses between own elements for each dependency, and no other accesses? -/
structure AccessLog.Realises (log : AccessLog) (d : Definition) : Prop where
  present : ∀ p ∈ d.dependencies, ∃ source dest,
    log.Accesses source dest ∧ d.Owns p.source source ∧ d.Owns p.dest dest
  only : ∀ source dest, log.Accesses source dest →
    ∃ p ∈ d.dependencies, d.Owns p.source source ∧ d.Owns p.dest dest

/-- Does the check of the log have a result without violations? -/
def Checker.Accepts (c : Checker) (log : AccessLog) : Prop :=
  ∃ r, c.check log.scan = .ok r ∧ r.result.isConformant = true

/-! ## Own elements -/

section
variable {d : Definition} {log : AccessLog}

/-- An own element belongs to its module alone. -/
theorem Definition.Owns.belongs_iff {m n : Module} {element : String} (h : d.Owns m element)
    (hm : m ∈ d.modules) : Belongs d.modules Module.other element n ↔ n = m := by
  constructor
  · intro hor
    obtain ⟨hn, hcontains⟩ | ⟨-, hnone⟩ := hor
    · exact h.2 n hn hcontains
    · exact absurd h.1 (by simp [hnone m hm])
  · rintro rfl
    exact .inl ⟨hm, h.1⟩

/-- The edges of code that realises a definition are the dependencies between different modules. -/
theorem AccessLog.Realises.hasEdge_iff (h : log.Realises d) {m n : Module} :
    (Checker.survey d log.events).graph.hasEdge m n = true
      ↔ m ≠ n ∧ (⟨m, n⟩ : ModulePair) ∈ d.dependencies := by
  rw [Checker.hasEdge_survey_events]
  refine and_congr_right fun _ => ⟨fun hsome => ?_, fun hdep => ?_⟩
  · obtain ⟨source, dest, haccess, hsource, hdest⟩ := hsome
    obtain ⟨p, hp, howns, howns'⟩ := h.only source dest haccess
    obtain ⟨hm, hn⟩ := d.dependencies_declared p hp
    obtain rfl := (howns.belongs_iff hm).1 hsource
    obtain rfl := (howns'.belongs_iff hn).1 hdest
    exact hp
  · obtain ⟨source, dest, haccess, howns, howns'⟩ := h.present _ hdep
    obtain ⟨hm, hn⟩ := d.dependencies_declared _ hdep
    exact ⟨source, dest, haccess, (howns.belongs_iff hm).2 rfl, (howns'.belongs_iff hn).2 rfl⟩

/-- One access for each dependency realises a definition, if it is between own elements. -/
theorem Definition.realises_plainLog {elementOf : Module → String}
    (h : ∀ m ∈ d.modules, d.Owns m (elementOf m)) : (d.plainLog elementOf).Realises d := by
  have haccess : ∀ source dest, (d.plainLog elementOf).Accesses source dest ↔
      ∃ p ∈ d.dependencies, elementOf p.source = source ∧ elementOf p.dest = dest := by
    intro source dest
    simp only [AccessLog.Accesses, plainLog, List.mem_singleton, exists_eq_left, List.mem_map,
      exists_exists_and_eq_and]
  have howns : ∀ p ∈ d.dependencies,
      d.Owns p.source (elementOf p.source) ∧ d.Owns p.dest (elementOf p.dest) := fun p hp =>
    ⟨h _ (d.dependencies_declared p hp).1, h _ (d.dependencies_declared p hp).2⟩
  constructor
  · exact fun p hp => ⟨_, _, (haccess _ _).2 ⟨p, hp, rfl, rfl⟩, howns p hp⟩
  · intro source dest hrecorded
    obtain ⟨p, hp, rfl, rfl⟩ := (haccess source dest).1 hrecorded
    exact ⟨p, hp, howns p hp⟩

end

/-! ## Strict checks -/

namespace Checker

variable {c : Checker} {d : Definition} {log : AccessLog}

/-- In strict mode a log is accepted if the edges of its code match, and none is forbidden. -/
theorem accepts_iff (hd : c.definition = some d) (hmode : c.mode = .strict) (hm : d.modules ≠ [])
    (hother : Module.other ∉ d.modules) :
    c.Accepts log ↔ (analysis d (survey d log.events)).EdgesMatch
      ∧ ∀ p ∈ d.noDependencies, (survey d log.events).graph.hasEdge p.source p.dest ≠ true := by
  obtain ⟨r, s, hr, hs, hreport⟩ := exists_check_strict hd hmode hm log
  have haccepts : c.Accepts log ↔ s.routes = [] ∧ s.direct = [] := by
    simp only [Accepts, hr, Except.ok.injEq, exists_eq_left', hs, AnalysisResult.isConformant,
      StrictResult.isConformant, Bool.and_eq_true, List.isEmpty_iff]
  rw [haccepts, hreport.routes_eq_nil_iff]
  have hne : ∀ m ∈ d.modules, m ≠ Module.other := fun m hmem heq => hother (heq ▸ hmem)
  refine and_congr_right fun _ => ⟨fun hnil p hp hedge => ?_, fun hno => ?_⟩
  · obtain ⟨hsource, hdest⟩ := d.noDependencies_declared p hp
    have hmem : p ∈ s.direct :=
      (hreport.mem_direct_iff p).2 ⟨hp, ⟨hne _ hsource, hne _ hdest⟩, hedge⟩
    exact absurd hmem (by simp [hnil])
  · refine List.eq_nil_iff_forall_not_mem.2 fun p hp => ?_
    obtain ⟨hrule, -, hedge⟩ := (hreport.mem_direct_iff p).1 hp
    exact hno p hrule hedge

/-- No code conforms to rules that ask for an edge from a module to itself, or ask for one that they
forbid. -/
theorem coherent_of_edgesMatch (h : (analysis d (survey d log.events)).EdgesMatch)
    (hno : ∀ p ∈ d.noDependencies, (survey d log.events).graph.hasEdge p.source p.dest ≠ true) :
    d.Coherent := by
  have hedge : ∀ p ∈ d.dependencies,
      (survey d log.events).graph.hasEdge p.source p.dest = true := fun p hp =>
    (h.edges _ _ (d.dependencies_declared p hp).1 (d.dependencies_declared p hp).2).1 hp
  constructor
  · exact fun p hp => (hasEdge_survey_events.1 (hedge p hp)).1
  · exact fun p hp hforbidden => hno p hforbidden (hedge p hp)

/-- The code that realises coherent rules has the edges that they ask for. -/
theorem edgesMatch_of_realises (h : log.Realises d) (hcoherent : d.Coherent)
    (hother : Module.other ∉ d.modules) : (analysis d (survey d log.events)).EdgesMatch where
  edges m n _ _ := by
    refine Iff.trans ?_ h.hasEdge_iff.symm
    exact ⟨fun hdep => ⟨hcoherent.no_self _ hdep, hdep⟩, And.right⟩
  detours m n _ _ hout _ := by
    -- there is no detour, since no dependency leads to the catch-all module
    have hdep : (⟨m, Module.other⟩ : ModulePair) ∈ d.dependencies := (h.hasEdge_iff.1 hout).2
    exact absurd (d.dependencies_declared _ hdep).2 hother

/-- If every module has an element of its own and the catch-all module is not declared, then there
is a log that a strict check accepts exactly when the rules are coherent. In that case every log is
accepted that records accesses between own elements for each dependency and no others, and the log
of one access for each dependency is such a log. -/
theorem exists_accepted_iff (hd : c.definition = some d) (hmode : c.mode = .strict)
    (hm : d.modules ≠ []) (hother : Module.other ∉ d.modules)
    (hown : ∀ m ∈ d.modules, ∃ element, d.Owns m element) :
    ((∃ log, c.Accepts log) ↔ d.Coherent)
      ∧ (d.Coherent → ∀ log : AccessLog, log.Realises d → c.Accepts log)
      ∧ (d.Coherent → ∀ elementOf : Module → String,
          (∀ m ∈ d.modules, d.Owns m (elementOf m)) → c.Accepts (d.plainLog elementOf)) := by
  have hrealises : d.Coherent → ∀ log : AccessLog, log.Realises d → c.Accepts log := by
    intro hcoherent log hlog
    refine (accepts_iff hd hmode hm hother).2 ⟨edgesMatch_of_realises hlog hcoherent hother, ?_⟩
    exact fun p hp hedge => hcoherent.not_forbidden p (hlog.hasEdge_iff.1 hedge).2 hp
  refine ⟨⟨fun hsome => ?_, fun hcoherent => ?_⟩, hrealises, fun hcoherent elementOf howns => ?_⟩
  · obtain ⟨log, haccepts⟩ := hsome
    obtain ⟨hmatch, hno⟩ := (accepts_iff hd hmode hm hother).1 haccepts
    exact coherent_of_edgesMatch hmatch hno
  · choose! elementOf helementOf using hown
    exact ⟨_, hrealises hcoherent _ (Definition.realises_plainLog helementOf)⟩
  · exact hrealises hcoherent _ (Definition.realises_plainLog howns)

/-- Two modules with elements in common, and an own element for each. -/
def overlapRules : Definition :=
  let a : Module := ⟨"A", [⟨"a*", by decide⟩]⟩
  let b : Module := ⟨"B", [⟨"*b", by decide⟩]⟩
  { modules := [a, b]
    dependencies := [⟨a, b⟩]
    noDependencies := [⟨b, a⟩]
    names_nodup := by decide
    dependencies_declared := by decide
    noDependencies_declared := by decide
    dependencies_nodup := by decide
    noDependencies_nodup := by decide }

/-- One element of the first module, and another for every other one. -/
def overlapElement (m : Module) : String := if m.name = "A" then "a" else "b"

/-- The log of a single access is accepted. -/
theorem exists_accepted_overlapRules :
    (new.setDefinition overlapRules).definition = some overlapRules
      ∧ (new.setDefinition overlapRules).mode = .strict ∧ overlapRules.modules ≠ []
      ∧ Module.other ∉ overlapRules.modules
      ∧ (∀ m ∈ overlapRules.modules, ∃ element, overlapRules.Owns m element)
      ∧ overlapRules.Coherent
      ∧ (new.setDefinition overlapRules).Accepts (overlapRules.plainLog overlapElement) := by
  have hmodules : overlapRules.modules ≠ [] := by decide
  have hother : Module.other ∉ overlapRules.modules := by decide
  have howns : ∀ m ∈ overlapRules.modules, overlapRules.Owns m (overlapElement m) := by decide
  have hown : ∀ m ∈ overlapRules.modules, ∃ element, overlapRules.Owns m element :=
    fun m hm => ⟨_, howns m hm⟩
  have hcoherent : overlapRules.Coherent := ⟨by decide, by decide⟩
  obtain ⟨-, -, hplain⟩ :=
    exists_accepted_iff (c := new.setDefinition overlapRules) rfl rfl hmodules hother hown
  exact ⟨rfl, rfl, hmodules, hother, hown, hcoherent, hplain hcoherent overlapElement howns⟩

end Checker

end Conformance
