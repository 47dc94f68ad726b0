import Conformance.Definition.History
import Conformance.Proofs.Definition.Meaning

/-!
# What a history says about a definition

A step is refused for the names it speaks of and for nothing else (`Step.refusal?`). So the steps of
a history that are taken are told by the steps before them, and these tell the definition: its
modules are those of the steps taken, and its rules speak of the names in them
(`afterAll_admits_history`). `tryStep_eq_error` and `exists_tryStep` say all that a step does; the
rest follows from them step by step.
-/

namespace Conformance.Definition

/-! ## What a step is refused for -/

/-- The names of the declared modules. -/
def names (d : Definition) : List String :=
  d.modules.map Module.name

/-- What a rule on two names is refused with, for the source if it is no name of a module, else for
the destination. -/
def undefined? (names : List String) (kind : RuleKind) (source dest : String) :
    Option DefinitionError :=
  ([source, dest].find? (· ∉ names)).map
    (.undefinedModuleReference · (kind.ruleText source dest))

namespace Step

/-- What a step is refused with where modules of these names are declared. -/
def refusal? (names : List String) : Step → Option DefinitionError
  | .addModule m => if m.name ∈ names then some (.duplicateModuleName m.name) else none
  | .allow source dest => undefined? names .dependency source dest
  | .forbid source dest => undefined? names .noDependency source dest

/-- The module that a step declares. -/
def modules : Step → List Module
  | .addModule m => [m]
  | .allow _ _ => []
  | .forbid _ _ => []

/-- The names that a step makes a rule of a kind on. -/
def namePairs (kind : RuleKind) : Step → List (String × String)
  | .addModule _ => []
  | .allow source dest => if kind = .dependency then [(source, dest)] else []
  | .forbid source dest => if kind = .noDependency then [(source, dest)] else []

end Step

variable {d : Definition}

/-- A rule lacks no module if both its names are known. -/
theorem undefined?_eq_none_iff {names : List String} {kind : RuleKind} {source dest : String} :
    undefined? names kind source dest = none ↔ source ∈ names ∧ dest ∈ names := by
  simp [undefined?]

/-- A refusal depends on nothing but which names there are. -/
theorem Step.refusal?_congr {names names' : List String} (h : ∀ n, n ∈ names ↔ n ∈ names')
    (step : Step) : step.refusal? names = step.refusal? names' := by
  cases step with
  | addModule m => simp only [refusal?, h]
  | allow source dest => simp only [refusal?, undefined?, h]
  | forbid source dest => simp only [refusal?, undefined?, h]

/-- A step that is not refused declares no name that is taken. -/
theorem Step.foldl_names_of_free {names : List String} {step : Step}
    (h : step.refusal? names = none) :
    (step.modules.map Module.name).foldl insertNew names
      = names ++ step.modules.map Module.name := by
  cases step with
  | addModule m =>
    refine insertNew_of_notMem fun htaken => ?_
    cases (if_pos htaken).symm.trans h
  | allow source dest => exact (List.append_nil names).symm
  | forbid source dest => exact (List.append_nil names).symm

/-- A step that is refused would declare no new name. -/
theorem Step.foldl_names_of_refused {names : List String} {step : Step} {e : DefinitionError}
    (h : step.refusal? names = some e) :
    (step.modules.map Module.name).foldl insertNew names = names := by
  cases step with
  | addModule m =>
    refine insertNew_of_mem (Classical.byContradiction fun hfree => ?_)
    cases (if_neg hfree).symm.trans h
  | allow source dest => rfl
  | forbid source dest => rfl

/-! ## What a step does -/

theorem addModule_eq_error {m : Module} (h : m.name ∈ d.names) :
    d.addModule m = .error (.duplicateModuleName m.name) := by
  unfold addModule
  split
  · rfl
  · next hfree => exact absurd h (module?_eq_none_iff.1 hfree)

theorem resolve_eq_error {rule name : String} (h : name ∉ d.names) :
    d.resolve rule name = .error (.undefinedModuleReference name rule) := by
  unfold resolve
  split
  · next hfound => cases hfound.symm.trans (module?_eq_none_iff.2 h)
  · rfl

theorem exists_resolve (rule : String) {name : String} (h : name ∈ d.names) :
    ∃ m, d.resolve rule name = .ok m := by
  obtain ⟨m, hm, rfl⟩ := List.mem_map.1 h
  exact ⟨⟨m, hm⟩, resolve_eq_ok_iff.2 rfl⟩

theorem addRule_eq_error {kind : RuleKind} {source dest : String} {e : DefinitionError}
    (h : undefined? d.names kind source dest = some e) :
    d.addRule kind (kind.ruleText source dest) source dest = .error e := by
  unfold addRule
  by_cases hsource : source ∈ d.names
  · obtain ⟨s, hs⟩ := exists_resolve (kind.ruleText source dest) hsource
    have hdest : dest ∉ d.names := fun hdest => by
      rw [undefined?_eq_none_iff.2 ⟨hsource, hdest⟩] at h
      cases h
    have he : .undefinedModuleReference dest (kind.ruleText source dest) = e := by
      simpa [undefined?, hsource, hdest] using h
    rw [hs, resolve_eq_error hdest, ← he]
    rfl
  · have he : .undefinedModuleReference source (kind.ruleText source dest) = e := by
      simpa [undefined?, hsource] using h
    rw [resolve_eq_error hsource, ← he]
    rfl

/-- A rule on names of modules can be added, and its names are added to those in the rules of its
kind unless they are there. -/
theorem exists_addRule {kind : RuleKind} {rule source dest : String}
    (h : source ∈ d.names ∧ dest ∈ d.names) :
    ∃ d', d.addRule kind rule source dest = .ok d' ∧ d'.modules = d.modules
      ∧ ∀ k, d'.namePairs k
        = (if k = kind then [(source, dest)] else []).foldl insertNew (d.namePairs k) := by
  obtain ⟨s, hs⟩ := exists_resolve rule h.1
  obtain ⟨t, ht⟩ := exists_resolve rule h.2
  obtain rfl := resolve_eq_ok_iff.1 hs
  obtain rfl := resolve_eq_ok_iff.1 ht
  refine ⟨d.insertRule kind ⟨s, t⟩ ⟨s.property, t.property⟩, ?_, modules_insertRule, fun k => ?_⟩
  · unfold addRule
    rw [hs, ht]
    rfl
  · by_cases hk : k = kind
    · subst hk
      rw [if_pos rfl]
      exact namePairs_insertRule
    · rw [if_neg hk]
      exact namePairs_insertRule_of_ne hk

theorem tryStep_eq_error {step : Step} {e : DefinitionError}
    (h : step.refusal? d.names = some e) : d.tryStep step = .error e := by
  cases step with
  | addModule m =>
    simp only [Step.refusal?, Option.ite_none_right_eq_some, Option.some.injEq] at h
    obtain ⟨htaken, rfl⟩ := h
    exact addModule_eq_error htaken
  | allow source dest => exact addRule_eq_error h
  | forbid source dest => exact addRule_eq_error h

/-- A step that is not refused declares its module behind the others, and adds its rule unless it is
there. -/
theorem exists_tryStep {step : Step} (h : step.refusal? d.names = none) :
    ∃ d', d.tryStep step = .ok d' ∧ d'.modules = d.modules ++ step.modules
      ∧ ∀ k, d'.namePairs k = (step.namePairs k).foldl insertNew (d.namePairs k) := by
  cases step with
  | addModule m =>
    have hfree : d.module? m.name = none :=
      module?_eq_none_iff.2 fun htaken => by
        cases (if_pos htaken).symm.trans h
    refine ⟨d.declareNew m hfree, addModule_eq_ok_iff.2 ⟨hfree, rfl⟩, rfl, fun k => ?_⟩
    unfold Definition.namePairs
    rw [rules_declareNew]
    rfl
  | allow source dest =>
    obtain ⟨d', hd', hmodules, hpairs⟩ := exists_addRule (undefined?_eq_none_iff.1 h)
    exact ⟨d', hd', hmodules.trans (List.append_nil _).symm, hpairs⟩
  | forbid source dest =>
    obtain ⟨d', hd', hmodules, hpairs⟩ := exists_addRule (undefined?_eq_none_iff.1 h)
    exact ⟨d', hd', hmodules.trans (List.append_nil _).symm, hpairs⟩

/-- A step fails just with what it is refused with. -/
theorem tryStep_eq_error_iff {step : Step} {e : DefinitionError} :
    d.tryStep step = .error e ↔ step.refusal? d.names = some e := by
  refine ⟨fun h => ?_, tryStep_eq_error⟩
  cases hrefusal : step.refusal? d.names with
  | none =>
    obtain ⟨d', hd', -⟩ := exists_tryStep hrefusal
    cases h.symm.trans hd'
  | some e' =>
    rw [Except.error.inj (h.symm.trans (tryStep_eq_error hrefusal))]

theorem after_of_ok {step : Step} {d' : Definition} (h : d.tryStep step = .ok d') :
    d.after step = d' := by
  rw [after, h]

/-- A step that fails changes nothing. -/
theorem after_of_error {step : Step} {e : DefinitionError} (h : d.tryStep step = .error e) :
    d.after step = d := by
  rw [after, h]

theorem mem_names_of_mem_namePairs {kind : RuleKind} {p : String × String}
    (h : p ∈ d.namePairs kind) : p.1 ∈ d.names ∧ p.2 ∈ d.names := by
  obtain ⟨q, hq, rfl⟩ := List.mem_map.1 h
  exact (d.rules_declared kind q hq).imp List.mem_map_of_mem List.mem_map_of_mem

/-- A rule that is there can be added again, and nothing changes. -/
theorem tryStep_eq_self {step : Step} (hmodules : step.modules = [])
    (hpairs : ∀ k, ∀ p ∈ step.namePairs k, p ∈ d.namePairs k) : d.tryStep step = .ok d := by
  have hrefusal : step.refusal? d.names = none := by
    cases step with
    | addModule m => cases hmodules
    | allow source dest =>
      exact undefined?_eq_none_iff.2 (mem_names_of_mem_namePairs
        (hpairs .dependency _ (List.mem_singleton_self (source, dest))))
    | forbid source dest =>
      exact undefined?_eq_none_iff.2 (mem_names_of_mem_namePairs
        (hpairs .noDependency _ (List.mem_singleton_self (source, dest))))
  obtain ⟨d', hd', hmodules', hpairs'⟩ := exists_tryStep hrefusal
  rw [hmodules, List.append_nil] at hmodules'
  rw [hd', ext_texts (by rw [hmodules']) fun k =>
    (hpairs' k).trans (foldl_insertNew_of_forall_mem (hpairs k))]

/-! ## The steps of a history that are taken -/

/-- The names of the modules that a history tries to declare. -/
def offered (history : List Step) : List String :=
  (history.flatMap Step.modules).map Module.name

/-- Is a step taken behind a history? -/
def Admits (history : List Step) (step : Step) : Prop :=
  step.refusal? (offered history) = none

instance (history : List Step) : DecidablePred (Admits history) := fun _ =>
  inferInstanceAs (Decidable (_ = _))

/-- The steps of a history that are taken, each behind all those before it. -/
def admitted (history : List Step) : List Step :=
  (List.range history.length).flatMap fun i =>
    history[i]?.toList.filter (Admits (history.take i))

/-- One more step is taken or it is not. -/
theorem admitted_append_singleton (history : List Step) (step : Step) :
    admitted (history ++ [step])
      = admitted history ++ if Admits history step then [step] else [] := by
  have hold : ((List.range history.length).flatMap fun i =>
      (history ++ [step])[i]?.toList.filter (Admits ((history ++ [step]).take i)))
        = admitted history := by
    refine List.flatMap_congr fun i hi => ?_
    have hi := List.mem_range.1 hi
    rw [List.getElem?_append_left hi, List.take_append_of_le_length (Nat.le_of_lt hi)]
  rw [admitted, List.length_append, List.length_singleton, List.range_succ, List.flatMap_append,
    hold, List.flatMap_singleton, List.getElem?_concat_length, List.take_left' rfl,
    Option.toList_some, List.filter_cons, List.filter_nil]
  simp only [decide_eq_true_eq]

theorem offered_append_singleton (history : List Step) (step : Step) :
    offered (history ++ [step]) = offered history ++ step.modules.map Module.name := by
  unfold offered
  rw [List.flatMap_append, List.flatMap_singleton, List.map_append]

/-! ## The definition after a history -/

/-- A history tells the names of modules, and with them which steps are taken. -/
structure Told (d : Definition) (history : List Step) : Prop where
  modules : d.modules = (admitted history).flatMap Step.modules
  names : d.names = distinct (offered history)
  namePairs : ∀ k, d.namePairs k = distinct ((admitted history).flatMap (Step.namePairs k))

/-- The empty definition is told by the empty history. -/
theorem told_empty : Told empty [] where
  modules := rfl
  names := rfl
  namePairs k := by
    cases k with
    | dependency => rfl
    | noDependency => rfl

namespace Told

variable {history : List Step}

theorem refusal?_eq (h : Told d history) (step : Step) :
    step.refusal? d.names = step.refusal? (offered history) :=
  step.refusal?_congr fun n => by rw [h.names, mem_distinct]

/-- What is told of a definition is told of the definition after another step. -/
theorem after (h : Told d history) (step : Step) : Told (d.after step) (history ++ [step]) := by
  cases hrefusal : step.refusal? d.names with
  | none =>
    have hadmits : Admits history step := (h.refusal?_eq step).symm.trans hrefusal
    obtain ⟨d', hd', hmodules, hpairs⟩ := exists_tryStep hrefusal
    rw [after_of_ok hd']
    refine ⟨?_, ?_, fun k => ?_⟩
    · rw [hmodules, h.modules, admitted_append_singleton, if_pos hadmits, List.flatMap_append,
        List.flatMap_singleton]
    · rw [Definition.names, hmodules, List.map_append, offered_append_singleton, distinct_append,
        ← h.names, Step.foldl_names_of_free hrefusal]
      rfl
    · rw [hpairs, h.namePairs, admitted_append_singleton, if_pos hadmits, List.flatMap_append,
        List.flatMap_singleton, distinct_append]
  | some e =>
    have hadmits : ¬Admits history step := fun hadmits => by
      cases (hadmits.symm.trans (h.refusal?_eq step).symm).trans hrefusal
    rw [after_of_error (tryStep_eq_error hrefusal)]
    refine ⟨?_, ?_, fun k => ?_⟩
    · rw [h.modules, admitted_append_singleton, if_neg hadmits, List.append_nil]
    · rw [offered_append_singleton, distinct_append, ← h.names,
        Step.foldl_names_of_refused hrefusal]
    · rw [h.namePairs, admitted_append_singleton, if_neg hadmits, List.append_nil]

end Told

/-- All definitions are told by their history, by induction over its steps. -/
theorem told_afterAll (history : List Step) : Told (empty.afterAll history) history := by
  induction history using List.reverseRecOn with
  | nil => exact told_empty
  | append_singleton history step ih =>
    rw [afterAll, List.foldl_append]
    exact ih.after step

/-- Whatever steps a definition has gone through, refused ones among them, its modules are those
whose declaration was taken, and their names are all that were offered, each once and in the order
in which they first came. The rules of both kinds are those that were taken, each once and in the
same order, and both ends of a rule are modules of the definition. A step is refused for a name that
is taken, or for one that is no name of a module, and then it changes nothing, as a rule does that
was taken before. -/
theorem afterAll_admits_history (history : List Step) :
    let d := empty.afterAll history
    d.modules = (admitted history).flatMap Step.modules
      ∧ d.names = (offered history).eraseDups
      ∧ d.names.Nodup
      ∧ (∀ kind, d.namePairs kind = ((admitted history).flatMap (Step.namePairs kind)).eraseDups)
      ∧ (∀ kind, (d.rules kind).Nodup
        ∧ ∀ p ∈ d.rules kind, p.source ∈ d.modules ∧ p.dest ∈ d.modules)
      ∧ (∀ step e, d.tryStep step = .error e ↔ step.refusal? d.names = some e)
      ∧ (∀ step e, d.tryStep step = .error e → d.after step = d)
      ∧ (∀ step ∈ admitted history, step.modules = [] → d.tryStep step = .ok d) := by
  intro d
  have htold := told_afterAll history
  refine ⟨htold.modules, ?_, d.names_nodup, fun kind => ?_,
    fun kind => ⟨d.rules_nodup kind, d.rules_declared kind⟩, fun _ _ => tryStep_eq_error_iff,
    fun _ _ => after_of_error, fun step hstep hmodules => ?_⟩
  · rw [htold.names, distinct_eq_eraseDups]
  · rw [htold.namePairs, distinct_eq_eraseDups]
  · refine tryStep_eq_self hmodules fun k p hp => ?_
    rw [htold.namePairs, mem_distinct]
    exact List.mem_flatMap.2 ⟨step, hstep, hp⟩

end Conformance.Definition
