import Conformance.Proofs.Survey.Accesses

/-!
# The findings of a survey

What a survey notes about modules depends on the elements that the events mention, in the order of
their first mention, and on nothing else in the events. `Noted` says what a survey under way has
noted when some elements have been mentioned; one mention keeps it (`Noted.mention`), so a whole
survey does (`noted_recordAll`). From this follow all its findings and their order
(`findings_recordAll`).
-/

namespace Conformance

/-- The elements that events mention, in order and with repetitions. -/
def AccessEvent.mentioned (events : List AccessEvent) : List String :=
  events.flatMap AccessEvent.elements

namespace Survey

/-- Is the element in more than one of the declared modules? -/
def isAmbiguous (declared : List Module) (element : String) : Bool :=
  1 < (declared.filter (·.contains element)).length

/-- The finding that an element is in several declared modules. -/
def ambiguity (declared : List Module) (element : String) : Diagnostic :=
  .ambiguousElement element ((declared.filter (·.contains element)).map Module.name)

/-- The findings about elements in several modules, each at the first mention of its element. -/
def ambiguities (declared : List Module) (elements : List String) : List Diagnostic :=
  ((distinct elements).filter (isAmbiguous declared)).map (ambiguity declared)

/-- The declared modules that contain none of the elements. -/
def unmentioned (declared : List Module) (elements : List String) : List Module :=
  declared.filter fun m => !elements.any m.contains

/-- Has the survey noted just what is to be noted when these elements have been mentioned? -/
structure Noted (s : Survey) (elements : List String) : Prop where
  live : s.live = s.modules.map fun m => elements.any m.contains
  diagnostics : s.diagnostics
    = (repeatedNames s.modules).map .duplicateModuleName ++ ambiguities s.modules elements

theorem noted_start (modules : List Module) (other : Module) : (start modules other).Noted [] where
  live := rfl
  diagnostics := (List.append_nil _).symm

/-- An element has been reported if it is in several modules and was mentioned. -/
theorem Noted.isReported_iff {s : Survey} {elements : List String} (h : s.Noted elements)
    {element : String} :
    s.isReported element = true ↔ isAmbiguous s.modules element = true ∧ element ∈ elements := by
  rw [isReported, h.diagnostics, List.any_append, Bool.or_eq_true, List.any_map, List.any_eq_true]
  simp only [ambiguities, ambiguity, Function.comp_apply, Bool.false_eq_true, and_false,
    exists_false, false_or, List.any_map, List.any_eq_true, List.mem_filter, mem_distinct,
    decide_eq_true_eq]
  constructor
  · intro hsome
    obtain ⟨e, ⟨he, hambiguous⟩, rfl⟩ := hsome
    exact ⟨hambiguous, he⟩
  · intro hsome
    obtain ⟨hambiguous, he⟩ := hsome
    exact ⟨element, ⟨he, hambiguous⟩, rfl⟩

/-- One more element adds a finding if it is in several modules and new. -/
theorem ambiguities_append_singleton (declared : List Module) (elements : List String)
    (element : String) :
    ambiguities declared (elements ++ [element])
      = ambiguities declared elements
        ++ if isAmbiguous declared element = true ∧ element ∉ elements then
            [ambiguity declared element] else [] := by
  rw [ambiguities, distinct_append_singleton, insertNew]
  by_cases hmem : element ∈ elements
  · simp [hmem, ambiguities]
  · rw [if_neg (by simpa using hmem), List.filter_append, List.map_append]
    by_cases hambiguous : isAmbiguous declared element = true
    · simp [hmem, hambiguous, ambiguities]
    · simp [hambiguous, ambiguities]

/-- A mention makes modules live and reports its element, unless that is done already. -/
theorem Noted.mention {s : Survey} {elements : List String} (h : s.Noted elements)
    (element : String) : (s.mention element).Noted (elements ++ [element]) where
  live := by
    show List.zipWith (fun live (m : Module) => live || m.contains element) s.live s.modules = _
    rw [h.live, List.zipWith_map_left, List.zipWith_self]
    simp [Survey.mention]
  diagnostics := by
    have hmention : (s.mention element).diagnostics
        = if isAmbiguous s.modules element && !s.isReported element then
            s.diagnostics ++ [ambiguity s.modules element] else s.diagnostics := rfl
    show _ = (repeatedNames s.modules).map _ ++ ambiguities s.modules (elements ++ [element])
    rw [hmention, ambiguities_append_singleton, ← List.append_assoc, ← h.diagnostics]
    by_cases hambiguous : isAmbiguous s.modules element = true
    · by_cases hmem : element ∈ elements
      · have hreported := h.isReported_iff.2 ⟨hambiguous, hmem⟩
        simp [hreported, hmem]
      · have hreported : s.isReported element = false :=
          Bool.eq_false_iff.2 fun hr => hmem (h.isReported_iff.1 hr).2
        simp [hambiguous, hreported, hmem]
    · simp [hambiguous]

/-- An event mentions its elements one after the other. -/
theorem Noted.record {s : Survey} {elements : List String} (h : s.Noted elements)
    (e : AccessEvent) : (s.record e).Noted (elements ++ e.elements) := by
  cases e with
  | node element => exact h.mention element
  | access source dest kind =>
    -- connecting two elements touches the graph alone
    have hboth := (h.mention source).mention dest
    rw [List.append_assoc] at hboth
    exact ⟨hboth.live, hboth.diagnostics⟩

theorem Noted.recordAll {s : Survey} {elements : List String} (h : s.Noted elements)
    (events : List AccessEvent) :
    (s.recordAll events).Noted (elements ++ AccessEvent.mentioned events) := by
  induction events generalizing s elements with
  | nil => simpa [Survey.recordAll, AccessEvent.mentioned] using h
  | cons e events ih =>
    have hrest := ih (h.record e)
    rwa [List.append_assoc] at hrest

/-- A survey notes just what the elements mentioned by its events call for. -/
theorem noted_recordAll (modules : List Module) (other : Module) (events : List AccessEvent) :
    ((start modules other).recordAll events).Noted (AccessEvent.mentioned events) :=
  (noted_start modules other).recordAll events

/-- The modules without elements are those that contain no mentioned element. -/
theorem Noted.deadModules_eq {s : Survey} {elements : List String} (h : s.Noted elements) :
    s.deadModules = unmentioned s.modules elements := by
  rw [deadModules, h.live, List.zip_map_right, List.filterMap_map]
  generalize s.modules = modules
  induction modules with
  | nil => rfl
  | cons m modules ih =>
    rw [List.zip_cons_cons, List.filterMap_cons, ih, unmentioned, unmentioned, List.filter_cons]
    by_cases hlive : elements.any m.contains = true
    · simp [hlive]
    · simp [hlive]

/-- All findings of a survey: repeated names, elements of several modules, modules without elements.
-/
theorem Noted.findings_eq {s : Survey} {elements : List String} (h : s.Noted elements) :
    s.findings = (repeatedNames s.modules).map .duplicateModuleName
      ++ ambiguities s.modules elements
      ++ (unmentioned s.modules elements).map fun m => .deadModule m.name := by
  rw [findings, h.diagnostics, h.deadModules_eq]

/-! ## Elements in another order -/

section
variable {elements elements' : List String} (h : ∀ e, e ∈ elements ↔ e ∈ elements')

include h

/-- The findings about elements keep their order from the mentions, and are the same without it. -/
theorem ambiguities_perm (declared : List Module) :
    (ambiguities declared elements).Perm (ambiguities declared elements') :=
  ((distinct_perm h).filter _).map _

/-- The modules without elements keep their order from the declarations. -/
theorem unmentioned_congr (declared : List Module) :
    unmentioned declared elements = unmentioned declared elements' := by
  refine List.filter_congr fun m _ => ?_
  have hany : elements.any m.contains = elements'.any m.contains := by
    rw [Bool.eq_iff_iff, List.any_eq_true, List.any_eq_true]
    simp only [h]
  rw [hany]

end

/-! ## All findings in their order -/

/-- The repeated names are those that two or more modules have. -/
theorem mem_repeatedNames {modules : List Module} {name : String} :
    name ∈ repeatedNames modules ↔ 2 ≤ (modules.map Module.name).count name := by
  rw [repeatedNames, List.mem_mergeSort, List.mem_filter, mem_distinct, decide_eq_true_eq]
  refine ⟨fun h => h.2, fun h => ⟨?_, h⟩⟩
  rw [← List.count_pos_iff]
  omega

/-- Repeated names ascend, so that each of them is there once. -/
theorem pairwise_repeatedNames (modules : List Module) :
    (repeatedNames modules).Pairwise (· < ·) := by
  have hsorted : (repeatedNames modules).Pairwise fun a b => decide (a ≤ b) = true := by
    apply List.pairwise_mergeSort
    · intro a b c hab hbc
      rw [decide_eq_true_eq] at hab hbc ⊢
      exact String.le_trans hab hbc
    · intro a b
      rw [Bool.or_eq_true, decide_eq_true_eq, decide_eq_true_eq]
      exact String.le_total a b
  have hnodup : (repeatedNames modules).Nodup := by
    rw [repeatedNames, (List.mergeSort_perm _ _).nodup_iff]
    exact (nodup_distinct _).filter _
  refine (hsorted.and hnodup).imp fun hab => ?_
  obtain ⟨hle, hne⟩ := hab
  rw [← String.not_le]
  exact fun hge => hne (String.le_antisymm (of_decide_eq_true hle) hge)

/-- The findings about elements, with nothing but functions of the library. -/
theorem ambiguities_eq (declared : List Module) (elements : List String) :
    ambiguities declared elements
      = (elements.eraseDups.filter fun e => 2 ≤ declared.countP (·.contains e)).map fun e =>
          .ambiguousElement e ((declared.filter (·.contains e)).map Module.name) := by
  have hambiguous (e : String) :
      isAmbiguous declared e = decide (2 ≤ declared.countP (·.contains e)) := by
    rw [isAmbiguous, List.countP_eq_length_filter]
    rfl
  rw [ambiguities, distinct_eq_eraseDups, List.filter_congr fun e _ => hambiguous e]
  rfl

/-- The modules without elements, with nothing but functions of the library. -/
theorem unmentioned_eq (declared : List Module) (elements : List String) :
    unmentioned declared elements
      = declared.filter fun m => ∀ e ∈ elements, m.contains e = false := by
  refine List.filter_congr fun m _ => ?_
  rw [Bool.eq_iff_iff, Bool.not_eq_true', List.any_eq_false, decide_eq_true_eq]
  simp only [Bool.not_eq_true]

/-- What a survey finds, in this order: each name that two or more declared modules have, ascending;
each element in two or more of them, in order of first mention, with their names; each declared
module that contains no mentioned element. While events are still coming in, the first two parts are
those that the events so far call for. -/
theorem findings_recordAll (modules : List Module) (other : Module) (events : List AccessEvent) :
    let ambiguous := fun seen : List AccessEvent =>
      ((AccessEvent.mentioned seen).eraseDups.filter fun e =>
          2 ≤ modules.countP (·.contains e)).map fun e =>
        Diagnostic.ambiguousElement e ((modules.filter (·.contains e)).map Module.name)
    let dead := (modules.filter fun m =>
      ∀ e ∈ AccessEvent.mentioned events, m.contains e = false).map fun m =>
        Diagnostic.deadModule m.name
    ∃ repeated : List String, repeated.Pairwise (· < ·)
      ∧ (∀ name, name ∈ repeated ↔ 2 ≤ (modules.map Module.name).count name)
      ∧ (∀ seen, seen <+: events → ((start modules other).recordAll seen).diagnostics
          = repeated.map .duplicateModuleName ++ ambiguous seen)
      ∧ ((start modules other).recordAll events).findings
          = repeated.map .duplicateModuleName ++ ambiguous events ++ dead := by
  refine ⟨repeatedNames modules, pairwise_repeatedNames modules, fun _ => mem_repeatedNames,
    fun seen _ => ?_, ?_⟩
  · rw [(noted_recordAll modules other seen).diagnostics, modules_recordAll, modules_start,
      ambiguities_eq]
  · rw [(noted_recordAll modules other events).findings_eq, modules_recordAll, modules_start,
      ambiguities_eq, unmentioned_eq]

end Survey

end Conformance
