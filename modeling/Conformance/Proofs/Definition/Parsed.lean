import Conformance.Proofs.Definition.Meaning
import Conformance.Proofs.Specification.Acceptance

/-!
# Definitions from texts

A specification that a parser has read has names of modules that are identifiers, a pattern in each
of its modules and two names in each of its rules. What it means follows from its texts alone, and
a chain means the same as its links, each written as a rule of its own
(`Definition.ofSpecification_parsed`).
-/

namespace Conformance

/-! ## What sentences are made of -/

namespace Grammar

variable {ts : List Token}

theorem Patterns.ne_nil {ps : List Span} (h : Patterns ts ps) : ps ≠ [] := by
  cases h with
  | one => exact List.cons_ne_nil _ _
  | more => exact List.cons_ne_nil _ _

theorem Names.ne_nil {ns : List Span} (h : Names ts ns) : ns ≠ [] := by
  cases h with
  | one => exact List.cons_ne_nil _ _
  | more => exact List.cons_ne_nil _ _

/-- The line of a module gives a name and at least one pattern. -/
theorem ModuleLine.isIdentifier {m : Span × List Span} (h : ModuleLine ts m) :
    Parser.isIdentifier m.1.text = true ∧ m.2 ≠ [] := by
  obtain ⟨hname, -, hpatterns, -⟩ := h
  exact ⟨isIdentifier_iff.2 hname.2.1, hpatterns.ne_nil⟩

/-- The line of a rule gives at least two names. -/
theorem RuleLine.two_le {rule : RuleKind × List Span} (h : RuleLine ts rule) :
    2 ≤ rule.2.length := by
  cases h with
  | chain _ _ hnames _ =>
    have := List.length_pos_iff.2 hnames.ne_nil
    rw [List.length_cons]
    omega
  | noDependency => exact Nat.le_refl 2

/-- What holds of each line holds of all that they say. -/
theorem Lines.forall_mem {α : Type} {line : List Token → α → Prop} {holds : α → Prop}
    (hline : ∀ ts a, line ts a → holds a) {as : List α} (h : Lines line ts as) :
    ∀ a ∈ as, holds a := by
  induction h with
  | none =>
    intro a ha
    cases ha
  | more ha _ ih => exact List.forall_mem_cons.2 ⟨hline _ _ ha, ih⟩

end Grammar

open Grammar

/-- Has a parser read the specification, wherever it began? -/
def Specification.IsParsed (s : Specification) : Prop :=
  ∃ p : Parser, (p.run Parser.specification).1 = .ok s

namespace Specification

variable {s : Specification}

/-- What was read from a text was read. -/
theorem isParsed_of_ofSource {src : Source} (h : ofSource src = .ok s) : s.IsParsed := by
  obtain ⟨p, -, hp⟩ := bind_eq_ok_iff.1 h
  exact ⟨p, hp⟩

/-- Some tokens say what was read. -/
theorem IsParsed.exists_sentence (h : s.IsParsed) :
    ∃ ts, Sentence ts (saying s).1 (saying s).2 := by
  obtain ⟨p, hp⟩ := h
  rcases houtcome : p.run Parser.specification with ⟨outcome, q⟩
  rw [houtcome] at hp
  obtain rfl : outcome = .ok s := hp
  obtain ⟨ts, -, hrun⟩ := Parser.ahead_of_run_specification houtcome
  exact ⟨ts, sentence_iff_run.2 hrun⟩

/-- Every module that was read has an identifier for its name, and a pattern. -/
theorem IsParsed.modules (h : s.IsParsed) :
    ∀ m ∈ s.modules, Parser.isIdentifier m.name.text = true ∧ m.patterns ≠ [] := by
  obtain ⟨ts, -, -, hlines, -, -, -⟩ := h.exists_sentence
  intro m hm
  exact hlines.forall_mem (fun _ _ h => h.isIdentifier) _ (List.mem_map_of_mem hm)

/-- Every rule that was read has two names at least. -/
theorem IsParsed.two_le (h : s.IsParsed) : ∀ r ∈ s.rules, 2 ≤ r.names.length := by
  obtain ⟨ts, -, -, -, -, hlines, -⟩ := h.exists_sentence
  intro r hr
  exact hlines.forall_mem (fun _ _ h => h.two_le) _ (List.mem_map_of_mem hr)

end Specification

/-! ## Chains and their links -/

section
variable {α : Type} {xs : List α}

theorem length_neighbours (xs : List α) : (neighbours xs).length = xs.length - 1 := by
  rw [neighbours, List.length_zip, List.length_tail]
  omega

/-- Of two or more items each has a neighbour, and nothing else has. -/
theorem forall_neighbours_iff (h : 2 ≤ xs.length) {holds : α → Prop} :
    (∀ p ∈ neighbours xs, holds p.1 ∧ holds p.2) ↔ ∀ x ∈ xs, holds x := by
  induction xs with
  | nil => simp at h
  | cons x xs ih =>
    cases xs with
    | nil => simp at h
    | cons y xs =>
      have hcons : neighbours (x :: y :: xs) = (x, y) :: neighbours (y :: xs) := rfl
      rw [hcons, List.forall_mem_cons, List.forall_mem_cons]
      -- of two items each is the neighbour of the other
      cases xs with
      | nil => simp [neighbours]
      | cons z xs =>
        have hrest := ih (by simp)
        rw [hrest]
        simp only [List.forall_mem_cons]
        tauto

end

/-- The rules on two modules each that a rule comes to. -/
def Rule.links : Rule → List Rule
  | chain span modules => (neighbours modules).map fun p => .chain span [p.1, p.2]
  | noDependency span source dest => [.noDependency span source dest]

/-- The texts of a rule: its kind and the names in it. -/
def Rule.texts (r : Rule) : RuleKind × List String :=
  (r.kind, r.names.map Span.text)

theorem Rule.kind_of_mem_links {r l : Rule} (h : l ∈ r.links) : l.kind = r.kind := by
  cases r with
  | chain span modules =>
    obtain ⟨p, -, rfl⟩ := List.mem_map.1 h
    rfl
  | noDependency span source dest =>
    obtain rfl := List.mem_singleton.1 h
    rfl

/-- The links of a rule speak of its pairs. -/
theorem Rule.flatMap_links (r : Rule) : r.links.flatMap Rule.namePairs = r.namePairs := by
  cases r with
  | chain span modules =>
    rw [← Rule.map_pairs, Rule.links, List.flatMap_map, List.map_eq_flatMap]
    rfl
  | noDependency span source dest => rfl

namespace Specification

variable {s s' : Specification}

theorem namePairs_eq_texts (s : Specification) (kind : RuleKind) :
    s.namePairs kind
      = ((s.rules.map Rule.texts).filter (·.1 = kind)).flatMap fun r => neighbours r.2 := by
  rw [List.filter_map, List.flatMap_map]
  rfl

/-- A chain speaks of the pairs that its links speak of. -/
theorem namePairs_links (s : Specification) (kind : RuleKind) :
    namePairs ⟨s.modules, s.rules.flatMap Rule.links⟩ kind = s.namePairs kind := by
  unfold namePairs
  induction s.rules with
  | nil => rfl
  | cons r rules ih =>
    rw [List.flatMap_cons, List.filter_append, List.flatMap_append, ih]
    -- the links of a rule are all of its kind
    by_cases hk : r.kind = kind
    · have hall : r.links.filter (·.kind = kind) = r.links :=
        List.filter_eq_self.2 fun l hl => by simp [Rule.kind_of_mem_links hl, hk]
      rw [hall, Rule.flatMap_links, List.filter_cons_of_pos (by simpa using hk), List.flatMap_cons]
    · have hnone : r.links.filter (·.kind = kind) = [] :=
        List.filter_eq_nil_iff.2 fun l hl => by simp [Rule.kind_of_mem_links hl, hk]
      rw [hnone, List.filter_cons_of_neg (by simpa using hk)]
      rfl

end Specification

namespace Definition

variable {s s' : Specification}

/-- Specifications of the same texts give the same definition, if they give one. -/
theorem ofSpecification_congr
    (hmodules : s'.modules.map ModuleDef.identity = s.modules.map ModuleDef.identity)
    (hrules : ∀ k, s'.namePairs k = s.namePairs k) (d : Definition) :
    ofSpecification s' = .ok d ↔ ofSpecification s = .ok d := by
  rw [ofSpecification_eq_ok_iff, ofSpecification_eq_ok_iff, hmodules]
  simp only [hrules]

/-- A specification that was read gives a definition when its patterns are patterns, no name of a
module is given twice and its rules name only modules. Its modules are then those of the definition,
and the rules of a kind are the pairs of neighbours in its rules, each taken once, where it first
comes; so a chain can be written link by link. A definition from a text has no module of the name of
the catch-all module and none without patterns. -/
theorem ofSpecification_parsed :
    (∀ s : Specification, s.IsParsed →
      ((∃ d, ofSpecification s = .ok d)
        ↔ (∀ m ∈ s.modules, ∀ p ∈ m.patterns, isGlobText p.text = true)
          ∧ (s.modules.map (·.name.text)).Nodup
          ∧ ∀ r ∈ s.rules, ∀ n ∈ r.names, n.text ∈ s.modules.map (·.name.text))
      ∧ (∀ d, ofSpecification s = .ok d →
        d.modules.map Module.identity = s.modules.map ModuleDef.identity
          ∧ d.dependencies.map ModulePair.names = (s.namePairs .dependency).eraseDups
          ∧ d.noDependencies.map ModulePair.names = (s.namePairs .noDependency).eraseDups)
      ∧ (∀ r ∈ s.rules, r.pairs.length = r.names.length - 1)
      ∧ ∀ s' : Specification,
        s'.modules.map ModuleDef.identity = s.modules.map ModuleDef.identity →
        s'.rules.map Rule.texts = (s.rules.flatMap Rule.links).map Rule.texts →
        ∀ d, ofSpecification s' = .ok d ↔ ofSpecification s = .ok d)
    ∧ ∀ src d, ofSource src = .ok d →
      ∀ m ∈ d.modules, m.name ≠ Module.other.name ∧ m.patterns ≠ [] := by
  refine ⟨fun s hs => ⟨?_, fun d hd => ?_, fun r _ => ?_, fun s' hmodules hrules => ?_⟩,
    fun src d hd m hm => ?_⟩
  · rw [exists_ofSpecification_iff]
    refine and_congr_right fun _ => and_congr_right fun _ => forall₂_congr fun r hr => ?_
    have htwo : 2 ≤ (r.names.map Span.text).length := by
      rw [List.length_map]
      exact hs.two_le r hr
    rw [Rule.namePairs, forall_neighbours_iff htwo, List.forall_mem_map]
    rfl
  · obtain ⟨hmodules, hrules⟩ := ofSpecification_eq_ok hd
    exact ⟨hmodules, hrules .dependency, hrules .noDependency⟩
  · rw [← List.length_map (f := fun p : Span × Span => (p.1.text, p.2.text)), Rule.map_pairs,
      Rule.namePairs, length_neighbours, List.length_map]
  · refine ofSpecification_congr hmodules fun k => ?_
    rw [Specification.namePairs_eq_texts, hrules, ← Specification.namePairs_links,
      Specification.namePairs_eq_texts]
  · -- the name of the catch-all module is no identifier, and what was read has identifiers for
    -- names
    obtain ⟨s, hs, hcompiled⟩ := bind_eq_ok_iff.1 hd
    have hparsed := Specification.isParsed_of_ofSource hs
    obtain ⟨hmodules, -⟩ := ofSpecification_eq_ok (mapError_eq_ok_iff.1 hcompiled)
    have hidentity : m.identity ∈ s.modules.map ModuleDef.identity := by
      rw [← hmodules]
      exact List.mem_map_of_mem hm
    obtain ⟨md, hmd, hsame⟩ := List.mem_map.1 hidentity
    obtain ⟨hname, hpatterns⟩ := List.cons.inj hsame
    obtain ⟨hidentifier, hne⟩ := hparsed.modules md hmd
    constructor
    · intro hother
      rw [hname, hother] at hidentifier
      exact absurd hidentifier (by decide)
    · intro hnil
      rw [Module.patternTexts, hnil, List.map_nil, List.map_eq_nil_iff] at hpatterns
      exact hne hpatterns

/-- A chain that goes back and forth gives each of its two pairs once. -/
theorem ofSpecification_parsed_chain :
    ∃ s : Specification, s.IsParsed
      ∧ s.rules.map Rule.texts
        = [(.dependency, ["A", "B", "A", "B"]), (.noDependency, ["B", "A"])]
      ∧ ∃ d, ofSpecification s = .ok d ∧ d.modules.map Module.identity = [["A", "a"], ["B", "b"]]
        ∧ d.dependencies.map ModulePair.names = [("A", "B"), ("B", "A")]
        ∧ d.noDependencies.map ModulePair.names = [("B", "A")] := by
  have hread : (Specification.ofSource ⟨"case.arch",
        "modules:\nA = \"a\"\nB = \"b\"\nrules:\nA -> B -> A -> B\nB -/-> A\n"⟩).map
      (fun s => (s.modules.map ModuleDef.identity, s.rules.map Rule.texts))
      = .ok ([["A", "a"], ["B", "b"]],
        [(.dependency, ["A", "B", "A", "B"]), (.noDependency, ["B", "A"])]) := by
    decide +kernel
  obtain ⟨s, hs, hsaid⟩ := map_eq_ok_iff.1 hread
  obtain ⟨hmodules, hrules⟩ := Prod.mk.inj hsaid
  have hparsed := Specification.isParsed_of_ofSource hs
  obtain ⟨hsome, htold, -⟩ := ofSpecification_parsed.1 s hparsed
  have hnames : s.modules.map (·.name.text) = ["A", "B"] := by
    have hheads := congrArg (List.map fun texts => texts.headD "") hmodules
    rwa [List.map_map] at hheads
  have hpatterns : ∀ texts ∈ s.modules.map ModuleDef.identity, ∀ p ∈ texts.tail,
      isGlobText p = true := by
    rw [hmodules]
    decide
  have hdeclared : ∀ texts ∈ s.rules.map Rule.texts, ∀ n ∈ texts.2, n ∈ ["A", "B"] := by
    rw [hrules]
    decide
  rw [hnames] at hsome
  obtain ⟨d, hd⟩ := hsome.2 ⟨fun m hm p hp =>
      hpatterns _ (List.mem_map_of_mem hm) _ (List.mem_map_of_mem hp), by decide,
    fun r hr n hn => hdeclared _ (List.mem_map_of_mem hr) _ (List.mem_map_of_mem hn)⟩
  obtain ⟨hidentities, hdependencies, hnoDependencies⟩ := htold d hd
  refine ⟨s, hparsed, hrules, d, hd, hidentities.trans hmodules, ?_, ?_⟩
  · rw [hdependencies, Specification.namePairs_eq_texts, hrules]
    decide
  · rw [hnoDependencies, Specification.namePairs_eq_texts, hrules]
    decide

end Definition

end Conformance
