import Conformance.Proofs.Definition.Histories
import Conformance.Proofs.Definition.Parsed
import Conformance.Proofs.Specification.Order

/-!
# The first culprit

A specification is worked through in the order of its text and the first thing that cannot be is
reported. Places of errors are told from texts: of a pattern that is refused only the text is known,
and of a name in a rule that is no name of a module, too. Still the place is the right one, since
what stands in front has other texts. `Specification.Fault` says what is at fault first, without
going through any definition on the way, and `Definition.ofSource_culprit` that it is what a text
is refused with.
-/

namespace Conformance

/-! ## What is at fault -/

namespace Specification

/-- Can these definitions be declared one behind the other? Their patterns are patterns then, and no
name is given twice. -/
def AreFine (ms : List ModuleDef) : Prop :=
  (∀ m ∈ ms, ∀ p ∈ m.patterns, isGlobText p.text = true) ∧ (ms.map (·.name.text)).Nodup

/-- What is at fault first in a specification, and where. In the first definition that cannot be
declared it is the first pattern that is none, or else the name that is given again; if all can be
declared, it is the first name in the rules that is none of a module. -/
inductive Fault (s : Specification) : Spanned DefinitionError → Prop where
  | pattern {front back : List ModuleDef} {m : ModuleDef} {p : Span} :
    s.modules = front ++ m :: back → AreFine front →
      m.patterns.find? (!isGlobText ·.text) = some p →
      Fault s (.placed (.invalidModulePattern m.name.text p.text) p)
  | name {front back : List ModuleDef} {m : ModuleDef} :
    s.modules = front ++ m :: back → AreFine front →
      (∀ p ∈ m.patterns, isGlobText p.text = true) → m.name.text ∈ front.map (·.name.text) →
      Fault s (.placed (.duplicateModuleName m.name.text) m.name)
  | reference {front back : List Rule} {r : Rule} {n : Span} :
    AreFine s.modules → s.rules = front ++ r :: back →
      (∀ q ∈ front, ∀ k ∈ q.names, k.text ∈ s.moduleNames) →
      r.names.find? (·.text ∉ s.moduleNames) = some n →
      Fault s (.placed (.undefinedModuleReference n.text r.span.text) n)

end Specification

/-! ## Definitions of modules -/

/-- A module is refused with its first pattern that is none. -/
theorem Module.ofPatterns_eq_error_iff {name : String} {ps : List String} {e : DefinitionError} :
    Module.ofPatterns name ps = .error e
      ↔ ∃ p, ps.find? (!isGlobText ·) = some p ∧ e = .invalidModulePattern name p := by
  induction ps with
  | nil => simp [Module.ofPatterns]
  | cons p ps ih =>
    by_cases hp : isGlobText p = true
    · have hsome : Glob.ofString? p = some ⟨p, hp⟩ := Glob.ofString?_eq_some_iff.2 rfl
      rw [Module.ofPatterns, hsome, List.find?_cons_of_neg (by simp [hp]), ← ih]
      exact map_eq_error_iff
    · have hnone : Glob.ofString? p = none := dif_neg hp
      rw [Module.ofPatterns, hnone, List.find?_cons_of_pos (by simp [hp])]
      simp [eq_comm]

/-- The first pattern that is none is found again by its text. -/
theorem ModuleDef.culprit_eq {m : ModuleDef} {p : Span}
    (h : m.patterns.find? (!isGlobText ·.text) = some p) (name : String) :
    m.culprit (.invalidModulePattern name p.text) = p := by
  obtain ⟨hp, left, right, hpatterns, hleft⟩ := List.find?_eq_some_iff_append.1 h
  have hfirst : m.patterns.find? (·.text = p.text) = some p := by
    refine List.find?_eq_some_iff_append.2 ⟨by simp, left, right, hpatterns, fun q hq => ?_⟩
    have hne : q.text ≠ p.text := fun hsame => by
      have hfine := hleft q hq
      rw [hsame, hp] at hfine
      cases hfine
    simpa using hne
  rw [ModuleDef.culprit, hfirst, Option.getD_some]

theorem ModuleDef.toModule_eq_error_iff {m : ModuleDef} {e : Spanned DefinitionError} :
    m.toModule = .error e
      ↔ ∃ p, m.patterns.find? (!isGlobText ·.text) = some p
        ∧ e = .placed (.invalidModulePattern m.name.text p.text) p := by
  simp only [ModuleDef.toModule, mapError_eq_error_iff, Module.ofPatterns_eq_error_iff,
    List.find?_map, Option.map_eq_some_iff]
  constructor
  · rintro ⟨_, ⟨_, ⟨p, hp, rfl⟩, rfl⟩, rfl⟩
    exact ⟨p, hp, by rw [m.culprit_eq hp]⟩
  · rintro ⟨p, hp, rfl⟩
    exact ⟨_, ⟨_, ⟨p, hp, rfl⟩, rfl⟩, by rw [m.culprit_eq hp]⟩

namespace Definition

open Specification

variable {d : Definition}

theorem addModule_eq_error_iff {m : Module} {e : DefinitionError} :
    d.addModule m = .error e ↔ m.name ∈ d.names ∧ e = .duplicateModuleName m.name := by
  constructor
  · intro h
    by_cases htaken : m.name ∈ d.names
    · exact ⟨htaken, Except.error.inj (h.symm.trans (addModule_eq_error htaken))⟩
    · have hadded := addModule_eq_ok_iff.2 ⟨module?_eq_none_iff.2 htaken, rfl⟩
      cases h.symm.trans hadded
  · rintro ⟨htaken, rfl⟩
    exact addModule_eq_error htaken

/-- A definition is refused with a pattern of it, or else with its name. -/
theorem declare_eq_error_iff {m : ModuleDef} {e : Spanned DefinitionError} :
    d.declare m = .error e
      ↔ (∃ p, m.patterns.find? (!isGlobText ·.text) = some p
          ∧ e = .placed (.invalidModulePattern m.name.text p.text) p)
        ∨ (∀ p ∈ m.patterns, isGlobText p.text = true) ∧ m.name.text ∈ d.names
          ∧ e = .placed (.duplicateModuleName m.name.text) m.name := by
  rw [declare, bind_eq_error_iff, ModuleDef.toModule_eq_error_iff]
  refine or_congr_right ?_
  simp only [ModuleDef.toModule_eq_ok_iff, mapError_eq_error_iff, addModule_eq_error_iff]
  constructor
  · rintro ⟨module, hmodule, _, ⟨htaken, rfl⟩, rfl⟩
    have hname : module.name = m.name.text := (List.cons.inj hmodule).1
    rw [hname] at htaken ⊢
    have hpatterns := Module.exists_identity_iff.1 ⟨module, hmodule⟩
    exact ⟨List.forall_mem_map.1 hpatterns, htaken, rfl⟩
  · rintro ⟨hpatterns, htaken, rfl⟩
    obtain ⟨module, hmodule⟩ := Module.exists_identity_iff.2 (List.forall_mem_map.2 hpatterns)
    have hname : module.name = m.name.text := (List.cons.inj hmodule).1
    exact ⟨module, hmodule, _, ⟨hname.symm ▸ htaken, rfl⟩, by rw [hname]⟩

/-- Just the definitions that are fine can all be declared. -/
theorem areFine_iff {ms : List ModuleDef} :
    AreFine ms ↔ ∃ d, ms.foldlM declare empty = .ok d ∧ d.names = ms.map (·.name.text) := by
  have hnames {d : Definition} (h : ms.foldlM declare empty = .ok d) :
      d.modules.map Module.identity = ms.map ModuleDef.identity := (declareAll_eq_ok h).1
  constructor
  · rintro ⟨hpatterns, hnodup⟩
    obtain ⟨d, hd⟩ := exists_declareAll (d := empty) hpatterns hnodup
    exact ⟨d, hd, map_name_of_map_identity (hnames hd)⟩
  · rintro ⟨d, hd, hsame⟩
    refine ⟨fun m hm => ?_, hsame ▸ d.names_nodup⟩
    have hidentity : m.identity ∈ d.modules.map Module.identity := by
      rw [hnames hd]
      exact List.mem_map_of_mem hm
    obtain ⟨module, -, hmodule⟩ := List.mem_map.1 hidentity
    exact List.forall_mem_map.1 (Module.exists_identity_iff.1 ⟨module, hmodule⟩)

/-! ## Rules -/

/-- What a rule with this text is refused with for a name in it. -/
def undeclared (rule : String) (n : Span) : Spanned DefinitionError :=
  .placed (.undefinedModuleReference n.text rule) n

/-- Adding a pair of a rule is told by its names: the first one that is none of a module is the
culprit. -/
theorem isTold_addPair (r : Rule) (pair : Span × Span) :
    IsTold (·.names = d.names) (addPair r d pair)
      (([pair.1, pair.2].find? (·.text ∉ d.names)).map (undeclared r.span.text)) := by
  by_cases hsource : pair.1.text ∈ d.names
  · by_cases hdest : pair.2.text ∈ d.names
    · obtain ⟨d', hd', hmodules, -⟩ :
          ∃ d', d.addRule r.kind r.span.text pair.1.text pair.2.text = .ok d'
            ∧ d'.modules = d.modules ∧ _ := exists_addRule ⟨hsource, hdest⟩
      have hnone : [pair.1, pair.2].find? (·.text ∉ d.names) = none := by simp [hsource, hdest]
      rw [hnone]
      exact ⟨d', mapError_eq_ok_iff.2 hd', congrArg (List.map Module.name) hmodules⟩
    · -- both names have different texts, as one is declared and the other is not
      have hne : pair.2.text ≠ pair.1.text := fun hsame => hdest (hsame ▸ hsource)
      have hsome : [pair.1, pair.2].find? (·.text ∉ d.names) = some pair.2 := by
        simp [hsource, hdest]
      obtain ⟨s, hs⟩ := exists_resolve r.span.text hsource
      rw [hsome]
      refine mapError_eq_error_iff.2 ⟨.undefinedModuleReference pair.2.text r.span.text, ?_, ?_⟩
      · rw [addRule, hs, resolve_eq_error hdest]
        rfl
      · rw [pairCulprit, if_pos (by simp [hne])]
        rfl
  · have hsome : [pair.1, pair.2].find? (·.text ∉ d.names) = some pair.1 := by simp [hsource]
    rw [hsome]
    refine mapError_eq_error_iff.2 ⟨.undefinedModuleReference pair.1.text r.span.text, ?_, ?_⟩
    · rw [addRule, resolve_eq_error hsource]
      rfl
    · rw [pairCulprit, if_neg (by simp)]
      rfl

/-- The first item that the neighbours in a list come to is the first of the list. -/
theorem findSome?_neighbours {α : Type} {xs : List α} (h : 2 ≤ xs.length) (q : α → Bool) :
    (neighbours xs).findSome? (fun p => [p.1, p.2].find? q) = xs.find? q := by
  induction xs with
  | nil => simp at h
  | cons x xs ih =>
    cases xs with
    | nil => simp at h
    | cons y xs =>
      have hcons : neighbours (x :: y :: xs) = (x, y) :: neighbours (y :: xs) := rfl
      rw [hcons, List.findSome?_cons]
      -- what is not found in the first pair is no neighbour of what comes behind, either
      cases xs with
      | nil =>
        rw [neighbours, List.tail_cons, List.zip_nil_right, List.findSome?_nil]
        cases [x, y].find? q <;> rfl
      | cons z xs =>
        rw [ih (by simp)]
        cases hx : q x with
        | true => simp [hx]
        | false =>
          cases hy : q y with
          | true => simp [hx, hy]
          | false => simp [hx, hy]

theorem pairs_eq_neighbours (r : Rule) : r.pairs = neighbours r.names := by
  cases r with
  | chain span modules => rfl
  | noDependency span source dest => rfl

/-- Adding a rule is told by the names in it. -/
theorem isTold_addPairsOf {r : Rule} (hr : 2 ≤ r.names.length) {names : List String}
    (hd : d.names = names) :
    IsTold (·.names = names) (addPairsOf d r)
      ((r.names.find? (·.text ∉ names)).map (undeclared r.span.text)) := by
  have hstep (d : Definition) (hd : d.names = names) (pair : Span × Span) (_ : pair ∈ r.pairs) :
      IsTold (·.names = names) (addPair r d pair)
        (([pair.1, pair.2].find? (·.text ∉ names)).map (undeclared r.span.text)) :=
    hd ▸ isTold_addPair r pair
  have hfirst : r.pairs.findSome? (fun pair =>
      ([pair.1, pair.2].find? (·.text ∉ names)).map (undeclared r.span.text))
        = (r.names.find? (·.text ∉ names)).map (undeclared r.span.text) := by
    rw [pairs_eq_neighbours, ← findSome?_neighbours hr, List.map_findSome?]
    rfl
  rw [← hfirst]
  exact isTold_foldlM hstep hd

/-- Adding rules fails at the first rule with a name that is none of a module. -/
theorem addRules_eq_error_iff {rules : List Rule} (hrules : ∀ r ∈ rules, 2 ≤ r.names.length)
    {e : Spanned DefinitionError} :
    rules.foldlM addPairsOf d = .error e
      ↔ ∃ front r back n, rules = front ++ r :: back
        ∧ (∀ q ∈ front, ∀ k ∈ q.names, k.text ∈ d.names)
        ∧ r.names.find? (·.text ∉ d.names) = some n
        ∧ e = undeclared r.span.text n := by
  have htold := isTold_foldlM (fun d' hd' r hr => isTold_addPairsOf (hrules r hr) hd')
    (rfl : d.names = d.names)
  rw [htold.eq_error_iff, List.findSome?_eq_some_iff]
  constructor
  · rintro ⟨front, r, back, hsplit, hr, hfront⟩
    obtain ⟨n, hn, rfl⟩ := Option.map_eq_some_iff.1 hr
    refine ⟨front, r, back, n, hsplit, fun q hq k hk => ?_, hn, rfl⟩
    have hnone := List.find?_eq_none.1 (Option.map_eq_none_iff.1 (hfront q hq)) k hk
    simpa using hnone
  · rintro ⟨front, r, back, n, hsplit, hfront, hn, rfl⟩
    refine ⟨front, r, back, hsplit, Option.map_eq_some_iff.2 ⟨n, hn, rfl⟩, fun q hq => ?_⟩
    refine Option.map_eq_none_iff.2 (List.find?_eq_none.2 fun k hk => ?_)
    simpa using hfront q hq k hk

/-! ## Whole specifications -/

variable {s : Specification} {e : Spanned DefinitionError}

/-- Declaring modules fails at the first definition that is not fine with those in front of it. -/
theorem declareAll_eq_error_iff :
    s.modules.foldlM declare empty = .error e
      ↔ ∃ front m back, s.modules = front ++ m :: back ∧ AreFine front
        ∧ ((∃ p, m.patterns.find? (!isGlobText ·.text) = some p
            ∧ e = .placed (.invalidModulePattern m.name.text p.text) p)
          ∨ (∀ p ∈ m.patterns, isGlobText p.text = true)
            ∧ m.name.text ∈ front.map (·.name.text)
            ∧ e = .placed (.duplicateModuleName m.name.text) m.name) := by
  rw [foldlM_eq_error_iff]
  constructor
  · rintro ⟨front, m, back, d, hsplit, hfront, hm⟩
    have hnames : d.names = front.map (·.name.text) :=
      map_name_of_map_identity (declareAll_eq_ok hfront).1
    rw [declare_eq_error_iff, hnames] at hm
    exact ⟨front, m, back, hsplit, areFine_iff.2 ⟨d, hfront, hnames⟩, hm⟩
  · rintro ⟨front, m, back, hsplit, hfine, hm⟩
    obtain ⟨d, hfront, hnames⟩ := areFine_iff.1 hfine
    refine ⟨front, m, back, d, hsplit, hfront, ?_⟩
    rwa [declare_eq_error_iff, hnames]

/-- A specification that was read is refused with what is at fault in it first. -/
theorem ofSpecification_eq_error_iff (hs : s.IsParsed) :
    ofSpecification s = .error e ↔ s.Fault e := by
  rw [ofSpecification_def, bind_eq_error_iff, declareAll_eq_error_iff]
  constructor
  · rintro (⟨front, m, back, hsplit, hfine, ⟨p, hp, rfl⟩ | ⟨hpatterns, htaken, rfl⟩⟩
      | ⟨d, hdeclared, hrules⟩)
    · exact .pattern hsplit hfine hp
    · exact .name hsplit hfine hpatterns htaken
    · have hnames : d.names = s.moduleNames :=
        map_name_of_map_identity (declareAll_eq_ok hdeclared).1
      rw [addRules_eq_error_iff hs.two_le, hnames] at hrules
      obtain ⟨front, r, back, n, hsplit, hfront, hn, rfl⟩ := hrules
      exact .reference (areFine_iff.2 ⟨d, hdeclared, hnames⟩) hsplit hfront hn
  · rintro (⟨hsplit, hfine, hp⟩ | ⟨hsplit, hfine, hpatterns, htaken⟩ | ⟨hfine, hsplit, hfront, hn⟩)
    · exact .inl ⟨_, _, _, hsplit, hfine, .inl ⟨_, hp, rfl⟩⟩
    · exact .inl ⟨_, _, _, hsplit, hfine, .inr ⟨hpatterns, htaken, rfl⟩⟩
    · obtain ⟨d, hdeclared, hnames⟩ := areFine_iff.1 hfine
      refine .inr ⟨d, hdeclared, (addRules_eq_error_iff hs.two_le).2 ?_⟩
      rw [hnames]
      exact ⟨_, _, _, _, hsplit, hfront, hn, rfl⟩

/-- A text that is read but gives no definition is refused with what is at fault in it first, and
with nothing else. What is listed first stands first in the text: each name and pattern begins and
ends in front of those behind it. The text of a rule is the slice of the source from the beginning
of its first name to the end of its last, as each name and pattern is its slice. -/
theorem ofSource_culprit {src : Source} (hs : Specification.ofSource src = .ok s) :
    ((∀ d, Definition.ofSource src ≠ .ok d) → ∃ fault,
        Definition.ofSource src = .error (.compile fault) ∧ s.Fault fault)
      ∧ (∀ fault, Definition.ofSource src = .error (.compile fault) ↔ s.Fault fault)
      ∧ s.pieces.Pairwise Span.IsBefore
      ∧ (∀ x ∈ s.pieces, x.text = src.textBetween x.start x.stop)
      ∧ ∀ r ∈ s.rules, ∃ first last, r.names.head? = some first ∧ r.names.getLast? = some last
        ∧ r.span.text = src.textBetween first.start last.stop := by
  have hsource : Definition.ofSource src = (ofSpecification s).mapError .compile := by
    rw [Definition.ofSource, hs]
    rfl
  have hparsed := Specification.isParsed_of_ofSource hs
  have hfault (fault : Spanned DefinitionError) :
      Definition.ofSource src = .error (.compile fault) ↔ s.Fault fault := by
    rw [hsource, mapError_eq_error_iff, ← ofSpecification_eq_error_iff hparsed]
    simp
  refine ⟨fun hrefused => ?_, hfault, pieces_ascend hs, fun x hx => text_piece hs hx,
    fun r hr => text_rule hs hr⟩
  cases houtcome : ofSpecification s with
  | ok d => exact absurd (hsource.trans (mapError_eq_ok_iff.2 houtcome)) (hrefused d)
  | error e =>
    rw [ofSpecification_eq_error_iff hparsed] at houtcome
    exact ⟨e, (hfault e).2 houtcome, houtcome⟩

/-- A name of no module stands twice in the first rule, behind a name of a module that stands there
twice, and another one in the second rule. -/
def culpritSample : Source :=
  ⟨"case.arch", "modules:\nA = \"a\"\nrules:\nA -> A -> X -> X\nY -> A\n"⟩

theorem ofSource_culprit_culpritSample :
    ∃ s, Specification.ofSource culpritSample = .ok s
      ∧ s.pieces.map Span.text = ["A", "a", "A", "A", "X", "X", "Y", "A"]
      ∧ s.pieces.Pairwise Span.IsBefore
      ∧ s.Fault (.placed (.undefinedModuleReference "X" "A -> A -> X -> X") ⟨4, 11, 34, 35, "X"⟩)
      ∧ Definition.ofSource culpritSample = .error (.compile
        (.placed (.undefinedModuleReference "X" "A -> A -> X -> X") ⟨4, 11, 34, 35, "X"⟩)) := by
  have hread : (Specification.ofSource culpritSample).map (·.pieces.map Span.text)
      = .ok ["A", "a", "A", "A", "X", "X", "Y", "A"] := by
    decide +kernel
  have hrefused : Definition.ofSource culpritSample = .error (.compile
      (.placed (.undefinedModuleReference "X" "A -> A -> X -> X") ⟨4, 11, 34, 35, "X"⟩)) := by
    decide +kernel
  obtain ⟨s, hs, hpieces⟩ := map_eq_ok_iff.1 hread
  obtain ⟨-, hfault, hascend, -⟩ := ofSource_culprit hs
  exact ⟨s, hs, hpieces, hascend, (hfault _).1 hrefused, hrefused⟩

end Definition

end Conformance
