import Conformance.Definition.Compile
import Conformance.Proofs.Distinct
import Conformance.Proofs.Module.Glob
import Conformance.Proofs.Module.Order
import Conformance.Proofs.Outcome
import Mathlib.Data.List.Nodup
import Mathlib.Data.Set.List

/-!
# What a specification means

A definition is told by the names and pattern texts of its modules and by the names in its rules.
A specification gives the definition that is told by the same texts, repeated rules left out
(`Definition.ofSpecification_eq_ok_iff`), and it gives one when its patterns are patterns, no two
modules have one name and every rule speaks of modules that are there
(`Definition.exists_ofSpecification_iff`).
-/

namespace Conformance

/-! ## Texts -/

/-- The texts of the definition of a module: its name and its patterns. -/
def ModuleDef.identity (d : ModuleDef) : List String :=
  d.name.text :: d.patterns.map Span.text

/-- The neighbours in a list, from the left. -/
def neighbours {α : Type} (xs : List α) : List (α × α) :=
  xs.zip xs.tail

/-- The names at both ends of a rule. -/
def ModulePair.names (p : ModulePair) : String × String :=
  (p.source.name, p.dest.name)

/-- The pairs of names that a rule speaks of: the neighbours among its names. -/
def Rule.namePairs (r : Rule) : List (String × String) :=
  neighbours (r.names.map Span.text)

/-- The names at both ends of the rules of a kind. -/
def Definition.namePairs (d : Definition) (kind : RuleKind) : List (String × String) :=
  (d.rules kind).map ModulePair.names

/-- The pairs of names that the rules of a kind speak of, rule by rule. -/
def Specification.namePairs (s : Specification) (kind : RuleKind) : List (String × String) :=
  (s.rules.filter (·.kind = kind)).flatMap Rule.namePairs

/-- The names of the modules of a specification. -/
def Specification.moduleNames (s : Specification) : List String :=
  s.modules.map (·.name.text)

/-- The pairs of a rule have the names that it speaks of. -/
theorem Rule.map_pairs (r : Rule) :
    r.pairs.map (fun p => (p.1.text, p.2.text)) = r.namePairs := by
  cases r with
  | chain span modules =>
    show (modules.zip modules.tail).map (Prod.map Span.text Span.text) = _
    rw [← List.zip_map, List.map_tail]
    rfl
  | noDependency span source dest => rfl

/-- Texts are the patterns of some module when each may be a pattern. -/
theorem Module.exists_identity_iff {name : String} {ps : List String} :
    (∃ m : Module, m.identity = name :: ps) ↔ ∀ p ∈ ps, isGlobText p = true := by
  constructor
  · intro hsome p hp
    obtain ⟨m, hm⟩ := hsome
    obtain ⟨-, rfl⟩ := List.cons.inj hm
    obtain ⟨g, -, rfl⟩ := List.mem_map.1 hp
    exact g.isGlobText_text
  · intro hall
    have hrange : ps ∈ Set.range (List.map Glob.text) := by
      rw [Set.range_list_map]
      exact fun p hp => ⟨⟨p, hall p hp⟩, rfl⟩
    obtain ⟨gs, rfl⟩ := hrange
    exact ⟨⟨name, gs⟩, rfl⟩

/-- A module is made of a name and texts if these are its name and its patterns. -/
theorem Module.ofPatterns_eq_ok_iff {name : String} {ps : List String} {m : Module} :
    Module.ofPatterns name ps = .ok m ↔ m.identity = name :: ps := by
  induction ps generalizing m with
  | nil =>
    rw [Module.ofPatterns, Except.ok.injEq]
    constructor
    · rintro rfl
      rfl
    · intro h
      exact Module.identity_injective h.symm
  | cons p ps ih =>
    rw [Module.ofPatterns]
    split
    · -- the first text may be a pattern, or it is what the module is refused for
      rename_i hnone
      constructor
      · intro h
        cases h
      · intro h
        have hglob := Module.exists_identity_iff.1 ⟨m, h⟩ p List.mem_cons_self
        have hsome : Glob.ofString? p = some ⟨p, hglob⟩ := Glob.ofString?_eq_some_iff.2 rfl
        cases hnone.symm.trans hsome
    · rename_i g hsome
      obtain rfl := Glob.ofString?_eq_some_iff.1 hsome
      rw [map_eq_ok_iff]
      constructor
      · intro h
        obtain ⟨m', hm', rfl⟩ := h
        obtain ⟨-, hps⟩ := List.cons.inj (ih.1 hm')
        rw [← hps]
        rfl
      · intro h
        obtain ⟨name', patterns⟩ := m
        obtain ⟨rfl, hpatterns⟩ := List.cons.inj h
        obtain ⟨g', gs, rfl, hg', hgs⟩ := List.map_eq_cons_iff.1 hpatterns
        obtain rfl := Glob.text_injective hg'
        exact ⟨⟨name', gs⟩, ih.2 (congrArg _ hgs), rfl⟩

/-- The definition of a module gives the module of its texts. -/
theorem ModuleDef.toModule_eq_ok_iff {d : ModuleDef} {m : Module} :
    d.toModule = .ok m ↔ m.identity = d.identity := by
  rw [ModuleDef.toModule, mapError_eq_ok_iff, Module.ofPatterns_eq_ok_iff]
  rfl

namespace Definition

variable {d d' : Definition}

/-! ## Texts tell a definition -/

theorem ext_rules (hmodules : d.modules = d'.modules) (hrules : ∀ k, d.rules k = d'.rules k) :
    d = d' := by
  obtain ⟨modules, dependencies, noDependencies, _, _, _, _, _⟩ := d
  obtain ⟨modules', dependencies', noDependencies', _, _, _, _, _⟩ := d'
  obtain rfl : modules = modules' := hmodules
  obtain rfl : dependencies = dependencies' := hrules .dependency
  obtain rfl : noDependencies = noDependencies' := hrules .noDependency
  rfl

theorem rules_declared (d : Definition) (kind : RuleKind) :
    ∀ p ∈ d.rules kind, p.source ∈ d.modules ∧ p.dest ∈ d.modules := by
  cases kind with
  | dependency => exact d.dependencies_declared
  | noDependency => exact d.noDependencies_declared

theorem rules_nodup (d : Definition) (kind : RuleKind) : (d.rules kind).Nodup := by
  cases kind with
  | dependency => exact d.dependencies_nodup
  | noDependency => exact d.noDependencies_nodup

/-- Declared modules are told by their names. -/
theorem eq_of_name {m m' : Module} (hm : m ∈ d.modules) (hm' : m' ∈ d.modules)
    (h : m.name = m'.name) : m = m' :=
  List.inj_on_of_nodup_map d.names_nodup hm hm' h

/-- Declared modules are told by their names, and so are pairs of them. -/
theorem eq_of_names {p q : ModulePair} (hp : p.source ∈ d.modules ∧ p.dest ∈ d.modules)
    (hq : q.source ∈ d.modules ∧ q.dest ∈ d.modules) (h : p.names = q.names) : p = q := by
  obtain ⟨source, dest⟩ := p
  obtain ⟨source', dest'⟩ := q
  obtain ⟨hsource, hdest⟩ := Prod.mk.inj h
  obtain rfl := eq_of_name hp.1 hq.1 hsource
  obtain rfl := eq_of_name hp.2 hq.2 hdest
  rfl

/-- Rules between declared modules are told by their names, all of them in order. -/
theorem eq_of_map_names {ps qs : List ModulePair}
    (hps : ∀ p ∈ ps, p.source ∈ d.modules ∧ p.dest ∈ d.modules)
    (hqs : ∀ q ∈ qs, q.source ∈ d.modules ∧ q.dest ∈ d.modules)
    (h : ps.map ModulePair.names = qs.map ModulePair.names) : ps = qs := by
  induction ps generalizing qs with
  | nil => exact (List.map_eq_nil_iff.1 h.symm).symm
  | cons p ps ih =>
    obtain ⟨q, qs, rfl, hq, hrest⟩ := List.map_eq_cons_iff.1 h.symm
    obtain ⟨hp, hps⟩ := List.forall_mem_cons.1 hps
    obtain ⟨hq', hqs⟩ := List.forall_mem_cons.1 hqs
    rw [eq_of_names hp hq' hq.symm, ih hps hqs hrest.symm]

/-- Texts of modules and names in rules tell a definition. -/
theorem ext_texts (hmodules : d.modules.map Module.identity = d'.modules.map Module.identity)
    (hrules : ∀ k, d.namePairs k = d'.namePairs k) : d = d' := by
  have hsame : d.modules = d'.modules :=
    List.map_injective_iff.2 Module.identity_injective hmodules
  refine ext_rules hsame fun k => eq_of_map_names (d.rules_declared k) ?_ (hrules k)
  rw [hsame]
  exact d'.rules_declared k

/-- No two rules of a kind have the same names. -/
theorem namePairs_nodup (d : Definition) (kind : RuleKind) : (d.namePairs kind).Nodup := by
  refine (d.rules_nodup kind).map_on fun p hp q hq h => ?_
  exact eq_of_names (d.rules_declared kind p hp) (d.rules_declared kind q hq) h

/-! ## Modules one by one -/

/-- The module of a name is the declared one that has it. -/
theorem module?_eq_some_iff {name : String} {m : Module} :
    d.module? name = some m ↔ m ∈ d.modules ∧ m.name = name := by
  constructor
  · intro h
    exact ⟨mem_modules_of_module? h, by simpa using List.find?_some h⟩
  · intro h
    obtain ⟨hm, rfl⟩ := h
    cases hfound : d.module? m.name with
    | none => exact absurd (List.mem_map_of_mem hm) (module?_eq_none_iff.1 hfound)
    | some m' =>
      have hname : m'.name = m.name := by simpa using List.find?_some hfound
      rw [eq_of_name (mem_modules_of_module? hfound) hm hname]

/-- A module is declared if its name is free. -/
theorem addModule_eq_ok_iff {m : Module} :
    d.addModule m = .ok d' ↔ ∃ h, d' = d.declareNew m h := by
  unfold addModule
  split
  · rename_i hfound
    constructor
    · intro h
      cases h
    · intro h
      obtain ⟨hfree, -⟩ := h
      cases hfound.symm.trans hfree
  · rename_i hfree
    rw [Except.ok.injEq]
    exact ⟨fun h => ⟨hfree, h.symm⟩, fun ⟨_, h⟩ => h.symm⟩

/-- A definition of a module is taken if its texts make a module and its name is free. -/
theorem declare_eq_ok_iff {m : ModuleDef} :
    d.declare m = .ok d' ↔ ∃ module h, module.identity = m.identity
      ∧ d' = d.declareNew module h := by
  unfold declare
  simp only [bind_eq_ok_iff, ModuleDef.toModule_eq_ok_iff, mapError_eq_ok_iff,
    addModule_eq_ok_iff]
  constructor
  · intro hsome
    obtain ⟨module, hmodule, h, rfl⟩ := hsome
    exact ⟨module, h, hmodule, rfl⟩
  · intro hsome
    obtain ⟨module, h, hmodule, rfl⟩ := hsome
    exact ⟨module, hmodule, h, rfl⟩

theorem map_name_of_map_identity {ms : List ModuleDef}
    (h : d.modules.map Module.identity = ms.map ModuleDef.identity) :
    d.modules.map Module.name = ms.map (·.name.text) := by
  have hheads := congrArg (List.map fun texts => texts.headD "") h
  rwa [List.map_map, List.map_map] at hheads

@[simp]
theorem rules_declareNew (d : Definition) (m : Module) (h : d.module? m.name = none)
    (kind : RuleKind) : (d.declareNew m h).rules kind = d.rules kind := by
  cases kind with
  | dependency => rfl
  | noDependency => rfl

/-- Modules are declared behind those that are there, and no rule is touched. -/
theorem declareAll_eq_ok {ms : List ModuleDef} (h : ms.foldlM declare d = .ok d') :
    d'.modules.map Module.identity = d.modules.map Module.identity ++ ms.map ModuleDef.identity
      ∧ ∀ k, d'.rules k = d.rules k := by
  induction ms generalizing d with
  | nil =>
    obtain rfl := Except.ok.inj h
    exact ⟨(List.append_nil _).symm, fun _ => rfl⟩
  | cons m ms ih =>
    obtain ⟨e, he, hrest⟩ := foldlM_cons_eq_ok_iff.1 h
    obtain ⟨module, hfree, hmodule, rfl⟩ := declare_eq_ok_iff.1 he
    obtain ⟨hmodules, hrules⟩ := ih hrest
    refine ⟨?_, fun k => by rw [hrules k, rules_declareNew]⟩
    rw [hmodules]
    simp [declareNew, hmodule]

/-- Modules with patterns that may be patterns and with new names can all be declared. -/
theorem exists_declareAll {ms : List ModuleDef}
    (hpatterns : ∀ m ∈ ms, ∀ p ∈ m.patterns, isGlobText p.text = true)
    (hnames : (d.modules.map Module.name ++ ms.map (·.name.text)).Nodup) :
    ∃ d', ms.foldlM declare d = .ok d' := by
  induction ms generalizing d with
  | nil => exact ⟨d, rfl⟩
  | cons m ms ih =>
    obtain ⟨hm, hms⟩ := List.forall_mem_cons.1 hpatterns
    obtain ⟨module, hmodule⟩ : ∃ module : Module, module.identity = m.identity :=
      Module.exists_identity_iff.2 (by simpa using hm)
    have hname : module.name = m.name.text := (List.cons.inj hmodule).1
    have hfree : d.module? module.name = none := by
      rw [module?_eq_none_iff, hname]
      intro hmem
      exact (List.nodup_append.1 hnames).2.2 _ hmem _ List.mem_cons_self rfl
    have hdeclare : d.declare m = .ok (d.declareNew module hfree) :=
      declare_eq_ok_iff.2 ⟨module, hfree, hmodule, rfl⟩
    have hnames' : ((d.declareNew module hfree).modules.map Module.name
        ++ ms.map (·.name.text)).Nodup := by
      simpa [declareNew, hname] using hnames
    obtain ⟨d', hd'⟩ := ih hms hnames'
    exact ⟨d', foldlM_cons_eq_ok_iff.2 ⟨_, hdeclare, hd'⟩⟩

/-! ## Rules pair by pair -/

/-- A name stands for the declared module that has it. -/
theorem resolve_eq_ok_iff {rule name : String} {m : { m : Module // m ∈ d.modules }} :
    d.resolve rule name = .ok m ↔ m.val.name = name := by
  unfold resolve
  split
  · rename_i m' hfound
    obtain ⟨hmem, rfl⟩ := module?_eq_some_iff.1 hfound
    rw [Except.ok.injEq]
    constructor
    · rintro rfl
      rfl
    · intro h
      exact Subtype.ext (eq_of_name hmem m.property h.symm)
  · rename_i hnone
    constructor
    · intro h
      cases h
    · rintro rfl
      exact absurd (List.mem_map_of_mem m.property) (module?_eq_none_iff.1 hnone)

/-- A pair of a rule is taken if both its names stand for declared modules. -/
theorem addPair_eq_ok_iff {r : Rule} {pair : Span × Span} :
    addPair r d pair = .ok d' ↔ ∃ p h, p.names = (pair.1.text, pair.2.text)
      ∧ d' = d.insertRule r.kind p h := by
  unfold addPair addRule
  simp only [mapError_eq_ok_iff, bind_eq_ok_iff, resolve_eq_ok_iff]
  constructor
  · intro hsome
    obtain ⟨source, hsource, dest, hdest, hrule⟩ := hsome
    exact ⟨⟨source, dest⟩, ⟨source.property, dest.property⟩, Prod.ext hsource hdest,
      (Except.ok.inj hrule).symm⟩
  · intro hsome
    obtain ⟨p, h, hnames, rfl⟩ := hsome
    obtain ⟨hsource, hdest⟩ := Prod.mk.inj hnames
    exact ⟨⟨p.source, h.1⟩, hsource, ⟨p.dest, h.2⟩, hdest, rfl⟩

section
variable {kind : RuleKind} {p : ModulePair} {h : p.source ∈ d.modules ∧ p.dest ∈ d.modules}

@[simp]
theorem modules_insertRule : (d.insertRule kind p h).modules = d.modules := by
  cases kind with
  | dependency => rfl
  | noDependency => rfl

theorem rules_insertRule : (d.insertRule kind p h).rules kind = insertNew (d.rules kind) p := by
  cases kind with
  | dependency => rfl
  | noDependency => rfl

/-- A rule is added by its names. -/
theorem namePairs_insertRule :
    (d.insertRule kind p h).namePairs kind = insertNew (d.namePairs kind) p.names := by
  -- a rule is new when its names are, since they tell its modules
  have hmem : p.names ∈ d.namePairs kind ↔ p ∈ d.rules kind := by
    constructor
    · intro hnames
      obtain ⟨q, hq, hsame⟩ := List.mem_map.1 hnames
      rwa [← eq_of_names (d.rules_declared kind q hq) h hsame]
    · exact List.mem_map_of_mem
  rw [namePairs, rules_insertRule, insertNew, insertNew]
  by_cases hp : p ∈ d.rules kind
  · rw [if_pos hp, if_pos (hmem.2 hp)]
    rfl
  · rw [if_neg hp, if_neg fun hnames => hp (hmem.1 hnames), List.map_append]
    rfl

theorem namePairs_insertRule_of_ne {other : RuleKind} (hother : other ≠ kind) :
    (d.insertRule kind p h).namePairs other = d.namePairs other := by
  cases kind with
  | dependency =>
    cases other with
    | dependency => exact absurd rfl hother
    | noDependency => rfl
  | noDependency =>
    cases other with
    | dependency => rfl
    | noDependency => exact absurd rfl hother

end

/-- The pairs of a rule are added to its kind in order, unless they are there. -/
theorem addPairs_eq_ok {r : Rule} {pairs : List (Span × Span)}
    (h : pairs.foldlM (addPair r) d = .ok d') :
    d'.modules = d.modules
      ∧ d'.namePairs r.kind
        = (pairs.map fun p => (p.1.text, p.2.text)).foldl insertNew (d.namePairs r.kind)
      ∧ ∀ k ≠ r.kind, d'.namePairs k = d.namePairs k := by
  induction pairs generalizing d with
  | nil =>
    obtain rfl := Except.ok.inj h
    exact ⟨rfl, rfl, fun _ _ => rfl⟩
  | cons pair pairs ih =>
    obtain ⟨e, he, hrest⟩ := foldlM_cons_eq_ok_iff.1 h
    obtain ⟨p, hp, hnames, rfl⟩ := addPair_eq_ok_iff.1 he
    obtain ⟨hmodules, hsame, hothers⟩ := ih hrest
    refine ⟨?_, ?_, fun k hk => ?_⟩
    · rw [hmodules, modules_insertRule]
    · rw [hsame, namePairs_insertRule, hnames]
      rfl
    · rw [hothers k hk, namePairs_insertRule_of_ne hk]

/-- Adds all pairs of a rule. -/
def addPairsOf (d : Definition) (r : Rule) : Except (Spanned DefinitionError) Definition :=
  r.pairs.foldlM (addPair r) d

/-- The pairs of all rules are added to their kinds in order, unless they are there. -/
theorem addRules_eq_ok {rules : List Rule} (h : rules.foldlM addPairsOf d = .ok d') :
    d'.modules = d.modules
      ∧ ∀ k, d'.namePairs k = ((rules.filter (·.kind = k)).flatMap Rule.namePairs).foldl insertNew
        (d.namePairs k) := by
  induction rules generalizing d with
  | nil =>
    obtain rfl := Except.ok.inj h
    exact ⟨rfl, fun _ => rfl⟩
  | cons r rules ih =>
    obtain ⟨e, he, hrest⟩ := foldlM_cons_eq_ok_iff.1 h
    obtain ⟨hmodules, hsame, hothers⟩ := addPairs_eq_ok he
    obtain ⟨hmodules', hrules⟩ := ih hrest
    refine ⟨hmodules'.trans hmodules, fun k => ?_⟩
    rw [hrules k]
    -- the first rule adds to its own kind only
    by_cases hk : r.kind = k
    · subst hk
      rw [List.filter_cons_of_pos (by simp), List.flatMap_cons, List.foldl_append, hsame,
        Rule.map_pairs]
    · rw [List.filter_cons_of_neg (by simpa using hk), hothers k (Ne.symm hk)]

/-- Rules on names that are declared can all be added. -/
theorem exists_addRules {rules : List Rule}
    (hnames : ∀ r ∈ rules, ∀ p ∈ r.namePairs,
      p.1 ∈ d.modules.map Module.name ∧ p.2 ∈ d.modules.map Module.name) :
    ∃ d', rules.foldlM addPairsOf d = .ok d' := by
  -- on the way the modules stay those that the names are looked up in
  have hrule (e : Definition) (he : e.modules = d.modules) (r : Rule) (hr : r ∈ rules) :
      ∃ e', addPairsOf e r = .ok e' ∧ e'.modules = d.modules := by
    refine exists_foldlM (fun e he pair hpair => ?_) he
    have hpair' : (pair.1.text, pair.2.text) ∈ r.namePairs := by
      rw [← Rule.map_pairs]
      exact List.mem_map.2 ⟨pair, hpair, rfl⟩
    obtain ⟨hsource, hdest⟩ := hnames r hr _ hpair'
    obtain ⟨source, hsource, hsourceName⟩ := List.mem_map.1 hsource
    obtain ⟨dest, hdest, hdestName⟩ := List.mem_map.1 hdest
    rw [← he] at hsource hdest
    have hends : ModulePair.names ⟨source, dest⟩ = (pair.1.text, pair.2.text) :=
      Prod.ext hsourceName hdestName
    refine ⟨e.insertRule r.kind ⟨source, dest⟩ ⟨hsource, hdest⟩, ?_, ?_⟩
    · exact addPair_eq_ok_iff.2 ⟨_, _, hends, rfl⟩
    · rw [modules_insertRule, he]
  obtain ⟨d', hd', -⟩ := exists_foldlM hrule rfl
  exact ⟨d', hd'⟩

/-! ## Whole specifications -/

variable {s : Specification}

theorem ofSpecification_def (s : Specification) :
    ofSpecification s = s.modules.foldlM declare empty >>= s.rules.foldlM addPairsOf := rfl

/-- What a specification gives is told by its texts. -/
theorem ofSpecification_eq_ok (h : ofSpecification s = .ok d) :
    d.modules.map Module.identity = s.modules.map ModuleDef.identity
      ∧ ∀ k, d.namePairs k = (s.namePairs k).eraseDups := by
  rw [ofSpecification_def] at h
  obtain ⟨declared, hdeclared, hadded⟩ := bind_eq_ok_iff.1 h
  obtain ⟨hmodules, hempty⟩ := declareAll_eq_ok hdeclared
  obtain ⟨hkept, hrules⟩ := addRules_eq_ok hadded
  refine ⟨?_, fun k => ?_⟩
  · rw [hkept, hmodules]
    rfl
  · have hnone : declared.namePairs k = [] := by
      rw [namePairs, hempty k]
      cases k with
      | dependency => rfl
      | noDependency => rfl
    rw [hrules k, hnone, ← distinct_eq_eraseDups]
    rfl

/-- Texts that tell a definition meet what is asked of a specification. -/
theorem conditions_of_texts
    (hmodules : d.modules.map Module.identity = s.modules.map ModuleDef.identity)
    (hrules : ∀ k, d.namePairs k = (s.namePairs k).eraseDups) :
    (∀ m ∈ s.modules, ∀ p ∈ m.patterns, isGlobText p.text = true) ∧ s.moduleNames.Nodup
      ∧ ∀ r ∈ s.rules, ∀ p ∈ r.namePairs, p.1 ∈ s.moduleNames ∧ p.2 ∈ s.moduleNames := by
  have hnames : d.modules.map Module.name = s.moduleNames := map_name_of_map_identity hmodules
  refine ⟨fun m hm p hp => ?_, ?_, fun r hr p hp => ?_⟩
  · have hidentity : m.identity ∈ d.modules.map Module.identity := by
      rw [hmodules]
      exact List.mem_map_of_mem hm
    obtain ⟨module, -, hmodule⟩ := List.mem_map.1 hidentity
    exact Module.exists_identity_iff.1 ⟨module, hmodule⟩ _ (List.mem_map_of_mem hp)
  · rw [← hnames]
    exact d.names_nodup
  · have hpair : p ∈ d.namePairs r.kind := by
      rw [hrules r.kind, ← distinct_eq_eraseDups, mem_distinct]
      exact List.mem_flatMap.2 ⟨r, List.mem_filter.2 ⟨hr, by simp⟩, hp⟩
    obtain ⟨q, hq, rfl⟩ := List.mem_map.1 hpair
    obtain ⟨hsource, hdest⟩ := d.rules_declared r.kind q hq
    rw [← hnames]
    exact ⟨List.mem_map_of_mem hsource, List.mem_map_of_mem hdest⟩

/-- When a specification gives a definition: its patterns are patterns, its modules have names of
their own and its rules speak of them. -/
theorem exists_ofSpecification_iff :
    (∃ d, ofSpecification s = .ok d)
      ↔ (∀ m ∈ s.modules, ∀ p ∈ m.patterns, isGlobText p.text = true) ∧ s.moduleNames.Nodup
        ∧ ∀ r ∈ s.rules, ∀ p ∈ r.namePairs, p.1 ∈ s.moduleNames ∧ p.2 ∈ s.moduleNames := by
  constructor
  · intro hsome
    obtain ⟨d, hd⟩ := hsome
    obtain ⟨hmodules, hrules⟩ := ofSpecification_eq_ok hd
    exact conditions_of_texts hmodules hrules
  · intro h
    obtain ⟨hpatterns, hnodup, hnames⟩ := h
    obtain ⟨declared, hdeclared⟩ : ∃ d, s.modules.foldlM declare empty = .ok d :=
      exists_declareAll hpatterns hnodup
    have hdeclaredNames : declared.modules.map Module.name = s.moduleNames :=
      map_name_of_map_identity (declareAll_eq_ok hdeclared).1
    rw [← hdeclaredNames] at hnames
    obtain ⟨d, hd⟩ := exists_addRules hnames
    exact ⟨d, bind_eq_ok_iff.2 ⟨declared, hdeclared, hd⟩⟩

/-- The definition of a specification is the one that is told by the same texts, each rule taken
once. -/
theorem ofSpecification_eq_ok_iff :
    ofSpecification s = .ok d ↔ d.modules.map Module.identity = s.modules.map ModuleDef.identity
      ∧ ∀ k, d.namePairs k = (s.namePairs k).eraseDups := by
  refine ⟨ofSpecification_eq_ok, fun h => ?_⟩
  obtain ⟨hmodules, hrules⟩ := h
  have hsome : ∃ d', ofSpecification s = .ok d' :=
    exists_ofSpecification_iff.2 (conditions_of_texts hmodules hrules)
  obtain ⟨d', hd'⟩ := hsome
  obtain ⟨hmodules', hrules'⟩ := ofSpecification_eq_ok hd'
  rw [hd', ext_texts (hmodules'.trans hmodules.symm) fun k => (hrules' k).trans (hrules k).symm]

end Definition

end Conformance
