import Conformance.Specification.Grammar
import Conformance.Specification.Parser
import Mathlib.Tactic.SplitIfs

/-!
# Recognising specifications token by token

A `Reading` is what has been made of the tokens so far: the phase of the grammar that they end in,
and the modules and rules that they have said. One token brings a reading to the next one
(`Reading.step`) or cannot stand there. The lists of tokens that bring the first reading to the end
are just the sentences of the grammar, and the reading has then collected what they say
(`sentence_iff_run`).
-/

namespace Conformance.Grammar

instance (text : String) (t : Token) : Decidable (IsSymbol text t) :=
  inferInstanceAs (Decidable (_ ∧ _))

instance (text : String) (t : Token) : Decidable (IsKeyword text t) :=
  inferInstanceAs (Decidable (_ ∧ _))

/-- The letters of `Char.isAlpha` are the Latin ones without accents, in both cases. -/
theorem isAlpha_iff {c : Char} : c.isAlpha = true ↔ IsLetter c := by
  have hlower : c.isLower = true ↔ 'a' ≤ c ∧ c ≤ 'z' := by
    have hdef : c.isLower = (decide ('a' ≤ c) && decide (c ≤ 'z')) := rfl
    rw [hdef, Bool.and_eq_true, decide_eq_true_eq, decide_eq_true_eq]
  have hupper : c.isUpper = true ↔ 'A' ≤ c ∧ c ≤ 'Z' := decide_eq_true_iff
  have hdef : c.isAlpha = (c.isUpper || c.isLower) := rfl
  rw [hdef, Bool.or_eq_true, hlower, hupper, or_comm, IsLetter]

theorem isDigit_iff {c : Char} : c.isDigit = true ↔ IsDigit c := by
  have hdef : c.isDigit = (decide ('0' ≤ c) && decide (c ≤ '9')) := rfl
  rw [hdef, Bool.and_eq_true, decide_eq_true_eq, decide_eq_true_eq, IsDigit]

/-- An identifier begins with a letter or an underscore. -/
theorem beginsIdentifier_iff {c : Char} :
    Parser.beginsIdentifier c = true ↔ IsLetter c ∨ c = '_' := by
  rw [Parser.beginsIdentifier, Bool.or_eq_true, decide_eq_true_eq, isAlpha_iff]

/-- Behind its first character, an identifier may have digits too. -/
theorem continuesIdentifier_iff {c : Char} :
    Parser.continuesIdentifier c = true ↔ IsLetter c ∨ IsDigit c ∨ c = '_' := by
  have hdef : c.isAlphanum = (c.isAlpha || c.isDigit) := rfl
  rw [Parser.continuesIdentifier, hdef, Bool.or_eq_true, Bool.or_eq_true, decide_eq_true_eq,
    isAlpha_iff, isDigit_iff, or_assoc]

/-- The parser takes just the identifiers for identifiers. -/
theorem isIdentifier_iff {text : String} :
    Parser.isIdentifier text = true ↔ IsIdentifier text := by
  unfold Parser.isIdentifier IsIdentifier
  split
  · -- no text that is empty is an identifier
    next h => simp [h]
  · next c cs h =>
    simp only [h, Bool.and_eq_true, List.all_eq_true, beginsIdentifier_iff, continuesIdentifier_iff]
    constructor
    · rintro ⟨hc, hcs⟩
      exact ⟨c, cs, rfl, hc, hcs⟩
    · rintro ⟨d, ds, heq, hd, hds⟩
      obtain ⟨rfl, rfl⟩ := List.cons.inj heq
      exact ⟨hd, hds⟩

/-- A name is what the parser takes for an identifier and for no keyword. -/
theorem isName_iff {t : Token} :
    IsName t ↔ t.kind = .glob ∧ Parser.isIdentifier t.text = true
      ∧ Parser.isKeyword t.text = false := by
  have hkeyword : Parser.isKeyword t.text = false ↔ t.text ≠ "modules" ∧ t.text ≠ "rules" := by
    rw [Parser.isKeyword, Bool.or_eq_false_iff, decide_eq_false_iff_not, decide_eq_false_iff_not]
    rfl
  rw [hkeyword, isIdentifier_iff, IsName]

instance (t : Token) : Decidable (IsName t) :=
  decidable_of_iff _ isName_iff.symm

instance (t : Token) : Decidable (IsNewline t) :=
  inferInstanceAs (Decidable (_ = _))

theorem IsSymbol.not_isNewline {text : String} {t : Token} (h : IsSymbol text t) :
    ¬ IsNewline t := fun hn =>
  absurd (h.1.symm.trans hn) (by decide)

/-- Where in the grammar a list of tokens ends. -/
inductive Phase where
  /-- In front of the first keyword. -/
  | lead
  | modulesColon
  | modulesEnd
  /-- Between the lines of modules. -/
  | moduleLines
  | moduleName (name : Span)
  /-- A pattern has to follow those read. -/
  | patternDue (name : Span) (patterns : List Span)
  | patterns (name : Span) (patterns : List Span)
  | rulesColon
  | rulesEnd
  /-- Between the lines of rules. -/
  | ruleLines
  | ruleName (name : Span)
  /-- A name has to follow those read. -/
  | nameDue (kind : RuleKind) (names : List Span)
  | names (kind : RuleKind) (names : List Span)
  /-- Behind the end of the text. -/
  | done
deriving DecidableEq

/-- What has been made of a list of tokens. -/
structure Reading where
  phase : Phase
  /-- The modules on complete lines. -/
  modules : List (Span × List Span)
  /-- The rules on complete lines. -/
  rules : List (RuleKind × List Span)
deriving DecidableEq

namespace Reading

/-- The reading of no tokens. -/
def start : Reading := ⟨.lead, [], []⟩

/-- The same lines, in another phase. -/
def inPhase (r : Reading) (phase : Phase) : Reading := { r with phase := phase }

/-- Takes in a token, if it can stand there. -/
def step (r : Reading) (t : Token) : Option Reading :=
  match r.phase with
  | .lead =>
    if IsNewline t then some r
    else if IsKeyword "modules" t then some (r.inPhase .modulesColon)
    else none
  | .modulesColon => if IsSymbol ":" t then some (r.inPhase .modulesEnd) else none
  | .modulesEnd => if IsNewline t then some (r.inPhase .moduleLines) else none
  | .moduleLines =>
    if IsNewline t then some r
    else if IsKeyword "rules" t then some (r.inPhase .rulesColon)
    else if IsName t then some (r.inPhase (.moduleName t.span))
    else none
  | .moduleName n => if IsSymbol "=" t then some (r.inPhase (.patternDue n [])) else none
  | .patternDue n ps =>
    if t.kind = .string then some (r.inPhase (.patterns n (ps ++ [t.span]))) else none
  | .patterns n ps =>
    if IsNewline t then some ⟨.moduleLines, r.modules ++ [(n, ps)], r.rules⟩
    else if IsSymbol "," t then some (r.inPhase (.patternDue n ps))
    else none
  | .rulesColon => if IsSymbol ":" t then some (r.inPhase .rulesEnd) else none
  | .rulesEnd => if IsNewline t then some (r.inPhase .ruleLines) else none
  | .ruleLines =>
    if IsNewline t then some r
    else if t.kind = .eof then some (r.inPhase .done)
    else if IsName t then some (r.inPhase (.ruleName t.span))
    else none
  | .ruleName n =>
    if IsSymbol "->" t then some (r.inPhase (.nameDue .dependency [n]))
    else if IsSymbol "-/->" t then some (r.inPhase (.nameDue .noDependency [n]))
    else none
  | .nameDue k ns => if IsName t then some (r.inPhase (.names k (ns ++ [t.span]))) else none
  | .names k ns =>
    if IsNewline t then some ⟨.ruleLines, r.modules, r.rules ++ [(k, ns)]⟩
    else if k = .dependency ∧ IsSymbol "->" t then some (r.inPhase (.nameDue k ns))
    else none
  | .done => none

/-- Takes in several tokens in order. -/
def run (r : Reading) : List Token → Option Reading
  | [] => some r
  | t :: ts => (r.step t).bind fun s => s.run ts

/-- Tokens are taken in part by part. -/
theorem run_append (r : Reading) (ts us : List Token) :
    r.run (ts ++ us) = (r.run ts).bind fun s => s.run us := by
  induction ts generalizing r with
  | nil => rfl
  | cons t ts ih =>
    rw [List.cons_append, run, run, Option.bind_assoc]
    congr 1
    funext s
    exact ih s

theorem run_cons_of_step {r s : Reading} {t : Token} (h : r.step t = some s) (ts : List Token) :
    r.run (t :: ts) = s.run ts := by
  rw [run, h, Option.bind_some]

theorem run_append_of_run {r s : Reading} {ts : List Token} (h : r.run ts = some s)
    (us : List Token) : r.run (ts ++ us) = s.run us := by
  rw [run_append, h, Option.bind_some]

end Reading

/-! ## Sentences are recognised -/

namespace Reading

variable {r s : Reading} {ts : List Token}

/-- Line ends that change nothing one by one change nothing together. -/
theorem run_newlines (h : ∀ t, IsNewline t → r.step t = some r) (hts : ∀ t ∈ ts, IsNewline t) :
    r.run ts = some r := by
  induction ts with
  | nil => rfl
  | cons t ts ih =>
    rw [run_cons_of_step (h t (hts t List.mem_cons_self))]
    exact ih fun u hu => hts u (List.mem_cons_of_mem t hu)

/-- The first of several line ends makes the step that they all make. -/
theorem run_lineEnds (hfirst : ∀ t, IsNewline t → r.step t = some s)
    (hmore : ∀ t, IsNewline t → s.step t = some s) (hts : LineEnds ts) : r.run ts = some s := by
  obtain ⟨hne, hall⟩ := hts
  cases ts with
  | nil => exact absurd rfl hne
  | cons t ts =>
    rw [run_cons_of_step (hfirst t (hall t List.mem_cons_self))]
    exact run_newlines hmore fun u hu => hall u (List.mem_cons_of_mem t hu)

/-- Blank lines between the modules change nothing. -/
theorem step_moduleLines_newline (ms : List (Span × List Span)) (rs : List (RuleKind × List Span))
    (t : Token) (h : IsNewline t) :
    step ⟨.moduleLines, ms, rs⟩ t = some ⟨.moduleLines, ms, rs⟩ := by
  simp only [step, if_pos h]

/-- Blank lines between the rules change nothing. -/
theorem step_ruleLines_newline (ms : List (Span × List Span)) (rs : List (RuleKind × List Span))
    (t : Token) (h : IsNewline t) :
    step ⟨.ruleLines, ms, rs⟩ t = some ⟨.ruleLines, ms, rs⟩ := by
  simp only [step, if_pos h]

variable {ms : List (Span × List Span)} {rs : List (RuleKind × List Span)}

/-- The patterns of a module are taken in behind those that were read before. -/
theorem run_patterns {ps : List Span} (h : Patterns ts ps) (n : Span) (read : List Span) :
    run ⟨.patternDue n read, ms, rs⟩ ts = some ⟨.patterns n (read ++ ps), ms, rs⟩ := by
  induction h generalizing read with
  -- on the last pattern, or on a pattern, a comma and the rest
  | one hp => simp [run, step, hp, inPhase]
  | more hp hcomma _ ih =>
    rename_i p comma ts ps _
    have hfirst : step ⟨.patternDue n read, ms, rs⟩ p
        = some ⟨.patterns n (read ++ [p.span]), ms, rs⟩ := if_pos hp
    have hsecond : step ⟨.patterns n (read ++ [p.span]), ms, rs⟩ comma
        = some ⟨.patternDue n (read ++ [p.span]), ms, rs⟩ := by
      simp [step, IsNewline, hcomma.1, hcomma, inPhase]
    rw [run_cons_of_step hfirst, run_cons_of_step hsecond, ih, List.append_assoc]
    rfl

/-- The names of a chain are taken in behind those that were read before. -/
theorem run_names {ns : List Span} (h : Names ts ns) (read : List Span) :
    run ⟨.nameDue .dependency read, ms, rs⟩ ts
      = some ⟨.names .dependency (read ++ ns), ms, rs⟩ := by
  induction h generalizing read with
  | one hn => simp [run, step, hn, inPhase]
  | more hn harrow _ ih =>
    rename_i n arrow ts ns _
    have hfirst : step ⟨.nameDue .dependency read, ms, rs⟩ n
        = some ⟨.names .dependency (read ++ [n.span]), ms, rs⟩ := if_pos hn
    have hsecond : step ⟨.names .dependency (read ++ [n.span]), ms, rs⟩ arrow
        = some ⟨.nameDue .dependency (read ++ [n.span]), ms, rs⟩ := by
      simp [step, IsNewline, harrow.1, harrow, inPhase]
    rw [run_cons_of_step hfirst, run_cons_of_step hsecond, ih, List.append_assoc]
    rfl

/-- The line ends behind the patterns complete the module. -/
theorem run_patterns_lineEnds (h : LineEnds ts) (n : Span) (ps : List Span) :
    run ⟨.patterns n ps, ms, rs⟩ ts = some ⟨.moduleLines, ms ++ [(n, ps)], rs⟩ :=
  run_lineEnds (fun _ ht => if_pos ht) (step_moduleLines_newline _ _) h

/-- The line ends behind the names complete the rule. -/
theorem run_names_lineEnds (h : LineEnds ts) (k : RuleKind) (ns : List Span) :
    run ⟨.names k ns, ms, rs⟩ ts = some ⟨.ruleLines, ms, rs ++ [(k, ns)]⟩ :=
  run_lineEnds (fun _ ht => if_pos ht) (step_ruleLines_newline _ _) h

/-- A name begins the line of a module, as it is not the keyword of the rules. -/
theorem step_moduleLines_name {t : Token} (h : IsName t) :
    step ⟨.moduleLines, ms, rs⟩ t = some ⟨.moduleName t.span, ms, rs⟩ := by
  have hword : ¬ IsKeyword "rules" t := fun hk => by
    have := h.2.2
    rw [hk.2] at this
    exact absurd this (by decide)
  simp [step, IsNewline, h.1, hword, h, inPhase]

theorem step_ruleLines_name {t : Token} (h : IsName t) :
    step ⟨.ruleLines, ms, rs⟩ t = some ⟨.ruleName t.span, ms, rs⟩ := by
  simp [step, IsNewline, h.1, h, inPhase]

/-- The operator behind the first name settles the kind of the rule. -/
theorem step_ruleName_operator {t : Token} {k : RuleKind} (h : IsSymbol k.operator t) (n : Span) :
    step ⟨.ruleName n, ms, rs⟩ t = some ⟨.nameDue k [n], ms, rs⟩ := by
  cases k with
  | dependency => exact if_pos h
  | noDependency =>
    have hother : ¬ IsSymbol "->" t := fun ho => absurd (h.2.symm.trans ho.2) (by decide)
    simp only [step, if_neg hother]
    exact if_pos h

/-- The line of a module adds it to those that were read. -/
theorem run_moduleLine {m : Span × List Span} (h : ModuleLine ts m) :
    run ⟨.moduleLines, ms, rs⟩ ts = some ⟨.moduleLines, ms ++ [m], rs⟩ := by
  obtain ⟨hn, hequals, hpatterns, hends⟩ := h
  rename_i n equals us ends ps
  have hsecond : step ⟨.moduleName n.span, ms, rs⟩ equals
      = some ⟨.patternDue n.span [], ms, rs⟩ := if_pos hequals
  rw [List.cons_append, List.cons_append, run_cons_of_step (step_moduleLines_name hn),
    run_cons_of_step hsecond, run_append_of_run (run_patterns hpatterns _ _), List.nil_append,
    run_patterns_lineEnds hends]

/-- The line of a rule adds it to those that were read. -/
theorem run_ruleLine {rule : RuleKind × List Span} (h : RuleLine ts rule) :
    run ⟨.ruleLines, ms, rs⟩ ts = some ⟨.ruleLines, ms, rs ++ [rule]⟩ := by
  cases h with
  | chain hn harrow hnames hends =>
    rw [List.cons_append, List.cons_append, run_cons_of_step (step_ruleLines_name hn),
      run_cons_of_step (step_ruleName_operator (k := .dependency) harrow _),
      run_append_of_run (run_names hnames _), run_names_lineEnds hends]
    rfl
  | noDependency ha harrow hb hends =>
    rename_i a arrow b ends
    have hthird : step ⟨.nameDue .noDependency [a.span], ms, rs⟩ b
        = some ⟨.names .noDependency [a.span, b.span], ms, rs⟩ := if_pos hb
    rw [run_cons_of_step (step_ruleLines_name ha),
      run_cons_of_step (step_ruleName_operator (k := .noDependency) harrow _),
      run_cons_of_step hthird, run_names_lineEnds hends]

/-- Lines are taken in one by one if each of them is. -/
theorem run_lines {α : Type} {line : List Token → α → Prop} (after : List α → Reading)
    (hline : ∀ read {ts a}, line ts a → (after read).run ts = some (after (read ++ [a])))
    {as : List α} (h : Lines line ts as) (read : List α) :
    (after read).run ts = some (after (read ++ as)) := by
  induction h generalizing read with
  | none => rw [List.append_nil]; rfl
  | more ha _ ih => rw [run_append_of_run (hline read ha), ih, List.append_assoc]; rfl

/-- A heading is taken in if its keyword, colon and line ends are. -/
theorem run_heading {text : String} {r₁ r₂ : Reading}
    (hkeyword : ∀ t, IsKeyword text t → r.step t = some r₁)
    (hcolon : ∀ t, IsSymbol ":" t → r₁.step t = some r₂)
    (hfirst : ∀ t, IsNewline t → r₂.step t = some s)
    (hmore : ∀ t, IsNewline t → s.step t = some s) (h : Heading text ts) : r.run ts = some s := by
  obtain ⟨hk, hc, hends⟩ := h
  rw [run_cons_of_step (hkeyword _ hk), run_cons_of_step (hcolon _ hc)]
  exact run_lineEnds hfirst hmore hends

/-- The heading of the modules leads to their lines. -/
theorem run_modulesHeading (h : Heading "modules" ts) :
    run ⟨.lead, ms, rs⟩ ts = some ⟨.moduleLines, ms, rs⟩ := by
  have hkeyword (t : Token) (ht : IsKeyword "modules" t) :
      step ⟨.lead, ms, rs⟩ t = some ⟨.modulesColon, ms, rs⟩ := by
    simp [step, IsNewline, ht.1, ht, inPhase]
  have hcolon (t : Token) (ht : IsSymbol ":" t) :
      step ⟨.modulesColon, ms, rs⟩ t = some ⟨.modulesEnd, ms, rs⟩ := if_pos ht
  exact run_heading hkeyword hcolon (fun _ ht => if_pos ht) (step_moduleLines_newline ms rs) h

/-- The heading of the rules ends the lines of the modules. -/
theorem run_rulesHeading (h : Heading "rules" ts) :
    run ⟨.moduleLines, ms, rs⟩ ts = some ⟨.ruleLines, ms, rs⟩ := by
  have hkeyword (t : Token) (ht : IsKeyword "rules" t) :
      step ⟨.moduleLines, ms, rs⟩ t = some ⟨.rulesColon, ms, rs⟩ := by
    simp [step, IsNewline, ht.1, ht, inPhase]
  have hcolon (t : Token) (ht : IsSymbol ":" t) :
      step ⟨.rulesColon, ms, rs⟩ t = some ⟨.rulesEnd, ms, rs⟩ := if_pos ht
  exact run_heading hkeyword hcolon (fun _ ht => if_pos ht) (step_ruleLines_newline ms rs) h

/-- Every sentence is recognised, and what it says has been collected at its end. -/
theorem run_of_sentence (h : Sentence ts ms rs) : start.run ts = some ⟨.done, ms, rs⟩ := by
  obtain ⟨hlead, hmodules, hmoduleLines, hrules, hruleLines, heof⟩ := h
  rename_i lead head₁ body₁ head₂ body₂ eof
  have hlead' : start.run lead = some start := run_newlines (fun t ht => if_pos ht) hlead
  have hhead₁ : start.run head₁ = some ⟨.moduleLines, [], []⟩ := run_modulesHeading hmodules
  have hbody₁ : run ⟨.moduleLines, [], []⟩ body₁ = some ⟨.moduleLines, ms, []⟩ :=
    run_lines (fun ms => ⟨.moduleLines, ms, []⟩) (fun _ => run_moduleLine) hmoduleLines []
  have hbody₂ : run ⟨.ruleLines, ms, []⟩ body₂ = some ⟨.ruleLines, ms, rs⟩ :=
    run_lines (fun rs => ⟨.ruleLines, ms, rs⟩) (fun _ => run_ruleLine) hruleLines []
  have hlast : step ⟨.ruleLines, ms, rs⟩ eof = some ⟨.done, ms, rs⟩ := by
    simp [step, IsNewline, heof, inPhase]
  simp only [List.append_assoc]
  rw [run_append_of_run hlead', run_append_of_run hhead₁, run_append_of_run hbody₁,
    run_append_of_run (run_rulesHeading hrules), run_append_of_run hbody₂,
    run_cons_of_step hlast]
  rfl

end Reading

/-! ## What is recognised is a sentence

`Phase.Demands` says what a phase demands of the tokens that follow. One step back the demand of the
phase before is met, whatever the step was.
-/

/-- More line ends may follow. -/
theorem LineEnds.append {ts us : List Token} (h : LineEnds ts) (hus : ∀ t ∈ us, IsNewline t) :
    LineEnds (ts ++ us) := by
  refine ⟨List.append_ne_nil_of_left_ne_nil h.1 us, fun t ht => ?_⟩
  exact (List.mem_append.1 ht).elim (h.2 t) (hus t)

theorem lineEnds_cons {t : Token} {us : List Token} (h : IsNewline t)
    (hus : ∀ t ∈ us, IsNewline t) : LineEnds (t :: us) := by
  have hone : LineEnds [t] := ⟨List.cons_ne_nil t [], by simpa using h⟩
  exact hone.append hus

/-- The names of a rule behind its operator. -/
def Operands : RuleKind → List Token → List Span → Prop
  | .dependency, ts, ns => Names ts ns
  | .noDependency, ts, ns => ∃ t, IsName t ∧ ts = [t] ∧ ns = [t.span]

/-- The line of a rule of either kind, from its parts. -/
theorem ruleLine_of_operands {k : RuleKind} {n arrow : Token} {ts ends : List Token}
    {ns : List Span} (hn : IsName n) (harrow : IsSymbol k.operator arrow)
    (hoperands : Operands k ts ns) (hends : LineEnds ends) :
    RuleLine (n :: arrow :: ts ++ ends) (k, n.span :: ns) := by
  cases k with
  | dependency => exact .chain hn harrow hoperands hends
  | noDependency =>
    obtain ⟨t, ht, rfl, rfl⟩ := hoperands
    exact .noDependency hn harrow ht hends

/-- Can a line of this sort have more line ends behind it? -/
def TakesLineEnds {α : Type} (line : List Token → α → Prop) : Prop :=
  ∀ ts a us, line ts a → (∀ t ∈ us, IsNewline t) → line (ts ++ us) a

theorem takesLineEnds_heading (text : String) :
    TakesLineEnds fun ts (_ : Unit) => Heading text ts := by
  intro _ _ us h hus
  obtain ⟨hkeyword, hcolon, hends⟩ := h
  exact .intro hkeyword hcolon (hends.append hus)

/-- Blank lines behind a module belong to its line. -/
theorem takesLineEnds_moduleLine : TakesLineEnds ModuleLine := by
  intro _ _ us h hus
  obtain ⟨hn, hequals, hpatterns, hends⟩ := h
  rw [List.append_assoc]
  exact .intro hn hequals hpatterns (hends.append hus)

/-- Blank lines behind a rule belong to its line. -/
theorem takesLineEnds_ruleLine : TakesLineEnds RuleLine := by
  intro _ _ us h hus
  cases h with
  | chain hn harrow hnames hends =>
    rw [List.append_assoc]
    exact .chain hn harrow hnames (hends.append hus)
  | noDependency ha harrow hb hends => exact .noDependency ha harrow hb (hends.append hus)

/-- Line ends, then lines of one sort, then something else. -/
def LinesThen {α : Type} (line : List Token → α → Prop) (other : List Token → Prop)
    (ts : List Token) (as : List α) : Prop :=
  ∃ ends body rest, ts = ends ++ (body ++ rest) ∧ (∀ t ∈ ends, IsNewline t)
    ∧ Lines line body as ∧ other rest

namespace LinesThen

variable {α : Type} {line : List Token → α → Prop} {other : List Token → Prop} {ts : List Token}
  {as : List α}

/-- No line, and then the other thing. -/
theorem nil (h : other ts) : LinesThen line other ts [] :=
  ⟨[], [], ts, rfl, by simp, .none, h⟩

/-- A line end in front of everything. -/
theorem newline (h : LinesThen line other ts as) {t : Token} (ht : IsNewline t) :
    LinesThen line other (t :: ts) as := by
  obtain ⟨ends, body, rest, rfl, hends, hbody, hrest⟩ := h
  exact ⟨t :: ends, body, rest, rfl, by simpa using ⟨ht, hends⟩, hbody, hrest⟩

/-- A line in front of the others takes the line ends between them. -/
theorem cons (h : LinesThen line other ts as) (htakes : TakesLineEnds line) {us : List Token}
    {a : α} (ha : line us a) : LinesThen line other (us ++ ts) (a :: as) := by
  obtain ⟨ends, body, rest, rfl, hends, hbody, hrest⟩ := h
  refine ⟨[], us ++ ends ++ body, rest, by simp, by simp, ?_, hrest⟩
  exact .more (htakes us a ends ha hends) hbody

end LinesThen

/-- The rest of a specification from the end of a line of rules on. -/
def RulesRest (ts : List Token) (rules : List (RuleKind × List Span)) : Prop :=
  LinesThen RuleLine (fun us => ∃ eof : Token, us = [eof] ∧ eof.kind = .eof) ts rules

/-- The rest of a specification from the end of a line of modules on. -/
def ModulesRest (ts : List Token) (modules : List (Span × List Span))
    (rules : List (RuleKind × List Span)) : Prop :=
  LinesThen ModuleLine
    (fun us => ∃ head rest, us = head ++ rest ∧ Heading "rules" head ∧ RulesRest rest rules)
    ts modules

/-- The heading of the rules ends the rest of the modules. -/
theorem ModulesRest.of_heading {k c t : Token} {ts : List Token}
    {rules : List (RuleKind × List Span)} (hk : IsKeyword "rules" k) (hc : IsSymbol ":" c)
    (ht : IsNewline t) (h : RulesRest ts rules) : ModulesRest (k :: c :: t :: ts) [] rules :=
  .nil ⟨[k, c, t], ts, rfl, .intro hk hc (lineEnds_cons ht (by simp)), h⟩

/-- The heading of the modules in front of their rest makes a sentence. -/
theorem sentence_of_heading {k c t : Token} {ts : List Token} {modules : List (Span × List Span)}
    {rules : List (RuleKind × List Span)} (hk : IsKeyword "modules" k) (hc : IsSymbol ":" c)
    (ht : IsNewline t) (h : ModulesRest ts modules rules) :
    Sentence (k :: c :: t :: ts) modules rules := by
  obtain ⟨ends, body, _, rfl, hends, hbody, head, _, rfl, hhead, hrest⟩ := h
  obtain ⟨ends', body', _, rfl, hends', hbody', eof, rfl, heof⟩ := hrest
  -- the line ends between a heading and its first line belong to the heading
  have hfirst : Heading "modules" (k :: c :: t :: ends) := .intro hk hc (lineEnds_cons ht hends)
  have hsecond : Heading "rules" (head ++ ends') := takesLineEnds_heading _ _ () _ hhead hends'
  have hlead : ∀ t ∈ ([] : List Token), IsNewline t := by simp
  have hsentence := Sentence.intro hlead hfirst hbody hsecond hbody' heof
  simpa using hsentence

/-- The rest of a specification from the patterns of a module on, of which some have been read. -/
def PatternsRest (n : Span) (read : List Span) (ts : List Token)
    (modules : List (Span × List Span)) (rules : List (RuleKind × List Span)) : Prop :=
  ∃ us ends rest ps ms, ts = us ++ (ends ++ rest) ∧ Patterns us ps ∧ LineEnds ends
    ∧ ModulesRest rest ms rules ∧ modules = (n, read ++ ps) :: ms

/-- The rest of a specification from the names behind an operator on, of which some have been read.
-/
def NamesRest (k : RuleKind) (read : List Span) (ts : List Token)
    (rules : List (RuleKind × List Span)) : Prop :=
  ∃ us ends rest ns rs, ts = us ++ (ends ++ rest) ∧ Operands k us ns ∧ LineEnds ends
    ∧ RulesRest rest rs ∧ rules = (k, read ++ ns) :: rs

/-- Do the tokens complete a specification from a phase on, and are these the modules and rules that
it has on incomplete and later lines? -/
def Phase.Demands :
    Phase → List Token → List (Span × List Span) → List (RuleKind × List Span) → Prop
  | lead, ts, ms, rs => Sentence ts ms rs
  | modulesColon, ts, ms, rs => ∀ k, IsKeyword "modules" k → Sentence (k :: ts) ms rs
  | modulesEnd, ts, ms, rs =>
    ∀ k c, IsKeyword "modules" k → IsSymbol ":" c → Sentence (k :: c :: ts) ms rs
  | moduleLines, ts, ms, rs => ModulesRest ts ms rs
  | moduleName n, ts, ms, rs => ∀ t : Token, IsName t → t.span = n → ModulesRest (t :: ts) ms rs
  | patternDue n ps, ts, ms, rs => PatternsRest n ps ts ms rs
  | patterns n ps, ts, ms, rs =>
    (∃ ends rest ms', ts = ends ++ rest ∧ LineEnds ends ∧ ModulesRest rest ms' rs
        ∧ ms = (n, ps) :: ms')
      ∨ ∃ comma us, ts = comma :: us ∧ IsSymbol "," comma ∧ PatternsRest n ps us ms rs
  | rulesColon, ts, ms, rs => ∀ k, IsKeyword "rules" k → ModulesRest (k :: ts) ms rs
  | rulesEnd, ts, ms, rs =>
    ∀ k c, IsKeyword "rules" k → IsSymbol ":" c → ModulesRest (k :: c :: ts) ms rs
  | ruleLines, ts, ms, rs => ms = [] ∧ RulesRest ts rs
  | ruleName n, ts, ms, rs =>
    ms = [] ∧ ∀ t : Token, IsName t → t.span = n → RulesRest (t :: ts) rs
  | nameDue k ns, ts, ms, rs => ms = [] ∧ NamesRest k ns ts rs
  | names k ns, ts, ms, rs =>
    ms = [] ∧ ((∃ ends rest rs', ts = ends ++ rest ∧ LineEnds ends ∧ RulesRest rest rs'
        ∧ rs = (k, ns) :: rs')
      ∨ k = .dependency ∧ ∃ arrow us, ts = arrow :: us ∧ IsSymbol "->" arrow
        ∧ NamesRest k ns us rs)
  | done, ts, ms, rs => ts = [] ∧ ms = [] ∧ rs = []

/-- Do the tokens complete a specification from a reading on, with these modules and rules in all?
-/
def Reading.Demands (r : Reading) (ts : List Token) (modules : List (Span × List Span))
    (rules : List (RuleKind × List Span)) : Prop :=
  ∃ ms rs, modules = r.modules ++ ms ∧ rules = r.rules ++ rs ∧ r.phase.Demands ts ms rs

/-- A line of modules with its first name, equals sign and patterns read. -/
theorem PatternsRest.modulesRest {n equals : Token} {ts : List Token}
    {modules : List (Span × List Span)} {rules : List (RuleKind × List Span)} (hn : IsName n)
    (hequals : IsSymbol "=" equals) (h : PatternsRest n.span [] ts modules rules) :
    ModulesRest (n :: equals :: ts) modules rules := by
  obtain ⟨us, ends, rest, ps, ms, rfl, hpatterns, hends, hrest, rfl⟩ := h
  have hline : ModuleLine (n :: equals :: us ++ ends) (n.span, ps) :=
    .intro hn hequals hpatterns hends
  have hall : ModulesRest _ _ _ := LinesThen.cons hrest takesLineEnds_moduleLine hline
  simpa using hall

/-- A line of rules with its first name and operator read. -/
theorem NamesRest.rulesRest {n arrow : Token} {k : RuleKind} {ts : List Token}
    {rules : List (RuleKind × List Span)} (hn : IsName n) (harrow : IsSymbol k.operator arrow)
    (h : NamesRest k [n.span] ts rules) : RulesRest (n :: arrow :: ts) rules := by
  obtain ⟨us, ends, rest, ns, rs, rfl, hoperands, hends, hrest, rfl⟩ := h
  have hline := ruleLine_of_operands hn harrow hoperands hends
  have hall : RulesRest _ _ := LinesThen.cons hrest takesLineEnds_ruleLine hline
  simpa using hall

namespace Reading

variable {t : Token} {ts : List Token} {ms : List (Span × List Span)}
  {rs : List (RuleKind × List Span)}

/-- A token that a reading takes in meets its demand, when the tokens behind meet the next one. -/
theorem Demands.cons {r s : Reading} (h : r.step t = some s) (hs : s.Demands ts ms rs) :
    r.Demands (t :: ts) ms rs := by
  obtain ⟨ms, rs, rfl, rfl, hrest⟩ := hs
  obtain ⟨phase, M, R⟩ := r
  cases phase with
  -- one case for each phase; the demand of the next reading is always that of this one without `t`
  | lead =>
    simp only [step] at h
    split_ifs at h with ht hword <;> obtain rfl := Option.some.inj h
    · refine ⟨ms, rs, rfl, rfl, ?_⟩
      obtain ⟨hlead, hhead, hmodules, hrules, hlines, heof⟩ := hrest
      have hlead' := List.forall_mem_cons.2 ⟨ht, hlead⟩
      have hsentence := Sentence.intro hlead' hhead hmodules hrules hlines heof
      exact hsentence
    · exact ⟨ms, rs, rfl, rfl, hrest t hword⟩
  | modulesColon =>
    simp only [step] at h
    split_ifs at h with ht
    obtain rfl := Option.some.inj h
    exact ⟨ms, rs, rfl, rfl, fun k hk => hrest k t hk ht⟩
  | modulesEnd =>
    simp only [step] at h
    split_ifs at h with ht
    obtain rfl := Option.some.inj h
    exact ⟨ms, rs, rfl, rfl, fun k c hk hc => sentence_of_heading hk hc ht hrest⟩
  | moduleLines =>
    simp only [step] at h
    split_ifs at h with ht hword hname <;> obtain rfl := Option.some.inj h
    · exact ⟨ms, rs, rfl, rfl, LinesThen.newline hrest ht⟩
    · exact ⟨ms, rs, rfl, rfl, hrest t hword⟩
    · exact ⟨ms, rs, rfl, rfl, hrest t hname rfl⟩
  | moduleName n =>
    simp only [step] at h
    split_ifs at h with ht
    obtain rfl := Option.some.inj h
    refine ⟨ms, rs, rfl, rfl, fun name hname hn => ?_⟩
    subst hn
    exact PatternsRest.modulesRest hname ht hrest
  | patternDue n ps =>
    simp only [step] at h
    split_ifs at h with ht
    obtain rfl := Option.some.inj h
    refine ⟨ms, rs, rfl, rfl, ?_⟩
    -- ⟨comma | `t` is the last pattern of its line, or a comma and other patterns follow
    obtain ⟨ends, rest, ms', rfl, hends, hmore, rfl⟩ | ⟨comma, us, rfl, hcomma, hmore⟩ := hrest
    · exact ⟨[t], ends, rest, [t.span], ms', rfl, .one ht, hends, hmore, rfl⟩
    · obtain ⟨us, ends, rest, qs, ms', rfl, hpatterns, hends, hmore, rfl⟩ := hmore
      have hmorePatterns := Patterns.more ht hcomma hpatterns
      refine ⟨t :: comma :: us, ends, rest, t.span :: qs, ms', rfl, hmorePatterns, hends, hmore, ?_⟩
      rw [List.append_assoc]
      rfl
  | patterns n ps =>
    simp only [step] at h
    split_ifs at h with ht hcomma <;> obtain rfl := Option.some.inj h
    · refine ⟨(n, ps) :: ms, rs, by simp, rfl, .inl ?_⟩
      exact ⟨[t], ts, ms, rfl, lineEnds_cons ht (by simp), hrest, rfl⟩
    · exact ⟨ms, rs, rfl, rfl, .inr ⟨t, ts, rfl, hcomma, hrest⟩⟩
  | rulesColon =>
    simp only [step] at h
    split_ifs at h with ht
    obtain rfl := Option.some.inj h
    exact ⟨ms, rs, rfl, rfl, fun k hk => hrest k t hk ht⟩
  | rulesEnd =>
    simp only [step] at h
    split_ifs at h with ht
    obtain rfl := Option.some.inj h
    obtain ⟨rfl, hrest⟩ := hrest
    exact ⟨[], rs, rfl, rfl, fun k c hk hc => ModulesRest.of_heading hk hc ht hrest⟩
  | ruleLines =>
    simp only [step] at h
    split_ifs at h with ht heof hname <;> obtain rfl := Option.some.inj h
    · exact ⟨ms, rs, rfl, rfl, hrest.1, LinesThen.newline hrest.2 ht⟩
    · obtain ⟨rfl, rfl, rfl⟩ := hrest
      exact ⟨[], [], rfl, rfl, rfl, .nil ⟨t, rfl, heof⟩⟩
    · exact ⟨ms, rs, rfl, rfl, hrest.1, hrest.2 t hname rfl⟩
  | ruleName n =>
    simp only [step] at h
    split_ifs at h with hdep hno <;> obtain rfl := Option.some.inj h
    · refine ⟨ms, rs, rfl, rfl, hrest.1, fun name hname hn => ?_⟩
      subst hn
      exact NamesRest.rulesRest (k := .dependency) hname hdep hrest.2
    · refine ⟨ms, rs, rfl, rfl, hrest.1, fun name hname hn => ?_⟩
      subst hn
      exact NamesRest.rulesRest (k := .noDependency) hname hno hrest.2
  | nameDue k ns =>
    simp only [step] at h
    split_ifs at h with ht
    obtain rfl := Option.some.inj h
    refine ⟨ms, rs, rfl, rfl, hrest.1, ?_⟩
    -- `t` is the last name of its line, or the chain goes on
    obtain ⟨ends, rest, rs', rfl, hends, hmore, rfl⟩ | ⟨rfl, arrow, us, rfl, harrow, hmore⟩ :=
      hrest.2
    · have hoperands : Operands k [t] [t.span] := by
        cases k with
        | dependency => exact .one ht
        | noDependency => exact ⟨t, ht, rfl, rfl⟩
      exact ⟨[t], ends, rest, [t.span], rs', rfl, hoperands, hends, hmore, rfl⟩
    · obtain ⟨us, ends, rest, ms, rs', rfl, hnames, hends, hmore, rfl⟩ := hmore
      have hmoreNames := Names.more ht harrow hnames
      refine ⟨t :: arrow :: us, ends, rest, t.span :: ms, rs', rfl, hmoreNames, hends, hmore, ?_⟩
      rw [List.append_assoc]
      rfl
  | names k ns =>
    simp only [step] at h
    split_ifs at h with ht harrow <;> obtain rfl := Option.some.inj h
    · obtain ⟨rfl, hrest⟩ := hrest
      refine ⟨[], (k, ns) :: rs, rfl, by simp, rfl, .inl ?_⟩
      exact ⟨[t], ts, rs, rfl, lineEnds_cons ht (by simp), hrest, rfl⟩
    · exact ⟨ms, rs, rfl, rfl, hrest.1, .inr ⟨harrow.1, t, ts, rfl, harrow.2, hrest.2⟩⟩
  | done => cases h

/-- What leads to the end meets the demand of where it began, by induction from the end. -/
theorem demands_of_run {r : Reading} (h : r.run ts = some ⟨.done, ms, rs⟩) :
    r.Demands ts ms rs := by
  induction ts generalizing r with
  | nil =>
    obtain rfl := Option.some.inj h
    exact ⟨[], [], (List.append_nil ms).symm, (List.append_nil rs).symm, rfl, rfl, rfl⟩
  | cons t ts ih =>
    obtain ⟨s, hs, hrun⟩ := Option.bind_eq_some_iff.1 h
    exact .cons hs (ih hrun)

end Reading

/-- Sentences are what is recognised from the start to the end, and say what has been collected. -/
theorem sentence_iff_run {ts : List Token} {ms : List (Span × List Span)}
    {rs : List (RuleKind × List Span)} :
    Sentence ts ms rs ↔ Reading.start.run ts = some ⟨.done, ms, rs⟩ := by
  refine ⟨Reading.run_of_sentence, fun h => ?_⟩
  obtain ⟨ms, rs, rfl, rfl, hsentence⟩ := Reading.demands_of_run h
  exact hsentence

end Conformance.Grammar
