import Conformance.Definition.History
import Conformance.Definition.Written
import Conformance.Proofs.Definition.Parsed
import Conformance.Proofs.Token.Spelling

/-!
# Definitions from their own texts

The text of a definition spells the words of its modules and rules, line by line
(`Definition.spells_toText`). These words are a sentence that says the names and patterns of the
definition (`Definition.sentence_of_words`), so that the definition comes back from its own text
(`Definition.ofSource_toText`).
-/

namespace Conformance

open Grammar Lexer

/-- Can the module be written down: is its name one that may stand in a text, has it patterns, and
can they stand in quotes? -/
structure Module.IsWritable (m : Module) : Prop where
  isIdentifier : Parser.isIdentifier m.name = true
  ne_modules : m.name ≠ "modules"
  ne_rules : m.name ≠ "rules"
  patterns_ne_nil : m.patterns ≠ []
  quote_not_mem : ∀ p ∈ m.patterns, '"' ∉ p.text.toList

/-! ## Words -/

/-- The words of a list of patterns. -/
def patternWords (ps : List String) : List (TokenKind × String) :=
  (ps.map (TokenKind.string, ·)).intersperse (.symbol, ",")

/-- The words of the line that defines a module. -/
def Module.words (m : Module) : List (TokenKind × String) :=
  (.glob, m.name) :: (.symbol, "=") :: (patternWords m.patternTexts ++ [(.newline, "\n")])

/-- The words of the line of a rule. -/
def ModulePair.words (kind : RuleKind) (p : ModulePair) : List (TokenKind × String) :=
  [(.glob, p.source.name), (.symbol, kind.operator), (.glob, p.dest.name), (.newline, "\n")]

/-- The words of a heading. -/
def headingWords (keyword : String) : List (TokenKind × String) :=
  [(.glob, keyword), (.symbol, ":"), (.newline, "\n")]

/-- The rules of a definition with their kinds, in the order of its text. -/
def Definition.kindedRules (d : Definition) : List (RuleKind × ModulePair) :=
  d.dependencies.map (.dependency, ·) ++ d.noDependencies.map (.noDependency, ·)

/-- The words of the text of a definition. -/
def Definition.words (d : Definition) : List (TokenKind × String) :=
  headingWords "modules" ++ d.modules.flatMap Module.words ++ headingWords "rules"
    ++ d.kindedRules.flatMap fun r => r.2.words r.1

/-! ## Words as sentences -/

section
variable {ts : List Token}

theorem word_eq_iff {t : Token} {kind : TokenKind} {text : String} :
    t.word = (kind, text) ↔ t.kind = kind ∧ t.text = text := by
  rw [Token.word, Prod.mk.injEq]

theorem lineEnds_of_word {t : Token} (h : t.word = (.newline, "\n")) : LineEnds [t] := by
  refine ⟨List.cons_ne_nil _ _, fun u hu => ?_⟩
  obtain rfl := List.mem_singleton.1 hu
  exact (word_eq_iff.1 h).1

/-- The name of a module that can be written down is a name where it stands. -/
theorem Module.IsWritable.isName_of_word {m : Module} (hm : m.IsWritable) {t : Token}
    (h : t.word = (.glob, m.name)) : IsName t := by
  obtain ⟨hkind, htext⟩ := word_eq_iff.1 h
  rw [IsName, htext]
  exact ⟨hkind, isIdentifier_iff.1 hm.isIdentifier, hm.ne_modules, hm.ne_rules⟩

/-- The words of a heading are one. -/
theorem heading_of_words {keyword : String} (h : ts.map Token.word = headingWords keyword) :
    Heading keyword ts := by
  obtain ⟨t, ts, rfl, hkeyword, h⟩ := List.map_eq_cons_iff.1 h
  obtain ⟨colon, ts, rfl, hcolon, h⟩ := List.map_eq_cons_iff.1 h
  obtain ⟨newline, rfl, hnewline⟩ := List.map_eq_singleton_iff.1 h
  exact .intro (word_eq_iff.1 hkeyword) (word_eq_iff.1 hcolon) (lineEnds_of_word hnewline)

/-- The words of patterns say the patterns. -/
theorem patterns_of_words {ps : List String} (hps : ps ≠ [])
    (h : ts.map Token.word = patternWords ps) :
    ∃ spans, Patterns ts spans ∧ spans.map Span.text = ps := by
  -- by induction on the patterns: all but the last have a comma behind them
  induction ps generalizing ts with
  | nil => exact absurd rfl hps
  | cons p ps ih =>
    cases ps with
    | nil =>
      obtain ⟨t, rfl, ht⟩ := List.map_eq_singleton_iff.1 h
      obtain ⟨hkind, rfl⟩ := word_eq_iff.1 ht
      exact ⟨[t.span], .one hkind, rfl⟩
    | cons q ps =>
      obtain ⟨t, ts, rfl, ht, h⟩ := List.map_eq_cons_iff.1 h
      obtain ⟨comma, ts, rfl, hcomma, hrest⟩ := List.map_eq_cons_iff.1 h
      obtain ⟨hkind, rfl⟩ := word_eq_iff.1 ht
      obtain ⟨spans, hpatterns, hspans⟩ := ih (List.cons_ne_nil _ _) hrest
      refine ⟨t.span :: spans, .more hkind (word_eq_iff.1 hcomma) hpatterns, ?_⟩
      rw [List.map_cons, hspans]
      rfl

/-- The words of a module say its name and its patterns. -/
theorem moduleLine_of_words {m : Module} (hm : m.IsWritable)
    (h : ts.map Token.word = m.words) :
    ∃ said, ModuleLine ts said ∧ said.1.text :: said.2.map Span.text = m.identity := by
  obtain ⟨name, ts, rfl, hname, h⟩ := List.map_eq_cons_iff.1 h
  obtain ⟨equals, ts, rfl, hequals, h⟩ := List.map_eq_cons_iff.1 h
  obtain ⟨patterns, ends, rfl, hpatterns, h⟩ := List.map_eq_append_iff.1 h
  obtain ⟨newline, rfl, hnewline⟩ := List.map_eq_singleton_iff.1 h
  have hne : m.patternTexts ≠ [] := fun hnil => hm.patterns_ne_nil (List.map_eq_nil_iff.1 hnil)
  obtain ⟨spans, hspans, htexts⟩ := patterns_of_words hne hpatterns
  refine ⟨(name.span, spans), ?_, ?_⟩
  · exact .intro (hm.isName_of_word hname) (word_eq_iff.1 hequals) hspans
      (lineEnds_of_word hnewline)
  · exact congrArg₂ List.cons (word_eq_iff.1 hname).2 htexts

/-- The words of a rule say its kind and its two names. -/
theorem ruleLine_of_words {kind : RuleKind} {p : ModulePair} (hsource : p.source.IsWritable)
    (hdest : p.dest.IsWritable) (h : ts.map Token.word = p.words kind) :
    ∃ said, RuleLine ts said
      ∧ (said.1, said.2.map Span.text) = (kind, [p.source.name, p.dest.name]) := by
  obtain ⟨source, ts, rfl, hs, h⟩ := List.map_eq_cons_iff.1 h
  obtain ⟨arrow, ts, rfl, harrow, h⟩ := List.map_eq_cons_iff.1 h
  obtain ⟨dest, ts, rfl, hd, h⟩ := List.map_eq_cons_iff.1 h
  obtain ⟨newline, rfl, hnewline⟩ := List.map_eq_singleton_iff.1 h
  have hsourceName := hsource.isName_of_word hs
  have hdestName := hdest.isName_of_word hd
  have hends := lineEnds_of_word hnewline
  refine ⟨(kind, [source.span, dest.span]), ?_, ?_⟩
  · cases kind with
    | dependency => exact .chain hsourceName (word_eq_iff.1 harrow) (.one hdestName) hends
    | noDependency => exact .noDependency hsourceName (word_eq_iff.1 harrow) hdestName hends
  · have hsourceText : source.span.text = p.source.name := (word_eq_iff.1 hs).2
    have hdestText : dest.span.text = p.dest.name := (word_eq_iff.1 hd).2
    simp only [List.map_cons, List.map_nil, hsourceText, hdestText]

/-- Lines of one sort from the words of each. -/
theorem lines_of_words {α β γ : Type} {line : List Token → β → Prop}
    {words : α → List (TokenKind × String)} {texts : α → γ} {saidTexts : β → γ} {xs : List α}
    (hline : ∀ x ∈ xs, ∀ ts : List Token, ts.map Token.word = words x →
      ∃ said, line ts said ∧ saidTexts said = texts x)
    (h : ts.map Token.word = xs.flatMap words) :
    ∃ said, Lines line ts said ∧ said.map saidTexts = xs.map texts := by
  induction xs generalizing ts with
  | nil =>
    obtain rfl := List.map_eq_nil_iff.1 h
    exact ⟨[], .none, rfl⟩
  | cons x xs ih =>
    obtain ⟨hx, hxs⟩ := List.forall_mem_cons.1 hline
    obtain ⟨ts, us, rfl, hts, hus⟩ := List.map_eq_append_iff.1 h
    obtain ⟨said, hsaid, htexts⟩ := hx ts hts
    obtain ⟨rest, hrest, hrestTexts⟩ := ih hxs hus
    refine ⟨said :: rest, .more hsaid hrest, ?_⟩
    rw [List.map_cons, List.map_cons, htexts, hrestTexts]

end

namespace Definition

variable {d : Definition}

/-- Rules are about declared modules, which can be written down. -/
theorem isWritable_of_mem_kindedRules (h : ∀ m ∈ d.modules, m.IsWritable)
    {r : RuleKind × ModulePair} (hr : r ∈ d.kindedRules) :
    r.2.source.IsWritable ∧ r.2.dest.IsWritable := by
  have hdeclared : r.2.source ∈ d.modules ∧ r.2.dest ∈ d.modules := by
    obtain hr | hr := List.mem_append.1 hr
    · obtain ⟨p, hp, rfl⟩ := List.mem_map.1 hr
      exact d.dependencies_declared p hp
    · obtain ⟨p, hp, rfl⟩ := List.mem_map.1 hr
      exact d.noDependencies_declared p hp
  exact ⟨h _ hdeclared.1, h _ hdeclared.2⟩

/-- The words of a definition are a sentence that says its texts. -/
theorem sentence_of_words (h : ∀ m ∈ d.modules, m.IsWritable) {ts : List Token}
    (hts : ts.map Token.word = d.words) {eof : Token} (heof : eof.kind = .eof) :
    ∃ modules rules, Sentence (ts ++ [eof]) modules rules
      ∧ modules.map (fun m => m.1.text :: m.2.map Span.text) = d.modules.map Module.identity
      ∧ rules.map (fun r => (r.1, r.2.map Span.text))
        = d.kindedRules.map fun r => (r.1, [r.2.source.name, r.2.dest.name]) := by
  obtain ⟨ts, body₂, rfl, hts, hbody₂⟩ := List.map_eq_append_iff.1 hts
  obtain ⟨ts, head₂, rfl, hts, hhead₂⟩ := List.map_eq_append_iff.1 hts
  obtain ⟨head₁, body₁, rfl, hhead₁, hbody₁⟩ := List.map_eq_append_iff.1 hts
  obtain ⟨modules, hmodules, hmoduleTexts⟩ :=
    lines_of_words (fun m hm _ hwords => moduleLine_of_words (h m hm) hwords) hbody₁
  have hline (r : RuleKind × ModulePair) (hr : r ∈ d.kindedRules) (ts : List Token)
      (hwords : ts.map Token.word = r.2.words r.1) :
      ∃ said, RuleLine ts said
        ∧ (said.1, said.2.map Span.text) = (r.1, [r.2.source.name, r.2.dest.name]) := by
    obtain ⟨hsource, hdest⟩ := isWritable_of_mem_kindedRules h hr
    exact ruleLine_of_words hsource hdest hwords
  obtain ⟨rules, hrules, hruleTexts⟩ := lines_of_words hline hbody₂
  have hlead : ∀ t ∈ ([] : List Token), IsNewline t := by
    intro t ht
    cases ht
  exact ⟨modules, rules, .intro hlead (heading_of_words hhead₁) hmodules
    (heading_of_words hhead₂) hrules heof, hmoduleTexts, hruleTexts⟩

end Definition

/-! ## Texts as words -/

section
variable {rest : List Char}

/-- A text that begins with a name or keyword goes on neither with line ends nor with blanks. -/
theorem stops_of_isWord {word : String} (hword : TokenKind.glob.isWord word = true)
    (rest : List Char) :
    TokenKind.newline.Stops (word.toList ++ rest)
      ∧ TokenKind.spacing.Stops (word.toList ++ rest) := by
  obtain ⟨c, cs, hchars, hc⟩ := TokenKind.exists_cons_of_isWord hword
  -- its first character begins nothing else
  obtain ⟨-, hnewline, hspacing⟩ := not_begins_of_isGlobChar hc
  rw [hchars]
  exact ⟨TokenKind.stops_cons hnewline _, TokenKind.stops_cons hspacing _⟩

theorem spells_newline (hrest : TokenKind.newline.Stops rest) :
    Spells ['\n'] rest [(.newline, "\n")] :=
  spells_word "\n" (.inr (.inr rfl)) (by decide) hrest

/-- A heading spells its words, and no line end comes first. -/
theorem spells_heading (keyword : String) (hkeyword : TokenKind.glob.isWord keyword = true)
    (hrest : TokenKind.newline.Stops rest) :
    TokenKind.newline.Stops (keyword.toList ++ ([':'] ++ ['\n']) ++ rest)
      ∧ Spells (keyword.toList ++ ([':'] ++ ['\n'])) rest (headingWords keyword) := by
  have hname : Spells keyword.toList (':' :: '\n' :: rest) [(.glob, keyword)] :=
    spells_word keyword (.inl rfl) hkeyword (TokenKind.stops_cons (by decide) _)
  have hcolon : Spells [':'] ('\n' :: rest) [(.symbol, ":")] :=
    spells_word ":" (.inr (.inl rfl)) (by decide) (TokenKind.stops_cons (by decide) _)
  refine ⟨?_, hname.append (hcolon.append (spells_newline hrest))⟩
  rw [List.append_assoc]
  exact (stops_of_isWord hkeyword _).1

/-- A symbol with blanks around it spells itself, if something else comes behind. -/
theorem spells_between (symbol : String) (hsymbol : TokenKind.symbol.isWord symbol = true)
    (hrest : TokenKind.spacing.Stops rest) :
    Spells ([' '] ++ (symbol.toList ++ [' '])) rest [(.symbol, symbol)] := by
  have hbehind : Spells [' '] rest [] := spells_blank hrest
  have hword : Spells symbol.toList (' ' :: rest) [(.symbol, symbol)] :=
    spells_word symbol (.inr (.inl rfl)) hsymbol (TokenKind.stops_cons (by decide) _)
  have hfront : Spells [' '] (symbol.toList ++ [' '] ++ rest) [] := by
    obtain ⟨c, cs, hchars, hc⟩ := TokenKind.exists_cons_of_isWord hsymbol
    rw [hchars]
    exact spells_blank (TokenKind.stops_cons (not_begins_of_isSymbolChar hc).2.2 _)
  exact hfront.append (hword.append hbehind)

/-- Patterns in quotes with commas between them spell themselves, and a quote comes first. -/
theorem spells_patterns (rest : List Char) {ps : List String} (hps : ps ≠ [])
    (hinside : ∀ p ∈ ps, ∀ c ∈ p.toList, Token.endsString c = false) :
    ∃ cs, (", ".intercalate (ps.map fun p => "\"" ++ p ++ "\"")).toList = '"' :: cs
      ∧ Spells ('"' :: cs) rest (patternWords ps) := by
  induction ps with
  | nil => exact absurd rfl hps
  | cons p ps ih =>
    obtain ⟨hp, hps'⟩ := List.forall_mem_cons.1 hinside
    have hquoted : ("\"" ++ p ++ "\"").toList = '"' :: p.toList ++ ['"'] := by
      rw [String.toList_append, String.toList_append]
      rfl
    cases ps with
    | nil =>
      refine ⟨p.toList ++ ['"'], ?_, spells_string hp⟩
      rw [List.map_singleton, String.intercalate_singleton, hquoted]
      rfl
    | cons q ps =>
      obtain ⟨cs, hcs, htail⟩ := ih (List.cons_ne_nil _ _) hps'
      refine ⟨p.toList ++ ['"'] ++ ([','] ++ ([' '] ++ '"' :: cs)), ?_, ?_⟩
      · rw [List.map_cons] at hcs
        rw [List.map_cons, List.map_cons, String.intercalate_cons_cons, String.toList_append,
          String.toList_append, hquoted, hcs]
        simp
      · -- the quote of the next pattern ends the blank
        have hblank : Spells [' '] ('"' :: cs ++ rest) [] :=
          spells_blank (TokenKind.stops_cons (by decide) _)
        have hcomma : Spells [','] (' ' :: '"' :: cs ++ rest) [(.symbol, ",")] :=
          spells_word "," (.inr (.inl rfl)) (by decide) (TokenKind.stops_cons (by decide) _)
        exact (spells_string hp).append (hcomma.append (hblank.append htail))

/-- An identifier is a run of the characters of names and patterns. -/
theorem isWord_of_isIdentifier {name : String} (h : Parser.isIdentifier name = true) :
    TokenKind.glob.isWord name = true := by
  unfold Parser.isIdentifier at h
  split at h
  · cases h
  · rename_i c cs hchars
    obtain ⟨hc, hcs⟩ := Bool.and_eq_true_iff.1 h
    rw [TokenKind.isWord_iff, hchars, List.forall_mem_cons]
    refine ⟨List.cons_ne_nil _ _, ?_, fun d hd => ?_⟩
    · simp only [Parser.beginsIdentifier, Bool.or_eq_true, decide_eq_true_eq] at hc
      obtain hc | rfl := hc
      · simp [TokenKind.begins, Token.isGlobChar, Char.isAlphanum, hc]
      · decide
    · have hd' := List.all_eq_true.1 hcs d hd
      simp only [Parser.continuesIdentifier, Bool.or_eq_true, decide_eq_true_eq] at hd'
      obtain hd' | rfl := hd'
      · simp [TokenKind.begins, Token.isGlobChar, hd']
      · decide

/-- Nothing in a pattern ends a string, unless it is a quote. -/
theorem Glob.endsString_eq_false (g : Glob) (hquote : '"' ∉ g.text.toList) :
    ∀ c ∈ g.text.toList, Token.endsString c = false := by
  intro c hc
  have hall := (Bool.and_eq_true_iff.1 g.isGlobText_text).2
  have hc' := List.all_eq_true.1 hall c hc
  rw [Bool.eq_false_iff]
  intro hends
  simp only [Token.endsString, Bool.or_eq_true, decide_eq_true_eq] at hends
  obtain ((rfl | rfl) | rfl) | rfl := hends
  · exact hquote hc
  · exact absurd hc' (by decide)
  · exact absurd hc' (by decide)
  · exact absurd hc' (by decide)

end

namespace Module.IsWritable

variable {m : Module} {rest : List Char}

/-- A name spells itself in front of a character that cannot stand in one. -/
theorem spells_name (hm : m.IsWritable) (c : Char) (hc : TokenKind.glob.begins c = false)
    (rest : List Char) : Spells m.name.toList (c :: rest) [(.glob, m.name)] :=
  spells_word m.name (.inl rfl) (isWord_of_isIdentifier hm.isIdentifier)
    (TokenKind.stops_cons hc rest)

theorem stops_name (hm : m.IsWritable) (rest : List Char) :
    TokenKind.newline.Stops (m.name.toList ++ rest)
      ∧ TokenKind.spacing.Stops (m.name.toList ++ rest) :=
  stops_of_isWord (isWord_of_isIdentifier hm.isIdentifier) rest

/-- The line of a module spells its words in front of another line or the end. -/
theorem spells_line (hm : m.IsWritable) (hrest : TokenKind.newline.Stops rest) :
    Spells m.line.toList rest m.words := by
  have hne : m.patternTexts ≠ [] := fun hnil => hm.patterns_ne_nil (List.map_eq_nil_iff.1 hnil)
  have hinside : ∀ p ∈ m.patternTexts, ∀ c ∈ p.toList, Token.endsString c = false :=
    List.forall_mem_map.2 fun g hg => g.endsString_eq_false (hm.quote_not_mem g hg)
  obtain ⟨cs, hcs, hpatterns⟩ := spells_patterns ('\n' :: rest) hne hinside
  have hline : m.line.toList
      = m.name.toList ++ ([' '] ++ ("=".toList ++ [' ']) ++ ('"' :: cs ++ ['\n'])) := by
    simp only [line, String.toList_append, hcs]
    simp
  have hequals : Spells ([' '] ++ ("=".toList ++ [' '])) ('"' :: cs ++ ['\n'] ++ rest)
      [(.symbol, "=")] :=
    spells_between "=" (by decide) (TokenKind.stops_cons (by decide) _)
  rw [hline]
  exact (hm.spells_name ' ' (by decide) _).append
    (hequals.append (hpatterns.append (spells_newline hrest)))

end Module.IsWritable

/-- The text of a rule is made of its names, its operator and the blanks between them. -/
theorem ModulePair.toList_line (kind : RuleKind) (p : ModulePair) :
    (p.line kind).toList = p.source.name.toList
      ++ ([' '] ++ (kind.operator.toList ++ [' ']) ++ (p.dest.name.toList ++ ['\n'])) := by
  simp [line, ruleText, RuleKind.ruleText, toString]

/-- The line of a rule spells its words in front of another line or the end. -/
theorem ModulePair.spells_line {kind : RuleKind} {p : ModulePair} (hsource : p.source.IsWritable)
    (hdest : p.dest.IsWritable) {rest : List Char} (hrest : TokenKind.newline.Stops rest) :
    Spells (p.line kind).toList rest (p.words kind) := by
  have hdestName : Spells p.dest.name.toList ('\n' :: rest) [(.glob, p.dest.name)] :=
    hdest.spells_name '\n' (by decide) rest
  have harrow : Spells ([' '] ++ (kind.operator.toList ++ [' ']))
      (p.dest.name.toList ++ ['\n'] ++ rest) [(.symbol, kind.operator)] := by
    refine spells_between kind.operator ?_ ?_
    · cases kind <;> decide
    · rw [List.append_assoc]
      exact (hdest.stops_name _).2
  rw [toList_line]
  exact (hsource.spells_name ' ' (by decide) _).append
    (harrow.append (hdestName.append (spells_newline hrest)))

namespace Definition

variable {d : Definition}

/-- The lines of all modules spell their words. -/
theorem spells_modules (h : ∀ m ∈ d.modules, m.IsWritable) {rest : List Char}
    (hrest : TokenKind.newline.Stops rest) :
    TokenKind.newline.Stops (d.modules.flatMap (·.line.toList) ++ rest)
      ∧ Spells (d.modules.flatMap (·.line.toList)) rest (d.modules.flatMap Module.words) := by
  refine spells_flatMap (fun m hm _ => (h m hm).spells_line) (fun m hm rest => ?_) hrest
  simp only [Module.line, String.toList_append, List.append_assoc]
  exact ((h m hm).stops_name _).1

/-- The lines of all rules spell their words. -/
theorem spells_rules (h : ∀ m ∈ d.modules, m.IsWritable) {rest : List Char}
    (hrest : TokenKind.newline.Stops rest) :
    TokenKind.newline.Stops (d.kindedRules.flatMap (fun r => (r.2.line r.1).toList) ++ rest)
      ∧ Spells (d.kindedRules.flatMap fun r => (r.2.line r.1).toList) rest
        (d.kindedRules.flatMap fun r => r.2.words r.1) := by
  refine spells_flatMap (fun r hr _ hrest => ?_) (fun r hr rest => ?_) hrest
  · obtain ⟨hsource, hdest⟩ := isWritable_of_mem_kindedRules h hr
    exact ModulePair.spells_line hsource hdest hrest
  · obtain ⟨hsource, -⟩ := isWritable_of_mem_kindedRules h hr
    rw [ModulePair.toList_line, List.append_assoc]
    exact (hsource.stops_name _).1

/-- The text of a definition spells its words. -/
theorem spells_toText (h : ∀ m ∈ d.modules, m.IsWritable) : Spells d.toText.toList [] d.words := by
  have htext : d.toText.toList
      = "modules".toList ++ ([':'] ++ ['\n']) ++ d.modules.flatMap (·.line.toList)
        ++ ("rules".toList ++ ([':'] ++ ['\n']))
        ++ d.kindedRules.flatMap fun r => (r.2.line r.1).toList := by
    simp [toText, kindedRules, List.flatMap_map]
  -- what each part is followed by is known from the end of the text on
  obtain ⟨hrulesStops, hrules⟩ := spells_rules h (TokenKind.stops_nil _)
  obtain ⟨hheadStops, hhead⟩ := spells_heading "rules" (by decide) hrulesStops
  obtain ⟨hmodulesStops, hmodules⟩ := spells_modules h hheadStops
  obtain ⟨-, hfront⟩ := spells_heading "modules" (by decide) hmodulesStops
  rw [htext, words]
  exact ((hfront.append hmodules).append hhead).append hrules

/-- The rules of a kind are its own, in order. -/
theorem filter_kindedRules (d : Definition) (kind : RuleKind) :
    d.kindedRules.filter (·.1 = kind) = (d.rules kind).map (kind, ·) := by
  rw [kindedRules, List.filter_append, List.filter_map, List.filter_map]
  cases kind with
  | dependency => simp [Function.comp_def, rules]
  | noDependency => simp [Function.comp_def, rules]

/-- A specification of the texts of a definition gives that definition. -/
theorem ofSpecification_of_texts {s : Specification}
    (hmodules : s.modules.map ModuleDef.identity = d.modules.map Module.identity)
    (hrules : s.rules.map Rule.texts
      = d.kindedRules.map fun r => (r.1, [r.2.source.name, r.2.dest.name])) :
    ofSpecification s = .ok d := by
  rw [ofSpecification_eq_ok_iff]
  refine ⟨hmodules.symm, fun k => ?_⟩
  have hpairs : s.namePairs k = d.namePairs k := by
    rw [Specification.namePairs_eq_texts, hrules, List.filter_map, List.flatMap_map]
    show (d.kindedRules.filter (·.1 = k)).flatMap _ = _
    rw [filter_kindedRules, List.flatMap_map, namePairs, List.map_eq_flatMap]
    rfl
  -- a definition lists no rule twice, so none is left out
  rw [hpairs, ← distinct_eq_eraseDups, distinct_of_nodup (d.namePairs_nodup k)]

/-- A definition whose modules can be written down comes back from its own text, however it was
built: modules, patterns and rules in the order in which they were given. -/
theorem ofSource_toText (h : ∀ m ∈ d.modules, m.IsWritable) (file : String) :
    ofSource ⟨file, d.toText⟩ = .ok d := by
  obtain ⟨ts, l, hrun, hrest, hwords⟩ := spells_toText h (.ofSource ⟨file, d.toText⟩)
    (List.append_nil _).symm
  -- the whole text has been read, so only its end is still to come
  obtain ⟨eof, heof, hnext⟩ : ∃ eof : Token, eof.kind = .eof ∧ l.next = (.ok eof, l) := by
    refine ⟨⟨.eof, l.spanAhead 0 []⟩, rfl, ?_⟩
    rw [next, hrest]
  have hupcoming : (Lexer.ofSource ⟨file, d.toText⟩).upcoming
      = (significant ts ++ [eof]).map .ok := by
    have hsignificant : isSignificant (.ok eof) = true := by
      simp [isSignificant, heof]
    rw [hrun.upcoming_eq, List.map_append, Lexer.upcoming, tokens_of_ok hnext, if_pos heof,
      List.filter_cons_of_pos hsignificant]
    rfl
  obtain ⟨modules, rules, hsentence, hmodules, hrules⟩ := sentence_of_words h hwords heof
  obtain ⟨s, hs, hsaying⟩ := (Specification.exists_saying_iff hupcoming).2 hsentence
  obtain ⟨rfl, rfl⟩ := Prod.mk.inj hsaying
  rw [List.map_map] at hmodules hrules
  exact bind_eq_ok_iff.2 ⟨s, hs, mapError_eq_ok_iff.2 (ofSpecification_of_texts hmodules hrules)⟩

/-- Patterns that look like comments, arrows and escapes, and rules of both kinds. -/
def writtenSample : Definition :=
  empty.afterAll [
    .addModule ⟨"Core_1", [⟨"a#b->c,", by decide⟩, ⟨"\\n*", by decide⟩]⟩,
    .addModule ⟨"_ui", [⟨"größe?", by decide⟩]⟩,
    .allow "_ui" "Core_1",
    .forbid "Core_1" "_ui",
    .allow "_ui" "_ui"]

theorem ofSource_toText_writtenSample :
    writtenSample.toText
        = "modules:\nCore_1 = \"a#b->c,\", \"\\n*\"\n_ui = \"größe?\"\n"
          ++ "rules:\n_ui -> Core_1\n_ui -> _ui\nCore_1 -/-> _ui\n"
      ∧ ofSource ⟨"case.arch", writtenSample.toText⟩ = .ok writtenSample := by
  refine ⟨by decide +kernel, ofSource_toText (fun m hm => ?_) "case.arch"⟩
  have hm' : m ∈ ([⟨"Core_1", [⟨"a#b->c,", by decide⟩, ⟨"\\n*", by decide⟩]⟩,
    ⟨"_ui", [⟨"größe?", by decide⟩]⟩] : List Module) := hm
  simp only [List.mem_cons, List.not_mem_nil, or_false] at hm'
  obtain rfl | rfl := hm'
  · exact ⟨by decide, by decide, by decide, by decide, by decide⟩
  · exact ⟨by decide, by decide, by decide, by decide, by decide⟩

end Definition

end Conformance
