import Conformance.Proofs.Specification.Progress
import Conformance.Proofs.Token.Spelling

/-!
# Reading a line on its own

A parser that has the tokens of one line ahead reads them as what the line says, whatever comes
behind the line ends (`Parser.yields_moduleDef`, `Parser.yields_rule`). What a line says does not
depend on where it stands, but only on its words (`Grammar.ModuleBody.of_words`,
`Grammar.RuleBody.of_words`).
-/

namespace Conformance

/-! ## Lines without their line ends -/

namespace Grammar

/-- Items with an operator between them. -/
inductive Separated (item : Token → Prop) (operator : String) :
    List Token → List Span → Prop where
  | one {t : Token} : item t → Separated item operator [t] [t.span]
  | more {t u : Token} {ts : List Token} {spans : List Span} :
    item t → IsSymbol operator u → Separated item operator ts spans →
      Separated item operator (t :: u :: ts) (t.span :: spans)

/-- What stands on a line that defines a module. -/
inductive ModuleBody : List Token → Span × List Span → Prop where
  | intro {n equals : Token} {ts : List Token} {ps : List Span} :
    IsName n → IsSymbol "=" equals → Separated (·.kind = .string) "," ts ps →
      ModuleBody (n :: equals :: ts) (n.span, ps)

/-- What stands on a line with a rule. -/
inductive RuleBody : List Token → RuleKind × List Span → Prop where
  | chain {n arrow : Token} {ts : List Token} {ns : List Span} :
    IsName n → IsSymbol "->" arrow → Separated IsName "->" ts ns →
      RuleBody (n :: arrow :: ts) (.dependency, n.span :: ns)
  | noDependency {a arrow b : Token} :
    IsName a → IsSymbol "-/->" arrow → IsName b →
      RuleBody [a, arrow, b] (.noDependency, [a.span, b.span])

section
variable {ts us : List Token} {item : Token → Prop} {operator : String} {spans : List Span}

/-- Patterns are quoted texts with commas between them. -/
theorem Patterns.separated (h : Patterns ts spans) :
    Separated (·.kind = .string) "," ts spans := by
  induction h with
  | one hp => exact .one hp
  | more hp hcomma _ ih => exact .more hp hcomma ih

/-- The names of a chain have its operator between them. -/
theorem Names.separated (h : Names ts spans) : Separated IsName "->" ts spans := by
  induction h with
  | one hn => exact .one hn
  | more hn harrow _ ih => exact .more hn harrow ih

/-- The line of a module is what it says and then its line ends. -/
theorem ModuleLine.exists_body {m : Span × List Span} (h : ModuleLine ts m) :
    ∃ body ends, ts = body ++ ends ∧ ModuleBody body m ∧ LineEnds ends := by
  obtain ⟨hname, hequals, hpatterns, hends⟩ := h
  exact ⟨_, _, rfl, .intro hname hequals hpatterns.separated, hends⟩

/-- The line of a rule is what it says and then its line ends. -/
theorem RuleLine.exists_body {r : RuleKind × List Span} (h : RuleLine ts r) :
    ∃ body ends, ts = body ++ ends ∧ RuleBody body r ∧ LineEnds ends := by
  cases h with
  | chain hname harrow hnames hends =>
    exact ⟨_, _, rfl, .chain hname harrow hnames.separated, hends⟩
  | noDependency ha harrow hb hends =>
    exact ⟨[_, _, _], _, rfl, .noDependency ha harrow hb, hends⟩

/-! ## Words -/

/-- Being a symbol is a matter of the kind and the text of a token. -/
theorem isSymbol_of_word {t u : Token} (h : u.word = t.word) (ht : IsSymbol operator t) :
    IsSymbol operator u := by
  obtain ⟨hkind, htext⟩ := Prod.mk.inj h
  exact ⟨hkind.trans ht.1, htext.trans ht.2⟩

/-- Being a name is a matter of the kind and the text of a token. -/
theorem isName_of_word {t u : Token} (h : u.word = t.word) (ht : IsName t) : IsName u := by
  obtain ⟨hkind, htext⟩ := Prod.mk.inj h
  rw [IsName, hkind, htext]
  exact ht

/-- The same words elsewhere are items with the same operator between them, and their spans have the
same texts. -/
theorem Separated.of_words (h : Separated item operator ts spans)
    (hitem : ∀ t u : Token, u.word = t.word → item t → item u)
    (hwords : us.map Token.word = ts.map Token.word) :
    ∃ spans', Separated item operator us spans'
      ∧ spans'.map Span.text = spans.map Span.text := by
  induction h generalizing us with
  | one ht =>
    obtain ⟨u, rfl, hu⟩ := List.map_eq_singleton_iff.1 hwords
    exact ⟨[u.span], .one (hitem _ _ hu ht), congrArg (fun w : TokenKind × String => [w.2]) hu⟩
  | more ht hs _ ih =>
    obtain ⟨u, us, rfl, hu, hwords⟩ := List.map_eq_cons_iff.1 hwords
    obtain ⟨v, us, rfl, hv, hwords⟩ := List.map_eq_cons_iff.1 hwords
    obtain ⟨spans', hspans', htexts⟩ := ih hwords
    refine ⟨u.span :: spans', .more (hitem _ _ hu ht) (isSymbol_of_word hv hs) hspans', ?_⟩
    exact congrArg₂ List.cons (congrArg Prod.snd hu) htexts

/-- The same words elsewhere define the same module. -/
theorem ModuleBody.of_words {m : Span × List Span} (h : ModuleBody ts m)
    (hwords : us.map Token.word = ts.map Token.word) :
    ∃ m', ModuleBody us m' ∧ m'.1.text = m.1.text
      ∧ m'.2.map Span.text = m.2.map Span.text := by
  obtain ⟨hname, hequals, hpatterns⟩ := h
  obtain ⟨u, us, rfl, hu, hwords⟩ := List.map_eq_cons_iff.1 hwords
  obtain ⟨v, us, rfl, hv, hwords⟩ := List.map_eq_cons_iff.1 hwords
  obtain ⟨ps, hps, htexts⟩ :=
    hpatterns.of_words (fun _ _ hword ht => (congrArg Prod.fst hword).trans ht) hwords
  exact ⟨_, .intro (isName_of_word hu hname) (isSymbol_of_word hv hequals) hps,
    congrArg Prod.snd hu, htexts⟩

/-- The same words elsewhere state the same rule. -/
theorem RuleBody.of_words {r : RuleKind × List Span} (h : RuleBody ts r)
    (hwords : us.map Token.word = ts.map Token.word) :
    ∃ r', RuleBody us r' ∧ r'.1 = r.1 ∧ r'.2.map Span.text = r.2.map Span.text := by
  cases h with
  | chain hname harrow hnames =>
    obtain ⟨u, us, rfl, hu, hwords⟩ := List.map_eq_cons_iff.1 hwords
    obtain ⟨v, us, rfl, hv, hwords⟩ := List.map_eq_cons_iff.1 hwords
    obtain ⟨ns, hns, htexts⟩ := hnames.of_words (fun _ _ => isName_of_word) hwords
    exact ⟨_, .chain (isName_of_word hu hname) (isSymbol_of_word hv harrow) hns, rfl,
      congrArg₂ List.cons (congrArg Prod.snd hu) htexts⟩
  | noDependency ha harrow hb =>
    obtain ⟨u, us, rfl, hu, hwords⟩ := List.map_eq_cons_iff.1 hwords
    obtain ⟨v, us, rfl, hv, hwords⟩ := List.map_eq_cons_iff.1 hwords
    obtain ⟨w, rfl, hw⟩ := List.map_eq_singleton_iff.1 hwords
    refine ⟨_, .noDependency (isName_of_word hu ha) (isSymbol_of_word hv harrow)
      (isName_of_word hw hb), rfl, ?_⟩
    exact congrArg₂ (fun x y : TokenKind × String => [x.2, y.2]) hu hw

/-! ## Where a line ends -/

/-- The last item is the last token, and no line ends in front of it. -/
theorem Separated.exists_last (h : Separated item operator ts spans)
    (hitem : ∀ t, item t → ¬ IsNewline t) :
    ∃ front last, ts = front ++ [last] ∧ item last ∧ spans.getLast? = some last.span
      ∧ ∀ t ∈ front, ¬ IsNewline t := by
  induction h with
  | @one t ht => exact ⟨[], t, rfl, ht, rfl, List.forall_mem_nil _⟩
  -- the operator in front of the rest ends no line either
  | @more t u ts spans ht hu _ ih =>
    obtain ⟨front, last, rfl, hlast, hspan, hfront⟩ := ih
    refine ⟨t :: u :: front, last, rfl, hlast, ?_, ?_⟩
    · rw [List.getLast?_cons, hspan]
      rfl
    · exact List.forall_mem_cons.2 ⟨hitem t ht, List.forall_mem_cons.2 ⟨hu.not_isNewline, hfront⟩⟩

theorem IsName.not_isNewline {t : Token} (h : IsName t) : ¬ IsNewline t := fun hn =>
  absurd (h.1.symm.trans hn) (by decide)

/-- The line of a module goes from its name to its last pattern. -/
theorem ModuleBody.exists_last {m : Span × List Span} (h : ModuleBody ts m) :
    ∃ n inner last, ts = n :: (inner ++ [last]) ∧ n.kind = .glob ∧ m.1 = n.span
      ∧ last.kind = .string ∧ m.2.getLast? = some last.span ∧ ∀ t ∈ ts, ¬ IsNewline t := by
  obtain @⟨n, equals, _, ps, hname, hequals, hpatterns⟩ := h
  have hstring (t : Token) (ht : t.kind = .string) : ¬ IsNewline t := fun hn =>
    absurd (ht.symm.trans hn) (by decide)
  obtain ⟨front, last, rfl, hlast, hspan, hfront⟩ := hpatterns.exists_last hstring
  refine ⟨n, equals :: front, last, rfl, hname.1, rfl, hlast, hspan, ?_⟩
  rw [← List.cons_append, ← List.cons_append]
  exact List.forall_mem_append.2 ⟨List.forall_mem_cons.2 ⟨hname.not_isNewline,
    List.forall_mem_cons.2 ⟨hequals.not_isNewline, hfront⟩⟩,
    List.forall_mem_singleton.2 (hstring last hlast)⟩

/-- The line of a rule goes from its first name to its last. -/
theorem RuleBody.exists_last {r : RuleKind × List Span} (h : RuleBody ts r) :
    ∃ n inner last, ts = n :: (inner ++ [last]) ∧ n.kind = .glob ∧ r.2.head? = some n.span
      ∧ last.kind = .glob ∧ r.2.getLast? = some last.span ∧ ∀ t ∈ ts, ¬ IsNewline t := by
  cases h with
  | @chain n arrow _ ns hname harrow hnames =>
    obtain ⟨front, last, rfl, hlast, hspan, hfront⟩ :=
      hnames.exists_last fun _ => IsName.not_isNewline
    refine ⟨n, arrow :: front, last, rfl, hname.1, rfl, hlast.1, ?_, ?_⟩
    · rw [List.getLast?_cons, hspan]
      rfl
    · rw [← List.cons_append, ← List.cons_append]
      exact List.forall_mem_append.2 ⟨List.forall_mem_cons.2 ⟨hname.not_isNewline,
        List.forall_mem_cons.2 ⟨harrow.not_isNewline, hfront⟩⟩,
        List.forall_mem_singleton.2 hlast.not_isNewline⟩
  | @noDependency a arrow b ha harrow hb =>
    refine ⟨a, [arrow], b, rfl, ha.1, rfl, hb.1, rfl, ?_⟩
    exact List.forall_mem_cons.2 ⟨ha.not_isNewline,
      List.forall_mem_cons.2 ⟨harrow.not_isNewline, List.forall_mem_singleton.2 hb.not_isNewline⟩⟩

end

end Grammar

/-! ## Steps on tokens ahead -/

namespace Parser

open Grammar

/-- Has the parser just these tokens ahead, up to the end of the text? -/
def Sees (p : Parser) (ts : List Token) : Prop :=
  p.ahead = ts.map .ok

/-- Does a step of reading from `p` on succeed with a result that meets `post`, and leave these
tokens ahead? -/
def Yields {α : Type} (p : Parser) (step : Parse α) (post : α → Prop) (us : List Token) : Prop :=
  ∃ a q, p.run step = (.ok a, q) ∧ q.Sees us ∧ post a

section
variable {α β : Type} {p q : Parser} {t : Token} {ts us vs : List Token} {step : Parse α}
  {post : α → Prop}

/-- The token under view comes first. -/
theorem Sees.exists_cons (h : p.Sees ts) : ∃ us, ts = p.token :: us := by
  obtain ⟨t, us, rfl, ht, -⟩ := List.map_eq_cons_iff.1 h.symm
  obtain rfl := Except.ok.inj ht
  exact ⟨us, rfl⟩

theorem Sees.token_eq (h : p.Sees (t :: ts)) : p.token = t := by
  obtain ⟨us, hcons⟩ := h.exists_cons
  exact (List.cons.inj hcons).1.symm

/-- The token under view is not one that does not come next. -/
theorem Sees.not_token {holds : Token → Prop} (h : p.Sees ts) (hts : ∀ t ∈ ts.head?, ¬ holds t) :
    ¬ holds p.token := by
  obtain ⟨us, rfl⟩ := h.exists_cons
  exact hts p.token rfl

/-- A step that reads nothing leaves the tokens ahead. -/
theorem yields_pure {a : α} (hp : p.Sees us) (h : post a) : p.Yields (pure a) post us :=
  ⟨a, p, rfl, hp, h⟩

/-- A step that follows another starts where that one left the parser. -/
theorem yields_bind_of_run {a : α} {f : α → Parse β} {post₂ : β → Prop}
    (hrun : p.run step = (.ok a, q)) (h : q.Yields (f a) post₂ us) :
    p.Yields (step >>= f) post₂ us := by
  obtain ⟨b, r, hrun', hr, hb⟩ := h
  refine ⟨b, r, ?_, hr, hb⟩
  rw [run_bind, hrun]
  exact hrun'

/-- Two steps one behind the other, where only what the first one yields is known. -/
theorem Yields.bind {f : α → Parse β} {post₂ : β → Prop} (h : p.Yields step post us)
    (hf : ∀ (a : α) (q : Parser), q.Sees us → post a → q.Yields (f a) post₂ vs) :
    p.Yields (step >>= f) post₂ vs := by
  obtain ⟨a, q, hrun, hq, ha⟩ := h
  exact yields_bind_of_run hrun (hf a q hq ha)

/-- Looking at the parser leaves the tokens ahead. -/
theorem yields_get_bind {f : Parser → Parse α} (h : p.Yields (f p) post us) :
    p.Yields (get >>= f) post us :=
  yields_bind_of_run (run_get p) h

/-- One token less is ahead behind it. -/
theorem yields_advance (hp : p.Sees (t :: us)) (ht : t.kind ≠ .eof) :
    p.Yields advance (fun _ => True) us := by
  obtain rfl := hp.token_eq
  obtain ⟨q, hrun, hahead, -⟩ | ⟨e, q, -, hahead⟩ := run_advance ht
  · exact ⟨(), q, hrun, (List.cons.inj (hahead.symm.trans hp)).2, trivial⟩
  · -- only tokens are ahead, and no error
    have herror := (List.cons.inj (hahead.symm.trans hp)).2
    obtain ⟨u, us, rfl, hu, -⟩ := List.map_eq_cons_iff.1 herror.symm
    cases hu

/-- A symbol that is expected and there is read. -/
theorem yields_expectSymbol {text : String} (context : Context) (hp : p.Sees (t :: us))
    (ht : IsSymbol text t) : p.Yields (expectSymbol text context) (fun _ => True) us := by
  apply yields_get_bind
  rw [if_pos (atSymbol_iff.2 (hp.token_eq ▸ ht))]
  exact yields_advance hp (by rw [ht.1]; decide)

/-- A name is read as its span. -/
theorem yields_identifier (context : Context) (hp : p.Sees (t :: us)) (ht : IsName t) :
    p.Yields (identifier context) (· = t.span) us := by
  obtain ⟨hkind, hidentifier, hkeyword⟩ := isName_iff.1 ht
  apply yields_get_bind
  rw [hp.token_eq]
  dsimp only
  rw [if_pos hkind, if_neg (by simp [hkeyword]), if_pos hidentifier]
  exact (yields_advance hp (by rw [hkind]; decide)).bind fun _ _ hq _ => yields_pure hq rfl

/-- A quoted text is read as its span. -/
theorem yields_pattern (hp : p.Sees (t :: us)) (ht : t.kind = .string) :
    p.Yields pattern (· = t.span) us := by
  apply yields_get_bind
  rw [hp.token_eq]
  dsimp only
  rw [if_pos ht]
  exact (yields_advance hp (by rw [ht]; decide)).bind fun _ _ hq _ => yields_pure hq rfl

theorem yields_spanFrom (first : Span) (hp : p.Sees us) :
    p.Yields (spanFrom first) (fun _ => True) us :=
  yields_get_bind (yields_pure hp trivial)

/-- The line ends ahead are read one a round, and the loop stops at the first other token. -/
theorem rounds_newlines (hts : ∀ t ∈ ts, IsNewline t) (hus : ∀ u ∈ us.head?, ¬ IsNewline u)
    (hp : p.Sees (ts ++ us)) :
    ∃ n as q, Rounds atNewline advance n p (.ok as, q) ∧ q.Sees us := by
  induction ts generalizing p with
  | nil =>
    have hstop : p.atNewline = false := atNewline_eq_false_iff.2 (hp.not_token hus)
    exact ⟨0, [], p, .stops hstop, hp⟩
  | cons t ts ih =>
    obtain ⟨ht, hts⟩ := List.forall_mem_cons.1 hts
    obtain ⟨_, q, hrun, hq, -⟩ := yields_advance hp (by rw [show t.kind = .newline from ht]; decide)
    obtain ⟨n, as, r, hrounds, hr⟩ := ih hts hq
    exact ⟨n + 1, () :: as, r, .goesOn (atNewline_iff.2 (hp.token_eq ▸ ht)) hrun hrounds, hr⟩

/-- All line ends that come next are read. -/
theorem yields_expectNewlines (context : Context) (hts : LineEnds ts)
    (hus : ∀ u ∈ us.head?, ¬ IsNewline u) (hp : p.Sees (ts ++ us)) :
    p.Yields (expectNewlines context) (fun _ => True) us := by
  obtain ⟨hne, hall⟩ := hts
  obtain ⟨t, ts, rfl⟩ := List.exists_cons_of_ne_nil hne
  have hat : p.atNewline = true := by
    rw [atNewline_iff, hp.token_eq]
    exact hall t List.mem_cons_self
  obtain ⟨n, as, q, hrounds, hq⟩ := rounds_newlines hall hus hp
  apply yields_get_bind
  rw [if_pos hat]
  refine ⟨(), q, ?_, hq, trivial⟩
  -- the loop is known to terminate, so it does just what the rounds do
  rw [skipNewlines, run_bind, hrounds.run_eq terminates_newlines]
  rfl

/-- The items behind the first one are read one a round. -/
theorem rounds_separated {item : Parse Span} {isItem : Token → Prop} {operator : String}
    (hitem : ∀ (p : Parser) (t : Token) (us : List Token), isItem t → p.Sees (t :: us) →
      p.Yields item (· = t.span) us)
    {spans : List Span} (h : Separated isItem operator ts spans)
    (hus : ∀ u ∈ us.head?, ¬ IsSymbol operator u) (hp : p.Sees (ts ++ us)) :
    ∃ head q n others r, p.run item = (.ok head, q)
      ∧ Rounds (atSymbol operator) (do advance; item) n q (.ok others, r)
      ∧ r.Sees us ∧ spans = head :: others := by
  induction h generalizing p with
  | one ht =>
    obtain ⟨_, q, hrun, hq, rfl⟩ := hitem p _ us ht hp
    have hstop : q.atSymbol operator = false := atSymbol_eq_false_iff.2 (hq.not_token hus)
    exact ⟨_, q, 0, [], q, hrun, .stops hstop, hq, rfl⟩
  | @more t u ts spans ht hu _ ih =>
    obtain ⟨_, q, hrun, hq, rfl⟩ := hitem p t _ ht hp
    obtain ⟨_, q₁, hadvance, hq₁, -⟩ := yields_advance hq (by rw [hu.1]; decide)
    obtain ⟨head, q₂, n, others, r, hhead, hrounds, hr, rfl⟩ := ih hq₁
    refine ⟨_, q, n + 1, head :: others, r, hrun, ?_, hr, rfl⟩
    refine .goesOn (atSymbol_iff.2 (hq.token_eq ▸ hu)) ?_ hrounds
    rw [run_bind, hadvance]
    exact hhead

/-! ## Lines -/

/-- In front of line ends nothing else can follow. -/
theorem not_of_lineEnds {holds : Token → Prop} (hts : LineEnds ts)
    (hholds : ∀ t, holds t → ¬ IsNewline t) : ∀ u ∈ (ts ++ us).head?, ¬ holds u := by
  obtain ⟨hne, hall⟩ := hts
  obtain ⟨t, ts, rfl⟩ := List.exists_cons_of_ne_nil hne
  rintro _ ⟨⟩ ht
  exact hholds t ht (hall t List.mem_cons_self)

/-- The line of a module is read as what it says, if no line end comes behind its own. -/
theorem yields_moduleDef {body ends : List Token} {m : Span × List Span} (h : ModuleBody body m)
    (hends : LineEnds ends) (hus : ∀ u ∈ us.head?, ¬ IsNewline u)
    (hp : p.Sees (body ++ (ends ++ us))) :
    p.Yields moduleDef (fun d => (d.name, d.patterns) = m) us := by
  obtain ⟨hname, hequals, hpatterns⟩ := h
  apply yields_get_bind
  refine (yields_identifier _ hp hname).bind fun name p₁ h₁ heq => ?_
  subst heq
  refine (yields_expectSymbol _ h₁ hequals).bind fun _ p₂ h₂ _ => ?_
  obtain ⟨head, q, n, others, r, hhead, hrounds, hr, rfl⟩ := rounds_separated
    (fun _ _ _ ht hp => yields_pattern hp ht) hpatterns
    (not_of_lineEnds hends fun _ => IsSymbol.not_isNewline) h₂
  -- the patterns behind the first one are the rounds of a loop
  refine yields_bind_of_run hhead ?_
  refine yields_bind_of_run (hrounds.run_eq terminates_patterns) ?_
  refine (yields_spanFrom _ hr).bind fun span p₅ h₅ _ => ?_
  refine (yields_expectNewlines _ hends hus h₅).bind fun _ _ h₆ _ => ?_
  exact yields_pure h₆ rfl

/-- Where line ends come next no operator is under view. -/
theorem Sees.atSymbol_eq_false {ends : List Token} (hp : p.Sees (ends ++ us))
    (hends : LineEnds ends) (text : String) : p.atSymbol text = false :=
  atSymbol_eq_false_iff.2 (hp.not_token (not_of_lineEnds hends fun _ => IsSymbol.not_isNewline))

/-- A chain is read from its first operator up to the line ends. -/
theorem yields_chainRest {ends : List Token} {arrow : Token} {ns : List Span} (first : Span)
    (harrow : IsSymbol chainOperator arrow) (h : Separated IsName chainOperator ts ns)
    (hends : LineEnds ends) (hp : p.Sees (arrow :: ts ++ (ends ++ us))) :
    p.Yields (chainRest first) (fun r => (r.kind, r.names) = (.dependency, first :: ns))
      (ends ++ us) := by
  obtain ⟨_, p₁, hadvance, h₁, -⟩ := yields_advance hp (by rw [harrow.1]; decide)
  obtain ⟨head, q, n, others, r, hhead, hrounds, hr, rfl⟩ := rounds_separated
    (fun _ _ _ ht hp => yields_identifier .afterChainOperator hp ht) h
    (not_of_lineEnds hends fun _ => IsSymbol.not_isNewline) h₁
  have hround : p.run (do advance; identifier .afterChainOperator) = (.ok head, q) := by
    rw [run_bind, hadvance]
    exact hhead
  -- here the first operator is read by the loop too, so it makes one round more
  have hall := Rounds.goesOn (atSymbol_iff.2 (hp.token_eq ▸ harrow)) hround hrounds
  refine yields_bind_of_run (hall.run_eq terminates_names) ?_
  apply yields_get_bind
  rw [if_neg (by simp [hr.atSymbol_eq_false hends])]
  exact (yields_spanFrom _ hr).bind fun _ _ hq _ => yields_pure hq rfl

/-- A forbidden dependency is read from its operator up to the line ends. -/
theorem yields_noDependencyRest {ends : List Token} {arrow dest : Token} (first : Span)
    (harrow : IsSymbol noDependencyOperator arrow) (hdest : IsName dest) (hends : LineEnds ends)
    (hp : p.Sees (arrow :: dest :: (ends ++ us))) :
    p.Yields (noDependencyRest first)
      (fun r => (r.kind, r.names) = (.noDependency, [first, dest.span])) (ends ++ us) := by
  refine (yields_advance hp (by rw [harrow.1]; decide)).bind fun _ p₁ h₁ _ => ?_
  refine (yields_identifier _ h₁ hdest).bind fun _ p₂ h₂ heq => ?_
  subst heq
  apply yields_get_bind
  rw [if_neg (by simp [h₂.atSymbol_eq_false hends])]
  exact (yields_spanFrom _ h₂).bind fun _ _ hq _ => yields_pure hq rfl

/-- The line of a rule is read as what it says, if no line end comes behind its own. -/
theorem yields_rule {body ends : List Token} {said : RuleKind × List Span} (h : RuleBody body said)
    (hends : LineEnds ends) (hus : ∀ u ∈ us.head?, ¬ IsNewline u)
    (hp : p.Sees (body ++ (ends ++ us))) :
    p.Yields rule (fun r => (r.kind, r.names) = said) us := by
  have hend (r : Rule) (q : Parser) (hq : q.Sees (ends ++ us)) (hr : (r.kind, r.names) = said) :
      q.Yields (expectNewlines .afterRule >>= fun _ => pure r)
        (fun r => (r.kind, r.names) = said) us :=
    (yields_expectNewlines _ hends hus hq).bind fun _ _ hq' _ => yields_pure hq' hr
  -- the operator behind the first name decides how the rest is read
  cases h with
  | chain hname harrow hnames =>
    refine (yields_identifier _ hp hname).bind fun _ p₁ h₁ heq => ?_
    subst heq
    apply yields_get_bind
    rw [if_pos (atSymbol_iff.2 (h₁.token_eq ▸ harrow))]
    exact (yields_chainRest _ harrow hnames hends h₁).bind hend
  | noDependency ha harrow hb =>
    refine (yields_identifier _ hp ha).bind fun _ p₁ h₁ heq => ?_
    subst heq
    have hchain : p₁.atSymbol chainOperator = false := by
      rw [atSymbol_eq_false_iff, h₁.token_eq]
      exact fun h => absurd (harrow.2.symm.trans h.2) (by decide)
    apply yields_get_bind
    rw [if_neg (by simp [hchain]), if_pos (atSymbol_iff.2 (h₁.token_eq ▸ harrow))]
    exact (yields_noDependencyRest _ harrow hb hends h₁).bind hend

end

end Parser

end Conformance
