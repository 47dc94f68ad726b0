import Conformance.Proofs.Specification.Tracking
import Conformance.Proofs.Token.Places
import Conformance.Specification.Session

/-!
# Places that a parser returns

All places in what a parser returns can be cut out of the text, whatever was called before. What
carries this is that a parser keeps its order also when a call fails half-way: the offset behind the
last token read, the end of the token under view and the offset of the lexer ascend
(`Parser.IsPlaced`). Every step of the parser has a lemma here that it keeps this and returns places
that stand in the text, from which a session is put together (`Parser.sessionSpans_sliceable`). Of
a definition it returns the place from the name to the closing quote of the last pattern
(`ModuleDef.StandsIn`), and of a rule that from the first name to the last one (`Rule.StandsIn`).
-/

namespace Conformance

/-- Do the places of a definition stand in the text, and does that of the whole definition reach from
its name to one byte behind its last pattern, where the closing quote ends? -/
def ModuleDef.StandsIn (d : ModuleDef) (src : Source) : Prop :=
  (∀ s ∈ d.spans, s.StandsIn src) ∧ ∃ last, d.patterns.getLast? = some last
    ∧ d.span = src.span d.name.line d.name.col d.name.start (last.stop + 1)

/-- Do the places of a rule stand in the text, and does that of the whole rule reach from its first
name to its last? -/
def Rule.StandsIn (r : Rule) (src : Source) : Prop :=
  (∀ s ∈ r.spans, s.StandsIn src) ∧ ∃ first last, r.names.head? = some first
    ∧ r.names.getLast? = some last ∧ r.span = src.span first.line first.col first.start last.stop

namespace Parser

/-- Do the places in a parser stand in the text, and in order? After a lexical error the token under
view is an old one, and what was searched in vain lies between its end and the lexer. -/
structure IsPlaced (p : Parser) (src : Source) : Prop where
  source_eq : p.source = src
  lexer : p.lexer.IsPlaced src
  token : p.token.span.StandsIn src
  isBoundary_stop : src.IsBoundary p.token.stop
  stop_le_offset : p.token.stop ≤ p.lexer.offset
  isBoundary_consumed : src.IsBoundary p.consumed
  consumed_le_stop : p.consumed ≤ p.token.stop

/-- Is the parser `q` one that can come behind `p`? -/
structure Leads (src : Source) (p q : Parser) : Prop where
  isPlaced : q.IsPlaced src
  consumed_le : p.consumed ≤ q.consumed

/-- Does an outcome of reading from `p` on leave a parser that can come behind, and return a result
that meets `post` or an error at a place in the text? -/
def Ends {α : Type} (src : Source) (p : Parser) (post : α → Parser → Prop) :
    Except SpecificationError α × Parser → Prop
  | (.ok a, q) => p.Leads src q ∧ post a q
  | (.error e, q) => p.Leads src q ∧ ∀ s ∈ e.span, s.StandsIn src

/-- Does a step of reading from `p` on end like this? -/
def Keeps {α : Type} (src : Source) (p : Parser) (step : Parse α) (post : α → Parser → Prop) :
    Prop :=
  Ends src p post (p.run step)

/-- What can come behind a parser that can come behind another can come behind that one. -/
theorem Leads.trans {src : Source} {p q r : Parser} (h : p.Leads src q) (h' : q.Leads src r) :
    p.Leads src r :=
  ⟨h'.isPlaced, Nat.le_trans h.consumed_le h'.consumed_le⟩

/-- A placed parser can come behind itself. -/
theorem IsPlaced.leads {src : Source} {p : Parser} (h : p.IsPlaced src) : p.Leads src p :=
  ⟨h, Nat.le_refl _⟩

/-! ## Putting steps together -/

section
variable {α β : Type} {src : Source} {p q : Parser} {step : Parse α}
  {post post' : α → Parser → Prop}

/-- An outcome that can come behind a parser can come behind an earlier one. -/
theorem Ends.of_leads {outcome : Except SpecificationError α × Parser} (hq : p.Leads src q)
    (h : Ends src q post outcome) : Ends src p post outcome := by
  obtain ⟨e | a, r⟩ := outcome
  · exact ⟨hq.trans h.1, h.2⟩
  · exact ⟨hq.trans h.1, h.2⟩

/-- What is known of a result may be weakened. -/
theorem Keeps.mono (h : p.Keeps src step post)
    (himp : ∀ a q, p.Leads src q → post a q → post' a q) : p.Keeps src step post' := by
  unfold Keeps at h ⊢
  generalize p.run step = outcome at h ⊢
  obtain ⟨e | a, q⟩ := outcome
  · exact h
  · exact ⟨h.1, himp a q h.1 h.2⟩

/-- A step that reads nothing returns its value where the parser is. -/
theorem keeps_pure {a : α} (hp : p.IsPlaced src) (h : post a p) : p.Keeps src (pure a) post :=
  ⟨hp.leads, h⟩

/-- The second step begins where the first one leaves the parser, which can come behind the first.
-/
theorem Keeps.bind {f : α → Parse β} {post₂ : β → Parser → Prop} (h : p.Keeps src step post)
    (hf : ∀ a q, p.Leads src q → post a q → q.Keeps src (f a) post₂) :
    p.Keeps src (step >>= f) post₂ := by
  unfold Keeps at h ⊢
  rw [run_bind]
  generalize p.run step = outcome at h ⊢
  obtain ⟨e | a, q⟩ := outcome
  · exact h
  · exact (hf a q h.1 h.2).of_leads h.1

/-- Nothing follows a step that always fails. -/
theorem Keeps.bind_of_fails {f : α → Parse β} {post₂ : β → Parser → Prop}
    (h : p.Keeps src step fun _ _ => False) : p.Keeps src (step >>= f) post₂ :=
  h.bind fun _ _ _ hfalse => hfalse.elim

/-- Looking at the parser moves it nowhere. -/
theorem keeps_get_bind {f : Parser → Parse α} (h : p.Keeps src (f p) post) :
    p.Keeps src (get >>= f) post := by
  unfold Keeps
  rw [run_bind, run_get]
  exact h

/-- A repetition returns what its rounds return. It leaves the parser where the last round does, or
where it was if there is no round. -/
theorem keeps_repeatWhile_last {more : Parser → Bool}
    (hstep : ∀ q : Parser, q.IsPlaced src → q.Keeps src step post) (hp : p.IsPlaced src) :
    p.Keeps src (repeatWhile more step) fun as q =>
      (∀ a ∈ as, ∃ r, post a r) ∧ (∀ a ∈ as.getLast?, post a q) ∧ (as = [] → q = p) := by
  -- by induction on what is left to be read
  induction hn : p.remaining using Nat.strongRecOn generalizing p with
  | ind n ih =>
    unfold Keeps
    rw [run_repeatWhile]
    split
    · -- the first round may fail, or the rounds behind it may, or all succeed
      have hround := hstep p hp
      unfold Keeps at hround
      generalize p.run step = outcome at hround ⊢
      obtain ⟨e | a, q⟩ := outcome
      · exact hround
      · obtain ⟨hq, hgood⟩ := hround
        show Ends src p _ (if q.remaining < p.remaining then _ else _)
        split
        · next hlt =>
          have hrest := ih q.remaining (hn ▸ hlt) hq.isPlaced rfl
          unfold Keeps at hrest
          generalize q.run (repeatWhile more step) = outcome at hrest ⊢
          obtain ⟨e | as, r⟩ := outcome
          · exact hrest.of_leads hq
          · obtain ⟨hr, hall, hlast, hnone⟩ := hrest
            refine ⟨hq.trans hr, List.forall_mem_cons.2 ⟨⟨q, hgood⟩, hall⟩, ?_, nofun⟩
            cases as with
            | nil =>
              rintro _ ⟨⟩
              rwa [hnone rfl]
            | cons b as => exact hlast
        · refine ⟨hq, List.forall_mem_singleton.2 ⟨q, hgood⟩, ?_, nofun⟩
          rintro _ ⟨⟩
          exact hgood
    · exact ⟨hp.leads, List.forall_mem_nil _, nofun, fun _ => rfl⟩

/-- A repetition of a step that returns something good returns good things. -/
theorem keeps_repeatWhile {more : Parser → Bool} {good : α → Prop}
    (hstep : ∀ q : Parser, q.IsPlaced src → q.Keeps src step fun a _ => good a)
    (hp : p.IsPlaced src) :
    p.Keeps src (repeatWhile more step) fun as _ => ∀ a ∈ as, good a := by
  refine (keeps_repeatWhile_last hstep hp).mono fun as _ _ h a ha => ?_
  obtain ⟨_, hgood⟩ := h.1 a ha
  exact hgood

end

/-! ## Single tokens -/

section
variable {α : Type} {src : Source} {p : Parser} {post : α → Parser → Prop}

/-- A parser is placed at the next token of a placed lexer, if what was read last ends in front of
the lexer. -/
theorem isPlaced_of_nextSignificant {l l' : Lexer} {t : Token} (hl : l.IsPlaced src)
    (hnext : l.nextSignificant = (.ok t, l')) {consumed : Nat} (hconsumed : src.IsBoundary consumed)
    (hle : consumed ≤ l.offset) : IsPlaced ⟨src, l', t, consumed⟩ src := by
  have hplaced := hl.placed_nextSignificant
  have hstop : t.stop = l'.offset := Lexer.stop_of_nextSignificant hnext
  rw [hnext] at hplaced
  exact {
    source_eq := rfl
    lexer := hplaced.lexer
    token := hplaced.span _ rfl
    isBoundary_stop := hstop ▸ hplaced.lexer.isBoundary
    stop_le_offset := Nat.le_of_eq hstop
    isBoundary_consumed := hconsumed
    consumed_le_stop := hstop ▸ Nat.le_trans hle hplaced.offset_le }

/-- Behind a token that was read, what was read last ends where the token does. -/
theorem keeps_advance (hp : p.IsPlaced src) :
    p.Keeps src advance fun _ q => q.consumed = p.token.stop := by
  unfold Keeps
  rcases hnext : p.lexer.nextSignificant with ⟨e | t, l⟩
  · -- the old token stays under view, and the lexer moves on behind it
    have hplaced := hp.lexer.placed_nextSignificant
    rw [hnext] at hplaced
    rw [advance_of_error hnext]
    refine ⟨⟨?_, hp.consumed_le_stop⟩, hplaced.span⟩
    exact { hp with
      lexer := hplaced.lexer
      stop_le_offset := Nat.le_trans hp.stop_le_offset hplaced.offset_le
      isBoundary_consumed := hp.isBoundary_stop
      consumed_le_stop := Nat.le_refl _ }
  · rw [advance_of_ok hnext, hp.source_eq]
    refine ⟨⟨?_, hp.consumed_le_stop⟩, rfl⟩
    exact isPlaced_of_nextSignificant hp.lexer hnext hp.isBoundary_stop hp.stop_le_offset

/-- A failure is placed at the token under view. -/
theorem keeps_fail (hp : p.IsPlaced src) (e : ParseError) : p.Keeps src (fail e) post := by
  refine ⟨hp.leads, ?_⟩
  rintro _ ⟨⟩
  exact hp.token

/-- An unexpected token is the token under view, so the failure is placed there. -/
theorem keeps_unexpected (hp : p.IsPlaced src) (expectation : Expectation) (context : Context) :
    p.Keeps src (unexpected expectation context) post := by
  apply keeps_get_bind
  split
  · exact keeps_fail hp _
  · exact keeps_fail hp _

/-- A test on the parser either reads the token under view or fails at it. -/
theorem keeps_expect (hp : p.IsPlaced src) (test : Parser → Bool) (expectation : Expectation)
    (context : Context) :
    p.Keeps src (do if test (← get) then advance else unexpected expectation context)
      fun _ _ => True := by
  apply keeps_get_bind
  split
  · exact (keeps_advance hp).mono fun _ _ _ _ => trivial
  · exact keeps_unexpected hp _ _

/-- A symbol that is expected is read, or the failure is placed where it is missing. -/
theorem keeps_expectSymbol (hp : p.IsPlaced src) (text : String) (context : Context) :
    p.Keeps src (expectSymbol text context) fun _ _ => True :=
  keeps_expect hp _ _ _

/-- A keyword that is expected is read, or the failure is placed where it is missing. -/
theorem keeps_expectKeyword (hp : p.IsPlaced src) (text : String) (context : Context) :
    p.Keeps src (expectKeyword text context) fun _ _ => True :=
  keeps_expect hp _ _ _

/-- A name is the token under view, and it is what is read last. -/
theorem keeps_identifier (hp : p.IsPlaced src) (context : Context) :
    p.Keeps src (identifier context) fun span q =>
      span = p.token.span ∧ q.consumed = span.stop := by
  apply keeps_get_bind
  dsimp only
  split
  · next hglob =>
    have hstop : p.token.stop = p.token.span.stop := if_neg (by rw [hglob]; decide)
    split
    · exact keeps_fail hp _
    · split
      · refine (keeps_advance hp).bind fun _ q hq hread => ?_
        exact keeps_pure hq.isPlaced ⟨rfl, hread.trans hstop⟩
      · exact keeps_fail hp _
  · exact keeps_unexpected hp _ _

/-- A pattern is the token under view, and its closing quote is what is read last. -/
theorem keeps_pattern (hp : p.IsPlaced src) :
    p.Keeps src pattern fun span q => span.StandsIn src ∧ q.consumed = span.stop + 1 := by
  apply keeps_get_bind
  dsimp only
  split
  · next hstring =>
    have hstop : p.token.stop = p.token.span.stop + 1 := if_pos hstring
    refine (keeps_advance hp).bind fun _ q hq hread => ?_
    exact keeps_pure hq.isPlaced ⟨hp.token, hread.trans hstop⟩
  · exact keeps_unexpected hp _ _

/-- Line ends are read one by one. -/
theorem keeps_skipNewlines (hp : p.IsPlaced src) :
    p.Keeps src skipNewlines fun _ _ => True := by
  have hround (q : Parser) (hq : q.IsPlaced src) : q.Keeps src advance fun _ _ => True :=
    (keeps_advance hq).mono fun _ _ _ _ => trivial
  refine (keeps_repeatWhile hround hp).bind ?_
  exact fun _ _ hq _ => keeps_pure hq.isPlaced trivial

/-- Line ends that are expected are read, or the failure is placed where they are missing. -/
theorem keeps_expectNewlines (hp : p.IsPlaced src) (context : Context) :
    p.Keeps src (expectNewlines context) fun _ _ => True := by
  apply keeps_get_bind
  split
  · exact keeps_skipNewlines hp
  · exact keeps_unexpected hp _ _

/-- From a place in the text up to what was read last there is a place, too. -/
theorem keeps_spanFrom (hp : p.IsPlaced src) {first : Span} (hfirst : first.StandsIn src)
    (hread : first.start ≤ p.consumed) :
    p.Keeps src (spanFrom first) fun span _ =>
      span.StandsIn src ∧ span = src.span first.line first.col first.start p.consumed := by
  apply keeps_get_bind
  refine keeps_pure hp ?_
  rw [hp.source_eq]
  exact ⟨hfirst.upTo hread hp.isBoundary_consumed, rfl⟩

end

/-! ## Lines and whole specifications -/

section
variable {src : Source} {p : Parser}

/-- The definition of a module is returned with places in the text, the last of which its own place
ends behind. -/
theorem keeps_moduleDef (hp : p.IsPlaced src) :
    p.Keeps src moduleDef fun d _ => d.StandsIn src := by
  have hround (q : Parser) (hq : q.IsPlaced src) :
      q.Keeps src (do advance; pattern) fun span r =>
        span.StandsIn src ∧ r.consumed = span.stop + 1 := by
    refine (keeps_advance hq).bind ?_
    exact fun _ _ hq _ => keeps_pattern hq.isPlaced
  apply keeps_get_bind
  refine (keeps_identifier hp _).bind ?_
  intro name p₁ h₁ hname
  obtain ⟨rfl, hread⟩ := hname
  have hbegun : p.token.span.start ≤ p₁.consumed := hread ▸ hp.token.isCut.start_le_stop
  refine (keeps_expectSymbol h₁.isPlaced _ _).bind ?_
  intro _ p₂ h₂ _
  refine (keeps_pattern h₂.isPlaced).bind ?_
  intro head p₃ h₃ hhead
  refine (keeps_repeatWhile_last hround h₃.isPlaced).bind ?_
  intro others p₄ h₄ hothers
  obtain ⟨hall, hlast, hnone⟩ := hothers
  -- what was read last ends behind the name, so the place of the line begins before its end
  have hbehind := Nat.le_trans hbegun ((h₂.trans h₃).trans h₄).consumed_le
  refine (keeps_spanFrom h₄.isPlaced hp.token hbehind).bind ?_
  intro span p₅ h₅ hspan
  refine (keeps_expectNewlines h₅.isPlaced _).bind ?_
  intro _ p₆ h₆ _
  refine keeps_pure h₆.isPlaced ⟨?_, (head :: others).getLast (List.cons_ne_nil _ _),
    List.getLast?_eq_some_getLast _, ?_⟩
  · simp only [ModuleDef.spans, List.forall_mem_cons]
    exact ⟨hspan.1, hp.token, hhead.1, fun s hs => (hall s hs).elim fun _ h => h.1⟩
  · -- what was read last is the closing quote of the last pattern, which may be the first one
    refine hspan.2.trans (congrArg _ ?_)
    cases others with
    | nil => rw [hnone rfl, hhead.2, List.getLast_singleton]
    | cons other others => exact (hlast _ (List.getLast?_eq_some_getLast _)).2

/-- The name in front of a rule is what was read last. -/
theorem keeps_chainRest (hp : p.IsPlaced src) {first : Span} (hfirst : first.StandsIn src)
    (hread : p.consumed = first.stop) :
    p.Keeps src (chainRest first) fun r _ => r.StandsIn src := by
  have hround (q : Parser) (hq : q.IsPlaced src) :
      q.Keeps src (do advance; identifier .afterChainOperator) fun span r =>
        span.StandsIn src ∧ r.consumed = span.stop := by
    refine (keeps_advance hq).bind ?_
    intro _ q' hq' _
    refine (keeps_identifier hq'.isPlaced _).mono ?_
    rintro _ _ _ ⟨rfl, hstop⟩
    exact ⟨hq'.isPlaced.token, hstop⟩
  refine (keeps_repeatWhile_last hround hp).bind ?_
  intro others p₁ h₁ hothers
  obtain ⟨hall, hlast, hnone⟩ := hothers
  apply keeps_get_bind
  split
  · exact (keeps_fail h₁.isPlaced _).bind_of_fails
  · have hbegun := Nat.le_trans (hread ▸ hfirst.isCut.start_le_stop) h₁.consumed_le
    refine (keeps_spanFrom h₁.isPlaced hfirst hbegun).bind ?_
    intro span p₂ h₂ hspan
    refine keeps_pure h₂.isPlaced ⟨?_, first, (first :: others).getLast (List.cons_ne_nil _ _), rfl,
      List.getLast?_eq_some_getLast _, ?_⟩
    · simp only [Rule.spans, Rule.span, Rule.names, List.forall_mem_cons]
      exact ⟨hspan.1, hfirst, fun s hs => (hall s hs).elim fun _ h => h.1⟩
    · -- without a round the chain has but the name in front of it
      refine hspan.2.trans (congrArg _ ?_)
      cases others with
      | nil => rw [hnone rfl, hread, List.getLast_singleton]
      | cons other others => exact (hlast _ (List.getLast?_eq_some_getLast _)).2

/-- A forbidden dependency is placed from its first name to the one behind the operator. -/
theorem keeps_noDependencyRest (hp : p.IsPlaced src) {first : Span} (hfirst : first.StandsIn src)
    (hread : p.consumed = first.stop) :
    p.Keeps src (noDependencyRest first) fun r _ => r.StandsIn src := by
  refine (keeps_advance hp).bind ?_
  intro _ p₁ h₁ _
  refine (keeps_identifier h₁.isPlaced _).bind ?_
  intro dest p₂ h₂ hdest
  obtain ⟨rfl, hlast⟩ := hdest
  apply keeps_get_bind
  split
  · exact (keeps_fail h₂.isPlaced _).bind_of_fails
  · have hbegun :=
      Nat.le_trans (hread ▸ hfirst.isCut.start_le_stop) (h₁.trans h₂).consumed_le
    refine (keeps_spanFrom h₂.isPlaced hfirst hbegun).bind ?_
    intro span p₃ h₃ hspan
    refine keeps_pure h₃.isPlaced ⟨?_, first, p₁.token.span, rfl, rfl, ?_⟩
    · simp only [Rule.spans, Rule.span, Rule.names, List.forall_mem_cons]
      exact ⟨hspan.1, hfirst, h₁.isPlaced.token, List.forall_mem_nil _⟩
    · exact hspan.2.trans (congrArg _ hlast)

/-- A rule of either kind is returned with places in the text. -/
theorem keeps_rule (hp : p.IsPlaced src) :
    p.Keeps src rule fun r _ => r.StandsIn src := by
  refine (keeps_identifier hp _).bind ?_
  intro first p₁ h₁ hfirst
  obtain ⟨rfl, hread⟩ := hfirst
  apply keeps_get_bind
  have hend (r : Rule) (q : Parser) (hq : p₁.Leads src q) (hr : r.StandsIn src) :
      q.Keeps src (expectNewlines .afterRule >>= fun _ => pure r) fun r _ => r.StandsIn src := by
    refine (keeps_expectNewlines hq.isPlaced _).bind ?_
    exact fun _ _ hq' _ => keeps_pure hq'.isPlaced hr
  split
  · exact (keeps_chainRest h₁.isPlaced hp.token hread).bind hend
  · split
    · exact (keeps_noDependencyRest h₁.isPlaced hp.token hread).bind hend
    · exact (keeps_unexpected h₁.isPlaced _ _).bind_of_fails

/-- A specification is returned with places in the text, and so are all its lines. -/
theorem keeps_specification (hp : p.IsPlaced src) :
    p.Keeps src specification fun spec _ => (∀ s ∈ spec.spans, s.StandsIn src)
      ∧ (∀ d ∈ spec.modules, d.StandsIn src) ∧ ∀ r ∈ spec.rules, r.StandsIn src := by
  have hround (q : Parser) (hq : q.IsPlaced src) :
      q.Keeps src (do
          if (← get).atEnd then unexpected (.word rulesKeyword) .afterModuleDefinitions
          moduleDef)
        fun d _ => d.StandsIn src := by
    apply keeps_get_bind
    split
    · exact (keeps_unexpected hq _ _).bind_of_fails
    · exact keeps_moduleDef hq
  -- step by step through both headings and the lines behind them
  refine (keeps_skipNewlines hp).bind ?_
  intro _ p₁ h₁ _
  refine (keeps_expectKeyword h₁.isPlaced _ _).bind ?_
  intro _ p₂ h₂ _
  refine (keeps_expectSymbol h₂.isPlaced _ _).bind ?_
  intro _ p₃ h₃ _
  refine (keeps_expectNewlines h₃.isPlaced _).bind ?_
  intro _ p₄ h₄ _
  refine (keeps_repeatWhile hround h₄.isPlaced).bind ?_
  intro modules p₅ h₅ hmodules
  refine (keeps_advance h₅.isPlaced).bind ?_
  intro _ p₆ h₆ _
  refine (keeps_expectSymbol h₆.isPlaced _ _).bind ?_
  intro _ p₇ h₇ _
  refine (keeps_expectNewlines h₇.isPlaced _).bind ?_
  intro _ p₈ h₈ _
  refine (keeps_repeatWhile (fun _ => keeps_rule) h₈.isPlaced).bind ?_
  intro rules p₉ h₉ hrules
  refine keeps_pure h₉.isPlaced ⟨fun s hs => ?_, hmodules, hrules⟩
  rcases List.mem_append.1 hs with hs | hs
  · obtain ⟨d, hd, hs⟩ := List.mem_flatMap.1 hs
    exact (hmodules d hd).1 s hs
  · obtain ⟨r, hr, hs⟩ := List.mem_flatMap.1 hs
    exact (hrules r hr).1 s hs

end

/-! ## Sessions -/

variable {src : Source}

/-- The first token of a text, or the error in its place, stands in the text. -/
theorem placed_ofSource (src : Source) :
    (∀ p, ofSource src = .ok p → p.IsPlaced src)
      ∧ ∀ e, ofSource src = .error e → ∀ s ∈ e.span, s.StandsIn src := by
  have hlexer := Lexer.isPlaced_ofSource src
  unfold ofSource
  rcases hnext : (Lexer.ofSource src).nextSignificant with ⟨e | t, l⟩
  · refine ⟨?_, ?_⟩
    · intro p hp
      cases hp
    · rintro _ ⟨⟩
      have hplaced := hlexer.placed_nextSignificant
      rw [hnext] at hplaced
      exact hplaced.span
  · refine ⟨?_, ?_⟩
    · rintro _ ⟨⟩
      exact isPlaced_of_nextSignificant hlexer hnext hlexer.isBoundary (Nat.zero_le _)
    · intro e he
      cases he

/-- Are the parsers of a session, those saved among them, placed in the text? -/
def Session.IsPlaced (s : Session) (src : Source) : Prop :=
  s.parser.IsPlaced src ∧ ∀ p ∈ s.saved, p.IsPlaced src

/-- A step of reading in a session keeps its parsers placed, whether it succeeds or not. -/
theorem Session.IsPlaced.read {s : Session} (h : s.IsPlaced src) {α : Type} {step : Parse α}
    {spans : α → List Span}
    (hstep : s.parser.Keeps src step fun a _ => ∀ x ∈ spans a, x.StandsIn src) :
    (∀ x ∈ (s.read step spans).1, x.StandsIn src) ∧ (s.read step spans).2.IsPlaced src := by
  unfold Keeps at hstep
  unfold Session.read
  generalize s.parser.run step = outcome at hstep ⊢
  obtain ⟨e | a, p⟩ := outcome
  · exact ⟨fun x hx => hstep.2 x (Option.mem_toList.1 hx), hstep.1.isPlaced, h.2⟩
  · exact ⟨hstep.2, hstep.1.isPlaced, h.2⟩

/-- A call returns places in the text, and leaves parsers that are placed in it. -/
theorem Session.IsPlaced.call {s : Session} (h : s.IsPlaced src) (c : Call) :
    (∀ x ∈ (s.call c).1, x.StandsIn src) ∧ (s.call c).2.IsPlaced src := by
  cases c with
  | nextToken => exact h.read ((keeps_advance h.1).mono fun _ _ _ _ => List.forall_mem_nil _)
  | moduleDef => exact h.read ((keeps_moduleDef h.1).mono fun _ _ _ hd => hd.1)
  | rule => exact h.read ((keeps_rule h.1).mono fun _ _ _ hr => hr.1)
  | specification => exact h.read ((keeps_specification h.1).mono fun _ _ _ hs => hs.1)
  | save =>
    refine ⟨List.forall_mem_nil _, h.1, List.forall_mem_append.2 ⟨h.2, ?_⟩⟩
    exact List.forall_mem_singleton.2 h.1
  | restore i =>
    refine ⟨List.forall_mem_nil _, ?_, h.2⟩
    show (s.saved[i]?.getD s.parser).IsPlaced src
    cases hi : s.saved[i]? with
    | none => exact h.1
    | some p => exact h.2 p (List.mem_of_getElem? hi)

/-- All calls of a session return places in the text, by induction over the calls. -/
theorem Session.IsPlaced.spans {s : Session} (h : s.IsPlaced src) (calls : List Call) :
    ∀ x ∈ s.spans calls, x.StandsIn src := by
  induction calls generalizing s with
  | nil => exact List.forall_mem_nil _
  | cons c calls ih =>
    obtain ⟨hspans, hafter⟩ := h.call c
    exact List.forall_mem_append.2 ⟨hspans, ih hafter⟩

/-- Every place that a session on a text returns, whatever its calls, can be cut out of the text:
its two offsets are boundaries between characters, in order and within the text, and its line is one
of the lines of the text, which can be cut out of it, too. -/
theorem sessionSpans_sliceable (src : Source) (calls : List Call) :
    ∀ s ∈ sessionSpans src calls, s.IsSliceable src := by
  intro s hs
  apply Span.StandsIn.isSliceable
  obtain ⟨hok, herror⟩ := placed_ofSource src
  unfold sessionSpans at hs
  split at hs
  · next p hp => exact Session.IsPlaced.spans ⟨hok p hp, List.forall_mem_nil _⟩ calls s hs
  · next e he => exact herror e he s (Option.mem_toList.1 hs)

/-- A definition with an open string on the line behind it. -/
def openStringSample : Source := ⟨"case.arch", "A = \"é\"\n\"x\nB -> A\n"⟩

/-- The definition fails at the string, and then a rule fails at the old line end in front of it. On
the next line a rule is read, and the saved parser is back at the first one. -/
theorem sessionSpans_sliceable_openString :
    sessionSpans openStringSample
        [.save, .moduleDef, .rule, .nextToken, .nextToken, .rule, .restore 0, .nextToken, .rule]
      = [⟨2, 1, 9, 10, "\""⟩, ⟨1, 8, 8, 9, "\n"⟩, ⟨3, 1, 12, 18, "B -> A"⟩, ⟨3, 1, 12, 13, "B"⟩,
        ⟨3, 6, 17, 18, "A"⟩, ⟨1, 3, 2, 3, "="⟩]
      ∧ Span.IsSliceable ⟨1, 8, 8, 9, "\n"⟩ openStringSample
      ∧ Span.IsSliceable ⟨3, 1, 12, 18, "B -> A"⟩ openStringSample := by
  have hspans : sessionSpans openStringSample
      [.save, .moduleDef, .rule, .nextToken, .nextToken, .rule, .restore 0, .nextToken, .rule]
      = [⟨2, 1, 9, 10, "\""⟩, ⟨1, 8, 8, 9, "\n"⟩, ⟨3, 1, 12, 18, "B -> A"⟩, ⟨3, 1, 12, 13, "B"⟩,
        ⟨3, 6, 17, 18, "A"⟩, ⟨1, 3, 2, 3, "="⟩] := by decide +kernel
  have hsliceable := sessionSpans_sliceable openStringSample
    [.save, .moduleDef, .rule, .nextToken, .nextToken, .rule, .restore 0, .nextToken, .rule]
  rw [hspans] at hsliceable
  exact ⟨hspans, hsliceable _ (by simp), hsliceable _ (by simp)⟩

end Parser

end Conformance
