import Conformance.Proofs.Specification.Recogniser
import Conformance.Proofs.Specification.Stream

/-!
# Parsers follow the recogniser

`Parser.Tracks` says how a step of reading and the recogniser of the grammar go together. The tokens
that the step reads off can stand where they stand. When it fails at a token, that token cannot, and
when it fails with a lexical error, all tokens in front of that can. Each step of the parser has a
lemma here that says so, from which the lemma for a whole specification is put together
(`Parser.tracks_specification`).
-/

namespace Conformance.Parser

open Grammar

/-- Does a failure of reading from `p` on, which ends with the parser `q`, go with the recogniser
from `r` on? -/
def Failure (p : Parser) (r : Reading) (q : Parser) : SpecificationError → Prop
  | .lex e => ∃ ts s, p.ahead = ts.map .ok ++ [.error e] ∧ r.run ts = some s
  | .parse e => ∃ ts s, p.ahead = ts.map .ok ++ q.ahead ∧ r.run ts = some s
    ∧ s.step q.token = none ∧ e.span = some q.token.span
  | .compile _ => False

/-- Does an outcome of reading from `p` on go with the recogniser from `r` on, and does the result,
if there is one, meet `post`? -/
def Outcome {α : Type} (p : Parser) (r : Reading) (post : α → Parser → Reading → Prop) :
    Except SpecificationError α × Parser → Prop
  | (.ok a, q) => ∃ ts s, p.ahead = ts.map .ok ++ q.ahead
    ∧ q.remaining + ts.length ≤ p.remaining ∧ r.run ts = some s ∧ post a q s
  | (.error e, q) => Failure p r q e

/-- Does a step of reading from `p` on go with the recogniser from `r` on? -/
def Tracks {α : Type} (p : Parser) (r : Reading) (step : Parse α)
    (post : α → Parser → Reading → Prop) : Prop :=
  Outcome p r post (p.run step)

/-! ## Putting steps together -/

section
variable {α β : Type} {p : Parser} {r : Reading} {step : Parse α}
  {post post' : α → Parser → Reading → Prop}

/-- What is known of a result may be weakened. -/
theorem Tracks.mono (h : p.Tracks r step post) (himp : ∀ a q s, post a q s → post' a q s) :
    p.Tracks r step post' := by
  unfold Tracks at h ⊢
  generalize p.run step = outcome at h ⊢
  obtain ⟨e | a, q⟩ := outcome
  · exact h
  · obtain ⟨ts, s, hahead, hlen, hrun, hpost⟩ := h
    exact ⟨ts, s, hahead, hlen, hrun, himp a q s hpost⟩

/-- A step that reads nothing leaves the recogniser where it is. -/
theorem tracks_pure {a : α} (h : post a p r) : p.Tracks r (pure a) post :=
  ⟨[], r, rfl, Nat.le_refl _, rfl, h⟩

/-- Tokens that were read before count with those that a later step reads. -/
theorem Outcome.prepend {q : Parser} {s : Reading} {ts : List Token}
    (hahead : p.ahead = ts.map .ok ++ q.ahead) (hlen : q.remaining + ts.length ≤ p.remaining)
    (hrun : r.run ts = some s) {outcome : Except SpecificationError α × Parser}
    (h : Outcome q s post outcome) : Outcome p r post outcome := by
  have hjoin (us : List Token) (rest : List Lexed) (hus : q.ahead = us.map .ok ++ rest) :
      p.ahead = (ts ++ us).map .ok ++ rest := by
    rw [hahead, hus, List.map_append, List.append_assoc]
  have hjoinRun (us : List Token) : r.run (ts ++ us) = s.run us :=
    Reading.run_append_of_run hrun us
  -- e | e) | a, q'⟩ | of the three kinds of failure, reading has no compile errors, and the other
  -- two end it at a place
  obtain ⟨(e | e | e) | a, q'⟩ := outcome
  · obtain ⟨us, s', hus, hrun'⟩ := h
    exact ⟨ts ++ us, s', hjoin us _ hus, (hjoinRun us).trans hrun'⟩
  · obtain ⟨us, s', hus, hrun', hfail⟩ := h
    exact ⟨ts ++ us, s', hjoin us _ hus, (hjoinRun us).trans hrun', hfail⟩
  · exact h
  · obtain ⟨us, s', hus, hlen', hrun', hpost⟩ := h
    refine ⟨ts ++ us, s', hjoin us _ hus, ?_, (hjoinRun us).trans hrun', hpost⟩
    rw [List.length_append]
    omega

/-- Two steps one behind the other take the recogniser from reading to reading to reading. -/
theorem Tracks.bind {f : α → Parse β} {post₂ : β → Parser → Reading → Prop}
    (h : p.Tracks r step post) (hf : ∀ a q s, post a q s → q.Tracks s (f a) post₂) :
    p.Tracks r (step >>= f) post₂ := by
  unfold Tracks at h ⊢
  rw [run_bind]
  generalize p.run step = outcome at h ⊢
  obtain ⟨e | a, q⟩ := outcome
  · exact h
  · obtain ⟨ts, s, hahead, hlen, hrun, hpost⟩ := h
    exact Outcome.prepend hahead hlen hrun (hf a q s hpost)

/-- Nothing follows a step that always fails. -/
theorem Tracks.bind_of_fails {f : α → Parse β} {post₂ : β → Parser → Reading → Prop}
    (h : p.Tracks r step fun _ _ _ => False) : p.Tracks r (step >>= f) post₂ :=
  h.bind fun _ _ _ hfalse => hfalse.elim

/-- Looking at the parser reads nothing. -/
theorem tracks_get_bind {f : Parser → Parse α} (h : p.Tracks r (f p) post) :
    p.Tracks r (get >>= f) post := by
  unfold Tracks
  rw [run_bind, run_get]
  exact h

/-- A step that leads to another reading has read a token. -/
theorem Tracks.shortens (h : p.Tracks r step post) (hne : ∀ a q s, post a q s → s ≠ r) :
    p.Tracks r step fun a q s => q.remaining < p.remaining ∧ post a q s := by
  unfold Tracks at h ⊢
  generalize p.run step = outcome at h ⊢
  obtain ⟨e | a, q⟩ := outcome
  · exact h
  · obtain ⟨ts, s, hahead, hlen, hrun, hpost⟩ := h
    cases ts with
    -- the recogniser stays where it is only if no token is read
    | nil => exact absurd (Option.some.inj hrun).symm (hne a q s hpost)
    | cons t ts =>
      rw [List.length_cons] at hlen
      exact ⟨t :: ts, s, hahead, by rw [List.length_cons]; omega, hrun, by omega, hpost⟩

end

/-- One round of a repetition. The repetition ends behind a round that reads nothing; that it does
so is never used, as every round of the parser reads a token. -/
theorem run_repeatWhile {α : Type} (more : Parser → Bool) (step : Parse α) (p : Parser) :
    p.run (repeatWhile more step)
      = if more p then
          match p.run step with
          | (.error e, q) => (.error e, q)
          | (.ok a, q) =>
            if q.remaining < p.remaining then
              match q.run (repeatWhile more step) with
              | (.ok as, q') => (.ok (a :: as), q')
              | (.error e, q') => (.error e, q')
            else (.ok [a], q)
        else (.ok [], p) := by
  rw [run, repeatWhile]
  rfl

section
variable {α : Type} {p : Parser} {r : Reading} {more : Parser → Bool} {step : Parse α}
  {post : List α → Parser → Reading → Prop}

/-- A repetition that has no first round reads nothing. -/
theorem tracks_repeatWhile_of_not_more (hmore : more p = false) (h : post [] p r) :
    p.Tracks r (repeatWhile more step) post := by
  unfold Tracks
  rw [run_repeatWhile, if_neg (by simp [hmore])]
  exact ⟨[], r, rfl, Nat.le_refl _, rfl, h⟩

/-- The first round is a step, if it reads a token, and the others come behind it. -/
theorem tracks_repeatWhile_of_more (hmore : more p = true)
    (h : p.Tracks r step fun a q s => q.remaining < p.remaining
      ∧ q.Tracks s (repeatWhile more step) fun as => post (a :: as)) :
    p.Tracks r (repeatWhile more step) post := by
  unfold Tracks at h ⊢
  rw [run_repeatWhile, if_pos hmore]
  generalize p.run step = outcome at h ⊢
  obtain ⟨e | a, q⟩ := outcome
  · exact h
  · obtain ⟨ts, s, hahead, hlen, hrun, hlt, hrest⟩ := h
    show Outcome p r post (if q.remaining < p.remaining then _ else _)
    rw [if_pos hlt]
    refine Outcome.prepend hahead hlen hrun ?_
    generalize q.run (repeatWhile more step) = outcome at hrest ⊢
    obtain ⟨e | as, q'⟩ := outcome
    · exact hrest
    · exact hrest

/-- A repetition keeps what every round keeps, if every round reads a token. -/
theorem tracks_repeatWhile (inv : List α → Parser → Reading → Prop)
    (hround : ∀ read q s, inv read q s → more q = true →
      q.Tracks s step fun a q' s' => q'.remaining < q.remaining ∧ inv (read ++ [a]) q' s')
    (h : inv [] p r) :
    p.Tracks r (repeatWhile more step) fun as q s => inv as q s ∧ more q = false := by
  -- by induction on what is left to be read, whatever the rounds before have brought
  have hall (n : Nat) : ∀ (read : List α) (q : Parser) (s : Reading), q.remaining = n →
      inv read q s → q.Tracks s (repeatWhile more step) fun as q' s' =>
        inv (read ++ as) q' s' ∧ more q' = false := by
    induction n using Nat.strongRecOn with
    | ind n ih =>
      intro read q s hn hinv
      subst hn
      by_cases hmore : more q = true
      · apply tracks_repeatWhile_of_more hmore
        refine (hround read q s hinv hmore).mono fun a q' s' h => ⟨h.1, ?_⟩
        have hrest := ih q'.remaining h.1 (read ++ [a]) q' s' rfl h.2
        simpa only [List.append_assoc, List.singleton_append] using hrest
      · apply tracks_repeatWhile_of_not_more (by simpa using hmore)
        rw [List.append_nil]
        exact ⟨hinv, by simpa using hmore⟩
  exact hall p.remaining [] p r rfl h

end

/-! ## Single tokens -/

theorem atSymbol_iff {p : Parser} {text : String} :
    p.atSymbol text = true ↔ IsSymbol text p.token := by
  simp [atSymbol, IsSymbol]

theorem atWord_iff {p : Parser} {text : String} :
    p.atWord text = true ↔ IsKeyword text p.token := by
  simp [atWord, IsKeyword]

theorem atNewline_iff {p : Parser} : p.atNewline = true ↔ IsNewline p.token := by
  simp [atNewline, IsNewline]

theorem atEnd_iff {p : Parser} : p.atEnd = true ↔ p.token.kind = .eof := by
  simp [atEnd]

theorem atSymbol_eq_false_iff {p : Parser} {text : String} :
    p.atSymbol text = false ↔ ¬ IsSymbol text p.token := by
  rw [← Bool.not_eq_true, atSymbol_iff]

theorem atWord_eq_false_iff {p : Parser} {text : String} :
    p.atWord text = false ↔ ¬ IsKeyword text p.token := by
  rw [← Bool.not_eq_true, atWord_iff]

theorem atNewline_eq_false_iff {p : Parser} : p.atNewline = false ↔ ¬ IsNewline p.token := by
  rw [← Bool.not_eq_true, atNewline_iff]

theorem atEnd_eq_false_iff {p : Parser} : p.atEnd = false ↔ p.token.kind ≠ .eof := by
  rw [← Bool.not_eq_true, atEnd_iff]

section
variable {p : Parser} {r s : Reading}

/-- Taking in a token that is not the end of the text is one step of the recogniser. -/
theorem tracks_advance (heof : p.token.kind ≠ .eof) (h : r.step p.token = some s) :
    p.Tracks r advance fun _ q s' => q.remaining < p.remaining ∧ s' = s := by
  have hrun : r.run [p.token] = some s := Reading.run_cons_of_step h []
  unfold Tracks
  -- behind the token either another one is ready or the lexer fails
  obtain ⟨q, hq, hahead, hlt⟩ | ⟨e, q, hq, hahead⟩ := run_advance heof
  · rw [hq]
    exact ⟨[p.token], s, hahead, hlt, hrun, hlt, rfl⟩
  · rw [hq]
    exact ⟨[p.token], s, hahead, hrun⟩

/-- A failure at a token at which the recogniser is stuck too. -/
theorem tracks_fail {α : Type} {post : α → Parser → Reading → Prop} (e : ParseError)
    (h : r.step p.token = none) : p.Tracks r (fail e) post :=
  ⟨[], r, rfl, rfl, h, rfl⟩

/-- Reporting a token as unexpected is a failure there, be it the end of the text or not. -/
theorem tracks_unexpected {α : Type} {post : α → Parser → Reading → Prop}
    (expectation : Expectation) (context : Context) (h : r.step p.token = none) :
    p.Tracks r (unexpected expectation context) post := by
  apply tracks_get_bind
  split
  · exact tracks_fail _ h
  · exact tracks_fail _ h

/-- Reads a token that passes a test, which is just the one that the recogniser takes in. -/
theorem tracks_expect {test : Parser → Bool} {holds : Token → Prop} [DecidablePred holds]
    (expectation : Expectation) (context : Context) (htest : test p = true ↔ holds p.token)
    (heof : holds p.token → p.token.kind ≠ .eof)
    (h : r.step p.token = if holds p.token then some s else none) :
    p.Tracks r (do if test (← get) then advance else unexpected expectation context)
      fun _ _ s' => s' = s := by
  apply tracks_get_bind
  by_cases ht : holds p.token
  · rw [if_pos (htest.2 ht)]
    rw [if_pos ht] at h
    exact (tracks_advance (heof ht) h).mono fun _ _ _ => And.right
  · rw [if_neg fun hp => ht (htest.1 hp)]
    rw [if_neg ht] at h
    exact tracks_unexpected _ _ h

/-- The parser and the recogniser demand the same symbol. -/
theorem tracks_expectSymbol {text : String} (context : Context)
    (h : r.step p.token = if IsSymbol text p.token then some s else none) :
    p.Tracks r (expectSymbol text context) fun _ _ s' => s' = s :=
  tracks_expect _ _ atSymbol_iff (fun ht => by rw [ht.1]; decide) h

/-- The parser and the recogniser demand the same keyword. -/
theorem tracks_expectKeyword {text : String} (context : Context)
    (h : r.step p.token = if IsKeyword text p.token then some s else none) :
    p.Tracks r (expectKeyword text context) fun _ _ s' => s' = s :=
  tracks_expect _ _ atWord_iff (fun ht => by rw [ht.1]; decide) h

/-- The parser rejects a token as a name in three ways, for its kind, as a keyword and for its
characters, and the recogniser is stuck in all of them. -/
theorem tracks_identifier (context : Context)
    (h : r.step p.token = if IsName p.token then some s else none) :
    p.Tracks r (identifier context) fun span _ s' => span = p.token.span ∧ s' = s := by
  apply tracks_get_bind
  by_cases hkind : p.token.kind = .glob
  · rw [if_pos hkind]
    by_cases hkeyword : isKeyword p.token.text = true
    · rw [if_pos hkeyword]
      rw [if_neg fun hname => by simp [(isName_iff.1 hname).2.2] at hkeyword] at h
      exact tracks_fail _ h
    · rw [if_neg hkeyword]
      by_cases hidentifier : isIdentifier p.token.text = true
      · rw [if_pos hidentifier]
        rw [if_pos (isName_iff.2 ⟨hkind, hidentifier, by simpa using hkeyword⟩)] at h
        refine (tracks_advance (by rw [hkind]; decide) h).bind fun _ q s' hs => tracks_pure ?_
        exact ⟨rfl, hs.2⟩
      · rw [if_neg hidentifier]
        rw [if_neg fun hname => hidentifier (isName_iff.1 hname).2.1] at h
        exact tracks_fail _ h
  · rw [if_neg hkind]
    rw [if_neg fun hname => hkind hname.1] at h
    exact tracks_unexpected _ _ h

/-- A pattern is any quoted text, whatever stands in it. -/
theorem tracks_pattern (h : r.step p.token = if p.token.kind = .string then some s else none) :
    p.Tracks r pattern fun span _ s' => span = p.token.span ∧ s' = s := by
  apply tracks_get_bind
  by_cases hkind : p.token.kind = .string
  · rw [if_pos hkind]
    rw [if_pos hkind] at h
    refine (tracks_advance (by rw [hkind]; decide) h).bind fun _ q s' hs => tracks_pure ?_
    exact ⟨rfl, hs.2⟩
  · rw [if_neg hkind]
    rw [if_neg hkind] at h
    exact tracks_unexpected _ _ h

/-- The first of several line ends makes the step that they all make. -/
theorem tracks_skipNewlines (hfirst : ∀ t, IsNewline t → r.step t = some s)
    (hmore : ∀ t, IsNewline t → s.step t = some s) :
    p.Tracks r skipNewlines fun _ q s' =>
      q.atNewline = false ∧ s' = if p.atNewline then s else r := by
  -- before the first round nothing has been read, and behind it the recogniser no longer moves
  have hround (read : List Unit) (q : Parser) (s' : Reading)
      (hinv : read = [] ∧ q = p ∧ s' = r ∨ p.atNewline = true ∧ s' = s) (hat : q.atNewline = true) :
      q.Tracks s' advance fun _ q' s'' => q'.remaining < q.remaining
        ∧ (read ++ [()] = [] ∧ q' = p ∧ s'' = r ∨ p.atNewline = true ∧ s'' = s) := by
    have hnewline := atNewline_iff.1 hat
    have hstep : s'.step q.token = some s := by
      obtain ⟨-, rfl, rfl⟩ | ⟨-, rfl⟩ := hinv
      · exact hfirst _ hnewline
      · exact hmore _ hnewline
    have hp : p.atNewline = true := by
      obtain ⟨-, rfl, -⟩ | ⟨hp, -⟩ := hinv
      · exact hat
      · exact hp
    refine (tracks_advance (by rw [hnewline]; decide) hstep).mono fun _ q' s'' h => ?_
    exact ⟨h.1, .inr ⟨hp, h.2⟩⟩
  refine (tracks_repeatWhile _ hround (.inl ⟨rfl, rfl, rfl⟩)).bind ?_
  intro read q s' hloop
  obtain ⟨hinv, hq⟩ := hloop
  refine tracks_pure ⟨hq, ?_⟩
  obtain ⟨-, rfl, rfl⟩ | ⟨hp, rfl⟩ := hinv
  · rw [hq]
    rfl
  · rw [if_pos hp]

/-- Where a line has to end, anything but a line end is a failure, and all line ends there are
together one step of the recogniser. -/
theorem tracks_expectNewlines (context : Context)
    (hfirst : ∀ t, IsNewline t → r.step t = some s)
    (hmore : ∀ t, IsNewline t → s.step t = some s)
    (hother : ¬ IsNewline p.token → r.step p.token = none) :
    p.Tracks r (expectNewlines context) fun _ q s' => q.atNewline = false ∧ s' = s := by
  apply tracks_get_bind
  by_cases hat : p.atNewline = true
  · rw [if_pos hat]
    refine (tracks_skipNewlines hfirst hmore).mono fun _ q s' h => ?_
    rwa [if_pos hat] at h
  · rw [if_neg hat]
    exact tracks_unexpected _ _ (hother fun hnewline => hat (atNewline_iff.2 hnewline))

end

/-! ## Lines -/

section
variable {p : Parser} {ms : List (Span × List Span)} {rs : List (RuleKind × List Span)}

/-- The span of a line is made from tokens that are read already. -/
theorem tracks_spanFrom {r : Reading} (first : Span) :
    p.Tracks r (spanFrom first) fun _ q s => q = p ∧ s = r :=
  tracks_get_bind (tracks_pure ⟨rfl, rfl⟩)

/-- Any number of patterns, each behind a comma. -/
theorem tracks_morePatterns (n : Span) (head : Span) :
    p.Tracks ⟨.patterns n [head], ms, rs⟩
      (repeatWhile (atSymbol ",") do
        advance
        pattern)
      fun others q s => q.atSymbol "," = false ∧ s = ⟨.patterns n (head :: others), ms, rs⟩ := by
  have hround (read : List Span) (q : Parser) (s : Reading)
      (hs : s = ⟨.patterns n (head :: read), ms, rs⟩) (hat : q.atSymbol "," = true) :
      q.Tracks s (do advance; pattern) fun a q' s' => q'.remaining < q.remaining
        ∧ s' = ⟨.patterns n (head :: (read ++ [a])), ms, rs⟩ := by
    subst hs
    have hcomma := atSymbol_iff.1 hat
    have hstep : Reading.step ⟨.patterns n (head :: read), ms, rs⟩ q.token
        = some ⟨.patternDue n (head :: read), ms, rs⟩ := by
      simp [Reading.step, IsNewline, hcomma.1, hcomma, Reading.inPhase]
    -- that the list of patterns grows shows that the round has read something
    refine Tracks.shortens ?_ fun a q' s' hs' => ?_
    · refine (tracks_advance (by rw [hcomma.1]; decide) hstep).bind ?_
      intro _ q' s' hadvance
      obtain ⟨-, rfl⟩ := hadvance
      refine (tracks_pattern rfl).mono fun a _ s' hs' => ?_
      rw [hs'.1, hs'.2]
      rfl
    · rw [hs']
      simp
  exact (tracks_repeatWhile _ hround rfl).mono fun _ _ _ h => h.symm

/-- A line of a module goes with the recogniser from the beginning of one module line to that of the
next. The line begins neither with a line end nor with the heading of the rules, as these are read
elsewhere. -/
theorem tracks_moduleDef (hnewline : p.atNewline = false) (hword : p.atWord rulesKeyword = false) :
    p.Tracks ⟨.moduleLines, ms, rs⟩ moduleDef fun d q s =>
      q.atNewline = false ∧ s = ⟨.moduleLines, ms ++ [(d.name, d.patterns)], rs⟩ := by
  have hname : Reading.step ⟨.moduleLines, ms, rs⟩ p.token
      = if IsName p.token then some ⟨.moduleName p.token.span, ms, rs⟩ else none := by
    have hline := atNewline_eq_false_iff.1 hnewline
    have hrules : ¬ IsKeyword "rules" p.token := atWord_eq_false_iff.1 hword
    simp only [Reading.step, if_neg hline, if_neg hrules, Reading.inPhase]
  apply tracks_get_bind
  refine (tracks_identifier _ hname).bind ?_
  intro name p₁ s hspan
  obtain ⟨rfl, rfl⟩ := hspan
  refine (tracks_expectSymbol _ rfl).bind ?_
  intro _ p₂ s hs
  subst hs
  refine (tracks_pattern rfl).bind ?_
  intro head p₃ s hhead
  obtain ⟨rfl, rfl⟩ := hhead
  refine (tracks_morePatterns _ _).bind ?_
  intro others p₄ s hothers
  obtain ⟨hcomma, rfl⟩ := hothers
  refine (tracks_spanFrom _).bind ?_
  intro span p₅ s hspan
  obtain ⟨rfl, rfl⟩ := hspan
  have hfirst (t : Token) (ht : IsNewline t) :
      Reading.step ⟨.patterns p.token.span (p₂.token.span :: others), ms, rs⟩ t
        = some ⟨.moduleLines, ms ++ [(p.token.span, p₂.token.span :: others)], rs⟩ := if_pos ht
  -- no comma stands here, or the patterns would go on
  have hother : ¬ IsNewline p₅.token →
      Reading.step ⟨.patterns p.token.span (p₂.token.span :: others), ms, rs⟩ p₅.token = none := by
    intro hnewline
    simp only [Reading.step, if_neg hnewline, if_neg (atSymbol_eq_false_iff.1 hcomma)]
  refine (tracks_expectNewlines _ hfirst (Reading.step_moduleLines_newline _ _) hother).bind ?_
  exact fun _ _ _ hs => tracks_pure hs

/-- Behind the names of a rule nothing can follow but a line end, if no chain operator does. -/
theorem step_names_eq_none {k : RuleKind} {ns : List Span} {t : Token}
    (hchain : k = .dependency → ¬ IsSymbol chainOperator t) (hnewline : ¬ IsNewline t) :
    Reading.step ⟨.names k ns, ms, rs⟩ t = none := by
  have hno : ¬ (k = .dependency ∧ IsSymbol "->" t) := fun h => hchain h.1 h.2
  simp only [Reading.step, if_neg hnewline, if_neg hno]

/-- Has a rule been read up to its line ends, behind these modules and rules? -/
def RuleRead (ms : List (Span × List Span)) (rs : List (RuleKind × List Span)) (rule : Rule)
    (q : Parser) (s : Reading) : Prop :=
  s = ⟨.names rule.kind rule.names, ms, rs⟩
    ∧ (rule.kind = .dependency → ¬ IsSymbol chainOperator q.token)

/-- The line ends behind a rule complete it. -/
theorem RuleRead.tracks_end {rule : Rule} {q : Parser} {s : Reading} (h : RuleRead ms rs rule q s) :
    q.Tracks s (expectNewlines .afterRule >>= fun _ => pure rule) fun rule q s =>
      q.atNewline = false ∧ s = ⟨.ruleLines, ms, rs ++ [(rule.kind, rule.names)]⟩ := by
  obtain ⟨rfl, hchain⟩ := h
  have hfirst (t : Token) (ht : IsNewline t) :
      Reading.step ⟨.names rule.kind rule.names, ms, rs⟩ t
        = some ⟨.ruleLines, ms, rs ++ [(rule.kind, rule.names)]⟩ := if_pos ht
  refine (tracks_expectNewlines _ hfirst (Reading.step_ruleLines_newline _ _)
    (step_names_eq_none hchain)).bind ?_
  exact fun _ _ _ hs => tracks_pure hs

/-- A chain is read up to its line ends. Its loop ends at the first token that is no chain operator,
and the operator of forbidden dependencies is rejected there, which could not go on with the line
anyway. -/
theorem tracks_chainRest {n : Span} (hat : p.atSymbol chainOperator = true) :
    p.Tracks ⟨.ruleName n, ms, rs⟩ (chainRest n) (RuleRead ms rs) := by
  -- the first operator settles that the rule is a dependency, so the recogniser is in another phase
  -- before the first round than behind it
  have hround (read : List Span) (q : Parser) (s : Reading)
      (hinv : read = [] ∧ q = p ∧ s = ⟨.ruleName n, ms, rs⟩
        ∨ read ≠ [] ∧ s = ⟨.names .dependency (n :: read), ms, rs⟩)
      (hat : q.atSymbol chainOperator = true) :
      q.Tracks s (do advance; identifier .afterChainOperator) fun a q' s' =>
        q'.remaining < q.remaining ∧ (read ++ [a] = [] ∧ q' = p ∧ s' = ⟨.ruleName n, ms, rs⟩
          ∨ read ++ [a] ≠ [] ∧ s' = ⟨.names .dependency (n :: (read ++ [a])), ms, rs⟩) := by
    have harrow : IsSymbol "->" q.token := atSymbol_iff.1 hat
    have hstep : s.step q.token = some ⟨.nameDue .dependency (n :: read), ms, rs⟩ := by
      obtain ⟨rfl, -, rfl⟩ | ⟨-, rfl⟩ := hinv
      · exact if_pos harrow
      · simp [Reading.step, IsNewline, harrow.1, harrow, Reading.inPhase]
    refine Tracks.shortens ?_ fun a q' s' hs' => ?_
    · refine (tracks_advance (by rw [harrow.1]; decide) hstep).bind ?_
      intro _ q' s' hadvance
      obtain ⟨-, rfl⟩ := hadvance
      refine (tracks_identifier _ rfl).mono fun a _ s' hs' => .inr ?_
      rw [hs'.1, hs'.2]
      exact ⟨by simp, rfl⟩
    · obtain ⟨hnil, -, -⟩ | ⟨-, rfl⟩ := hs'
      · simp at hnil
      · obtain ⟨-, -, rfl⟩ | ⟨-, rfl⟩ := hinv
        · simp
        · simp
  refine (tracks_repeatWhile _ hround (.inl ⟨rfl, rfl, rfl⟩)).bind ?_
  intro others q s hloop
  obtain ⟨hinv, hq⟩ := hloop
  -- the loop has made a round, as it begins at an operator
  obtain ⟨-, rfl, -⟩ | ⟨-, rfl⟩ := hinv
  · rw [hat] at hq
    exact absurd hq.symm Bool.false_ne_true
  have hchain := atSymbol_eq_false_iff.1 hq
  apply tracks_get_bind
  by_cases hmixed : q.atSymbol noDependencyOperator = true
  · have hline : ¬ IsNewline q.token := (atSymbol_iff.1 hmixed).not_isNewline
    rw [if_pos hmixed]
    exact (tracks_fail _ (step_names_eq_none (fun _ => hchain) hline)).bind_of_fails
  · rw [if_neg hmixed]
    refine (tracks_spanFrom n).bind ?_
    intro span p' s hspan
    obtain ⟨rfl, rfl⟩ := hspan
    exact tracks_pure ⟨rfl, fun _ => hchain⟩

/-- A forbidden dependency is read up to its line ends: it has one name behind its operator, and
both operators are rejected behind that. -/
theorem tracks_noDependencyRest {n : Span} (hat : p.atSymbol noDependencyOperator = true) :
    p.Tracks ⟨.ruleName n, ms, rs⟩ (noDependencyRest n) (RuleRead ms rs) := by
  have harrow : IsSymbol "-/->" p.token := atSymbol_iff.1 hat
  have hdependency : RuleKind.noDependency ≠ .dependency := by decide
  refine (tracks_advance (by rw [harrow.1]; decide)
    (Reading.step_ruleName_operator (k := .noDependency) harrow n)).bind ?_
  intro _ q s hadvance
  obtain ⟨-, rfl⟩ := hadvance
  refine (tracks_identifier _ rfl).bind ?_
  intro dest q' s hdest
  obtain ⟨rfl, rfl⟩ := hdest
  apply tracks_get_bind
  by_cases hmixed : (q'.atSymbol chainOperator || q'.atSymbol noDependencyOperator) = true
  · -- another operator is no line end, and only that can follow
    have hline : ¬ IsNewline q'.token := by
      rcases Bool.or_eq_true_iff.1 hmixed with h | h
      · exact (atSymbol_iff.1 h).not_isNewline
      · exact (atSymbol_iff.1 h).not_isNewline
    rw [if_pos hmixed]
    have hstep : Reading.step ⟨.names .noDependency [n, q.token.span], ms, rs⟩ q'.token = none :=
      step_names_eq_none (fun h => absurd h hdependency) hline
    exact (tracks_fail _ hstep).bind_of_fails
  · rw [if_neg hmixed]
    refine (tracks_spanFrom n).bind ?_
    intro span p' s hspan
    obtain ⟨-, rfl⟩ := hspan
    exact tracks_pure ⟨rfl, fun h => absurd h hdependency⟩

/-- A line of a rule goes with the recogniser from the beginning of one rule line to that of the
next. The operator behind the first name tells the two kinds of rules apart; without one, both are
stuck. -/
theorem tracks_rule (hnewline : p.atNewline = false) (hend : p.atEnd = false) :
    p.Tracks ⟨.ruleLines, ms, rs⟩ rule fun rule q s =>
      q.atNewline = false ∧ s = ⟨.ruleLines, ms, rs ++ [(rule.kind, rule.names)]⟩ := by
  have hname : Reading.step ⟨.ruleLines, ms, rs⟩ p.token
      = if IsName p.token then some ⟨.ruleName p.token.span, ms, rs⟩ else none := by
    have hline := atNewline_eq_false_iff.1 hnewline
    have heof := atEnd_eq_false_iff.1 hend
    simp only [Reading.step, if_neg hline, if_neg heof, Reading.inPhase]
  refine (tracks_identifier _ hname).bind ?_
  intro first p₁ s hfirst
  obtain ⟨rfl, rfl⟩ := hfirst
  apply tracks_get_bind
  by_cases hdependency : p₁.atSymbol chainOperator = true
  · rw [if_pos hdependency]
    exact (tracks_chainRest hdependency).bind fun _ _ _ h => h.tracks_end
  · rw [if_neg hdependency]
    by_cases hnoDependency : p₁.atSymbol noDependencyOperator = true
    · rw [if_pos hnoDependency]
      exact (tracks_noDependencyRest hnoDependency).bind fun _ _ _ h => h.tracks_end
    · rw [if_neg hnoDependency]
      -- without an operator the parser fails and the recogniser is stuck
      have hno : ¬ IsSymbol "->" p₁.token := fun h => hdependency (atSymbol_iff.2 h)
      have hno' : ¬ IsSymbol "-/->" p₁.token := fun h => hnoDependency (atSymbol_iff.2 h)
      have hstep : Reading.step ⟨.ruleName p.token.span, ms, rs⟩ p₁.token = none := by
        simp only [Reading.step, if_neg hno, if_neg hno']
      exact (tracks_unexpected _ _ hstep).bind_of_fails

end

/-! ## Whole specifications -/

section
variable {p : Parser}

/-- The lines of the modules are read until the heading of the rules stands ahead. The end of the
text in front of it is a failure, and the recogniser is stuck there too. -/
theorem tracks_moduleDefs (hnewline : p.atNewline = false) :
    p.Tracks ⟨.moduleLines, [], []⟩
      (repeatWhile (!atWord rulesKeyword ·) do
        if (← get).atEnd then unexpected (.word rulesKeyword) .afterModuleDefinitions
        moduleDef)
      fun defs q s => q.atWord rulesKeyword = true
        ∧ s = ⟨.moduleLines, defs.map fun d => (d.name, d.patterns), []⟩ := by
  have hround (read : List ModuleDef) (q : Parser) (s : Reading)
      (hinv : q.atNewline = false
        ∧ s = ⟨.moduleLines, read.map fun d => (d.name, d.patterns), []⟩)
      (hmore : (!q.atWord rulesKeyword) = true) :
      q.Tracks s (do
          if (← get).atEnd then unexpected (.word rulesKeyword) .afterModuleDefinitions
          moduleDef)
        fun d q' s' => q'.remaining < q.remaining ∧ q'.atNewline = false
          ∧ s' = ⟨.moduleLines, (read ++ [d]).map fun d => (d.name, d.patterns), []⟩ := by
    obtain ⟨hline, rfl⟩ := hinv
    have hword : q.atWord rulesKeyword = false := by simpa using hmore
    refine Tracks.shortens ?_ fun d q' s' hs' => ?_
    · apply tracks_get_bind
      -- the text ends within the lines of the modules, or another line is read
      by_cases hend : q.atEnd = true
      · have heof := atEnd_iff.1 hend
        have hstep : Reading.step ⟨.moduleLines, read.map fun d => (d.name, d.patterns), []⟩
            q.token = none := by
          simp [Reading.step, IsNewline, IsKeyword, IsName, heof]
        rw [if_pos hend]
        exact (tracks_unexpected _ _ hstep).bind_of_fails
      · rw [if_neg hend]
        refine (tracks_moduleDef hline hword).mono fun d q' s' hs' => ?_
        rwa [List.map_append]
    · rw [hs'.2]
      simp
  refine (tracks_repeatWhile _ hround ⟨hnewline, rfl⟩).mono fun defs q s h => ?_
  exact ⟨by simpa using h.2, h.1.2⟩

/-- The lines of the rules are read until the end of the text. -/
theorem tracks_rules {ms : List (Span × List Span)} (hnewline : p.atNewline = false) :
    p.Tracks ⟨.ruleLines, ms, []⟩ (repeatWhile (!atEnd ·) rule) fun rules q s =>
      q.atEnd = true ∧ s = ⟨.ruleLines, ms, rules.map fun r => (r.kind, r.names)⟩ := by
  have hround (read : List Rule) (q : Parser) (s : Reading)
      (hinv : q.atNewline = false ∧ s = ⟨.ruleLines, ms, read.map fun r => (r.kind, r.names)⟩)
      (hmore : (!q.atEnd) = true) :
      q.Tracks s rule fun r q' s' => q'.remaining < q.remaining ∧ q'.atNewline = false
        ∧ s' = ⟨.ruleLines, ms, (read ++ [r]).map fun r => (r.kind, r.names)⟩ := by
    obtain ⟨hline, rfl⟩ := hinv
    refine Tracks.shortens ?_ fun r q' s' hs' => ?_
    · refine (tracks_rule hline (by simpa using hmore)).mono fun r q' s' hs' => ?_
      rwa [List.map_append]
    · rw [hs'.2]
      simp
  refine (tracks_repeatWhile _ hround ⟨hnewline, rfl⟩).mono fun rules q s h => ?_
  exact ⟨by simpa using h.2, h.1.2⟩

/-- Reading a specification goes with the recogniser from its start on, up to the end of the text.
-/
theorem tracks_specification :
    p.Tracks .start specification fun spec q s =>
      q.atEnd = true ∧ s = ⟨.ruleLines, (saying spec).1, (saying spec).2⟩ := by
  have hlead (t : Token) (ht : IsNewline t) : Reading.start.step t = some .start := if_pos ht
  refine (tracks_skipNewlines hlead hlead).bind ?_
  intro _ p₁ s hskipped
  obtain ⟨hline, hs⟩ := hskipped
  rw [ite_self] at hs
  subst hs
  have hkeyword : Reading.start.step p₁.token
      = if IsKeyword modulesKeyword p₁.token then some ⟨.modulesColon, [], []⟩ else none := by
    simp only [Reading.step, Reading.start, if_neg (atNewline_eq_false_iff.1 hline)]
    rfl
  -- `modules`, `:` and its line ends
  refine (tracks_expectKeyword _ hkeyword).bind ?_
  intro _ p₂ s hs
  subst hs
  refine (tracks_expectSymbol _ rfl).bind ?_
  intro _ p₃ s hs
  subst hs
  have hmodules (t : Token) (ht : IsNewline t) :
      Reading.step ⟨.modulesEnd, [], []⟩ t = some ⟨.moduleLines, [], []⟩ := if_pos ht
  refine (tracks_expectNewlines _ hmodules (Reading.step_moduleLines_newline _ _)
    fun h => if_neg h).bind ?_
  intro _ p₄ s hends
  obtain ⟨hline, rfl⟩ := hends
  refine (tracks_moduleDefs hline).bind ?_
  intro defs p₅ s hdefs
  obtain ⟨hword, rfl⟩ := hdefs
  -- `rules` has been seen already, so it is taken in without a test
  have hrules := atWord_iff.1 hword
  have hstep : Reading.step ⟨.moduleLines, defs.map fun d => (d.name, d.patterns), []⟩ p₅.token
      = some ⟨.rulesColon, defs.map fun d => (d.name, d.patterns), []⟩ := by
    have hno : ¬ IsNewline p₅.token := fun h => absurd (hrules.1.symm.trans h) (by decide)
    simp only [Reading.step, if_neg hno]
    exact if_pos hrules
  refine (tracks_advance (by rw [hrules.1]; decide) hstep).bind ?_
  intro _ p₆ s hadvance
  obtain ⟨-, rfl⟩ := hadvance
  refine (tracks_expectSymbol _ rfl).bind ?_
  intro _ p₇ s hs
  subst hs
  have hruleLines (t : Token) (ht : IsNewline t) :
      Reading.step ⟨.rulesEnd, defs.map fun d => (d.name, d.patterns), []⟩ t
        = some ⟨.ruleLines, defs.map fun d => (d.name, d.patterns), []⟩ := if_pos ht
  refine (tracks_expectNewlines _ hruleLines (Reading.step_ruleLines_newline _ _)
    fun h => if_neg h).bind ?_
  intro _ p₈ s hends
  obtain ⟨hline, rfl⟩ := hends
  refine (tracks_rules hline).bind ?_
  exact fun _ _ _ hrules => tracks_pure hrules

end

end Conformance.Parser
