import Conformance.Proofs.Specification.Tracking
import Conformance.Proofs.Token.Progress

/-!
# Reading ends

The repetitions of a parser are loops that go on as long as the parser is at a place of some kind.
`Parser.Rounds` says how such a loop runs, whether or not its rounds read something. Each round of
each loop of the parser reads a token, wherever the parser stands, so all of them come to an end,
and `repeatWhile` gives what they come to (`Parser.Rounds.run_eq`). With what is known of the
lexer, reading ends on every text (`Parser.reading_ends`).
-/

namespace Conformance.Parser

/-! ## What a step leaves -/

/-- Does a step of reading from `p` on, if it succeeds, leave at most so much to be read? -/
def Leaves {α : Type} (p : Parser) (step : Parse α) (bound : Nat) : Prop :=
  ∀ a q, p.run step = (.ok a, q) → q.remaining ≤ bound

section
variable {α β : Type} {p : Parser} {step : Parse α} {m n : Nat}

/-- A step that reads nothing leaves what there was. -/
theorem leaves_pure {a : α} (h : p.remaining ≤ m) : p.Leaves (pure a) m := by
  rintro _ _ ⟨⟩
  exact h

/-- The second step begins with what the first one leaves. -/
theorem Leaves.bind {f : α → Parse β} (h : p.Leaves step m)
    (hf : ∀ (a : α) (q : Parser), q.remaining ≤ m → q.Leaves (f a) n) :
    p.Leaves (step >>= f) n := by
  intro b r hrun
  rw [run_bind] at hrun
  rcases hstep : p.run step with ⟨e | a, q⟩
  · rw [hstep] at hrun
    cases hrun
  · rw [hstep] at hrun
    exact hf a q (h a q hstep) b r hrun

/-- Looking at the parser reads nothing. -/
theorem leaves_get_bind {f : Parser → Parse α} (h : p.Leaves (f p) m) :
    p.Leaves (get >>= f) m := by
  intro a q hrun
  rw [run_bind, run_get] at hrun
  exact h a q hrun

/-- A repetition leaves no more than there was, if no round does. -/
theorem leaves_repeatWhile {more : Parser → Bool}
    (hstep : ∀ q : Parser, q.remaining ≤ m → q.Leaves step m) (hp : p.remaining ≤ m) :
    p.Leaves (repeatWhile more step) m := by
  -- by induction on what is left to be read
  induction hn : p.remaining using Nat.strongRecOn generalizing p with
  | ind n ih =>
    intro as r hrun
    rw [run_repeatWhile] at hrun
    -- no round, a round that reads something and others behind it, or a round that reads nothing
    split at hrun
    · rcases hround : p.run step with ⟨e | a, q⟩
      · rw [hround] at hrun
        cases hrun
      · rw [hround] at hrun
        have hq := hstep p hp a q hround
        dsimp only at hrun
        split at hrun
        · next hlt =>
          have hrest := ih q.remaining (hn ▸ hlt) hq rfl
          rcases hmore : q.run (repeatWhile more step) with ⟨e | as, r'⟩
          · rw [hmore] at hrun
            cases hrun
          · rw [hmore] at hrun
            obtain ⟨-, rfl⟩ := Prod.mk.inj hrun
            exact hrest as r' hmore
        · obtain ⟨-, rfl⟩ := Prod.mk.inj hrun
          exact hq
    · obtain ⟨-, rfl⟩ := Prod.mk.inj hrun
      exact hp

/-! ## Single tokens -/

/-- A failure does not succeed, so it leaves whatever is asked for. -/
theorem leaves_fail (e : ParseError) : p.Leaves (fail e : Parse α) m := by
  rintro _ _ ⟨⟩

/-- Reporting a token as unexpected is a failure. -/
theorem leaves_unexpected (expectation : Expectation) (context : Context) :
    p.Leaves (unexpected expectation context : Parse α) m := by
  apply leaves_get_bind
  split
  · exact leaves_fail _
  · exact leaves_fail _

/-- Reading on behind a token leaves less. -/
theorem leaves_advance_of_ne (hend : p.token.kind ≠ .eof) (h : p.remaining ≤ m + 1) :
    p.Leaves advance m := by
  intro _ q hrun
  have := remaining_advance_lt hrun hend
  omega

/-- Reading on leaves no more than there was, also at the end of the text. -/
theorem leaves_advance (h : p.remaining ≤ m) : p.Leaves advance m := by
  by_cases hend : p.token.kind = .eof
  · intro _ q hrun
    rcases hnext : p.lexer.nextSignificant with ⟨e | t, l⟩
    · cases (advance_of_error hnext).symm.trans hrun
    · obtain ⟨-, rfl⟩ := Prod.mk.inj ((advance_of_ok hnext).symm.trans hrun)
      obtain ⟨hle, hlt⟩ := Lexer.length_rest_of_nextSignificant hnext
      rw [remaining, if_pos hend] at h
      simp only [remaining]
      split
      · omega
      · next ht =>
        -- a lexer that is not at the end has given a token that takes some text
        have := hlt ht
        omega
  · exact leaves_advance_of_ne hend (Nat.le_succ_of_le h)

/-- A name is a token, so there is less left behind it. -/
theorem leaves_identifier (context : Context) (h : p.remaining ≤ m + 1) :
    p.Leaves (identifier context) m := by
  apply leaves_get_bind
  dsimp only
  split
  · next hglob =>
    split
    · exact leaves_fail _
    · split
      · exact (leaves_advance_of_ne (by rw [hglob]; decide) h).bind fun _ _ => leaves_pure
      · exact leaves_fail _
  · exact leaves_unexpected _ _

/-- A pattern leaves no more than there was. -/
theorem leaves_pattern (h : p.remaining ≤ m) : p.Leaves pattern m := by
  apply leaves_get_bind
  dsimp only
  split
  · exact (leaves_advance h).bind fun _ _ => leaves_pure
  · exact leaves_unexpected _ _

/-- A symbol that is expected leaves no more than there was. -/
theorem leaves_expectSymbol (text : String) (context : Context) (h : p.remaining ≤ m) :
    p.Leaves (expectSymbol text context) m := by
  apply leaves_get_bind
  split
  · exact leaves_advance h
  · exact leaves_unexpected _ _

/-- The line ends behind a line leave no more than there was. -/
theorem leaves_expectNewlines (context : Context) (h : p.remaining ≤ m) :
    p.Leaves (expectNewlines context) m := by
  apply leaves_get_bind
  split
  · exact (leaves_repeatWhile (fun _ => leaves_advance) h).bind fun _ _ => leaves_pure
  · exact leaves_unexpected _ _

theorem leaves_spanFrom (first : Span) (h : p.remaining ≤ m) : p.Leaves (spanFrom first) m :=
  leaves_get_bind (leaves_pure h)

/-! ## Lines -/

/-- The line of a module leaves less than there was, as it begins with a name. -/
theorem leaves_moduleDef (h : p.remaining ≤ m + 1) : p.Leaves moduleDef m := by
  have hround (q : Parser) (hq : q.remaining ≤ m) : q.Leaves (do advance; pattern) m :=
    (leaves_advance hq).bind fun _ _ => leaves_pattern
  apply leaves_get_bind
  refine (leaves_identifier _ h).bind fun _ _ h₁ => ?_
  refine (leaves_expectSymbol _ _ h₁).bind fun _ _ h₂ => ?_
  refine (leaves_pattern h₂).bind fun _ _ h₃ => ?_
  refine (leaves_repeatWhile hround h₃).bind fun _ _ h₄ => ?_
  refine (leaves_spanFrom _ h₄).bind fun _ _ h₅ => ?_
  exact (leaves_expectNewlines _ h₅).bind fun _ _ => leaves_pure

/-- The rest of a chain leaves no more than there was; it may fail at an operator. -/
theorem leaves_chainRest (first : Span) (h : p.remaining ≤ m) : p.Leaves (chainRest first) m := by
  have hround (q : Parser) (hq : q.remaining ≤ m) :
      q.Leaves (do advance; identifier .afterChainOperator) m :=
    (leaves_advance hq).bind fun _ _ hq' => leaves_identifier _ (Nat.le_succ_of_le hq')
  refine (leaves_repeatWhile hround h).bind fun _ _ h₁ => ?_
  apply leaves_get_bind
  split
  · exact (leaves_fail _).bind fun _ _ h₂ => (leaves_spanFrom _ h₂).bind fun _ _ => leaves_pure
  · exact (leaves_spanFrom _ h₁).bind fun _ _ => leaves_pure

/-- The rest of a forbidden dependency leaves no more than there was. -/
theorem leaves_noDependencyRest (first : Span) (h : p.remaining ≤ m) :
    p.Leaves (noDependencyRest first) m := by
  refine (leaves_advance h).bind fun _ _ h₁ => ?_
  refine (leaves_identifier _ (Nat.le_succ_of_le h₁)).bind fun _ _ h₂ => ?_
  apply leaves_get_bind
  split
  · exact (leaves_fail _).bind fun _ _ h₃ => (leaves_spanFrom _ h₃).bind fun _ _ => leaves_pure
  · exact (leaves_spanFrom _ h₂).bind fun _ _ => leaves_pure

/-- The line of a rule leaves less than there was, as it begins with a name. -/
theorem leaves_rule (h : p.remaining ≤ m + 1) : p.Leaves rule m := by
  have hend (r : Rule) (q : Parser) (hq : q.remaining ≤ m) :
      q.Leaves (expectNewlines .afterRule >>= fun _ => pure r) m :=
    (leaves_expectNewlines _ hq).bind fun _ _ => leaves_pure
  refine (leaves_identifier _ h).bind fun _ p₁ h₁ => ?_
  apply leaves_get_bind
  split
  · exact (leaves_chainRest _ h₁).bind hend
  · split
    · exact (leaves_noDependencyRest _ h₁).bind hend
    · exact (leaves_unexpected _ _).bind hend

end

/-! ## Loops -/

/-- From `p` on, a loop that goes on as long as `more` holds comes to this outcome after `n` rounds
that succeed. -/
inductive Rounds {α : Type} (more : Parser → Bool) (step : Parse α) :
    Nat → Parser → Except SpecificationError (List α) × Parser → Prop where
  | stops {p : Parser} : more p = false → Rounds more step 0 p (.ok [], p)
  | fails {p q : Parser} {e : SpecificationError} :
    more p = true → p.run step = (.error e, q) → Rounds more step 0 p (.error e, q)
  | goesOn {p q r : Parser} {a : α} {n : Nat} {result : Except SpecificationError (List α)} :
    more p = true → p.run step = (.ok a, q) → Rounds more step n q (result, r) →
      Rounds more step (n + 1) p (result.map (a :: ·), r)

/-- Does the loop end wherever it begins, with what `repeatWhile` gives and after no more rounds
than there is to be read? -/
def Terminates {α : Type} (more : Parser → Bool) (step : Parse α) : Prop :=
  ∀ p : Parser, ∃ n ≤ p.remaining, Rounds more step n p (p.run (repeatWhile more step))

section
variable {α : Type} {p : Parser} {more : Parser → Bool} {step : Parse α}

/-- A loop ends if each of its rounds that succeeds leaves less to be read. -/
theorem terminates_of_lt
    (hstep : ∀ p, more p = true → ∀ a q, p.run step = (.ok a, q) → q.remaining < p.remaining) :
    Terminates more step := by
  intro p
  -- by induction on what is left to be read
  induction hn : p.remaining using Nat.strongRecOn generalizing p with
  | ind n ih =>
    subst hn
    rw [run_repeatWhile]
    by_cases hmore : more p = true
    · rw [if_pos hmore]
      rcases hround : p.run step with ⟨e | a, q⟩
      · exact ⟨0, Nat.zero_le _, .fails hmore hround⟩
      · have hlt := hstep p hmore a q hround
        obtain ⟨n, hn, hrest⟩ := ih q.remaining hlt q rfl
        refine ⟨n + 1, Nat.lt_of_le_of_lt hn hlt, ?_⟩
        dsimp only
        -- the round read something, so the loop does not give up
        rw [if_pos hlt]
        rcases houtcome : q.run (repeatWhile more step) with ⟨e | as, r⟩
        · exact .goesOn hmore hround (houtcome ▸ hrest)
        · exact .goesOn hmore hround (houtcome ▸ hrest)
    · rw [if_neg hmore]
      exact ⟨0, Nat.zero_le _, .stops (by simpa using hmore)⟩

/-- A loop comes to one outcome only. -/
theorem Rounds.unique {more : Parser → Bool} {m n : Nat}
    {outcome other : Except SpecificationError (List α) × Parser}
    (h : Rounds more step m p outcome) (h' : Rounds more step n p other) : outcome = other := by
  induction h generalizing n other with
  -- two runs make the same step at each place, since `more` and `step` are functions
  | stops hmore =>
    cases h' with
    | stops => rfl
    | fails hmore' => rw [hmore] at hmore'; cases hmore'
    | goesOn hmore' => rw [hmore] at hmore'; cases hmore'
  | fails hmore hrun =>
    cases h' with
    | stops hmore' => rw [hmore] at hmore'; cases hmore'
    | fails _ hrun' =>
      obtain ⟨⟨rfl⟩, rfl⟩ := Prod.mk.inj (hrun.symm.trans hrun')
      rfl
    | goesOn _ hrun' => cases hrun.symm.trans hrun'
  | goesOn hmore hrun _ ih =>
    cases h' with
    | stops hmore' => rw [hmore] at hmore'; cases hmore'
    | fails _ hrun' => cases hrun.symm.trans hrun'
    | goesOn _ hrun' hrest =>
      obtain ⟨⟨rfl⟩, rfl⟩ := Prod.mk.inj (hrun.symm.trans hrun')
      obtain ⟨rfl, rfl⟩ := Prod.mk.inj (ih hrest)
      rfl

/-- A loop that is known to end gives what its rounds come to. -/
theorem Rounds.run_eq {more : Parser → Bool} {n : Nat}
    {outcome : Except SpecificationError (List α) × Parser} (h : Rounds more step n p outcome)
    (hterminates : Terminates more step) : p.run (repeatWhile more step) = outcome := by
  obtain ⟨m, -, hrounds⟩ := hterminates p
  exact hrounds.unique h

/-- In front of the end of the text it is enough that a round reads a token. -/
theorem lt_of_leaves (hend : p.token.kind ≠ .eof)
    (hstep : ∀ m, p.remaining ≤ m + 1 → p.Leaves step m) (a : α) (q : Parser)
    (hrun : p.run step = (.ok a, q)) : q.remaining < p.remaining := by
  have hpos : p.remaining = p.lexer.rest.length + 1 := by
    rw [remaining, if_neg hend]
  rw [hpos]
  exact Nat.lt_succ_of_le (hstep _ (Nat.le_of_eq hpos) a q hrun)

end

/-- The end of the text is no line end. -/
theorem ne_eof_of_atNewline {p : Parser} (h : p.atNewline = true) : p.token.kind ≠ .eof := by
  rw [atNewline_iff.1 h]
  decide

/-- The end of the text is no symbol. -/
theorem ne_eof_of_atSymbol {p : Parser} {text : String} (h : p.atSymbol text = true) :
    p.token.kind ≠ .eof := by
  rw [(atSymbol_iff.1 h).1]
  decide

/-- The line ends behind one another come to an end. -/
theorem terminates_newlines : Terminates atNewline advance :=
  terminates_of_lt fun _ hp =>
    have hend := ne_eof_of_atNewline hp
    lt_of_leaves hend fun _ => leaves_advance_of_ne hend

/-- The patterns behind one another come to an end. -/
theorem terminates_patterns :
    Terminates (atSymbol ",") (do
      advance
      pattern) :=
  terminates_of_lt fun _ hp =>
    have hend := ne_eof_of_atSymbol hp
    lt_of_leaves hend fun _ h => (leaves_advance_of_ne hend h).bind fun _ _ => leaves_pattern

/-- The names of a chain come to an end. -/
theorem terminates_names :
    Terminates (atSymbol chainOperator) (do
      advance
      identifier .afterChainOperator) :=
  terminates_of_lt fun _ hp =>
    -- already the operator is a token, so the name behind it need not be
    have hend := ne_eof_of_atSymbol hp
    lt_of_leaves hend fun _ h => (leaves_advance_of_ne hend h).bind fun _ _ hq =>
      leaves_identifier _ (Nat.le_succ_of_le hq)

/-- At the end of the text a round fails. -/
theorem terminates_modules :
    Terminates (!atWord rulesKeyword ·) (do
      if (← get).atEnd then unexpected (.word rulesKeyword) .afterModuleDefinitions
      moduleDef) := by
  apply terminates_of_lt
  intro p _
  by_cases hend : p.token.kind = .eof
  · intro d q hrun
    have hat : p.atEnd = true := atEnd_iff.2 hend
    simp only [run_bind, run_get, hat, if_true, unexpected, fail, run_throw] at hrun
    cases (Prod.mk.inj hrun).1
  · apply lt_of_leaves hend
    intro m h
    apply leaves_get_bind
    rw [if_neg (mt atEnd_iff.1 hend)]
    exact leaves_moduleDef h

/-- The lines of the rules come to an end, as the end of the text stops them. -/
theorem terminates_rules : Terminates (!atEnd ·) rule := by
  refine terminates_of_lt fun p hp => lt_of_leaves ?_ fun _ => leaves_rule
  exact atEnd_eq_false_iff.1 (by simpa using hp)

/-- A call behind any number of others, those that failed among them, is one of two. It gives the
end of the text or a character that begins no token, and all further calls find the lexer as it is.
Or it takes something off the front of the text; if it searches for a closing quote in vain, this is
all from the opening one to the first line end or U+0000 behind it, or to the end of the text. So
behind as many calls as the text has characters they are all the same. No more are made for the
next significant token than there are characters, and each loop of a parser ends, wherever it
begins. -/
theorem reading_ends (src : Source) :
    (∀ n, let l := (Lexer.ofSource src).after n
      (Lexer.isFinal l.next.1 = true → ∀ m, l.after m = l)
        ∧ (Lexer.isFinal l.next.1 = false →
          ∃ taken, taken ≠ [] ∧ l.rest = taken ++ (l.after 1).rest)
        ∧ ∀ s, l.next.1 = .error (.placed .unterminatedString s) →
          ∃ inside, l.rest = '"' :: inside ++ (l.after 1).rest
            ∧ (∀ c ∈ inside, Token.isNewlineChar c = false ∧ c ≠ '"' ∧ c ≠ '\x00')
            ∧ ∀ c ∈ (l.after 1).rest.head?, Token.isNewlineChar c = true ∨ c = '\x00')
      ∧ (∀ n, src.contents.length ≤ n →
        ((Lexer.ofSource src).after n).next = ((Lexer.ofSource src).after src.contents.length).next)
      ∧ (∀ l : Lexer, ∃ n ≤ l.rest.length, l.nextSignificant = (l.after n).next
        ∧ Lexer.isSignificant (l.after n).next.1 = true
        ∧ ∀ k < n, Lexer.isSignificant (l.after k).next.1 = false)
      ∧ Terminates atNewline advance
      ∧ Terminates (atSymbol ",") (do
        advance
        pattern)
      ∧ Terminates (atSymbol chainOperator) (do
        advance
        identifier .afterChainOperator)
      ∧ Terminates (!atWord rulesKeyword ·) (do
        if (← get).atEnd then unexpected (.word rulesKeyword) .afterModuleDefinitions
        moduleDef)
      ∧ Terminates (!atEnd ·) rule := by
  have hlength : (Lexer.ofSource src).rest.length = src.contents.length := String.length_toList
  refine ⟨fun n => ⟨Lexer.after_of_isFinal, Lexer.exists_taken, fun _ => Lexer.exists_searched⟩,
    fun n hn => ?_, Lexer.nextSignificant_eq_next_after, terminates_newlines, terminates_patterns,
    terminates_names, terminates_modules, terminates_rules⟩
  rw [← hlength] at hn ⊢
  rw [Lexer.after_of_length_le hn]

/-- A string that is not closed, a line end and a character that begins no token. -/
def straySample : Source := ⟨"case.arch", "\"a\n%"⟩

/-- Behind two calls the sample is at its stray character for good. -/
theorem reading_ends_straySample :
    (Lexer.ofSource straySample).next.1
        = .error (.placed .unterminatedString ⟨1, 1, 0, 1, "\""⟩)
      ∧ (∃ inside, straySample.contents.toList
          = '"' :: inside ++ ((Lexer.ofSource straySample).after 1).rest
        ∧ ∀ c ∈ inside, Token.isNewlineChar c = false ∧ c ≠ '"' ∧ c ≠ '\x00')
      ∧ ((Lexer.ofSource straySample).after 2).next.1
        = .error (.placed (.unrecognisedCharacter '%') ⟨2, 1, 3, 4, "%"⟩)
      ∧ ∀ m, ((Lexer.ofSource straySample).after 2).after m
        = (Lexer.ofSource straySample).after 2 := by
  have hopen : ((Lexer.ofSource straySample).after 0).next.1
      = .error (.placed .unterminatedString ⟨1, 1, 0, 1, "\""⟩) := by decide +kernel
  have hstray : ((Lexer.ofSource straySample).after 2).next.1
      = .error (.placed (.unrecognisedCharacter '%') ⟨2, 1, 3, 4, "%"⟩) := by decide +kernel
  obtain ⟨hcalls, -⟩ := reading_ends straySample
  obtain ⟨-, -, hsearched⟩ := hcalls 0
  obtain ⟨hstays, -, -⟩ := hcalls 2
  obtain ⟨inside, hsplit, hinside, -⟩ := hsearched _ hopen
  exact ⟨hopen, ⟨inside, hsplit, hinside⟩, hstray, hstays (by rw [hstray]; rfl)⟩

end Conformance.Parser
