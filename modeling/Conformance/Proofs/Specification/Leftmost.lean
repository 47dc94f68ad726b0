import Conformance.Proofs.Specification.Acceptance
import Conformance.Proofs.Token.Lexeme

/-!
# Errors are reported from left to right

Every reading that tokens lead to can be completed to a whole specification, so tokens can begin one
when the recogniser takes them in (`Grammar.canBegin_iff_run`). A text that is not read is therefore
refused at the first token that no specification has in its place, or at a lexical error with none
such in front of it (`Specification.isLeftmost_of_ofSource`).
-/

namespace Conformance

namespace Grammar

/-! ## Readings can be completed -/

/-- How many tokens are missing to the end of a specification, at least. -/
def Phase.missing : Phase → Nat
  | done => 0
  | ruleLines => 1
  | names _ _ => 2
  | nameDue _ _ => 3
  | ruleName _ => 4
  | rulesEnd => 2
  | rulesColon => 3
  | moduleLines => 4
  | patterns _ _ => 5
  | patternDue _ _ => 6
  | moduleName _ => 7
  | modulesEnd => 5
  | modulesColon => 6
  | lead => 7

theorem exists_token (kind : TokenKind) (text : String) :
    ∃ t : Token, t.kind = kind ∧ t.text = text :=
  ⟨⟨kind, 1, 1, 0, 0, text⟩, rfl, rfl⟩

theorem exists_isName : ∃ t, IsName t := by
  obtain ⟨t, hkind, htext⟩ := exists_token .glob "a"
  refine ⟨t, isName_iff.2 ⟨hkind, ?_⟩⟩
  rw [htext]
  decide

namespace Reading

variable {r : Reading}

/-- There is a token that brings a reading nearer to the end. -/
theorem exists_step (h : r.phase ≠ .done) :
    ∃ t s, r.step t = some s ∧ s.phase.missing < r.phase.missing := by
  obtain ⟨phase, ms, rs⟩ := r
  have hsymbol (text : String) : ∃ t, IsSymbol text t := exists_token .symbol text
  obtain ⟨newline, hnewline, -⟩ := exists_token .newline ""
  -- from each phase the shortest way to the end
  cases phase with
  | lead =>
    obtain ⟨t, ht⟩ : ∃ t, IsKeyword "modules" t := exists_token .glob "modules"
    have hstep : step ⟨.lead, ms, rs⟩ t = some ⟨.modulesColon, ms, rs⟩ := by
      simp [step, IsNewline, ht.1, ht, inPhase]
    exact ⟨t, _, hstep, by simp [Phase.missing]⟩
  | modulesColon =>
    obtain ⟨t, ht⟩ := hsymbol ":"
    exact ⟨t, ⟨.modulesEnd, ms, rs⟩, if_pos ht, by simp [Phase.missing]⟩
  | modulesEnd => exact ⟨newline, ⟨.moduleLines, ms, rs⟩, if_pos hnewline, by simp [Phase.missing]⟩
  | moduleLines =>
    obtain ⟨t, ht⟩ : ∃ t, IsKeyword "rules" t := exists_token .glob "rules"
    have hstep : step ⟨.moduleLines, ms, rs⟩ t = some ⟨.rulesColon, ms, rs⟩ := by
      simp [step, IsNewline, ht.1, ht, inPhase]
    exact ⟨t, _, hstep, by simp [Phase.missing]⟩
  | moduleName n =>
    obtain ⟨t, ht⟩ := hsymbol "="
    exact ⟨t, ⟨.patternDue n [], ms, rs⟩, if_pos ht, by simp [Phase.missing]⟩
  | patternDue n ps =>
    obtain ⟨t, ht, -⟩ := exists_token .string ""
    exact ⟨t, ⟨.patterns n (ps ++ [t.span]), ms, rs⟩, if_pos ht, by simp [Phase.missing]⟩
  | patterns n ps =>
    exact ⟨newline, ⟨.moduleLines, ms ++ [(n, ps)], rs⟩, if_pos hnewline, by simp [Phase.missing]⟩
  | rulesColon =>
    obtain ⟨t, ht⟩ := hsymbol ":"
    exact ⟨t, ⟨.rulesEnd, ms, rs⟩, if_pos ht, by simp [Phase.missing]⟩
  | rulesEnd => exact ⟨newline, ⟨.ruleLines, ms, rs⟩, if_pos hnewline, by simp [Phase.missing]⟩
  | ruleLines =>
    obtain ⟨t, ht, -⟩ := exists_token .eof ""
    have hstep : step ⟨.ruleLines, ms, rs⟩ t = some ⟨.done, ms, rs⟩ := by
      simp [step, IsNewline, ht, inPhase]
    exact ⟨t, _, hstep, by simp [Phase.missing]⟩
  | ruleName n =>
    obtain ⟨t, ht⟩ := hsymbol "->"
    exact ⟨t, _, step_ruleName_operator (k := .dependency) ht n, by simp [Phase.missing]⟩
  | nameDue k ns =>
    obtain ⟨t, ht⟩ := exists_isName
    exact ⟨t, ⟨.names k (ns ++ [t.span]), ms, rs⟩, if_pos ht, by simp [Phase.missing]⟩
  | names k ns =>
    exact ⟨newline, ⟨.ruleLines, ms, rs ++ [(k, ns)]⟩, if_pos hnewline, by simp [Phase.missing]⟩
  | done => exact absurd rfl h

/-- Every reading can be brought to the end. -/
theorem exists_run_done (r : Reading) : ∃ ts s, r.run ts = some s ∧ s.phase = .done := by
  -- by induction on the tokens that are missing
  induction hn : r.phase.missing using Nat.strongRecOn generalizing r with
  | ind n ih =>
    by_cases h : r.phase = .done
    · exact ⟨[], r, rfl, h⟩
    · obtain ⟨t, s, hstep, hlt⟩ := exists_step h
      obtain ⟨ts, s', hrun, hdone⟩ := ih s.phase.missing (hn ▸ hlt) s rfl
      exact ⟨t :: ts, s', by rw [run_cons_of_step hstep, hrun], hdone⟩

end Reading

/-- Tokens can begin a specification when the recogniser takes them all in. -/
theorem canBegin_iff_run {ts : List Token} : CanBegin ts ↔ ∃ s, Reading.start.run ts = some s := by
  constructor
  · intro h
    obtain ⟨rest, ms, rs, hsentence⟩ := h
    have hrun := sentence_iff_run.1 hsentence
    rw [Reading.run_append] at hrun
    obtain ⟨s, hs, -⟩ := Option.bind_eq_some_iff.1 hrun
    exact ⟨s, hs⟩
  · intro h
    obtain ⟨s, hs⟩ := h
    obtain ⟨rest, ⟨phase, ms, rs⟩, hrun, rfl⟩ := s.exists_run_done
    refine ⟨rest, ms, rs, sentence_iff_run.2 ?_⟩
    rw [Reading.run_append_of_run hs, hrun]

theorem CanBegin.of_append {ts us : List Token} (h : CanBegin (ts ++ us)) : CanBegin ts := by
  obtain ⟨rest, ms, rs, hsentence⟩ := h
  refine ⟨us ++ rest, ms, rs, ?_⟩
  rwa [← List.append_assoc]

/-- A token that the recogniser does not take in begins no specification with those before it. -/
theorem not_canBegin_of_step {ts : List Token} {t : Token} {s : Reading}
    (hrun : Reading.start.run ts = some s) (hstep : s.step t = none) : ¬ CanBegin (ts ++ [t]) := by
  intro h
  obtain ⟨s', hs'⟩ := canBegin_iff_run.1 h
  rw [Reading.run_append_of_run hrun, Reading.run, hstep] at hs'
  cases hs'

/-! ## The token that cannot stand where it stands -/

/-- Is `t` the first significant token at which a text can no longer begin a specification, `ts`
being all tokens in front of it? -/
def IsMisplaced (ts : List Token) (t : Token) : Prop :=
  t.kind ≠ .spacing ∧ CanBegin (significant ts) ∧ ¬ CanBegin (significant ts ++ [t])

/-- No token is misplaced behind a misplaced one. -/
theorem IsMisplaced.not_append {ts us : List Token} {t u : Token} (h : IsMisplaced ts t) :
    ¬ IsMisplaced (ts ++ t :: us) u := by
  intro hlater
  have hkeep : significant (ts ++ t :: us) = significant ts ++ [t] ++ significant us := by
    rw [significant, List.filter_append, List.filter_cons_of_pos (by simpa using h.1),
      List.append_assoc]
    rfl
  have hbegin := hlater.2.1
  rw [hkeep] at hbegin
  exact h.2.2 hbegin.of_append

/-- A misplaced token that stands no earlier than another one is that one. -/
theorem IsMisplaced.eq_of_later {ts us : List Token} {t u : Token} {later rest rest' : List Lexed}
    (h : IsMisplaced ts t) (h' : IsMisplaced us u) (hlater : us.map Except.ok = ts.map .ok ++ later)
    (hrest : .ok t :: rest = later ++ .ok u :: rest') : us = ts ∧ u = t := by
  cases later with
  | nil =>
    rw [List.append_nil] at hlater
    obtain ⟨htoken, -⟩ := List.cons.inj hrest
    exact ⟨Lexer.map_ok_inj.1 hlater, (Except.ok.inj htoken).symm⟩
  | cons v vs =>
    obtain ⟨rfl, -⟩ := List.cons.inj hrest
    obtain ⟨ws, rfl⟩ := Lexer.exists_eq_append_cons hlater
    exact absurd h' h.not_append

/-- A text has only one misplaced token. -/
theorem IsMisplaced.unique {ts us : List Token} {t u : Token} {rest rest' : List Lexed}
    (h : IsMisplaced ts t) (h' : IsMisplaced us u)
    (heq : ts.map Except.ok ++ .ok t :: rest = us.map .ok ++ .ok u :: rest') :
    us = ts ∧ u = t := by
  obtain ⟨later, hlater, hrest⟩ | ⟨later, hlater, hrest⟩ := List.append_eq_append_iff.1 heq
  · exact h.eq_of_later h' hlater hrest
  · obtain ⟨rfl, rfl⟩ := h'.eq_of_later h hlater hrest
    exact ⟨rfl, rfl⟩

end Grammar

namespace Specification

open Grammar

/-- Is the error of a text the one furthest to the left? A grammatical error is at the token that is
misplaced, all in front of it being tokens; a lexical error is the one that the tokens end with, and
none of them is misplaced. -/
def IsLeftmost (src : Source) : SpecificationError → Prop
  | .parse e => ∃ ts t rest, (Lexer.ofSource src).tokens = ts.map .ok ++ .ok t :: rest
    ∧ IsMisplaced ts t ∧ e.span = some t.span
    ∧ ∀ us u rest', (Lexer.ofSource src).tokens = us.map .ok ++ .ok u :: rest' →
      IsMisplaced us u → us = ts ∧ u = t
  | .lex e => ∃ ts, (Lexer.ofSource src).tokens = ts.map .ok ++ [.error e]
    ∧ CanBegin (significant ts)
  | .compile _ => False

/-- The error of a text that is not read is the leftmost one. -/
theorem isLeftmost_of_ofSource {src : Source} {e : SpecificationError}
    (h : ofSource src = .error e) : IsLeftmost src e := by
  obtain ⟨spec, us, hspec, -⟩ | ⟨e', us, t, rest, s, he, hus, hrun, hstep, hspan⟩
    | ⟨e', us, s, he, hus, hrun⟩ := ofSource_cases src
  · cases hspec.symm.trans h
  · obtain rfl := Except.error.inj (he.symm.trans h)
    -- what stands in front of the token is what was taken in, with blanks in between
    obtain ⟨front, back, htokens, hfront, hback⟩ := List.filter_eq_append_iff.1 hus
    obtain ⟨gap, rest', rfl, hgap, hsignificant, -⟩ := List.filter_eq_cons_iff.1 hback
    have hbefore : (front ++ gap).filter Lexer.isSignificant = us.map .ok := by
      rw [List.filter_append, hfront, List.filter_eq_nil_iff.2 hgap, List.append_nil]
    obtain ⟨ts, hts, rfl⟩ := Lexer.filter_isSignificant_eq_map_iff.1 hbefore
    have htokens' : (Lexer.ofSource src).tokens = ts.map .ok ++ .ok t :: rest' := by
      rw [htokens, ← List.append_assoc, hts]
    have hkind : t.kind ≠ .spacing := by simpa [Lexer.isSignificant] using hsignificant
    have hmisplaced : IsMisplaced ts t :=
      ⟨hkind, canBegin_iff_run.2 ⟨s, hrun⟩, not_canBegin_of_step hrun hstep⟩
    refine ⟨ts, t, rest', htokens', hmisplaced, hspan, fun vs v rest'' hvs hv => ?_⟩
    exact hmisplaced.unique hv (htokens'.symm.trans hvs)
  · obtain rfl := Except.error.inj (he.symm.trans h)
    obtain ⟨ts, l, hts, ⟨t, hnext, heof⟩ | ⟨e'', m, hnext⟩⟩ := (Lexer.ofSource src).exists_run
    · have htokens := hts.tokens_eq
      rw [Lexer.tokens_of_ok hnext, if_pos heof] at htokens
      have herror : (.error e' : Lexed) ∈ (Lexer.ofSource src).tokens :=
        List.mem_of_mem_filter (by rw [← Lexer.upcoming, hus]; simp)
      rw [htokens] at herror
      simp at herror
    · -- the tokens end with one error, so it is the one that was met
      have htokens := hts.tokens_eq
      have hlast : l.upcoming = [.error e''] := by
        rw [Lexer.upcoming, Lexer.tokens_of_error hnext]
        rfl
      have hupcoming := hus.symm.trans hts.upcoming_eq
      rw [hlast] at hupcoming
      obtain ⟨hbefore, herror⟩ := List.append_inj' hupcoming rfl
      obtain ⟨rfl⟩ : e' = e'' := by simpa using herror
      obtain rfl := Lexer.map_ok_inj.1 hbefore
      rw [Lexer.tokens_of_error hnext] at htokens
      exact ⟨ts, htokens, canBegin_iff_run.2 ⟨s, hrun⟩⟩

/-- A missing colon is reported and not the character behind it that begins no token; such a
character is reported and not the missing operator behind it. -/
theorem isLeftmost_samples :
    IsLeftmost ⟨"case.arch", "modules\n$"⟩
        (.parse (.placed (.expected (.word ":") "end of line" .afterModulesKeyword)
          ⟨1, 8, 7, 8, "\n"⟩))
      ∧ IsLeftmost ⟨"case.arch", "modules:\nrules:\nA $ B"⟩
        (.lex (.placed (.unrecognisedCharacter '$') ⟨3, 3, 18, 19, "$"⟩)) :=
  ⟨isLeftmost_of_ofSource (by decide +kernel), isLeftmost_of_ofSource (by decide +kernel)⟩

end Specification

end Conformance
