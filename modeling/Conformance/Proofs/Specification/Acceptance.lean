import Conformance.Proofs.Specification.Tracking

/-!
# Which texts are read

A specification text is read when it has no lexical errors and its tokens, blanks and comments left
out, are a sentence of the grammar, and what is read is what the sentence says (`ofSource_ok_iff`).
Otherwise reading ends at the first token that cannot stand where it stands, or at the lexical error
if that comes first (`ofSource_cases`).
-/

namespace Conformance

open Grammar

/-- A parser that reads a specification to its end has had the tokens of a whole one ahead. -/
theorem Parser.ahead_of_run_specification {p q : Parser} {spec : Specification}
    (h : p.run specification = (.ok spec, q)) :
    ∃ us, p.ahead = us.map .ok
      ∧ Reading.start.run us = some ⟨.done, (saying spec).1, (saying spec).2⟩ := by
  have htracks : p.Tracks .start specification _ := tracks_specification
  unfold Tracks at htracks
  rw [h] at htracks
  obtain ⟨ts, s, hts, -, hrun, hend, rfl⟩ := htracks
  have heof := atEnd_iff.1 hend
  refine ⟨ts ++ [q.token], ?_, ?_⟩
  · rw [hts, ahead, if_pos heof, List.map_append]
    rfl
  · have hlast : Reading.step ⟨.ruleLines, (saying spec).1, (saying spec).2⟩ q.token
        = some ⟨.done, (saying spec).1, (saying spec).2⟩ := by
      simp [Reading.step, IsNewline, heof, Reading.inPhase]
    rw [Reading.run_append_of_run hrun, Reading.run_cons_of_step hlast]
    rfl

namespace Specification

/-- What reading a text comes to, told by the recogniser: all its tokens are taken in up to the end,
or one of them cannot be, or an error stands behind those taken in. -/
theorem ofSource_cases (src : Source) :
    (∃ spec us, ofSource src = .ok spec ∧ (Lexer.ofSource src).upcoming = us.map .ok
        ∧ Reading.start.run us = some ⟨.done, (saying spec).1, (saying spec).2⟩)
      ∨ (∃ e us t rest s, ofSource src = .error (.parse e)
        ∧ (Lexer.ofSource src).upcoming = us.map .ok ++ .ok t :: rest
        ∧ Reading.start.run us = some s ∧ s.step t = none ∧ e.span = some t.span)
      ∨ ∃ e us s, ofSource src = .error (.lex e)
        ∧ (Lexer.ofSource src).upcoming = us.map .ok ++ [.error e]
        ∧ Reading.start.run us = some s := by
  obtain ⟨p, hp, hahead⟩ | ⟨e, he, hupcoming⟩ := Parser.ahead_ofSource src
  · have htracks : p.Tracks .start Parser.specification _ := Parser.tracks_specification
    have hread : ofSource src = (p.run Parser.specification).1 := by
      simp only [ofSource, hp]
      rfl
    rw [hread, ← hahead]
    -- how the parser ends tells how far the recogniser has come
    unfold Parser.Tracks at htracks
    rcases houtcome : p.run Parser.specification with ⟨(e | e | e) | spec, q⟩
    · rw [houtcome] at htracks
      obtain ⟨ts, s, hts, hrun⟩ := htracks
      exact .inr (.inr ⟨e, ts, s, rfl, hts, hrun⟩)
    · rw [houtcome] at htracks
      obtain ⟨ts, s, hts, hrun, hstep, hspan⟩ := htracks
      exact .inr (.inl ⟨e, ts, q.token, _, s, rfl, hts, hrun, hstep, hspan⟩)
    · rw [houtcome] at htracks
      exact htracks.elim
    · obtain ⟨us, hus, hrun⟩ := Parser.ahead_of_run_specification houtcome
      exact .inl ⟨spec, us, rfl, hus, hrun⟩
  · refine .inr (.inr ⟨e, [], .start, ?_, hupcoming, rfl⟩)
    simp only [ofSource, he]
    rfl

/-- A text is read as what a sentence says when that sentence is all its significant tokens. -/
theorem exists_saying_iff {src : Source} {us : List Token}
    (hus : (Lexer.ofSource src).upcoming = us.map .ok) {ms : List (Span × List Span)}
    {rs : List (RuleKind × List Span)} :
    (∃ spec, ofSource src = .ok spec ∧ saying spec = (ms, rs)) ↔ Sentence us ms rs := by
  rw [sentence_iff_run]
  obtain ⟨spec, us', hspec, hus', hrun⟩ | ⟨e, us', t, rest, s, he, hus', hrun, hstep, -⟩
    | ⟨e, us', s, -, hus', -⟩ := ofSource_cases src
  · obtain rfl : us' = us := Lexer.map_ok_inj.1 (hus'.symm.trans hus)
    rw [hspec, hrun]
    constructor
    · intro hsome
      obtain ⟨_, ⟨rfl⟩, hsaying⟩ := hsome
      rw [hsaying]
    · intro h
      obtain ⟨-, rfl, rfl⟩ := Reading.mk.inj (Option.some.inj h)
      exact ⟨spec, rfl, rfl⟩
  · -- the token that cannot stand there is among all tokens
    obtain ⟨ts, rfl⟩ := Lexer.exists_eq_append_cons (hus.symm.trans hus')
    have hnone : Reading.start.run (us' ++ t :: ts) = none := by
      rw [Reading.run_append_of_run hrun, Reading.run, hstep]
      rfl
    rw [he, hnone]
    constructor
    · intro hsome
      obtain ⟨_, h, -⟩ := hsome
      cases h
    · intro h
      cases h
  · have herror : (Except.error e : Lexed) ∈ us.map .ok := by
      rw [← hus, hus']
      simp
    obtain ⟨_, _, h⟩ := List.mem_map.1 herror
    cases h

/-- A text is read when it has no lexical error and its significant tokens are a sentence. What is
read is then what that sentence says, and the sentence says nothing else. -/
theorem ofSource_ok_iff (src : Source) :
    ((∃ spec, ofSource src = .ok spec)
        ↔ ∃ ts, (Lexer.ofSource src).tokens = ts.map .ok ∧ ∃ ms rs, Sentence (significant ts) ms rs)
      ∧ ∀ spec ts, ofSource src = .ok spec → (Lexer.ofSource src).tokens = ts.map .ok →
        ∀ ms rs, Sentence (significant ts) ms rs ↔ saying spec = (ms, rs) := by
  refine ⟨⟨?_, ?_⟩, ?_⟩
  · intro hsome
    obtain ⟨spec, hspec⟩ := hsome
    obtain ⟨spec', us, -, hus, hrun⟩ | ⟨e, us, t, rest, s, he, -⟩ | ⟨e, us, s, he, -⟩ :=
      ofSource_cases src
    · obtain ⟨ts, hts, rfl⟩ := Lexer.upcoming_eq_map_iff.1 hus
      exact ⟨ts, hts, _, _, sentence_iff_run.2 hrun⟩
    · cases hspec.symm.trans he
    · cases hspec.symm.trans he
  · intro hsome
    obtain ⟨ts, hts, ms, rs, hsentence⟩ := hsome
    have hus := Lexer.upcoming_eq_map_iff.2 ⟨ts, hts, rfl⟩
    obtain ⟨spec, hspec, -⟩ := (exists_saying_iff hus).2 hsentence
    exact ⟨spec, hspec⟩
  · intro spec ts hspec hts ms rs
    have hus := Lexer.upcoming_eq_map_iff.2 ⟨ts, hts, rfl⟩
    rw [← exists_saying_iff hus]
    constructor
    · intro hsome
      obtain ⟨spec', hspec', hsaying⟩ := hsome
      obtain rfl := Except.ok.inj (hspec.symm.trans hspec')
      exact hsaying
    · exact fun hsaying => ⟨spec, hspec, hsaying⟩

end Specification

end Conformance
