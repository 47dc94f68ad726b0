import Conformance.Proofs.Specification.Acceptance
import Conformance.Proofs.Token.Scanning
import Mathlib.Data.List.Induction

/-!
# Specifications go by skeletons

What the recogniser makes of tokens is the same up to places when their skeleton is the same: it asks
for kinds and texts alone, it keeps no line end, and where it takes in one line end it takes in any
number of them (`Grammar.Reading.run_skeleton`). So texts with the same skeleton are read alike
(`Specification.ofSource_of_skeleton?`).
-/

namespace Conformance

/-- A span without its place. -/
def Span.bare (s : Span) : Span := ⟨0, 0, 0, 0, s.text⟩

namespace Token

variable {t : Token}

@[simp]
theorem kind_bare (t : Token) : t.bare.kind = t.kind := rfl

/-- What tells something keeps its text. -/
theorem span_bare (h : t.kind.tells = true) : t.bare.span = t.span.bare := by
  simp [bare, plain, h, Span.bare, text]

theorem text_bare (h : t.kind.tells = true) : t.bare.text = t.text := by
  simp [bare, plain, h, text]

end Token

namespace Grammar

variable {t : Token}

/-- Whether a token is a symbol does not depend on its place. -/
theorem isSymbol_bare {text : String} : IsSymbol text t.bare ↔ IsSymbol text t := by
  unfold IsSymbol
  refine and_congr_right fun hkind => ?_
  rw [Token.text_bare (by simp [show t.kind = .symbol from hkind, TokenKind.tells])]

theorem isKeyword_bare {text : String} : IsKeyword text t.bare ↔ IsKeyword text t := by
  unfold IsKeyword
  refine and_congr_right fun hkind => ?_
  rw [Token.text_bare (by simp [show t.kind = .glob from hkind, TokenKind.tells])]

/-- Whether a token is a name does not depend on its place. -/
theorem isName_bare : IsName t.bare ↔ IsName t := by
  unfold IsName
  refine and_congr_right fun hkind => ?_
  rw [Token.text_bare (by simp [show t.kind = .glob from hkind, TokenKind.tells])]

theorem isNewline_bare : IsNewline t.bare ↔ IsNewline t := Iff.rfl

/-- A phase without the places of what was read. -/
def Phase.bare : Phase → Phase
  | lead => lead
  | modulesColon => modulesColon
  | modulesEnd => modulesEnd
  | moduleLines => moduleLines
  | moduleName n => moduleName n.bare
  | patternDue n ps => patternDue n.bare (ps.map Span.bare)
  | patterns n ps => patterns n.bare (ps.map Span.bare)
  | rulesColon => rulesColon
  | rulesEnd => rulesEnd
  | ruleLines => ruleLines
  | ruleName n => ruleName n.bare
  | nameDue k ns => nameDue k (ns.map Span.bare)
  | names k ns => names k (ns.map Span.bare)
  | done => done

/-- Modules without places. -/
def bareModules (ms : List (Span × List Span)) : List (Span × List Span) :=
  ms.map fun m => (m.1.bare, m.2.map Span.bare)

/-- Rules without places. -/
def bareRules (rs : List (RuleKind × List Span)) : List (RuleKind × List Span) :=
  rs.map fun r => (r.1, r.2.map Span.bare)

namespace Reading

/-- A reading without places. -/
def bare (r : Reading) : Reading := ⟨r.phase.bare, bareModules r.modules, bareRules r.rules⟩

/-- The recogniser takes no notice of places. -/
theorem step_bare (r : Reading) (t : Token) : r.bare.step t.bare = (r.step t).map bare := by
  obtain ⟨phase, ms, rs⟩ := r
  have hname (h : IsName t) : t.bare.span = t.span.bare :=
    Token.span_bare (by simp [h.1, TokenKind.tells])
  have hstring (h : t.kind = .string) : t.bare.span = t.span.bare :=
    Token.span_bare (by simp [h, TokenKind.tells])
  cases phase with
  | done => rfl
  | _ =>
    simp only [step, bare, Phase.bare, isSymbol_bare, isKeyword_bare, isName_bare, isNewline_bare,
      Token.kind_bare]
    split_ifs <;> simp_all [inPhase, Phase.bare, bare, bareModules, bareRules]

/-- Where a line end can stand, another one behind it changes nothing. -/
theorem step_newline_newline {r s : Reading} {t u : Token} (ht : IsNewline t) (hu : IsNewline u)
    (h : r.step t = some s) : s.step u = some s := by
  have hkind : t.kind = .newline := ht
  obtain ⟨phase, ms, rs⟩ := r
  cases phase with
  | lead | modulesEnd | moduleLines | patterns | rulesEnd | ruleLines | names =>
    simp only [step, if_pos ht] at h
    obtain rfl := Option.some.inj h
    exact if_pos hu
  | _ => simp [step, IsSymbol, IsName, hkind] at h

/-- The last of several tokens is taken in last. -/
theorem run_concat (r : Reading) (ts : List Token) (t : Token) :
    r.run (ts ++ [t]) = (r.run ts).bind fun s => s.step t := by
  rw [run_append]
  congr 1
  funext s
  rw [run]
  cases s.step t with
  | none => rfl
  | some s' => rfl

/-- A line end that is left out of a skeleton makes no difference. -/
theorem run_addNewline (r : Reading) (ts : List Token) {t : Token} (ht : IsNewline t) :
    r.run (addNewline ts) = (r.run ts).bind fun s => s.step t.bare := by
  unfold addNewline
  split
  · next hlast =>
    obtain ⟨u, hu, hnewline⟩ : ∃ u, ts.getLast? = some u ∧ u.kind = .newline := by
      rcases hu : ts.getLast? with _ | u
      · simp [hu] at hlast
      · exact ⟨u, rfl, by simpa [hu] using hlast⟩
    -- the line end behind the last one has been taken in already
    obtain ⟨front, rfl⟩ := List.getLast?_eq_some_iff.1 hu
    rw [run_concat]
    cases r.run front with
    | none => rfl
    | some s =>
      cases hs : s.step u with
      | none => simp [hs]
      | some s' => simp [hs, step_newline_newline hnewline (isNewline_bare.2 ht) hs]
  · rw [run_concat]
    have hbare : t.bare = .plain .newline "" := by
      simp [Token.bare, show t.kind = .newline from ht, TokenKind.tells]
    rw [hbare]

/-- What the recogniser makes of a skeleton is what it makes of the tokens, without places. -/
theorem run_skeleton (us : List Token) (hus : ∀ t ∈ us, t.kind ≠ .spacing) :
    start.run (skeleton us) = (start.run us).map bare := by
  induction us using List.reverseRecOn with
  | nil => rfl
  | append_singleton us t ih =>
    have hstep (s : Option Reading) :
        ((s.map bare).bind fun s => s.step t.bare) = (s.bind fun s => s.step t).map bare := by
      cases s with
      | none => rfl
      | some s => exact step_bare s t
    have hall := ih fun u hu => hus u (List.mem_append_left _ hu)
    have hsplit : skeleton (us ++ [t]) = addBare (skeleton us) t := by
      rw [skeleton, List.foldl_append]
      rfl
    rw [hsplit, addBare, if_neg (hus t (by simp)), run_concat, ← hstep, ← hall]
    split
    · next ht => rw [run_addNewline _ _ ht]
    · rw [run_concat]

end Reading

end Grammar

/-- No blanks and comments are upcoming. -/
theorem Lexer.kind_ne_spacing_of_upcoming {l : Lexer} {us : List Token}
    (h : l.upcoming = us.map .ok) : ∀ t ∈ us, t.kind ≠ .spacing := by
  obtain ⟨ts, -, rfl⟩ := Lexer.upcoming_eq_map_iff.1 h
  intro t ht
  simpa [Grammar.significant] using (List.mem_filter.1 ht).2

namespace Specification

open Grammar

variable {src src' : Source} {s : Specification}

/-- A text that is read has a skeleton. -/
theorem exists_skeleton?_of_ofSource (h : ofSource src = .ok s) :
    ∃ w, Scanner.skeleton? src.contents = some w := by
  obtain ⟨ts, hts, -⟩ := (ofSource_ok_iff src).1.1 ⟨s, h⟩
  have hus := Lexer.upcoming_eq_map_iff.2 ⟨ts, hts, rfl⟩
  exact ⟨_, Lexer.skeleton?_eq_some_iff.2 ⟨_, hus, rfl⟩⟩

/-- Texts with the same skeleton are both read if one of them is, and they say the same up to places.
-/
theorem ofSource_of_skeleton? (h : ofSource src = .ok s)
    (hsame : Scanner.skeleton? src'.contents = Scanner.skeleton? src.contents) :
    ∃ s', ofSource src' = .ok s' ∧ bareModules (saying s').1 = bareModules (saying s).1
      ∧ bareRules (saying s').2 = bareRules (saying s).2 := by
  obtain ⟨w, hw⟩ := exists_skeleton?_of_ofSource h
  obtain ⟨us, hus, rfl⟩ := Lexer.skeleton?_eq_some_iff.1 hw
  obtain ⟨us', hus', hskeleton⟩ := Lexer.skeleton?_eq_some_iff.1 (hsame.trans hw)
  have hrun := sentence_iff_run.1 ((exists_saying_iff hus).1 ⟨s, h, rfl⟩)
  -- the recogniser ends in the same reading, up to places
  have hbare : (Reading.start.run us').map Reading.bare
      = some (Reading.bare ⟨.done, (saying s).1, (saying s).2⟩) := by
    rw [← Reading.run_skeleton us' (Lexer.kind_ne_spacing_of_upcoming hus'), hskeleton,
      Reading.run_skeleton us (Lexer.kind_ne_spacing_of_upcoming hus), hrun]
    rfl
  obtain ⟨⟨phase, ms, rs⟩, hrun', hreading⟩ := Option.map_eq_some_iff.1 hbare
  obtain ⟨hphase, hms, hrs⟩ := Reading.mk.inj hreading
  obtain rfl : phase = .done := by
    cases phase with
    | done => rfl
    | _ => cases hphase
  obtain ⟨s', hs', hsaying⟩ := (exists_saying_iff hus').2 (sentence_iff_run.2 hrun')
  obtain ⟨rfl, rfl⟩ := Prod.mk.inj hsaying
  exact ⟨s', hs', hms, hrs⟩

end Specification

end Conformance
