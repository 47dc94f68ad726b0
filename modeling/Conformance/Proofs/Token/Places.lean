import Conformance.Proofs.Source.Places
import Conformance.Proofs.Token.Lexeme

/-!
# Places of tokens

A lexer keeps its place: it stands at a boundary of the text and knows on which line. A call gives a
token or an error that stands in the text from there on and leaves the lexer at such a place again,
also when it fails (`Lexer.placed_next`, and `Lexer.placed_nextSignificant` for the calls of a
parser).
-/

namespace Conformance

open Text

/-- The place that a call of a lexer names: that of the token or of the error. -/
def spanOf : Lexed → Option Span
  | .ok t => some t.span
  | .error e => e.span

namespace Lexer

variable {src : Source} {l l' : Lexer}

/-- Is what a lexer has to read the rest of the text from its offset and its line on? -/
def IsPlaced (l : Lexer) (src : Source) : Prop :=
  ∃ front, src.contents.toList = front ++ l.rest ∧ byteLength front = l.offset
    ∧ l.line = front.count '\n' + 1

/-- What holds of a call from a lexer on: it names a place in the text, and moves the lexer on to
another one. -/
structure Placed (src : Source) (l : Lexer) (outcome : Lexed × Lexer) : Prop where
  span : ∀ s ∈ spanOf outcome.1, s.StandsIn src
  lexer : outcome.2.IsPlaced src
  offset_le : l.offset ≤ outcome.2.offset

/-- At first all of the text is ahead. -/
theorem isPlaced_ofSource (src : Source) : (ofSource src).IsPlaced src :=
  ⟨[], rfl, rfl, rfl⟩

/-- A lexer stands between two characters. -/
theorem IsPlaced.isBoundary (h : l.IsPlaced src) : src.IsBoundary l.offset := by
  obtain ⟨front, hcontents, hoffset, -⟩ := h
  exact Source.isBoundary_iff.2 ⟨front, l.rest, hcontents, hoffset⟩

/-! ## Pieces of the text ahead -/

/-- A lexer that has taken a piece off the front of the text is behind it. -/
theorem IsPlaced.behind (h : l.IsPlaced src) {taken : List Char} (hrest : l.rest = taken ++ l'.rest)
    (hoffset : l'.offset = l.offset + byteLength taken)
    (hline : l'.line = l.line + taken.count '\n') : l'.IsPlaced src := by
  obtain ⟨front, hcontents, hoffset', hline'⟩ := h
  refine ⟨front ++ taken, ?_, ?_, ?_⟩
  · rw [hcontents, hrest, List.append_assoc]
  · rw [byteLength_append, hoffset', hoffset]
  · rw [hline, hline', List.count_append]
    omega

/-- A piece of the text ahead, on the line of the lexer, has the span that the lexer gives it. -/
theorem IsPlaced.spanAhead (h : l.IsPlaced src) (skipped inside : List Char) {back : List Char}
    (hrest : l.rest = skipped ++ inside ++ back) (hskipped : '\n' ∉ skipped) :
    (l.spanAhead (byteLength skipped) inside).StandsIn src := by
  obtain ⟨front, hcontents, hoffset, hline⟩ := h
  refine ⟨front ++ skipped, inside, back, ?_, ?_, ?_, rfl, ?_⟩
  · rw [hcontents, hrest]
    simp only [List.append_assoc]
  · rw [byteLength_append, hoffset]
    rfl
  · rw [byteLength_append, hoffset]
    rfl
  · rw [List.count_append, List.count_eq_zero.2 hskipped, Nat.add_zero]
    exact hline

/-- Within a line the line stays the same. -/
theorem IsPlaced.advance (h : l.IsPlaced src) {text rest : List Char} (width : Nat)
    (hrest : l.rest = text ++ rest) (htext : '\n' ∉ text) :
    (l.advance text width rest).IsPlaced src :=
  h.behind hrest rfl (by rw [List.count_eq_zero.2 htext]; rfl)

/-- A token that is a piece of the text right ahead, and the lexer behind it. -/
theorem IsPlaced.placed (h : l.IsPlaced src) {kind : TokenKind} (text : List Char)
    (hrest : l.rest = text ++ l'.rest) (hoffset : l'.offset = l.offset + byteLength text)
    (hline : l'.line = l.line + text.count '\n') :
    Placed src l (.ok ⟨kind, l.spanAhead 0 text⟩, l') where
  span := by
    rintro _ ⟨⟩
    exact h.spanAhead [] text hrest List.not_mem_nil
  lexer := h.behind hrest hoffset hline
  offset_le := by
    show l.offset ≤ l'.offset
    omega

/-! ## One call -/

/-- Characters of a family without the line feed hold none. -/
theorem lineFeed_notMem_takeWhile {p : Char → Bool} (hp : p '\n' = false) (cs : List Char) :
    '\n' ∉ cs.takeWhile p := fun hmem => by
  have htrue := List.mem_takeWhile_imp hmem
  rw [hp] at htrue
  cases htrue

/-- A comment holds no line feed, as it ends in front of it. -/
theorem lineFeed_notMem_comment (cs : List Char) : '\n' ∉ comment cs := by
  unfold comment
  split
  · exact List.not_mem_cons_of_ne_of_not_mem (by decide) (lineFeed_notMem_takeWhile (by decide) _)
  · exact List.not_mem_nil

/-- A name or an operator stands in the text, on one line. -/
theorem IsPlaced.placed_nextRun (h : l.IsPlaced src) (kind : TokenKind) {family : Char → Bool}
    (hfamily : family '\n' = false) :
    Placed src l ((l.nextRun kind family).map .ok id) := by
  have hrest := (List.takeWhile_append_dropWhile (p := family) (l := l.rest)).symm
  refine h.placed _ hrest rfl ?_
  rw [List.count_eq_zero.2 (lineFeed_notMem_takeWhile hfamily _)]
  rfl

/-- Line ends stand in the text, and the lexer counts the line feeds among them. -/
theorem IsPlaced.placed_nextNewlines (h : l.IsPlaced src) :
    Placed src l (l.nextNewlines.map .ok id) :=
  h.placed _ (List.takeWhile_append_dropWhile (p := Token.isNewlineChar) (l := l.rest)).symm rfl rfl

/-- Blanks and a comment behind them stand in the text, on one line. -/
theorem IsPlaced.placed_nextSpacing (h : l.IsPlaced src) :
    Placed src l (l.nextSpacing.map .ok id) := by
  have hblanks := List.takeWhile_append_dropWhile (p := Token.isSpaceChar) (l := l.rest)
  obtain ⟨hremark, -⟩ := comment_spec (l.rest.dropWhile Token.isSpaceChar)
    fun _ => eq_false_of_head?_dropWhile
  have hfeed : '\n' ∉ l.rest.takeWhile Token.isSpaceChar
      ++ comment (l.rest.dropWhile Token.isSpaceChar) := fun hmem =>
    (List.mem_append.1 hmem).elim (lineFeed_notMem_takeWhile (by decide) _)
      (lineFeed_notMem_comment _)
  refine h.placed _ ?_ rfl ?_
  · rw [List.append_assoc]
    exact hblanks.symm.trans (congrArg _ hremark.symm)
  · rw [List.count_eq_zero.2 hfeed]
    rfl

/-- A string stands between its quotes, and one without a closing quote is reported at the opening
one, with the lexer behind all that was searched. -/
theorem IsPlaced.placed_nextString (h : l.IsPlaced src) {body : List Char}
    (hl : l.rest = '"' :: body) : Placed src l (l.nextString body) := by
  have hsplit := List.takeWhile_append_dropWhile (p := (!Token.endsString ·)) (l := body)
  have hfeed : '\n' ∉ body.takeWhile (!Token.endsString ·) :=
    lineFeed_notMem_takeWhile (by decide) _
  unfold nextString
  split
  · next rest hrest =>
    rw [hrest] at hsplit
    have hquoted := hl.trans (congrArg ('"' :: ·) hsplit.symm)
    refine ⟨?_, h.advance _ ?_ ?_, Nat.le_add_right _ _⟩
    · rintro _ ⟨⟩
      exact h.spanAhead ['"'] _ hquoted (by decide)
    · rw [hquoted]
      simp
    · simp [hfeed]
  · refine ⟨?_, h.advance _ (hl.trans (congrArg ('"' :: ·) hsplit.symm)) ?_, Nat.le_add_right _ _⟩
    · rintro _ ⟨⟩
      exact h.spanAhead [] ['"'] hl List.not_mem_nil
    · simp [hfeed]

/-- Every call names a place in the text and keeps the lexer placed. -/
theorem IsPlaced.placed_next (h : l.IsPlaced src) : Placed src l l.next := by
  unfold next
  split
  · exact h.placed [] rfl rfl rfl
  · next c cs hl =>
    split_ifs with hquote
    · subst hquote
      exact h.placed_nextString hl
    · exact h.placed_nextRun .glob (by decide)
    · exact h.placed_nextRun .symbol (by decide)
    · exact h.placed_nextNewlines
    · exact h.placed_nextSpacing
    · -- a character that begins no token is not taken
      refine ⟨?_, h, Nat.le_refl _⟩
      rintro _ ⟨⟩
      exact h.spanAhead [] [c] hl List.not_mem_nil

/-! ## Calls in a row -/

/-- Calls in a row keep the lexer placed, by induction over them. -/
theorem Run.isPlaced {ts : List Token} (h : Run l ts l') (hl : l.IsPlaced src) :
    l'.IsPlaced src := by
  induction h with
  | none => exact hl
  | more hnext _ _ ih =>
    have hplaced := hl.placed_next
    rw [hnext] at hplaced
    exact ih hplaced.lexer

/-- The calls up to the next significant token name a place and keep the lexer placed. -/
theorem IsPlaced.placed_nextSignificant (h : l.IsPlaced src) : Placed src l l.nextSignificant := by
  fun_induction nextSignificant l with
  -- blanks or a comment are passed over
  | case1 l t l' hnext _ ih =>
    have hplaced := h.placed_next
    rw [hnext] at hplaced
    have hlater := ih hplaced.lexer
    exact ⟨hlater.span, hlater.lexer, Nat.le_trans hplaced.offset_le hlater.offset_le⟩
  | case2 l t l' hnext _ => exact hnext ▸ h.placed_next
  | case3 l e l' hnext => exact hnext ▸ h.placed_next

/-- A token that counts stops where the lexer stands behind it. -/
theorem stop_of_nextSignificant {t : Token} (h : l.nextSignificant = (.ok t, l')) :
    t.stop = l'.offset := by
  fun_induction nextSignificant l with
  | case1 l u m _ _ ih => exact ih h
  | case2 l u m hnext _ =>
    obtain ⟨⟨rfl⟩, rfl⟩ := Prod.mk.inj h
    exact (reads_of_next hnext).stop_eq
  | case3 l e m _ => cases (Prod.mk.inj h).1

end Lexer

end Conformance
