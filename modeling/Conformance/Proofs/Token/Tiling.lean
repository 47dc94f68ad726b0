import Conformance.Proofs.Source.Places
import Conformance.Proofs.Token.Lexeme
import Mathlib.Data.List.Chain

/-!
# The tokens of a text tile it

The stream of tokens ends with the end of the text or with the first error, and up to there the
lexemes of its tokens lie side by side: none of the text is lost and none is read twice. A token is
never followed by one of its kind, strings apart (`tokens_tile`).
-/

namespace Conformance

open Text

/-! ## Items of a stream -/

/-- The item that a stream gives out after `n` others, if it does not end before. -/
def TokenStream.nth? (s : TokenStream) : Nat → Option Lexed
  | 0 => s.next?.1
  | n + 1 => s.next?.2.nth? n

namespace TokenStream

/-- A stream that has ended gives out nothing more. -/
theorem nth?_of_ended {s : TokenStream} (h : s.ended = true) (n : Nat) : s.nth? n = none := by
  have hnext : s.next? = (none, s) := if_pos h
  induction n with
  | zero => rw [nth?, hnext]
  | succ n ih => rw [nth?, hnext, ih]

/-- The stream gives out the tokens of the text in order and then nothing. -/
theorem nth?_ofLexer (l : Lexer) (n : Nat) : nth? ⟨l, false⟩ n = l.tokens[n]? := by
  induction n generalizing l with
  | zero =>
    rcases hnext : l.next with ⟨e | t, l'⟩
    · simp [nth?, next?, hnext, Lexer.tokens_of_error hnext]
    · simp [nth?, next?, hnext, Lexer.tokens_of_ok hnext]
  | succ n ih =>
    rcases hnext : l.next with ⟨e | t, l'⟩
    · -- an error is the last item of the stream and of the list
      have hended : (next? ⟨l, false⟩).2.ended = true := by simp [next?, hnext]
      rw [nth?, nth?_of_ended hended, Lexer.tokens_of_error hnext]
      rfl
    · rw [Lexer.tokens_of_ok hnext, List.getElem?_cons_succ]
      by_cases ht : t.kind = .eof
      · have hended : (next? ⟨l, false⟩).2.ended = true := by simp [next?, hnext, ht]
        rw [nth?, nth?_of_ended hended, if_pos ht]
        rfl
      · have hgoes : (next? ⟨l, false⟩).2 = ⟨l', false⟩ := by simp [next?, hnext, ht]
        rw [nth?, hgoes, ih, if_neg ht]

end TokenStream

/-! ## Lexemes side by side -/

/-- Does each token start where the one before it stops, the first one at `start`, and does the last
one stop at `stop`? -/
def Token.Tile (start : Nat) : List Token → Nat → Prop
  | [], stop => start = stop
  | t :: ts, stop => t.start = start ∧ Tile t.stop ts stop

/-- Is what a lexer has to read the rest of the text from its offset on? -/
def Lexer.StandsIn (l : Lexer) (src : Source) : Prop :=
  ∃ front, src.contents.toList = front ++ l.rest ∧ byteLength front = l.offset

namespace Lexer

/-- At first all of the text is ahead. -/
theorem standsIn_ofSource (src : Source) : (ofSource src).StandsIn src :=
  ⟨[], rfl, rfl⟩

variable {src : Source} {l l' : Lexer}

/-- A lexer that has read a token stands behind it. -/
theorem Reads.standsIn {t : Token} (h : l.Reads t l') (hl : l.StandsIn src) : l'.StandsIn src := by
  obtain ⟨front, hfront, hlength⟩ := hl
  refine ⟨front ++ t.lexeme, ?_, ?_⟩
  · rw [hfront, h.rest_eq, List.append_assoc]
  · rw [byteLength_append, hlength, h.offset_eq]

/-- What stands between the two ends of a token is its lexeme. -/
theorem Reads.textBetween_eq {t : Token} (h : l.Reads t l') (hl : l.StandsIn src) :
    src.textBetween t.start t.stop = String.ofList t.lexeme := by
  obtain ⟨front, hfront, hlength⟩ := hl
  rw [Source.textBetween, h.start_eq, h.stop_eq, h.offset_eq, ← hlength, hfront, h.rest_eq,
    ← List.append_assoc, slice_append]

/-- A token that takes a character is not empty. -/
theorem Reads.start_lt_stop {t : Token} (h : l.Reads t l') (ht : t.lexeme ≠ []) :
    t.start < t.stop := by
  obtain ⟨c, cs, hlexeme⟩ := List.exists_cons_of_ne_nil ht
  have hc := Char.utf8Size_pos c
  rw [h.start_eq, h.stop_eq, h.offset_eq, hlexeme, byteLength]
  omega

namespace Run

variable {ts : List Token}

/-- Behind a run the lexer stands in the text. -/
theorem standsIn (h : Run l ts l') (hl : l.StandsIn src) : l'.StandsIn src := by
  induction h with
  | none => exact hl
  | more hnext _ _ ih => exact ih ((reads_of_next hnext).standsIn hl)

/-- A run takes the lexemes of its tokens off the front of the text. -/
theorem rest_eq (h : Run l ts l') : l.rest = ts.flatMap Token.lexeme ++ l'.rest := by
  induction h with
  | none => rfl
  | more hnext _ _ ih =>
    rw [(reads_of_next hnext).rest_eq, ih, List.flatMap_cons, List.append_assoc]

/-- The lexer moves on by the bytes of the lexemes. -/
theorem offset_eq (h : Run l ts l') :
    l'.offset = l.offset + byteLength (ts.flatMap Token.lexeme) := by
  induction h with
  | none => rfl
  | more hnext _ _ ih =>
    rw [ih, (reads_of_next hnext).offset_eq, List.flatMap_cons, byteLength_append, Nat.add_assoc]

/-- The tokens of a run lie side by side, from where it begins to where it ends. -/
theorem tile (h : Run l ts l') : Token.Tile l.offset ts l'.offset := by
  induction h with
  | none => rfl
  | more hnext _ _ ih =>
    have hreads := reads_of_next hnext
    refine ⟨hreads.start_eq, ?_⟩
    rw [hreads.stop_eq]
    exact ih

/-- A token that cannot go on is followed by one of another kind. -/
theorem kind_ne_head? (h : Run l ts l') {t : Token}
    (hrest : ∀ c ∈ l.rest.head?, t.kind.begins c = false) :
    ∀ u ∈ ts.head?, t.kind ≠ u.kind := by
  cases h with
  | none =>
    intro u hu
    cases hu
  | @more _ _ _ u _ hnext hu =>
    have hreads := reads_of_next hnext
    intro v hv
    obtain rfl : u = v := by simpa using hv
    obtain ⟨c, cs, hlexeme⟩ := List.exists_cons_of_ne_nil (Reads.lexeme_ne_nil hnext hu)
    have hc : c ∈ l.rest.head? := by
      rw [hreads.rest_eq, hlexeme]
      rfl
    -- it begins with a character that a token of the first kind would have taken
    intro hsame
    have hbegins := hreads.begins c hc
    rw [← hsame, hrest c hc] at hbegins
    cases hbegins

/-- No two tokens of a run in a row are of one kind, strings apart. -/
theorem isChain (h : Run l ts l') :
    ts.IsChain fun t u => t.kind = u.kind → t.kind = .string := by
  induction h with
  | none => exact .nil
  | more hnext _ hrun ih =>
    refine List.isChain_cons.2 ⟨fun u hu hsame => ?_, ih⟩
    -- the first one took all that its kind can, so the second begins with something else
    by_contra hkind
    exact hrun.kind_ne_head? ((reads_of_next hnext).maximal hkind) u hu hsame

/-- Each token of a run takes something, and its two ends cut it out of the text. -/
theorem forall_mem (h : Run l ts l') (hl : l.StandsIn src) :
    ∀ t ∈ ts, t.kind ≠ .eof ∧ t.lexeme ≠ [] ∧ t.start < t.stop
      ∧ src.textBetween t.start t.stop = String.ofList t.lexeme := by
  induction h with
  | none =>
    intro t ht
    cases ht
  | more hnext ht _ ih =>
    have hreads := reads_of_next hnext
    have hlexeme := Reads.lexeme_ne_nil hnext ht
    refine List.forall_mem_cons.2 ⟨⟨ht, hlexeme, ?_, ?_⟩, ih (hreads.standsIn hl)⟩
    · exact hreads.start_lt_stop hlexeme
    · exact hreads.textBetween_eq hl

end Run

/-- The lexemes of a run from the beginning of a text are its bytes up to where the run ends. -/
theorem Run.lexemes_eq {ts : List Token} (h : Run (ofSource src) ts l') :
    String.ofList (ts.flatMap Token.lexeme) = src.textBetween 0 l'.offset := by
  have hrest : src.contents.toList = ts.flatMap Token.lexeme ++ l'.rest := h.rest_eq
  have hoffset : l'.offset = 0 + byteLength (ts.flatMap Token.lexeme) := h.offset_eq
  rw [Source.textBetween, hoffset, hrest]
  exact congrArg _ (slice_append [] _ _).symm

end Lexer

/-- The stream of tokens of a text ends with the end of the text or with an error. The tokens before
that are not empty, lie side by side from the beginning of the text on, and their lexemes are the
text up to there; two in a row are of one kind only if they are strings. -/
theorem tokens_tile (src : Source) :
    ∃ (ts : List Token) (last : Lexed) (stop : Nat),
      (∀ n, (TokenStream.ofSource src).nth? n = (ts.map .ok ++ [last])[n]?)
        ∧ Token.Tile 0 ts stop
        ∧ (∀ t ∈ ts, t.kind ≠ .eof ∧ t.lexeme ≠ [] ∧ t.start < t.stop
          ∧ src.textBetween t.start t.stop = String.ofList t.lexeme)
        ∧ (ts.IsChain fun t u => t.kind = u.kind → t.kind = .string)
        ∧ String.ofList (ts.flatMap Token.lexeme) = src.textBetween 0 stop
        ∧ ((∃ t, last = .ok t ∧ t.kind = .eof ∧ t.start = stop ∧ t.stop = stop
            ∧ stop = src.contents.utf8ByteSize
            ∧ String.ofList (ts.flatMap Token.lexeme) = src.contents)
          ∨ ∃ e s, last = .error e ∧ e.span = some s ∧ s.start = stop) := by
  obtain ⟨ts, l, hrun, hend⟩ := (Lexer.ofSource src).exists_run
  have hstands := Lexer.standsIn_ofSource src
  have hstream (n : Nat) : (TokenStream.ofSource src).nth? n = (Lexer.ofSource src).tokens[n]? :=
    TokenStream.nth?_ofLexer _ n
  obtain ⟨t, hnext, heof⟩ | ⟨e, m, hnext⟩ := hend
  · -- at the end nothing is left, so the lexemes are all of the text
    have hreads := Lexer.reads_of_next hnext
    have hrest : l.rest = [] := hreads.rest_eq_nil heof
    have hall : ts.flatMap Token.lexeme = src.contents.toList := by
      have := hrun.rest_eq
      rw [hrest, List.append_nil] at this
      exact this.symm
    refine ⟨ts, .ok t, l.offset, fun n => ?_, hrun.tile, hrun.forall_mem hstands, hrun.isChain,
      hrun.lexemes_eq, .inl ⟨t, rfl, heof, hreads.start_eq, hreads.stop_eq, ?_, ?_⟩⟩
    · rw [hstream, hrun.tokens_eq, Lexer.tokens_of_ok hnext, if_pos heof]
    · rw [hrun.offset_eq, hall, byteLength_toList]
      exact Nat.zero_add _
    · rw [hall, String.ofList_toList]
  · refine ⟨ts, .error e, l.offset, fun n => ?_, hrun.tile, hrun.forall_mem hstands, hrun.isChain,
      hrun.lexemes_eq, .inr ?_⟩
    · rw [hstream, hrun.tokens_eq, Lexer.tokens_of_error hnext]
    · obtain ⟨s, hs, hstart⟩ := Lexer.span_of_next_error hnext
      exact ⟨e, s, rfl, hs, hstart⟩

end Conformance
