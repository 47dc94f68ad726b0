import Conformance.Proofs.Specification.Stream
import Mathlib.Data.List.Basic
import Mathlib.Data.List.TakeWhile
import Mathlib.Tactic.SplitIfs

/-!
# What a call of the lexer takes of the text

The lexeme of a token is all that it takes of a text, the quotes of a string included. A call of the
lexer that gives a token takes just its lexeme off the front of the text, and the token ends where
its kind does (`Lexer.reads_of_next`). `Lexer.Run` puts calls together: all tokens but the end of
the text, from one lexer to a later one.
-/

namespace Conformance

open Text

/-! ## Characters -/

namespace Token

variable {c : Char}

/-- The two characters of line ends. -/
theorem isNewlineChar_iff : isNewlineChar c = true ↔ c = '\n' ∨ c = '\r' := by
  rw [isNewlineChar, Bool.or_eq_true, decide_eq_true_eq, decide_eq_true_eq]

theorem isNewlineChar_eq_false_iff : isNewlineChar c = false ↔ c ≠ '\n' ∧ c ≠ '\r' := by
  simp [isNewlineChar]

/-- The two blanks. -/
theorem isSpaceChar_iff : isSpaceChar c = true ↔ c = ' ' ∨ c = '\t' := by
  rw [isSpaceChar, Bool.or_eq_true, decide_eq_true_eq, decide_eq_true_eq]

theorem endsComment_eq_false_iff :
    endsComment c = false ↔ c ≠ '\n' ∧ c ≠ '\r' ∧ c ≠ '\x00' := by
  simp [endsComment, and_assoc]

/-- A comment ends with its line. -/
theorem endsComment_of_isNewlineChar (h : isNewlineChar c = true) : endsComment c = true := by
  rcases isNewlineChar_iff.1 h with rfl | rfl
  · rfl
  · rfl

/-- A string cannot go on behind its line. -/
theorem endsString_of_isNewlineChar (h : isNewlineChar c = true) : endsString c = true := by
  rcases isNewlineChar_iff.1 h with rfl | rfl
  · rfl
  · rfl

theorem endsComment_of_isSpaceChar (h : isSpaceChar c = true) : endsComment c = false := by
  rcases isSpaceChar_iff.1 h with rfl | rfl
  · rfl
  · rfl

end Token

/-! ## Lexemes -/

/-- Can a token of the kind begin with the character? -/
def TokenKind.begins : TokenKind → Char → Bool
  | glob, c => Token.isGlobChar c
  | symbol, c => Token.isSymbolChar c
  | string, c => c = '"'
  | newline, c => Token.isNewlineChar c
  | spacing, c => Token.isSpaceChar c || c = '#'
  | eof, _ => false

/-- The characters that a token takes of the text, quotes included. -/
def Token.lexeme (t : Token) : List Char :=
  if t.kind = .string then '"' :: t.text.toList ++ ['"'] else t.text.toList

/-- Only a string takes more than its text. -/
theorem Token.lexeme_of_ne {kind : TokenKind} {span : Span} (h : kind ≠ .string) :
    Token.lexeme ⟨kind, span⟩ = span.text.toList := if_neg h

/-- Only a string starts in front of its span. -/
theorem Token.start_of_ne {kind : TokenKind} {span : Span} (h : kind ≠ .string) :
    Token.start ⟨kind, span⟩ = span.start := if_neg h

/-- Only a string stops behind its span. -/
theorem Token.stop_of_ne {kind : TokenKind} {span : Span} (h : kind ≠ .string) :
    Token.stop ⟨kind, span⟩ = span.stop := if_neg h

namespace Lexer

/-- How a token and the lexer behind it lie to the lexer in front of it. -/
structure Reads (l : Lexer) (t : Token) (l' : Lexer) : Prop where
  rest_eq : l.rest = t.lexeme ++ l'.rest
  start_eq : t.start = l.offset
  stop_eq : t.stop = l'.offset
  offset_eq : l'.offset = l.offset + byteLength t.lexeme
  begins : ∀ c ∈ l.rest.head?, t.kind.begins c = true
  rest_eq_nil : t.kind = .eof → l.rest = []
  /-- The token takes all that its kind can, a string apart. -/
  maximal : t.kind ≠ .string → ∀ c ∈ l'.rest.head?, t.kind.begins c = false

/-- What comes behind the characters that pass a test does not pass it. -/
theorem eq_false_of_head?_dropWhile {p : Char → Bool} {cs : List Char} {c : Char}
    (h : c ∈ (cs.dropWhile p).head?) : p c = false := by
  have hstop := List.head?_dropWhile_not p cs
  rw [Option.mem_def] at h
  rwa [h] at hstop

theorem eq_false_of_mem_takeWhile {p : Char → Bool} {cs : List Char} {c : Char}
    (h : c ∈ cs.takeWhile (!p ·)) : p c = false := by
  simpa using List.mem_takeWhile_imp h

variable {l l' : Lexer} {c : Char} {cs : List Char}

/-- The span that a lexer gives a piece of the text ahead holds the text of the piece. -/
theorem lexeme_spanAhead {kind : TokenKind} (hkind : kind ≠ .string) (skipped : Nat)
    (text : List Char) : Token.lexeme ⟨kind, l.spanAhead skipped text⟩ = text :=
  (Token.lexeme_of_ne hkind).trans String.toList_ofList

/-- The span of a string is inside its quotes, which its lexeme puts back. -/
theorem lexeme_spanAhead_string (skipped : Nat) (text : List Char) :
    Token.lexeme ⟨.string, l.spanAhead skipped text⟩ = '"' :: text ++ ['"'] := by
  show '"' :: (String.ofList text).toList ++ ['"'] = _
  rw [String.toList_ofList]

/-- Blanks and a comment behind them are one token. -/
theorem lexeme_nextSpacing (l : Lexer) :
    l.nextSpacing.1.lexeme
      = l.rest.takeWhile Token.isSpaceChar ++ comment (l.rest.dropWhile Token.isSpaceChar) :=
  lexeme_spanAhead (by decide) 0 _

/-- The token of the longest run of characters that its kind can begin with. -/
theorem reads_run (kind : TokenKind) (hkind : kind ≠ .string) (hl : l.rest = c :: cs)
    (hc : kind.begins c = true) (hrest : l'.rest = l.rest.dropWhile kind.begins)
    (hoffset : l'.offset = l.offset + byteLength (l.rest.takeWhile kind.begins)) :
    l.Reads ⟨kind, l.spanAhead 0 (l.rest.takeWhile kind.begins)⟩ l' := by
  have hlexeme : Token.lexeme ⟨kind, l.spanAhead 0 (l.rest.takeWhile kind.begins)⟩
      = l.rest.takeWhile kind.begins := lexeme_spanAhead hkind 0 _
  refine ⟨?_, Token.start_of_ne hkind, ?_, ?_, ?_, ?_, ?_⟩
  · rw [hlexeme, hrest, List.takeWhile_append_dropWhile]
  · rw [Token.stop_of_ne hkind, hoffset]
    rfl
  · rw [hlexeme, hoffset]
  · -- it begins with the first character of the run, and the kind of no run is the end of the text
    intro d hd
    obtain rfl : c = d := by simpa [hl] using hd
    exact hc
  · intro heof
    obtain rfl : kind = .eof := heof
    cases hc
  · intro _ d hd
    rw [hrest] at hd
    exact eq_false_of_head?_dropWhile hd

/-- Behind a comment comes what ends it. -/
theorem drop_comment (cs : List Char) :
    ('#' :: cs).drop ('#' :: cs.takeWhile (!Token.endsComment ·)).length
      = cs.dropWhile (!Token.endsComment ·) := by
  have hsplit := List.takeWhile_append_dropWhile (p := (!Token.endsComment ·)) (l := cs)
  rw [List.length_cons, List.drop_succ_cons]
  nth_rewrite 2 [← hsplit]
  exact List.drop_left

/-- A comment is taken off the front of a text, and neither blanks nor a comment come behind it. -/
theorem comment_spec (cs : List Char)
    (hcs : ∀ c ∈ cs.head?, Token.isSpaceChar c = false) :
    comment cs ++ cs.drop (comment cs).length = cs
      ∧ ∀ c ∈ (cs.drop (comment cs).length).head?, TokenKind.spacing.begins c = false := by
  unfold comment
  split
  · rename_i cs
    have hsplit := List.takeWhile_append_dropWhile (p := (!Token.endsComment ·)) (l := cs)
    rw [drop_comment]
    refine ⟨by rw [List.cons_append, hsplit], fun c hc => ?_⟩
    -- a comment stops at a line end or a NUL, and neither begins another
    have hends : Token.endsComment c = true := by
      simpa using eq_false_of_head?_dropWhile hc
    simp only [Token.endsComment, Bool.or_eq_true, decide_eq_true_eq] at hends
    obtain (rfl | rfl) | rfl := hends <;> rfl
  · rename_i hhash
    refine ⟨rfl, fun c hc => ?_⟩
    have hc' : c ∈ cs.head? := hc
    obtain ⟨ds, rfl⟩ : ∃ ds, cs = c :: ds := List.head?_eq_some_iff.1 hc'
    have hne : c ≠ '#' := fun h => hhash ds (by rw [h])
    simp [TokenKind.begins, hcs c rfl, hne]

/-- Blanks, a comment or both are taken up to something else, since no blanks come behind a comment.
-/
theorem reads_nextSpacing (hl : l.rest = c :: cs) (hc : TokenKind.spacing.begins c = true) :
    l.Reads l.nextSpacing.1 l.nextSpacing.2 := by
  have hspaces := List.takeWhile_append_dropWhile (p := Token.isSpaceChar) (l := l.rest)
  obtain ⟨hsplit, hstop⟩ := comment_spec (l.rest.dropWhile Token.isSpaceChar)
    fun _ => eq_false_of_head?_dropWhile
  -- the parts of `Reads` in their order; the places are those of the span
  refine ⟨?_, rfl, rfl, ?_, ?_, ?_, ?_⟩
  · rw [lexeme_nextSpacing, List.append_assoc]
    exact (hspaces.symm.trans (congrArg _ hsplit.symm))
  · rw [lexeme_nextSpacing]
    rfl
  · intro d hd
    obtain rfl : c = d := by simpa [hl] using hd
    exact hc
  · intro heof
    cases heof
  · intro _ d hd
    exact hstop d hd

/-- A string that is closed takes its quotes and all between them. -/
theorem reads_nextString {t : Token} (hl : l.rest = '"' :: cs)
    (h : l.nextString cs = (.ok t, l')) : l.Reads t l' := by
  have hsplit := List.takeWhile_append_dropWhile (p := (!Token.endsString ·)) (l := cs)
  unfold nextString at h
  split at h
  · rename_i rest hrest
    obtain ⟨⟨rfl⟩, rfl⟩ := Prod.mk.inj h
    have hlexeme := l.lexeme_spanAhead_string 1 (cs.takeWhile (!Token.endsString ·))
    have hquote : '"'.utf8Size = 1 := by decide
    -- opening quote, inside and closing quote are counted with the lexeme
    refine ⟨?_, ?_, ?_, ?_, ?_, ?_, ?_⟩
    · rw [hrest] at hsplit
      rw [hl, hlexeme, ← List.singleton_append, List.append_assoc]
      exact congrArg ('"' :: ·) hsplit.symm
    · rfl
    · show l.offset + 1 + byteLength _ + 1 = l.offset + byteLength _
      simp only [List.cons_append, byteLength, byteLength_append, hquote]
      omega
    · rw [hlexeme]
      rfl
    · intro d hd
      obtain rfl : '"' = d := by simpa [hl] using hd
      rfl
    · intro heof
      cases heof
    · intro hkind
      exact absurd rfl hkind
  · cases (Prod.mk.inj h).1

/-- A call that gives a token takes its lexeme off the front of the text. -/
theorem reads_of_next {t : Token} (h : l.next = (.ok t, l')) : l.Reads t l' := by
  unfold next at h
  split at h
  · rename_i hl
    obtain ⟨⟨rfl⟩, rfl⟩ := Prod.mk.inj h
    have hlexeme : Token.lexeme ⟨.eof, l.spanAhead 0 []⟩ = [] := lexeme_spanAhead (by decide) 0 _
    refine ⟨?_, rfl, rfl, ?_, ?_, fun _ => hl, fun _ _ _ => rfl⟩
    · rw [hlexeme]
      rfl
    · rw [hlexeme]
      rfl
    · rw [hl]
      simp
  · rename_i c cs hl
    split_ifs at h with hquote hglob hsymbol hnewline hspacing
    · subst hquote
      exact reads_nextString hl h
    · obtain ⟨⟨rfl⟩, rfl⟩ := Prod.mk.inj h
      exact reads_run .glob (by decide) hl hglob rfl rfl
    · obtain ⟨⟨rfl⟩, rfl⟩ := Prod.mk.inj h
      exact reads_run .symbol (by decide) hl hsymbol rfl rfl
    · obtain ⟨⟨rfl⟩, rfl⟩ := Prod.mk.inj h
      exact reads_run .newline (by decide) hl hnewline rfl rfl
    · obtain ⟨⟨rfl⟩, rfl⟩ := Prod.mk.inj h
      exact reads_nextSpacing hl hspacing
    · cases (Prod.mk.inj h).1

/-- The end of the text is not passed. -/
theorem stays_of_next_eof {t : Token} (h : l.next = (.ok t, l')) (ht : t.kind = .eof) : l' = l := by
  rcases next_stays_or_shortens l with ⟨hstay, -⟩ | hlt
  · rwa [h] at hstay
  · rw [(reads_of_next h).rest_eq_nil ht] at hlt
    exact absurd hlt (Nat.not_lt_zero _)

/-- A call that fails says so at the place where the lexer stands. -/
theorem span_of_next_error {e : Spanned LexError} (h : l.next = (.error e, l')) :
    ∃ s, e.span = some s ∧ s.start = l.offset := by
  unfold next at h
  split at h
  · cases (Prod.mk.inj h).1
  · rename_i c cs hl
    split_ifs at h
    · unfold nextString at h
      split at h
      · cases (Prod.mk.inj h).1
      · obtain ⟨⟨rfl⟩, -⟩ := Prod.mk.inj h
        exact ⟨_, rfl, rfl⟩
    · cases (Prod.mk.inj h).1
    · cases (Prod.mk.inj h).1
    · cases (Prod.mk.inj h).1
    · cases (Prod.mk.inj h).1
    · obtain ⟨⟨rfl⟩, -⟩ := Prod.mk.inj h
      exact ⟨_, rfl, rfl⟩

/-- A token other than the end takes at least one character. -/
theorem Reads.lexeme_ne_nil {t : Token} (h : l.next = (.ok t, l')) (ht : t.kind ≠ .eof) :
    t.lexeme ≠ [] := by
  intro hnil
  have hrest := (reads_of_next h).rest_eq
  have hlt := length_rest_of_next h ht
  rw [hrest, hnil, List.nil_append] at hlt
  exact Nat.lt_irrefl _ hlt

/-! ## Calls in a row -/

/-- From one lexer on, calls give these tokens and lead to the other lexer; the end of the text is
not reached. -/
inductive Run : Lexer → List Token → Lexer → Prop where
  | none {l : Lexer} : Run l [] l
  | more {l m l' : Lexer} {t : Token} {ts : List Token} :
    l.next = (.ok t, m) → t.kind ≠ .eof → Run m ts l' → Run l (t :: ts) l'

/-- Runs one behind the other are a run. -/
theorem Run.append {l m l' : Lexer} {ts us : List Token} (h : Run l ts m) (h' : Run m us l') :
    Run l (ts ++ us) l' := by
  induction h with
  | none => exact h'
  | more hnext ht _ ih => exact .more hnext ht (ih h')

/-- The tokens of a text are those of a run and then those behind it. -/
theorem Run.tokens_eq {ts : List Token} (h : Run l ts l') :
    l.tokens = ts.map .ok ++ l'.tokens := by
  induction h with
  | none => rfl
  | more hnext ht _ ih =>
    rw [tokens_of_ok hnext, if_neg ht, ih]
    rfl

/-- What is upcoming are the significant tokens of the run and then those behind it. -/
theorem Run.upcoming_eq {ts : List Token} (h : Run l ts l') :
    l.upcoming = (Grammar.significant ts).map .ok ++ l'.upcoming := by
  rw [upcoming, h.tokens_eq, List.filter_append, List.filter_map]
  rfl

/-- In front of the end of the text the significant tokens of the run are upcoming, and the end. -/
theorem Run.upcoming_of_eof {ts : List Token} {eof : Token} {m : Lexer} (h : Run l ts l')
    (hnext : l'.next = (.ok eof, m)) (heof : eof.kind = .eof) :
    l.upcoming = (Grammar.significant ts ++ [eof]).map .ok := by
  have hlast : l'.upcoming = [.ok eof] := by
    rw [upcoming, tokens_of_ok hnext, if_pos heof]
    simp [isSignificant, heof]
  rw [h.upcoming_eq, hlast, List.map_append]
  rfl

/-- Every text has a run up to its end or to its first error. -/
theorem exists_run (l : Lexer) :
    ∃ ts l', Run l ts l' ∧ ((∃ t, l'.next = (.ok t, l') ∧ t.kind = .eof)
      ∨ ∃ e m, l'.next = (.error e, m)) := by
  -- along the calls that list the tokens
  fun_induction tokens l with
  | case1 l t l' hnext ht =>
    obtain rfl := stays_of_next_eof hnext ht
    exact ⟨[], l', .none, .inl ⟨t, hnext, ht⟩⟩
  | case2 l t l' hnext ht ih =>
    obtain ⟨ts, m, hrun, hend⟩ := ih
    exact ⟨t :: ts, m, .more hnext ht hrun, hend⟩
  | case3 l e l' hnext => exact ⟨[], l, .none, .inr ⟨e, l', hnext⟩⟩

/-- Each item of the list of tokens comes from a call behind a run. -/
theorem exists_run_of_mem_tokens {item : Lexed} (h : item ∈ l.tokens) :
    ∃ ts l', Run l ts l' ∧ l'.next.1 = item := by
  fun_induction tokens l with
  | case1 l t l' hnext _ =>
    obtain rfl := List.mem_singleton.1 h
    exact ⟨[], l, .none, congrArg Prod.fst hnext⟩
  | case2 l t l' hnext ht ih =>
    rcases List.mem_cons.1 h with rfl | hlater
    · exact ⟨[], l, .none, congrArg Prod.fst hnext⟩
    · obtain ⟨ts, m, hrun, hitem⟩ := ih hlater
      exact ⟨t :: ts, m, .more hnext ht hrun, hitem⟩
  | case3 l e l' hnext =>
    obtain rfl := List.mem_singleton.1 h
    exact ⟨[], l, .none, congrArg Prod.fst hnext⟩

end Lexer

end Conformance
