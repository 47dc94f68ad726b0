import Conformance.Proofs.Token.Enclosures
import Conformance.Proofs.Token.Lines
import Conformance.Proofs.Token.Tiling

/-!
# Lexing a piece of a text on its own

What a call of the lexer takes depends on nothing in front of the lexer, and behind the token only
on whether the next character goes on with it. So the tokens of a piece of a line are read again
when the piece stands somewhere else, if the text ends behind it or a line end comes there
(`Lexer.Run.relex`).
-/

namespace Conformance

/-- Line ends belong to no token of another kind, unless they stand in it. -/
theorem TokenKind.begins_eq_false_of_isNewlineChar {kind : TokenKind} (hkind : kind ≠ .newline)
    {c : Char} (hc : Token.isNewlineChar c = true) : kind.begins c = false := by
  obtain rfl | rfl := Token.isNewlineChar_iff.1 hc
  · cases kind <;> first | rfl | exact absurd rfl hkind
  · cases kind <;> first | rfl | exact absurd rfl hkind

/-- What a token takes of the text tells which word it is, if its kind is known. -/
theorem Token.word_eq_of_lexeme {t u : Token} (hkind : u.kind = t.kind)
    (hlexeme : u.lexeme = t.lexeme) : u.word = t.word := by
  have htext : u.text.toList = t.text.toList := by
    unfold lexeme at hlexeme
    rw [hkind] at hlexeme
    split at hlexeme
    · exact List.append_cancel_right (List.cons.inj hlexeme).2
    · exact hlexeme
  rw [word, word, hkind, String.toList_injective htext]

namespace Lexer

variable {l l' m : Lexer} {t : Token} {rest : List Char}

/-! ## Single calls -/

/-- A token that is neither a string nor blanks is a run of characters that it can begin with. -/
theorem forall_begins_of_next (h : l.next = (.ok t, l'))
    (hkind : t.kind = .glob ∨ t.kind = .symbol ∨ t.kind = .newline) :
    ∀ c ∈ t.lexeme, t.kind.begins c = true := by
  have hreads := reads_of_next h
  obtain ⟨kind, span⟩ := t
  change kind = .glob ∨ kind = .symbol ∨ kind = .newline at hkind
  have heof : kind ≠ .eof ∧ kind ≠ .string := by
    obtain rfl | rfl | rfl := hkind <;> decide
  obtain ⟨c, cs, hcs⟩ := List.exists_cons_of_ne_nil (Reads.lexeme_ne_nil h heof.1)
  have hhead : c ∈ l.rest.head? := by
    rw [hreads.rest_eq, hcs]
    rfl
  have hbegins : kind.begins c = true := hreads.begins c hhead
  obtain ⟨m, hm, -⟩ := next_of_begins hkind ⟨c, hhead, hbegins⟩
  obtain ⟨⟨⟩, -⟩ := Prod.mk.inj (hm.symm.trans h)
  rw [lexeme_spanAhead heof.2]
  exact fun d hd => List.mem_takeWhile_imp hd

/-- Nothing in a string ends one. -/
theorem endsString_of_mem_text (h : l.next = (.ok t, l')) (hkind : t.kind = .string) :
    ∀ c ∈ t.text.toList, Token.endsString c = false := by
  have hreads := reads_of_next h
  obtain ⟨cs, hl⟩ : ∃ cs, l.rest = '"' :: cs := by
    rw [hreads.rest_eq, Token.lexeme, if_pos hkind]
    exact ⟨_, rfl⟩
  rw [next_of_quote hl] at h
  by_cases hclosed : ∃ rest, cs.dropWhile (!Token.endsString ·) = '"' :: rest
  · obtain ⟨rest, hrest⟩ := hclosed
    obtain ⟨m, hm, -⟩ := nextString_of_closed (l := l) hrest
    obtain ⟨⟨rfl⟩, -⟩ := Prod.mk.inj (hm.symm.trans h)
    intro c hc
    exact eq_false_of_mem_takeWhile (String.toList_ofList ▸ hc)
  · obtain ⟨m, hm, -⟩ := nextString_of_unclosed (l := l) fun rest hrest => hclosed ⟨rest, hrest⟩
    cases hm.symm.trans h

/-- A token of blanks is just those, or has a comment behind them that goes on to what ends it. -/
theorem lexeme_of_next_spacing (h : l.next = (.ok t, l')) (hkind : t.kind = .spacing) :
    (∀ c ∈ t.lexeme, Token.isSpaceChar c = true)
      ∨ ∃ blanks words, t.lexeme = blanks ++ '#' :: words
        ∧ (∀ c ∈ blanks, Token.isSpaceChar c = true)
        ∧ (∀ c ∈ words, Token.endsComment c = false)
        ∧ ∀ c ∈ l'.rest.head?, Token.endsComment c = true := by
  have hreads := reads_of_next h
  have hsplit := List.takeWhile_append_dropWhile (p := Token.isSpaceChar) (l := l.rest)
  have hblanks : ∀ c ∈ l.rest.takeWhile Token.isSpaceChar, Token.isSpaceChar c = true :=
    fun c hc => List.mem_takeWhile_imp hc
  -- the token is blanks alone, or a comment stands at its end
  by_cases hremark : ∃ ds, l.rest.dropWhile Token.isSpaceChar = '#' :: ds
  · obtain ⟨ds, hds⟩ := hremark
    rw [hds] at hsplit
    obtain ⟨u, m, hm, -, hlexeme, hrest⟩ := next_of_remark hsplit.symm hblanks
    obtain ⟨⟨rfl⟩, rfl⟩ := Prod.mk.inj (hm.symm.trans h)
    refine .inr ⟨_, _, hlexeme, hblanks, fun c => eq_false_of_mem_takeWhile, fun c hc => ?_⟩
    rw [hrest] at hc
    simpa using eq_false_of_head?_dropWhile hc
  · obtain ⟨c, cs, hcs⟩ := List.exists_cons_of_ne_nil (Reads.lexeme_ne_nil h (by simp [hkind]))
    have hl : l.rest = c :: (cs ++ l'.rest) := by
      rw [hreads.rest_eq, hcs]
      rfl
    have hc : TokenKind.spacing.begins c = true := by
      rw [← hkind]
      exact hreads.begins c (by rw [hl]; rfl)
    obtain ⟨⟨rfl⟩, -⟩ := Prod.mk.inj ((next_of_spacing hl hc).symm.trans h)
    have hnone : comment (l.rest.dropWhile Token.isSpaceChar) = [] := by
      unfold comment
      split
      · next ds hds => exact absurd ⟨ds, hds⟩ hremark
      · rfl
    rw [lexeme_nextSpacing, hnone, List.append_nil]
    exact .inl hblanks

/-- A call reads what another one reads as soon as the same characters stand there, unless what
comes behind them goes on with the token. -/
theorem next_of_lexeme (h : l.next = (.ok t, l')) (ht : t.kind ≠ .eof)
    (hm : m.rest = t.lexeme ++ rest)
    (hrest : ∀ c ∈ rest.head?, c ∈ l'.rest.head?
      ∨ t.kind ≠ .newline ∧ Token.isNewlineChar c = true) :
    ∃ u m', m.next = (.ok u, m') ∧ u.word = t.word ∧ m'.rest = rest := by
  have hreads := reads_of_next h
  have hstops (hkind : t.kind ≠ .string) : t.kind.Stops rest := by
    intro c hc
    rcases hrest c hc with hsame | ⟨hline, hends⟩
    · exact hreads.maximal hkind c hsame
    · exact TokenKind.begins_eq_false_of_isNewlineChar hline hends
  obtain ⟨c, cs, hcs⟩ := List.exists_cons_of_ne_nil (Reads.lexeme_ne_nil h ht)
  have hmcons : m.rest = c :: (cs ++ rest) := by
    rw [hm, hcs]
    rfl
  have hbegins : t.kind.begins c = true := by
    refine hreads.begins c ?_
    rw [hreads.rest_eq, hcs]
    rfl
  -- it is enough to find a token of this kind that takes the same characters
  suffices hsame : ∃ u m', m.next = (.ok u, m') ∧ u.kind = t.kind ∧ u.lexeme = t.lexeme by
    obtain ⟨u, m', hnext, hkind, hlexeme⟩ := hsame
    refine ⟨u, m', hnext, Token.word_eq_of_lexeme hkind hlexeme, ?_⟩
    have hall := (reads_of_next hnext).rest_eq
    rw [hm, hlexeme] at hall
    exact (List.append_cancel_left hall).symm
  have hrun (hkind : t.kind = .glob ∨ t.kind = .symbol ∨ t.kind = .newline) :
      ∃ u m', m.next = (.ok u, m') ∧ u.kind = t.kind ∧ u.lexeme = t.lexeme := by
    have hne : t.kind ≠ .string := by
      obtain hk | hk | hk := hkind <;> rw [hk] <;> decide
    obtain ⟨m', hnext, -⟩ := next_of_begins hkind ⟨c, by rw [hmcons]; rfl, hbegins⟩
    refine ⟨_, m', hnext, rfl, ?_⟩
    rw [lexeme_spanAhead hne, hm, takeWhile_append_of_stops (forall_begins_of_next h hkind)
      (hstops hne)]
  cases hkind : t.kind with
  | glob => exact hkind ▸ hrun (.inl hkind)
  | symbol => exact hkind ▸ hrun (.inr (.inl hkind))
  | newline => exact hkind ▸ hrun (.inr (.inr hkind))
  | eof => exact absurd hkind ht
  | string =>
    -- a string ends with its quote, so it does not matter what comes behind
    have hlexeme : t.lexeme = '"' :: t.text.toList ++ ['"'] := if_pos hkind
    have hquoted : m.rest = '"' :: (t.text.toList ++ '"' :: rest) := by
      rw [hm, hlexeme]
      simp
    obtain ⟨m', hnext, -⟩ := next_of_quoted hquoted (endsString_of_mem_text h hkind)
    exact ⟨_, m', hnext, rfl, by rw [lexeme_spanAhead_string, hlexeme]⟩
  | spacing =>
    obtain hblanks | ⟨blanks, words, hlexeme, hblanks, hwords, hends⟩ :=
      lexeme_of_next_spacing h hkind
    · have hfront : TokenKind.spacing.Stops rest := hkind ▸ hstops (by rw [hkind]; decide)
      obtain ⟨u, m', hnext, hu, hsame, -⟩ :=
        next_of_blanks hm (Reads.lexeme_ne_nil h ht) hblanks hfront
      exact ⟨u, m', hnext, hu, hsame⟩
    · have hremark : m.rest = blanks ++ '#' :: (words ++ rest) := by
        rw [hm, hlexeme, List.append_assoc]
        rfl
      -- a comment goes on to what ended it before, or to the line end
      have hstop : ∀ c ∈ rest.head?, Token.endsComment c = true := fun c hc =>
        (hrest c hc).elim (hends c) fun hline => Token.endsComment_of_isNewlineChar hline.2
      have hwords' : (words ++ rest).takeWhile (!Token.endsComment ·) = words := by
        apply takeWhile_append_of_stops
        · exact fun c hc => by simp [hwords c hc]
        · exact fun c hc => by simp [hstop c hc]
      obtain ⟨u, m', hnext, hu, hsame, -⟩ := next_of_remark hremark hblanks
      exact ⟨u, m', hnext, hu, by rw [hsame, hwords', hlexeme]⟩

/-! ## Calls in a row -/

/-- A run is one run and another behind it, wherever its tokens are divided. -/
theorem Run.exists_between {ts us : List Token} (h : Run l (ts ++ us) l') :
    ∃ m, Run l ts m ∧ Run m us l' := by
  induction ts generalizing l with
  | nil => exact ⟨l, .none, h⟩
  | cons t ts ih =>
    cases h with
    | more hnext ht hrun =>
      obtain ⟨m, hfront, hback⟩ := ih hrun
      exact ⟨m, .more hnext ht hfront, hback⟩

/-- No line ends within tokens that are not made of line ends. -/
theorem Run.isNewlineChar_of_mem {ts : List Token} (h : Run l ts l')
    (hline : ∀ t ∈ ts, t.kind ≠ .newline) :
    ∀ c ∈ ts.flatMap Token.lexeme, Token.isNewlineChar c = false := by
  induction h with
  | none => exact List.forall_mem_nil _
  | more hnext _ _ ih =>
    obtain ⟨ht, hts⟩ := List.forall_mem_cons.1 hline
    rw [List.flatMap_cons]
    exact List.forall_mem_append.2 ⟨fun _ => isNewlineChar_of_mem_lexeme hnext ht, ih hts⟩

/-- The tokens of a piece of a line are read again wherever the piece stands in front of a line end,
or at the end of a text. -/
theorem Run.relex {ts : List Token} (h : Run l ts l') (hline : ∀ t ∈ ts, t.kind ≠ .newline)
    (hrest : ∀ c ∈ rest.head?, Token.isNewlineChar c = true)
    (hm : m.rest = ts.flatMap Token.lexeme ++ rest) :
    ∃ us m', Run m us m' ∧ us.map Token.word = ts.map Token.word ∧ m'.rest = rest := by
  induction h generalizing m with
  | none => exact ⟨[], m, .none, rfl, hm⟩
  | @more l l₁ l' t ts hnext ht hrun ih =>
    obtain ⟨hkind, hts⟩ := List.forall_mem_cons.1 hline
    rw [List.flatMap_cons, List.append_assoc] at hm
    -- behind the token comes the same as before, or the line end if it is the last one
    have hbehind : ∀ c ∈ (ts.flatMap Token.lexeme ++ rest).head?,
        c ∈ l₁.rest.head? ∨ t.kind ≠ .newline ∧ Token.isNewlineChar c = true := by
      intro c hc
      rw [hrun.rest_eq]
      cases hlexemes : ts.flatMap Token.lexeme with
      | nil =>
        rw [hlexemes] at hc
        exact .inr ⟨hkind, hrest c hc⟩
      | cons d ds =>
        rw [hlexemes] at hc
        exact .inl hc
    obtain ⟨u, m₁, hu, hword, hm₁⟩ := next_of_lexeme hnext ht hm hbehind
    obtain ⟨us, m', hus, hwords, hm'⟩ := ih hts hm₁
    have heof : u.kind ≠ .eof := by
      rwa [show u.kind = t.kind from congrArg Prod.fst hword]
    exact ⟨u :: us, m', .more hu heof hus, congrArg₂ List.cons hword hwords, hm'⟩

end Lexer
end Conformance
