import Conformance.Proofs.Token.Enclosures
import Mathlib.Logic.Function.Iterate

/-!
# The lexer moves on, or stays for good

A call of the lexer takes something off the front of the text, unless it comes to the end of the
text or to a character that begins no token: then the lexer stays, and all further calls do the same
(`Lexer.after_of_isFinal`). So no more calls differ than the text has characters
(`Lexer.after_of_length_le`), also if one goes on behind errors, and `Lexer.nextSignificant` is
the first of them that does not give blanks or a comment (`Lexer.nextSignificant_eq_next_after`).
-/

namespace Conformance.Lexer

variable {l : Lexer}

/-- Is it the end of the text, or a character that begins no token? -/
def isFinal : Lexed → Bool
  | .ok t => t.kind = .eof
  | .error ⟨.unrecognisedCharacter _, _⟩ => true
  | .error ⟨.unterminatedString, _⟩ => false

/-- The lexer behind so many calls, those that failed among them. -/
def after (l : Lexer) (calls : Nat) : Lexer :=
  (fun m => m.next.2)^[calls] l

/-- One call more behind the others. -/
theorem after_succ (l : Lexer) (n : Nat) : l.after (n + 1) = (l.after n).next.2 :=
  Function.iterate_succ_apply' _ n l

/-- One call more in front of the others. -/
theorem after_succ_eq (l : Lexer) (n : Nat) : l.after (n + 1) = l.next.2.after n :=
  Function.iterate_succ_apply _ n l

/-- Calls in a row are counted together. -/
theorem after_add (l : Lexer) (m n : Nat) : l.after (m + n) = (l.after n).after m :=
  Function.iterate_add_apply _ m n l

/-! ## A single call -/

/-- A call leaves the lexer where it is, gives a token, or searches in vain for a closing quote. -/
theorem next_cases (l : Lexer) :
    (isFinal l.next.1 = true ∧ l.next.2 = l)
      ∨ (∃ t l', l.next = (.ok t, l') ∧ t.kind ≠ .eof)
      ∨ ∃ cs l', l.rest = '"' :: cs
        ∧ l.next = (.error (.placed .unterminatedString (l.spanAhead 0 ['"'])), l')
        ∧ l'.rest = cs.dropWhile (!Token.endsString ·) ∧ ∀ rest, l'.rest ≠ '"' :: rest := by
  rcases hnext : l.next with ⟨e | t, l'⟩
  · unfold next at hnext
    split at hnext
    · cases (Prod.mk.inj hnext).1
    · next c cs hl =>
      split_ifs at hnext with hquote
      · subst hquote
        by_cases hclosed : ∃ rest, cs.dropWhile (!Token.endsString ·) = '"' :: rest
        · obtain ⟨rest, hrest⟩ := hclosed
          obtain ⟨m, hm, -⟩ := nextString_of_closed (l := l) hrest
          cases hm.symm.trans hnext
        · rw [not_exists] at hclosed
          -- the one failure that does not leave the lexer where it is
          obtain ⟨m, hm, hrest⟩ := nextString_of_unclosed (l := l) hclosed
          obtain ⟨herror, rfl⟩ := Prod.mk.inj (hm.symm.trans hnext)
          exact .inr (.inr ⟨cs, m, hl, by rw [← herror], hrest, hrest ▸ hclosed⟩)
      all_goals obtain ⟨⟨rfl⟩, rfl⟩ := Prod.mk.inj hnext
      exact .inl ⟨rfl, rfl⟩
  · by_cases ht : t.kind = .eof
    · exact .inl ⟨by simp [isFinal, ht], stays_of_next_eof hnext ht⟩
    · exact .inr (.inl ⟨t, l', rfl, ht⟩)

/-- A token other than the end of the text is not what comes last. -/
theorem isFinal_of_next {t : Token} {l' : Lexer} (h : l.next = (.ok t, l')) (ht : t.kind ≠ .eof) :
    isFinal l.next.1 = false := by
  simp [h, isFinal, ht]

/-- A call that is not the last that differs takes something off the front of the text. -/
theorem exists_taken (h : isFinal l.next.1 = false) :
    ∃ taken, taken ≠ [] ∧ l.rest = taken ++ l.next.2.rest := by
  obtain ⟨hfinal, -⟩ | ⟨t, l', hnext, ht⟩ | ⟨cs, l', hl, hnext, hrest, -⟩ := l.next_cases
  · rw [hfinal] at h
    cases h
  · rw [hnext]
    exact ⟨t.lexeme, Reads.lexeme_ne_nil hnext ht, (reads_of_next hnext).rest_eq⟩
  · rw [hnext, hrest, hl]
    refine ⟨'"' :: cs.takeWhile (!Token.endsString ·), List.cons_ne_nil _ _, ?_⟩
    rw [List.cons_append, List.takeWhile_append_dropWhile]

/-- A search for a closing quote in vain ends where the first line end or U+0000 stands behind the
opening one, or at the end of the text. -/
theorem exists_searched {s : Span} (h : l.next.1 = .error (.placed .unterminatedString s)) :
    ∃ inside, l.rest = '"' :: inside ++ l.next.2.rest
      ∧ (∀ c ∈ inside, Token.isNewlineChar c = false ∧ c ≠ '"' ∧ c ≠ '\x00')
      ∧ ∀ c ∈ l.next.2.rest.head?, Token.isNewlineChar c = true ∨ c = '\x00' := by
  obtain ⟨hfinal, -⟩ | ⟨t, l', hnext, -⟩ | ⟨cs, l', hl, hnext, hrest, hopen⟩ := l.next_cases
  · rw [h] at hfinal
    cases hfinal
  · rw [hnext] at h
    cases h
  · refine ⟨cs.takeWhile (!Token.endsString ·), ?_, fun c hc => ?_, fun c hc => ?_⟩
    · rw [hnext, hrest, hl, List.cons_append, List.takeWhile_append_dropWhile]
    · exact endsString_eq_false_iff.1 (eq_false_of_mem_takeWhile hc)
    · rw [hnext] at hc
      have hends : Token.endsString c = true := by
        rw [hrest] at hc
        simpa using eq_false_of_head?_dropWhile hc
      obtain ⟨rest, hcons⟩ := List.head?_eq_some_iff.1 hc
      have hquote : c ≠ '"' := fun heq => hopen rest (heq ▸ hcons)
      by_contra hneither
      rw [not_or, Bool.not_eq_true] at hneither
      rw [endsString_eq_false_iff.2 ⟨hneither.1, hquote, hneither.2⟩] at hends
      cases hends

/-! ## Calls in a row -/

/-- A lexer that is at the end of the text, or at a character that begins no token, stays there for
good. -/
theorem after_of_isFinal (h : isFinal l.next.1 = true) (n : Nat) : l.after n = l := by
  obtain ⟨-, hstay⟩ | ⟨t, l', hnext, ht⟩ | ⟨cs, l', -, hnext, -⟩ := l.next_cases
  · exact Function.iterate_fixed hstay n
  · rw [isFinal_of_next hnext ht] at h
    cases h
  · rw [hnext] at h
    cases h

/-- Every call takes at least one character, up to the first that leaves the lexer. -/
theorem isFinal_or_length_after (l : Lexer) (n : Nat) :
    isFinal (l.after n).next.1 = true ∨ (l.after n).rest.length + n ≤ l.rest.length := by
  induction n with
  | zero => exact .inr (Nat.le_refl _)
  | succ n ih =>
    by_cases hfinal : isFinal (l.after n).next.1 = true
    · left
      rwa [after_succ, show (l.after n).next.2 = l.after n from after_of_isFinal hfinal 1]
    · right
      have hlength := ih.resolve_left hfinal
      obtain ⟨taken, hne, hrest⟩ := exists_taken (by simpa using hfinal)
      have hpos := List.length_pos_iff.2 hne
      rw [hrest, List.length_append] at hlength
      rw [after_succ]
      omega

/-- Behind as many calls as the text has characters the lexer stays. -/
theorem isFinal_after_length (l : Lexer) : isFinal (l.after l.rest.length).next.1 = true := by
  rcases l.isFinal_or_length_after l.rest.length with hfinal | hle
  · exact hfinal
  · have hnil : (l.after l.rest.length).rest = [] := List.length_eq_zero_iff.1 (by omega)
    rw [next, hnil]
    rfl

/-- No call behind as many as the text has characters changes anything. -/
theorem after_of_length_le {n : Nat} (h : l.rest.length ≤ n) :
    l.after n = l.after l.rest.length := by
  obtain ⟨m, rfl⟩ := Nat.exists_eq_add_of_le' h
  rw [after_add, after_of_isFinal l.isFinal_after_length]

/-- The next significant token is what the first call gives that gives neither blanks nor a comment,
and there are no more calls in front of it than characters. -/
theorem nextSignificant_eq_next_after (l : Lexer) :
    ∃ n ≤ l.rest.length, l.nextSignificant = (l.after n).next
      ∧ isSignificant (l.after n).next.1 = true
      ∧ ∀ k < n, isSignificant (l.after k).next.1 = false := by
  fun_induction nextSignificant l with
  -- one call for the blanks, and then those of the rest
  | case1 l t l' hnext hspacing ih =>
    obtain ⟨n, hn, heq, hsignificant, hbefore⟩ := ih
    have hshort := length_rest_of_next hnext (by rw [hspacing]; decide)
    have hafter (k : Nat) : l.after (k + 1) = l'.after k := by
      rw [after_succ_eq, hnext]
    refine ⟨n + 1, by omega, by rw [hafter, heq], by rw [hafter, hsignificant], fun k hk => ?_⟩
    cases k with
    | zero =>
      show isSignificant l.next.1 = false
      rw [hnext]
      simp [isSignificant, hspacing]
    | succ k =>
      rw [hafter]
      exact hbefore k (Nat.lt_of_succ_lt_succ hk)
  | case2 l t l' hnext hspacing =>
    refine ⟨0, Nat.zero_le _, hnext.symm, ?_, fun k hk => absurd hk (Nat.not_lt_zero k)⟩
    show isSignificant l.next.1 = true
    rw [hnext]
    simpa [isSignificant] using hspacing
  | case3 l e l' hnext =>
    refine ⟨0, Nat.zero_le _, hnext.symm, ?_, fun k hk => absurd hk (Nat.not_lt_zero k)⟩
    show isSignificant l.next.1 = true
    rw [hnext]
    rfl

end Conformance.Lexer
