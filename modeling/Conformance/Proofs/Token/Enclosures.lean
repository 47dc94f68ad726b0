import Conformance.Proofs.Token.Spelling

/-!
# Where comments and strings end

A comment goes on to the end of its line, and a string to the next quote on its line, whatever
stands in between, with one exception: the character U+0000 ends both. A line with a U+0000 is not
read to its end, and a string with one has no closing quote for the lexer
(`Lexer.comments_and_strings_end`, `Lexer.next_nulSamples`).
-/

namespace Conformance

/-! ## The rest of a line -/

/-- What is left of the line: all that stands in front of the next line end. -/
def restOfLine (cs : List Char) : List Char :=
  cs.takeWhile (!Token.isNewlineChar ·)

section
variable {c : Char} {cs rest : List Char}

/-- What stands in front of the first character of a kind. -/
theorem takeWhile_ne_append (h : c ∉ cs) (rest : List Char) :
    (cs ++ c :: rest).takeWhile (· ≠ c) = cs := by
  rw [List.takeWhile_append_of_pos fun d hd => decide_eq_true (ne_of_mem_of_not_mem hd h),
    List.takeWhile_cons_of_neg (by simp), List.append_nil]

/-- Nothing is cut off in front of a character that is not there. -/
theorem takeWhile_ne_eq_self_iff : cs.takeWhile (· ≠ c) = cs ↔ c ∉ cs := by
  rw [List.takeWhile_eq_self_iff]
  simp only [decide_eq_true_eq]
  exact ⟨fun h hc => h c hc rfl, fun h d hd => ne_of_mem_of_not_mem hd h⟩

/-- A character on the line divides the text where it stands first. -/
theorem exists_eq_append_of_mem_restOfLine (h : c ∈ restOfLine cs) :
    ∃ inside rest, cs = inside ++ c :: rest ∧ (restOfLine cs).takeWhile (· ≠ c) = inside
      ∧ ∀ d ∈ inside, Token.isNewlineChar d = false ∧ d ≠ c := by
  obtain ⟨inside, more, hline, hfirst⟩ := List.eq_append_cons_of_mem h
  have hsplit := List.takeWhile_append_dropWhile (p := (!Token.isNewlineChar ·)) (l := cs)
  rw [← restOfLine, hline, List.append_assoc] at hsplit
  refine ⟨inside, _, hsplit.symm, ?_, fun d hd => ⟨?_, ne_of_mem_of_not_mem hd hfirst⟩⟩
  · rw [hline, takeWhile_ne_append hfirst]
  · have hmem : d ∈ restOfLine cs := hline ▸ List.mem_append_left _ hd
    exact Lexer.eq_false_of_mem_takeWhile hmem

/-- What ends a comment is a line end or U+0000. -/
theorem takeWhile_endsComment (cs : List Char) :
    cs.takeWhile (!Token.endsComment ·) = (restOfLine cs).takeWhile (· ≠ '\x00') := by
  rw [restOfLine, List.takeWhile_takeWhile]
  congr 1
  funext c
  simp [Token.endsComment, Token.isNewlineChar, Bool.and_comm]

/-- What goes on with a string is neither a line end nor a quote nor U+0000. -/
theorem endsString_eq_false_iff :
    Token.endsString c = false ↔ Token.isNewlineChar c = false ∧ c ≠ '"' ∧ c ≠ '\x00' := by
  simp only [Token.endsString, Token.isNewlineChar, Bool.or_eq_false_iff, decide_eq_false_iff_not]
  tauto

/-- A quote that the search comes to stands on the line. -/
theorem restOfLine_of_closed (h : cs.dropWhile (!Token.endsString ·) = '"' :: rest) :
    restOfLine cs = cs.takeWhile (!Token.endsString ·) ++ '"' :: restOfLine rest := by
  have hsplit := List.takeWhile_append_dropWhile (p := (!Token.endsString ·)) (l := cs)
  rw [h] at hsplit
  have hinside (d : Char) (hd : d ∈ cs.takeWhile (!Token.endsString ·)) :
      (!Token.isNewlineChar d) = true := by
    rw [(endsString_eq_false_iff.1 (Lexer.eq_false_of_mem_takeWhile hd)).1]
    rfl
  rw [restOfLine]
  nth_rewrite 1 [← hsplit]
  rw [List.takeWhile_append_of_pos hinside]
  rfl

/-- It is the first one there. -/
theorem takeWhile_endsString_of_closed (h : cs.dropWhile (!Token.endsString ·) = '"' :: rest) :
    cs.takeWhile (!Token.endsString ·) = (restOfLine cs).takeWhile (· ≠ '"') := by
  have hquote : '"' ∉ cs.takeWhile (!Token.endsString ·) := fun hmem =>
    (endsString_eq_false_iff.1 (Lexer.eq_false_of_mem_takeWhile hmem)).2.1 rfl
  rw [restOfLine_of_closed h, takeWhile_ne_append hquote]

/-- The search for a closing quote comes to one if there is one on the line and no U+0000 stands in
front of it. -/
theorem closed_iff (cs : List Char) :
    (∃ rest, cs.dropWhile (!Token.endsString ·) = '"' :: rest)
      ↔ '"' ∈ restOfLine cs ∧ '\x00' ∉ (restOfLine cs).takeWhile (· ≠ '"') := by
  constructor
  · rintro ⟨rest, hclosed⟩
    rw [← takeWhile_endsString_of_closed hclosed, restOfLine_of_closed hclosed]
    exact ⟨List.mem_append_right _ List.mem_cons_self, fun hnul =>
      (endsString_eq_false_iff.1 (Lexer.eq_false_of_mem_takeWhile hnul)).2.2 rfl⟩
  · -- what stands in front of the first quote on the line ends no string
    rintro ⟨hquote, hnul⟩
    obtain ⟨inside, rest, hsplit, htake, hinside⟩ := exists_eq_append_of_mem_restOfLine hquote
    rw [htake] at hnul
    have hall (d : Char) (hd : d ∈ inside) : (!Token.endsString d) = true := by
      rw [endsString_eq_false_iff.2 ⟨(hinside d hd).1, (hinside d hd).2,
        ne_of_mem_of_not_mem hd hnul⟩]
      rfl
    refine ⟨rest, ?_⟩
    rw [hsplit, List.dropWhile_append_of_pos hall]
    rfl

/-- A comment on a line with a U+0000 stops there. -/
theorem dropWhile_endsComment_of_mem (h : '\x00' ∈ restOfLine cs) :
    ∃ rest, cs.dropWhile (!Token.endsComment ·) = '\x00' :: rest := by
  obtain ⟨inside, rest, hsplit, -, hinside⟩ := exists_eq_append_of_mem_restOfLine h
  have hall (d : Char) (hd : d ∈ inside) : (!Token.endsComment d) = true := by
    obtain ⟨hends, hnul⟩ := hinside d hd
    simp only [Token.isNewlineChar, Bool.or_eq_false_iff, decide_eq_false_iff_not] at hends
    rw [Token.endsComment_eq_false_iff.2 ⟨hends.1, hends.2, hnul⟩]
    rfl
  refine ⟨rest, ?_⟩
  rw [hsplit, List.dropWhile_append_of_pos hall]
  rfl

end

/-! ## Single calls -/

namespace Lexer

variable {l : Lexer} {blanks cs : List Char}

/-- Where blanks and a comment stand, a call reads them. -/
theorem next_of_remark (hl : l.rest = blanks ++ '#' :: cs)
    (hblanks : ∀ c ∈ blanks, Token.isSpaceChar c = true) :
    ∃ t l', l.next = (.ok t, l') ∧ t.kind = .spacing
      ∧ t.lexeme = blanks ++ '#' :: cs.takeWhile (!Token.endsComment ·)
      ∧ l'.rest = cs.dropWhile (!Token.endsComment ·) := by
  -- the token begins with the first blank, or with the `#` if there is none
  have hbegins : ∃ c ds, l.rest = c :: ds ∧ TokenKind.spacing.begins c = true := by
    cases blanks with
    | nil => exact ⟨'#', cs, hl, rfl⟩
    | cons c blanks =>
      exact ⟨c, _, hl, by simp [TokenKind.begins, hblanks c List.mem_cons_self]⟩
  obtain ⟨c, ds, hcons, hc⟩ := hbegins
  have htake : l.rest.takeWhile Token.isSpaceChar = blanks := by
    rw [hl, List.takeWhile_append_of_pos hblanks]
    exact List.append_nil _
  have hdrop : l.rest.dropWhile Token.isSpaceChar = '#' :: cs := by
    rw [hl, List.dropWhile_append_of_pos hblanks]
    rfl
  refine ⟨_, _, next_of_spacing hcons hc, rfl, ?_, ?_⟩
  · rw [lexeme_nextSpacing, htake, hdrop, comment]
  · show (l.rest.dropWhile Token.isSpaceChar).drop _ = _
    rw [hdrop]
    exact drop_comment cs

/-- No token begins with U+0000. -/
theorem next_of_nul (hl : l.rest = '\x00' :: cs) :
    l.next = (.error (.placed (.unrecognisedCharacter '\x00') (l.spanAhead 0 ['\x00'])), l) := by
  rw [next, hl]
  rfl

/-- A comment, with the blanks in front of it, is read up to the first U+0000 on its line, where the
next call fails. So it is read to the end of the line if there is none. A string is reported as
unterminated if no quote closes it on its line or a U+0000 stands in front of the first that does,
and otherwise is what stands in front of that quote. -/
theorem comments_and_strings_end (l : Lexer) :
    (∀ blanks cs, l.rest = blanks ++ '#' :: cs → (∀ c ∈ blanks, Token.isSpaceChar c = true) →
      ∃ t l', l.next = (.ok t, l') ∧ t.kind = .spacing ∧ l.rest = t.lexeme ++ l'.rest
        ∧ t.lexeme = blanks ++ '#' :: (restOfLine cs).takeWhile (· ≠ '\x00')
        ∧ (t.lexeme = blanks ++ '#' :: restOfLine cs ↔ '\x00' ∉ restOfLine cs)
        ∧ ('\x00' ∈ restOfLine cs → l'.next.1
          = .error (.placed (.unrecognisedCharacter '\x00') (l'.spanAhead 0 ['\x00']))))
      ∧ ∀ cs, l.rest = '"' :: cs →
        (l.next.1 = .error (.placed .unterminatedString (l.spanAhead 0 ['"']))
            ↔ '"' ∉ restOfLine cs ∨ '\x00' ∈ (restOfLine cs).takeWhile (· ≠ '"'))
          ∧ ('"' ∈ restOfLine cs → '\x00' ∉ (restOfLine cs).takeWhile (· ≠ '"') →
            ∃ t l', l.next = (.ok t, l') ∧ t.kind = .string
              ∧ t.text.toList = (restOfLine cs).takeWhile (· ≠ '"')
              ∧ l.rest = '"' :: t.text.toList ++ '"' :: l'.rest) := by
  refine ⟨fun blanks cs hl hblanks => ?_, fun cs hl => ?_⟩
  · obtain ⟨t, l', hnext, hkind, hlexeme, hrest⟩ := next_of_remark hl hblanks
    rw [takeWhile_endsComment] at hlexeme
    refine ⟨t, l', hnext, hkind, (reads_of_next hnext).rest_eq, hlexeme, ?_, fun hnul => ?_⟩
    · rw [hlexeme, List.append_right_inj, List.cons.injEq, takeWhile_ne_eq_self_iff]
      exact and_iff_right rfl
    · obtain ⟨rest, hstop⟩ := dropWhile_endsComment_of_mem hnul
      rw [next_of_nul (hrest.trans hstop)]
  · -- the two cases are those of the search, which the line then decides
    have hiff := closed_iff cs
    rw [next_of_quote hl]
    by_cases hclosed : ∃ rest, cs.dropWhile (!Token.endsString ·) = '"' :: rest
    · have hboth := hiff.1 hclosed
      obtain ⟨rest, hrest⟩ := hclosed
      obtain ⟨l', hnext, hl'⟩ := nextString_of_closed (l := l) hrest
      have hsplit := List.takeWhile_append_dropWhile (p := (!Token.endsString ·)) (l := cs)
      rw [takeWhile_endsString_of_closed hrest] at hnext hsplit
      rw [hnext]
      have htext : (l.spanAhead 1 ((restOfLine cs).takeWhile (· ≠ '"'))).text.toList
          = (restOfLine cs).takeWhile (· ≠ '"') := String.toList_ofList
      refine ⟨⟨nofun, fun hor => ?_⟩, fun _ _ => ⟨_, l', rfl, rfl, htext, ?_⟩⟩
      · exact (hor.elim (fun h => h hboth.1) hboth.2).elim
      · rw [Token.text, htext, hl, hl', ← hrest]
        exact congrArg ('"' :: ·) hsplit.symm
    · obtain ⟨l', hnext, -⟩ :=
        nextString_of_unclosed (l := l) fun rest hrest => hclosed ⟨rest, hrest⟩
      rw [hnext]
      rw [hiff, not_and_or, not_not] at hclosed
      refine ⟨⟨fun _ => hclosed, fun _ => rfl⟩, fun hquote hnul => ?_⟩
      exact absurd hclosed (not_or.2 ⟨not_not.2 hquote, hnul⟩)

/-- Behind a blank a comment with much that strings and operators are made of, on a line that ends
with a carriage return. -/
def remarkSample : Source := ⟨"case.arch", " # \"é\\-> #\rA\n"⟩

/-- A string that looks like a comment, and more behind it. -/
def stringSample : Source := ⟨"case.arch", "\"# é\\->\t\"A\n"⟩

/-- A comment and a string with all sorts of characters and no U+0000 go on to where they should. -/
theorem comments_and_strings_end_samples :
    (∃ t l', (ofSource remarkSample).next = (.ok t, l') ∧ t.kind = .spacing
        ∧ t.lexeme = [' '] ++ '#' :: " \"é\\-> #".toList)
      ∧ '"' ∈ restOfLine "# é\\->\t\"A\n".toList
      ∧ ∃ t l', (ofSource stringSample).next = (.ok t, l') ∧ t.kind = .string
        ∧ t.text.toList = "# é\\->\t".toList ∧ l'.rest = "A\n".toList := by
  have hline : restOfLine " \"é\\-> #\rA\n".toList = " \"é\\-> #".toList := by decide
  have hquote : '"' ∈ restOfLine "# é\\->\t\"A\n".toList := by decide
  obtain ⟨t, l', hnext, hkind, -, -, hiff, -⟩ :=
    (comments_and_strings_end (ofSource remarkSample)).1 [' '] " \"é\\-> #\rA\n".toList
      (by decide) (List.forall_mem_singleton.2 rfl)
  obtain ⟨u, m, hnext', hkind', htext, hrest⟩ :=
    ((comments_and_strings_end (ofSource stringSample)).2 "# é\\->\t\"A\n".toList
      (by decide)).2 hquote (by decide)
  rw [hline] at hiff
  have htext' : u.text.toList = "# é\\->\t".toList := htext.trans (by decide)
  refine ⟨⟨t, l', hnext, hkind, hiff.2 (by decide)⟩, hquote, u, m, hnext', hkind', htext', ?_⟩
  rw [htext'] at hrest
  have hall : (ofSource stringSample).rest = '"' :: "# é\\->\t".toList ++ '"' :: "A\n".toList := by
    decide
  exact (List.cons.inj (List.append_cancel_left (hrest.symm.trans hall))).2

/-- A comment with U+0000 in it. -/
def nulRemarkSample : Source := ⟨"case.arch", "#a\x00b"⟩

/-- A string with U+0000 in it. -/
def nulStringSample : Source := ⟨"case.arch", "\"a\x00b\""⟩

/-- The comment is not read to the end of its line, and the string is reported although a quote
closes it there. -/
theorem next_nulSamples :
    (ofSource nulRemarkSample).rest = '#' :: "a\x00b".toList
      ∧ (ofSource nulRemarkSample).next.1 = .ok ⟨.spacing, ⟨1, 1, 0, 2, "#a"⟩⟩
      ∧ "#a".toList ≠ '#' :: restOfLine "a\x00b".toList
      ∧ (ofSource nulStringSample).rest = '"' :: "a\x00b\"".toList
      ∧ '"' ∈ restOfLine "a\x00b\"".toList
      ∧ (ofSource nulStringSample).next.1
        = .error (.placed .unterminatedString ⟨1, 1, 0, 1, "\""⟩) := by
  refine ⟨?_, ?_, ?_, ?_, ?_, ?_⟩
  · decide
  · decide +kernel
  · decide
  · decide
  · decide
  · decide +kernel

end Lexer

end Conformance
