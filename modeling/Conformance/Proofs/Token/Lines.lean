import Conformance.Proofs.Source.Lines
import Conformance.Proofs.Token.Columns
import Conformance.Proofs.Token.Spelling
import Mathlib.Data.List.Infix

/-!
# Tokens on their lines

A lexer counts lines and columns as it goes, and the line table of a text is made apart from it.
Both agree on lines: what stands in front of a place behind the last line feed is the beginning of
the line that the table has for it (`prefix_line`). They do not agree on what a carriage return is.
It is a character of its line unless a line feed comes right behind it, but the lexer gives it no
column. So without tabs a token is found on its line in its column just as long as no carriage
return stands in front of it there (`TokenStream.text_prefix_line`, `TokenStream.col_returnSample`).
-/

namespace Conformance

open Text

/-! ## The line of a place -/

section
variable {front cs : List Char}

/-- A text without line feeds is a line. -/
theorem lastLine_of_notMem (h : '\n' ∉ cs) : lastLine cs = cs := by
  have happend : lastLine ([] ++ cs) = lastLine [] ++ cs := lastLine_append_of_notMem h
  exact happend

/-- In front of a line feed a character does not matter. -/
theorem lastLine_cons_of_mem (h : '\n' ∈ cs) (c : Char) : lastLine (c :: cs) = lastLine cs := by
  have happend : lastLine ([c] ++ cs) = lastLine cs := lastLine_append_of_mem h
  exact happend

/-- Without line feeds behind it a character is on the last line, if it is none itself. -/
theorem lastLine_cons_of_notMem (h : '\n' ∉ cs) (c : Char) :
    lastLine (c :: cs) = lastLine [c] ++ lastLine cs := by
  have happend : lastLine ([c] ++ cs) = lastLine [c] ++ cs := lastLine_append_of_notMem h
  rw [lastLine_of_notMem h]
  exact happend

/-- The first line ends at the first line feed. -/
theorem head?_splitOn (cs : List Char) :
    (cs.splitOn '\n')[0]? = some (cs.takeWhile (· ≠ '\n')) := by
  induction cs with
  | nil => rfl
  | cons c cs ih =>
    rw [List.splitOn_cons_eq_if_modifyHead, List.takeWhile_cons]
    by_cases hfeed : c = '\n'
    · simp [hfeed]
    · obtain ⟨piece, pieces, hpieces⟩ := List.exists_cons_of_ne_nil (List.splitOn_ne_nil '\n' cs)
      rw [hpieces] at ih ⊢
      obtain rfl := Option.some.inj ih
      simp [hfeed]

/-- As many line feeds as stand in front of a place, so many pieces come before its own. That one
begins with what is behind the last line feed. -/
theorem getElem?_splitOn (front cs : List Char) :
    ((front ++ cs).splitOn '\n')[front.count '\n']?
      = some (lastLine front ++ cs.takeWhile (· ≠ '\n')) := by
  induction front with
  | nil => exact head?_splitOn cs
  | cons c front ih =>
    rw [List.cons_append, List.splitOn_cons_eq_if_modifyHead]
    by_cases hfeed : c = '\n'
    · subst hfeed
      have hlast : lastLine ('\n' :: front) = lastLine front := by
        by_cases hmem : '\n' ∈ front
        · exact lastLine_cons_of_mem hmem '\n'
        · exact lastLine_cons_of_notMem hmem '\n'
      rw [if_pos (beq_self_eq_true _), List.count_cons_self, List.getElem?_cons_succ, ih, hlast]
    · obtain ⟨piece, pieces, hpieces⟩ :=
        List.exists_cons_of_ne_nil (List.splitOn_ne_nil '\n' (front ++ cs))
      rw [hpieces] at ih ⊢
      rw [if_neg (by simpa using hfeed), List.count_cons_of_ne hfeed, List.modifyHead_cons]
      by_cases hmem : '\n' ∈ front
      · -- the character stands on the first line, and the place on a later one
        obtain ⟨k, hk⟩ := Nat.exists_eq_add_of_lt (List.count_pos_iff.2 hmem)
        rw [Nat.zero_add] at hk
        rw [hk, List.getElem?_cons_succ] at ih ⊢
        rw [ih, lastLine_cons_of_mem hmem]
      · have hchar : lastLine [c] = [c] :=
          lastLine_of_notMem fun hc => hfeed (List.mem_singleton.1 hc).symm
        rw [List.count_eq_zero.2 hmem] at ih ⊢
        obtain rfl := Option.some.inj ih
        rw [lastLine_cons_of_notMem hmem, hchar]
        rfl

/-- The line of a place begins with what stands in front of the place, and with a text that begins
there if it holds no line feed and does not end with a carriage return. -/
theorem prefix_line {src : Source} {text back : List Char}
    (hcontents : src.contents.toList = front ++ text ++ back) (htext : '\n' ∉ text)
    (hreturn : (lastLine front ++ text).getLast? ≠ some '\r') :
    lastLine front ++ text <+: (src.line (front.count '\n')).toList := by
  -- the table takes a carriage return at the end off the line, and this one has none there
  have hpiece := getElem?_splitOn front (text ++ back)
  have hline := Source.getElem?_linesOf hpiece
  rw [← List.append_assoc, ← hcontents] at hline
  have hall : ∀ c ∈ text, decide (c ≠ '\n') = true := fun c hc =>
    decide_eq_true fun heq => htext (heq ▸ hc)
  have hbegins : lastLine front ++ text
      <+: lastLine front ++ (text ++ back).takeWhile (· ≠ '\n') := by
    rw [List.takeWhile_append_of_pos hall]
    exact (List.prefix_append_right_inj _).2 (List.prefix_append _ _)
  rw [Source.toList_line, hline, Option.getD_some]
  split
  · exact prefix_dropReturn hbegins hreturn
  · exact hbegins

end

/-- A piece without line ends is found on the line of its place, behind what stands in front of it
there. -/
theorem prefix_drop_line {src : Source} {front text back : List Char}
    (hcontents : src.contents.toList = front ++ text ++ back)
    (htext : ∀ c ∈ text, Token.isNewlineChar c = false) :
    text <+: (src.line (front.count '\n')).toList.drop (lastLine front).length := by
  have hnot {d : Char} (hd : Token.isNewlineChar d = true) : d ∉ text := fun hmem => by
    rw [htext d hmem] at hd
    cases hd
  by_cases hnil : text = []
  · rw [hnil]
    exact List.nil_prefix
  · -- the text ends with a character of its own, which is no carriage return
    have hreturn : (lastLine front ++ text).getLast? ≠ some '\r' := by
      rw [List.getLast?_append_of_ne_nil _ hnil]
      exact fun hlast => hnot rfl (List.mem_of_getLast? hlast)
    have hbegins := (prefix_line hcontents (hnot rfl) hreturn).drop (lastLine front).length
    rwa [List.drop_left] at hbegins

/-- Does a line feed come right behind each carriage return? -/
def returnsEndLines : List Char → Bool
  | [] => true
  | c :: cs => (c ≠ '\r' || cs.head? = some '\n') && returnsEndLines cs

section
variable {front back : List Char}

/-- Behind a carriage return that ends a line comes its line feed. -/
theorem head?_of_returnsEndLines
    (h : returnsEndLines (front ++ '\r' :: back) = true) : back.head? = some '\n' := by
  induction front with
  | nil =>
    simp only [List.nil_append, returnsEndLines, Bool.and_eq_true] at h
    simpa using h.1
  | cons c front ih =>
    rw [List.cons_append, returnsEndLines, Bool.and_eq_true] at h
    exact ih h.2

/-- The line in front of a place has no line feed. -/
theorem lineFeed_notMem_lastLine : '\n' ∉ lastLine front := fun hmem =>
  (mem_of_mem_lastLine hmem).2 rfl

/-- If carriage returns only end lines, there is none on a line in front of something else. -/
theorem return_notMem_lastLine {c : Char} (h : returnsEndLines (front ++ c :: back) = true)
    (hc : c ≠ '\n') : '\r' ∉ lastLine front := by
  intro hmem
  obtain ⟨u, hfront⟩ : lastLine front <:+ front := List.rtakeWhile_suffix _ _
  obtain ⟨v, w, hsplit⟩ := List.append_of_mem hmem
  have hw : '\n' ∉ w := fun hw => lineFeed_notMem_lastLine (hsplit ▸ List.mem_append_right _
    (List.mem_cons_of_mem _ hw))
  rw [← hfront, hsplit, List.append_assoc, List.append_assoc, ← List.append_assoc u] at h
  have hhead : (w ++ c :: back).head? = some '\n' := head?_of_returnsEndLines h
  -- the line feed that has to follow it would stand on the same line
  cases w with
  | nil => exact hc (Option.some.inj hhead)
  | cons d w => exact hw (Option.some.inj hhead ▸ List.mem_cons_self)

end

/-- Without tabs each character takes one column, except a carriage return, which takes none. -/
theorem Surroundings.columns_add_count {cs : List Char} (h : '\t' ∉ cs) (s : Surroundings) :
    s.columns cs + cs.count '\r' = cs.length := by
  induction cs generalizing s with
  | nil => rfl
  | cons c cs ih =>
    obtain ⟨htab, hcs⟩ := List.ne_and_not_mem_of_not_mem_cons h
    rw [columns, List.length_cons, ← ih hcs (s.behind c), width, List.count_cons]
    by_cases hreturn : c = '\r'
    · simp [hreturn, Nat.add_assoc]
    · simp [hreturn, htab.symm]
      omega

/-! ## Tokens -/

namespace Lexer

variable {l l' : Lexer} {t : Token}

/-- A character that answers otherwise than characters that end lines do is none of them. -/
theorem isNewlineChar_eq_false {family : Char → Bool} {answer : Bool} {c : Char}
    (h : family c = answer) (hends : Token.isNewlineChar c = true → family c = !answer) :
    Token.isNewlineChar c = false := by
  refine Bool.eq_false_iff.2 fun hc => ?_
  have hother := hends hc
  rw [h] at hother
  cases answer <;> cases hother

/-- No line ends within a comment. -/
theorem isNewlineChar_of_mem_comment {cs : List Char} {c : Char} (h : c ∈ comment cs) :
    Token.isNewlineChar c = false := by
  unfold comment at h
  split at h
  · rcases List.mem_cons.1 h with rfl | hinside
    · rfl
    · exact isNewlineChar_eq_false (eq_false_of_mem_takeWhile hinside)
        Token.endsComment_of_isNewlineChar
  · cases h

/-- No line ends within a token, unless the token is made of line ends. -/
theorem isNewlineChar_of_mem_lexeme (h : l.next = (.ok t, l')) (ht : t.kind ≠ .newline) {c : Char}
    (hc : c ∈ t.lexeme) : Token.isNewlineChar c = false := by
  unfold next at h
  split at h
  · obtain ⟨⟨rfl⟩, -⟩ := Prod.mk.inj h
    rw [lexeme_spanAhead (by decide)] at hc
    cases hc
  · split_ifs at h
    · unfold nextString at h
      split at h
      · obtain ⟨⟨rfl⟩, -⟩ := Prod.mk.inj h
        rw [lexeme_spanAhead_string, List.mem_append, List.mem_cons, List.mem_singleton] at hc
        rcases hc with (rfl | hinside) | rfl
        · rfl
        · exact isNewlineChar_eq_false (eq_false_of_mem_takeWhile hinside)
            Token.endsString_of_isNewlineChar
        · rfl
      · cases (Prod.mk.inj h).1
    · obtain ⟨⟨rfl⟩, -⟩ := Prod.mk.inj h
      rw [lexeme_spanAhead (by decide)] at hc
      exact (not_begins_of_isGlobChar (List.mem_takeWhile_imp hc)).2.1
    · obtain ⟨⟨rfl⟩, -⟩ := Prod.mk.inj h
      rw [lexeme_spanAhead (by decide)] at hc
      exact isNewlineChar_eq_false (List.mem_takeWhile_imp hc) fun hline =>
        (not_begins_of_isNewlineChar hline).2.2
    · obtain ⟨⟨rfl⟩, -⟩ := Prod.mk.inj h
      exact absurd rfl ht
    · obtain ⟨⟨rfl⟩, -⟩ := Prod.mk.inj h
      rw [lexeme_spanAhead (by decide), List.mem_append] at hc
      rcases hc with hblank | hremark
      · exact isNewlineChar_eq_false
          (Token.endsComment_of_isSpaceChar (List.mem_takeWhile_imp hblank))
          Token.endsComment_of_isNewlineChar
      · exact isNewlineChar_of_mem_comment hremark
    · cases (Prod.mk.inj h).1

/-- No line ends within the text of a token that is not made of line ends. -/
theorem isNewlineChar_of_mem_text (h : l.next = (.ok t, l')) (ht : t.kind ≠ .newline) {c : Char}
    (hc : c ∈ t.text.toList) : Token.isNewlineChar c = false := by
  refine isNewlineChar_of_mem_lexeme h ht ?_
  unfold Token.lexeme
  split
  · exact List.mem_append_left _ (List.mem_cons_of_mem _ hc)
  · exact hc

end Lexer

namespace TokenStream

/-- In a text within the limit of size and without tabs, a token that is not made of line ends
begins as many characters behind the beginning of its line as its column says and as carriage
returns stand in front of it on the line. There the line goes on with its text. So it does behind as
many characters as the column says if there are no such carriage returns, and there are none if
carriage returns only end lines. -/
theorem text_prefix_line (src : Source) (hsize : src.contents.utf8ByteSize ≤ Source.sizeLimit)
    (htab : '\t' ∉ src.contents.toList) {n : Nat} {t : Token}
    (h : (ofSource src).nth? n = some (.ok t)) (ht : t.kind ≠ .newline) :
    ∃ front back, src.contents.toList = front ++ back ∧ t.span.start = byteLength front
      ∧ t.span.line - 1 = front.count '\n'
      ∧ t.span.col - 1 + (lastLine front).count '\r' = (lastLine front).length
      ∧ t.text.toList <+: (src.line (t.span.line - 1)).toList.drop
          (t.span.col - 1 + (lastLine front).count '\r')
      ∧ ('\r' ∉ lastLine front → t.text.toList
          <+: (src.line (t.span.line - 1)).toList.drop (t.span.col - 1))
      ∧ (returnsEndLines src.contents.toList = true → t.text.toList
          <+: (src.line (t.span.line - 1)).toList.drop (t.span.col - 1)) := by
  have hmem : .ok t ∈ (Lexer.ofSource src).tokens :=
    List.mem_of_getElem? ((nth?_ofLexer _ n).symm.trans h)
  obtain ⟨ts, l, hrun, hnext⟩ := Lexer.exists_run_of_mem_tokens hmem
  obtain ⟨s, front, inside, back, hspan, -, hcontents, htext, hstart, hline, hcol⟩ :=
    hrun.exists_piece
  rw [hnext] at hspan
  obtain rfl := Option.some.inj hspan
  have hinside : t.text.toList = inside := by
    rw [Token.text, htext, String.toList_ofList]
  have hends : ∀ c ∈ inside, Token.isNewlineChar c = false := fun c hc =>
    Lexer.isNewlineChar_of_mem_text (Prod.ext hnext rfl) ht (hinside.symm ▸ hc)
  have hindex : t.span.line - 1 = front.count '\n' := by omega
  have htab' : '\t' ∉ lastLine front := fun hmem => htab (by
    rw [hcontents, List.append_assoc]
    exact List.mem_append_left _ (mem_of_mem_lastLine hmem).1)
  have hlength : t.span.col - 1 + (lastLine front).count '\r' = (lastLine front).length := by
    have hcolumns := Surroundings.columns_add_count htab' .plain
    -- one column at most for each byte, so within the limit the count does not begin again
    have hlast := length_lastLine_le_size (hcontents.trans (List.append_assoc _ _ _))
    have hlimit : Source.sizeLimit + 3 = UInt32.size := rfl
    rw [hcol, Nat.mod_eq_of_lt (by omega), Nat.add_sub_cancel_left]
    exact hcolumns
  have hplace := prefix_drop_line hcontents hends
  have hcolumn (hreturn : '\r' ∉ lastLine front) :
      inside <+: (src.line (front.count '\n')).toList.drop (t.span.col - 1) := by
    rw [List.count_eq_zero.2 hreturn, Nat.add_zero] at hlength
    rwa [hlength]
  refine ⟨front, inside ++ back, by rw [hcontents, List.append_assoc], hstart, hindex, hlength, ?_⟩
  rw [hinside, hindex, hlength]
  refine ⟨hplace, hcolumn, fun hreturns => ?_⟩
  cases inside with
  | nil => exact List.nil_prefix
  | cons c inside =>
    rw [hcontents, List.append_assoc, List.cons_append] at hreturns
    refine hcolumn (return_notMem_lastLine hreturns ?_)
    rintro rfl
    exact absurd (hends '\n' List.mem_cons_self) (by decide)

/-- A string and a comment with characters of two bytes, and a line that ends with a carriage return
and a line feed. -/
def wideSample : Source := ⟨"case.arch", "\"é\"=B\r\n  # é\nC"⟩

/-- The name begins four characters behind the beginning of its line, though five bytes. -/
theorem text_prefix_line_wideSample :
    (ofSource wideSample).nth? 2 = some (.ok ⟨.glob, ⟨1, 5, 5, 6, "B"⟩⟩)
      ∧ wideSample.contents.utf8ByteSize ≤ Source.sizeLimit
      ∧ '\t' ∉ wideSample.contents.toList ∧ returnsEndLines wideSample.contents.toList = true
      ∧ (∃ front back, wideSample.contents.toList = front ++ back ∧ 5 = byteLength front
        ∧ 4 + (lastLine front).count '\r' = (lastLine front).length)
      ∧ "B".toList <+: (wideSample.line 0).toList.drop 4 := by
  have hitem : (ofSource wideSample).nth? 2 = some (.ok ⟨.glob, ⟨1, 5, 5, 6, "B"⟩⟩) := by
    decide +kernel
  have hsize : wideSample.contents.utf8ByteSize ≤ Source.sizeLimit := by decide +kernel
  have htab : '\t' ∉ wideSample.contents.toList := by decide
  have hreturns : returnsEndLines wideSample.contents.toList = true := by decide
  obtain ⟨front, back, hcontents, hstart, -, hlength, -, -, hcolumn⟩ :=
    text_prefix_line wideSample hsize htab hitem (by decide)
  exact ⟨hitem, hsize, htab, hreturns, ⟨front, back, hcontents, hstart, hlength⟩, hcolumn hreturns⟩

/-- A carriage return between two names, and no line feed. -/
def returnSample : Source := ⟨"case.arch", "a\rb"⟩

/-- The second name is the third character of its line, but is reported in column two, where the
carriage return is. -/
theorem col_returnSample :
    (ofSource returnSample).nth? 2 = some (.ok ⟨.glob, ⟨1, 2, 2, 3, "b"⟩⟩)
      ∧ '\t' ∉ returnSample.contents.toList
      ∧ (returnSample.line 0).toList.drop (2 - 1) = ['\r', 'b']
      ∧ ¬"b".toList <+: (returnSample.line 0).toList.drop (2 - 1) := by
  refine ⟨by decide +kernel, by decide, by decide +kernel, by decide +kernel⟩

end TokenStream

end Conformance
