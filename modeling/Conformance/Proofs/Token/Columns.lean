import Conformance.Proofs.Token.Places
import Conformance.Proofs.Token.Tiling
import Mathlib.Data.List.DropRight

/-!
# Columns of tokens

The column of a place is counted from the characters in front of it on its line. Each takes one
column, but a carriage return takes none, and a tab between tokens takes four. Whether a tab is
between tokens is told by what it stands in (`Surroundings`), which is followed from the beginning
of the line on, character by character and without asking a lexer.

The lexer counts as it goes, token by token, and comes to the same: behind each token it is aligned
with the text in front of it (`Lexer.IsAligned.next`, and `Lexer.Run.isAligned` for all calls up to
some place). So a token or an error is reported at the line and column where it begins, and the
diagnostic of an error shows a line that is there (`TokenStream.place_of_nth?`).
-/

namespace Conformance

open Text

/-! ## Counting columns -/

/-- What a character may stand in. -/
inductive Surroundings where
  | plain
  | comment
  | string
deriving DecidableEq

namespace Surroundings

variable {s : Surroundings} {cs ds : List Char}

/-- What the next character stands in. A comment ends with its line, and a string with its closing
quote, or with its line if it has none. -/
def behind : Surroundings → Char → Surroundings
  | plain, c => if c = '"' then string else if c = '#' then comment else plain
  | comment, c => if Token.isNewlineChar c then plain else comment
  | string, c => if c = '"' ∨ Token.isNewlineChar c then plain else string

/-- The columns that a character takes. -/
def width (s : Surroundings) (c : Char) : Nat :=
  if c = '\r' then 0 else if s = plain ∧ c = '\t' then 4 else 1

/-- What comes behind several characters stands in this. -/
def after (s : Surroundings) (cs : List Char) : Surroundings :=
  cs.foldl behind s

/-- The columns that several characters take. -/
def columns : Surroundings → List Char → Nat
  | _, [] => 0
  | s, c :: cs => s.width c + (s.behind c).columns cs

/-- What stands in front is followed part by part. -/
theorem after_append : s.after (cs ++ ds) = (s.after cs).after ds :=
  List.foldl_append

/-- Columns are counted part by part, each from what the part in front leads into. -/
theorem columns_append : s.columns (cs ++ ds) = s.columns cs + (s.after cs).columns ds := by
  induction cs generalizing s with
  | nil => exact (Nat.zero_add _).symm
  | cons c cs ih =>
    rw [List.cons_append, columns, columns, ih, Nat.add_assoc]
    rfl

/-- Characters that take one column each and change nothing for what comes behind them. -/
theorem columns_of_forall (h : ∀ c ∈ cs, s.width c = 1 ∧ s.behind c = s) :
    s.columns cs = cs.length ∧ s.after cs = s := by
  induction cs with
  | nil => exact ⟨rfl, rfl⟩
  | cons c cs ih =>
    obtain ⟨⟨hwidth, hbehind⟩, hcs⟩ := List.forall_mem_cons.1 h
    obtain ⟨hcolumns, hafter⟩ := ih hcs
    rw [columns, after, List.foldl_cons, hwidth, hbehind, hcolumns, List.length_cons, Nat.add_comm]
    exact ⟨rfl, hafter⟩

variable {c : Char}

/-! Runs of characters that a token is made of -/

/-- A character that opens and ends nothing takes one column. -/
theorem keeps_plain (hquote : c ≠ '"') (hhash : c ≠ '#') (htab : c ≠ '\t') (hreturn : c ≠ '\r') :
    plain.width c = 1 ∧ plain.behind c = plain := by
  simp [width, behind, hquote, hhash, htab, hreturn]

/-- Within a comment a tab takes one column, as other characters do. -/
theorem keeps_comment (h : Token.endsComment c = false) :
    comment.width c = 1 ∧ comment.behind c = comment := by
  obtain ⟨hfeed, hreturn, -⟩ := Token.endsComment_eq_false_iff.1 h
  simp [width, behind, Token.isNewlineChar, hfeed, hreturn]

/-- Within a string a tab takes one column, as other characters do. -/
theorem keeps_string (h : Token.endsString c = false) :
    string.width c = 1 ∧ string.behind c = string := by
  simp only [Token.endsString, Bool.or_eq_false_iff, decide_eq_false_iff_not] at h
  obtain ⟨⟨⟨hquote, hfeed⟩, hreturn⟩, -⟩ := h
  simp [width, behind, Token.isNewlineChar, hquote, hfeed, hreturn]

/-- Blanks take as many columns as the lexer says. -/
theorem columns_blanks (h : ∀ c ∈ cs, Token.isSpaceChar c = true) :
    plain.columns cs = Lexer.spacesWidth cs ∧ plain.after cs = plain := by
  induction cs with
  | nil => exact ⟨rfl, rfl⟩
  | cons c cs ih =>
    obtain ⟨hc, hcs⟩ := List.forall_mem_cons.1 h
    obtain ⟨hcolumns, hafter⟩ := ih hcs
    have hstep : plain.width c = Lexer.spaceWidth c ∧ plain.behind c = plain := by
      rcases Token.isSpaceChar_iff.1 hc with rfl | rfl <;> exact ⟨by decide, by decide⟩
    rw [columns, after, List.foldl_cons, hstep.1, hstep.2, hcolumns]
    exact ⟨rfl, hafter⟩

/-- Carriage returns take no columns, and end whatever is under way. -/
theorem columns_returns (h : ∀ c ∈ cs, c = '\r') :
    s.columns cs = 0 ∧ (s = plain ∨ cs ≠ [] → s.after cs = plain) := by
  induction cs generalizing s with
  | nil => exact ⟨rfl, fun hor => hor.resolve_right (not_not.2 rfl)⟩
  | cons c cs ih =>
    obtain ⟨rfl, hcs⟩ := List.forall_mem_cons.1 h
    have hbehind : s.behind '\r' = plain := by cases s <;> rfl
    obtain ⟨hcolumns, hafter⟩ := ih (s := plain) hcs
    rw [columns, after, List.foldl_cons, hbehind, hcolumns]
    exact ⟨rfl, fun _ => hafter (.inl rfl)⟩

/-- The text of a string between its quotes. -/
theorem columns_quoted (h : ∀ c ∈ cs, Token.endsString c = false) :
    plain.columns ('"' :: cs ++ ['"']) = cs.length + 2
      ∧ plain.after ('"' :: cs ++ ['"']) = plain := by
  obtain ⟨hcolumns, hafter⟩ := columns_of_forall fun c hc => keeps_string (h c hc)
  rw [List.cons_append]
  -- the opening quote leads into the string, and the closing one out of it
  constructor
  · have hopen : plain.columns ('"' :: (cs ++ ['"'])) = 1 + string.columns (cs ++ ['"']) := rfl
    have hclose : string.columns ['"'] = 1 := by decide
    rw [hopen, columns_append, hcolumns, hafter, hclose]
    omega
  · have hopen : plain.after ('"' :: (cs ++ ['"'])) = string.after (cs ++ ['"']) := rfl
    rw [hopen, after_append, hafter]
    rfl

/-- A comment takes a column for each of its characters, and is under way until it is ended. -/
theorem columns_comment (cs : List Char) :
    plain.columns (Lexer.comment cs) = (Lexer.comment cs).length
      ∧ ∀ c ∈ (cs.drop (Lexer.comment cs).length).head?, Token.endsComment c = false →
        plain.after (Lexer.comment cs) = plain := by
  unfold Lexer.comment
  split
  · next cs =>
    have hinside : ∀ c ∈ cs.takeWhile (!Token.endsComment ·), Token.endsComment c = false :=
      fun _ => Lexer.eq_false_of_mem_takeWhile
    obtain ⟨hcolumns, -⟩ := columns_of_forall fun c hc => keeps_comment (hinside c hc)
    have hhash : plain.columns ('#' :: cs.takeWhile (!Token.endsComment ·))
        = 1 + comment.columns (cs.takeWhile (!Token.endsComment ·)) := rfl
    refine ⟨?_, fun c hc hends => ?_⟩
    · rw [hhash, hcolumns, List.length_cons, Nat.add_comm]
    · rw [Lexer.drop_comment] at hc
      have hstop := Lexer.eq_false_of_head?_dropWhile hc
      rw [hends] at hstop
      cases hstop
  · exact ⟨rfl, fun _ _ _ => rfl⟩

end Surroundings

/-! ## The line in front of a place -/

/-- The characters behind the last line feed. -/
def lastLine (cs : List Char) : List Char :=
  cs.rtakeWhile (· ≠ '\n')

section
variable {front cs : List Char}

/-- A piece without line feeds goes on with the line in front of it. -/
theorem lastLine_append_of_notMem (h : '\n' ∉ cs) :
    lastLine (front ++ cs) = lastLine front ++ cs := by
  have hall : ∀ c ∈ cs.reverse, decide (c ≠ '\n') = true := by
    intro c hc
    exact decide_eq_true fun heq => h (heq ▸ List.mem_reverse.1 hc)
  rw [lastLine, List.rtakeWhile, List.reverse_append, List.takeWhile_append_of_pos hall,
    List.reverse_append, List.reverse_reverse]
  rfl

/-- Behind a line feed it does not matter what was in front of it. -/
theorem lastLine_append_of_mem (h : '\n' ∈ cs) : lastLine (front ++ cs) = lastLine cs := by
  -- going backwards, the line feed stops the run before its end
  have hstops : (cs.reverse.takeWhile (· ≠ '\n')).length ≠ cs.reverse.length := by
    intro hlength
    have hall := (List.takeWhile_prefix (· ≠ '\n')).eq_of_length hlength
    refine Lexer.lineFeed_notMem_takeWhile (p := (· ≠ '\n')) (by decide) cs.reverse ?_
    rw [hall]
    exact List.mem_reverse.2 h
  rw [lastLine, List.rtakeWhile, List.reverse_append, List.takeWhile_append, if_neg hstops]
  rfl

/-- The line in front of a place in a text has no more characters than the text has bytes. -/
theorem length_lastLine_le_size {s : String} (h : s.toList = front ++ cs) :
    (lastLine front).length ≤ s.utf8ByteSize := by
  have hlast : (lastLine front).length ≤ front.length := (List.rtakeWhile_suffix _ _).length_le
  have hbytes := length_le_byteLength front
  have hlength := byteLength_toList s
  rw [h, byteLength_append] at hlength
  omega

/-- The line in front of a place has no line feed. -/
theorem mem_of_mem_lastLine {c : Char} (h : c ∈ lastLine cs) : c ∈ cs ∧ c ≠ '\n' := by
  have hmem := List.mem_reverse.1 h
  exact ⟨List.mem_reverse.1 ((List.takeWhile_sublist _).subset hmem),
    by simpa using List.mem_takeWhile_imp hmem⟩

end

/-! ## Lexers keep the column -/

namespace Lexer

open Surroundings

variable {l l' : Lexer} {front text : List Char}

/-- Does the lexer stand in the column that the text in front of it makes, counted in 32 bits? It is
not within a string then, and within a comment only if nothing more of it comes. -/
structure IsAligned (l : Lexer) (front : List Char) : Prop where
  col_eq : l.col = 1 + .ofNat (plain.columns (lastLine front))
  after_eq : ∀ c ∈ l.rest.head?, Token.endsComment c = false → plain.after (lastLine front) = plain

/-- At the beginning of a text nothing stands in front. -/
theorem isAligned_ofSource (src : Source) : (ofSource src).IsAligned [] :=
  ⟨rfl, fun _ _ _ => rfl⟩

/-- A lexer that has taken a piece of a line is aligned again if it has counted the columns of the
piece. -/
theorem IsAligned.behind (h : l.IsAligned front) {c : Char} {rest : List Char}
    (hl : l.rest = c :: rest) (hc : Token.endsComment c = false) (hfeed : '\n' ∉ text)
    (hcol : l'.col = l.col + .ofNat (plain.columns text))
    (hafter : ∀ c ∈ l'.rest.head?, Token.endsComment c = false → plain.after text = plain) :
    l'.IsAligned (front ++ text) := by
  have hplain : plain.after (lastLine front) = plain := h.after_eq c (by rw [hl]; rfl) hc
  refine ⟨?_, fun d hd hends => ?_⟩
  · rw [lastLine_append_of_notMem hfeed, columns_append, hplain, hcol, h.col_eq, UInt32.ofNat_add,
      UInt32.add_assoc]
  · rw [lastLine_append_of_notMem hfeed, after_append, hplain]
    exact hafter d hd hends

variable {c : Char} {cs : List Char}

/-- A run of characters that are not special to any count. -/
theorem IsAligned.nextRun (h : l.IsAligned front) (hl : l.rest = c :: cs) {family : Char → Bool}
    (hc : family c = true)
    (hfamily : ['"', '#', '\t', '\r', '\n', '\x00'].all (!family ·) = true) (kind : TokenKind) :
    (l.nextRun kind family).2.IsAligned (front ++ l.rest.takeWhile family) := by
  -- every character of the family is an ordinary one
  have hne (d : Char) (hd : family d = true) (e : Char)
      (he : e ∈ ['"', '#', '\t', '\r', '\n', '\x00']) : d ≠ e := by
    rintro rfl
    have hnot := List.all_eq_true.1 hfamily d he
    rw [hd] at hnot
    cases hnot
  have hkeeps : ∀ d ∈ l.rest.takeWhile family, plain.width d = 1 ∧ plain.behind d = plain := by
    intro d hd
    have hd := hne d (List.mem_takeWhile_imp hd)
    exact keeps_plain (hd _ (by simp)) (hd _ (by simp)) (hd _ (by simp)) (hd _ (by simp))
  have hends : Token.endsComment c = false :=
    Token.endsComment_eq_false_iff.2
      ⟨hne c hc _ (by simp), hne c hc _ (by simp), hne c hc _ (by simp)⟩
  obtain ⟨hcolumns, hafter⟩ := columns_of_forall hkeeps
  have hcol : (l.nextRun kind family).2.col
      = l.col + .ofNat (plain.columns (l.rest.takeWhile family)) := by
    rw [hcolumns]
    rfl
  refine h.behind hl hends (fun hmem => ?_) hcol fun _ _ _ => hafter
  exact hne '\n' (List.mem_takeWhile_imp hmem) '\n' (by simp) rfl

/-- Where a line ends, nothing is under way any more. -/
theorem IsAligned.nextNewlines (h : l.IsAligned front) (hl : l.rest = c :: cs)
    (hc : Token.isNewlineChar c = true) :
    l.nextNewlines.2.IsAligned (front ++ l.rest.takeWhile Token.isNewlineChar) := by
  have hnewlines : ∀ d ∈ l.rest.takeWhile Token.isNewlineChar, d = '\n' ∨ d = '\r' :=
    fun d hd => Token.isNewlineChar_iff.1 (List.mem_takeWhile_imp hd)
  have hnext : l.nextNewlines.2.col
      = if '\n' ∈ l.rest.takeWhile Token.isNewlineChar then 1 else l.col := rfl
  by_cases hfeed : '\n' ∈ l.rest.takeWhile Token.isNewlineChar
  · -- behind the last line feed of the run there are only carriage returns
    have hreturns : ∀ d ∈ lastLine (l.rest.takeWhile Token.isNewlineChar), d = '\r' := by
      intro d hd
      obtain ⟨hmem, hne⟩ := mem_of_mem_lastLine hd
      exact (hnewlines d hmem).resolve_left hne
    obtain ⟨hcolumns, hafter⟩ := columns_returns (s := plain) hreturns
    refine ⟨?_, fun _ _ _ => ?_⟩
    · rw [hnext, if_pos hfeed, lastLine_append_of_mem hfeed, hcolumns]
      rfl
    · rw [lastLine_append_of_mem hfeed, hafter (.inl rfl)]
  · -- only carriage returns, which leave the lexer in its column
    have hreturns : ∀ d ∈ l.rest.takeWhile Token.isNewlineChar, d = '\r' := fun d hd =>
      (hnewlines d hd).resolve_left fun heq => hfeed (heq ▸ hd)
    have hne : l.rest.takeWhile Token.isNewlineChar ≠ [] := by
      rw [hl, List.takeWhile_cons, if_pos hc]
      exact List.cons_ne_nil _ _
    obtain ⟨hcolumns, hafter⟩ := columns_returns (s := plain.after (lastLine front)) hreturns
    refine ⟨?_, fun _ _ _ => ?_⟩
    · rw [hnext, if_neg hfeed, lastLine_append_of_notMem hfeed, columns_append, hcolumns, h.col_eq]
      rfl
    · rw [lastLine_append_of_notMem hfeed, after_append, hafter (.inr hne)]

/-- Behind blanks and a comment the lexer has counted both, tabs in their two widths. -/
theorem IsAligned.nextSpacing (h : l.IsAligned front) (hl : l.rest = c :: cs)
    (hc : TokenKind.spacing.begins c = true) :
    l.nextSpacing.2.IsAligned (front ++ (l.rest.takeWhile Token.isSpaceChar
      ++ comment (l.rest.dropWhile Token.isSpaceChar))) := by
  obtain ⟨hblanks, hafterBlanks⟩ :=
    columns_blanks fun d hd => List.mem_takeWhile_imp (l := l.rest) (p := Token.isSpaceChar) hd
  obtain ⟨hremark, hafterRemark⟩ := columns_comment (l.rest.dropWhile Token.isSpaceChar)
  have hends : Token.endsComment c = false := by
    rcases (Bool.or_eq_true _ _).mp hc with hspace | hhash
    · exact Token.endsComment_of_isSpaceChar hspace
    · rw [of_decide_eq_true hhash]
      rfl
  refine h.behind hl hends (fun hmem => ?_) ?_ fun d hd hd' => ?_
  · exact (List.mem_append.1 hmem).elim (lineFeed_notMem_takeWhile (by decide) _)
      (lineFeed_notMem_comment _)
  · rw [columns_append, hafterBlanks, hblanks, hremark]
    rfl
  · rw [after_append, hafterBlanks]
    exact hafterRemark d hd hd'

/-- Behind a string the lexer has counted its characters and its two quotes. -/
theorem IsAligned.nextString (h : l.IsAligned front) (hl : l.rest = '"' :: cs) {t : Token}
    (hnext : l.nextString cs = (.ok t, l')) : l'.IsAligned (front ++ t.lexeme) := by
  have hinside : ∀ d ∈ cs.takeWhile (!Token.endsString ·), Token.endsString d = false :=
    fun _ => eq_false_of_mem_takeWhile
  obtain ⟨hcolumns, hafter⟩ := columns_quoted hinside
  unfold Lexer.nextString at hnext
  split at hnext
  · obtain ⟨⟨rfl⟩, rfl⟩ := Prod.mk.inj hnext
    rw [lexeme_spanAhead_string]
    refine h.behind hl (by decide) ?_ (by rw [hcolumns]; rfl) fun _ _ _ => hafter
    have hfeed : '\n' ∉ cs.takeWhile (!Token.endsString ·) :=
      lineFeed_notMem_takeWhile (by decide) _
    simp [hfeed]
  · cases (Prod.mk.inj hnext).1

/-- Behind the token of a call the lexer is aligned with the text in front and the token. -/
theorem IsAligned.next {t : Token} (h : l.IsAligned front) (hnext : l.next = (.ok t, l')) :
    l'.IsAligned (front ++ t.lexeme) := by
  unfold Lexer.next at hnext
  split at hnext
  · obtain ⟨⟨rfl⟩, rfl⟩ := Prod.mk.inj hnext
    rw [lexeme_spanAhead (by decide), List.append_nil]
    exact h
  · rename_i c cs hl
    split_ifs at hnext with hquote hglob hsymbol hnewline hspacing
    · subst hquote
      exact h.nextString hl hnext
    · obtain ⟨⟨rfl⟩, rfl⟩ := Prod.mk.inj hnext
      rw [lexeme_spanAhead (by decide)]
      exact h.nextRun hl hglob (by decide) .glob
    · obtain ⟨⟨rfl⟩, rfl⟩ := Prod.mk.inj hnext
      rw [lexeme_spanAhead (by decide)]
      exact h.nextRun hl hsymbol (by decide) .symbol
    · obtain ⟨⟨rfl⟩, rfl⟩ := Prod.mk.inj hnext
      rw [lexeme_spanAhead (by decide)]
      exact h.nextNewlines hl hnewline
    · obtain ⟨⟨rfl⟩, rfl⟩ := Prod.mk.inj hnext
      rw [lexeme_spanAhead (by decide)]
      exact h.nextSpacing hl hspacing
    · cases (Prod.mk.inj hnext).1

/-- Calls in a row keep the lexer aligned, by induction over them. -/
theorem Run.isAligned {ts : List Token} (h : Run l ts l') (hl : l.IsAligned front) :
    l'.IsAligned (front ++ ts.flatMap Token.lexeme) := by
  induction h generalizing front with
  | none => rwa [List.flatMap_nil, List.append_nil]
  | more hnext _ _ ih =>
    rw [List.flatMap_cons, ← List.append_assoc]
    exact ih (hl.next hnext)

/-! ## What a call names -/

/-- A call names a piece of the text ahead, which only an opening quote may come before. -/
theorem exists_spanOf_next (l : Lexer) :
    ∃ skipped inside back, l.rest = skipped ++ inside ++ back
      ∧ (skipped = [] ∨ skipped = ['"'])
      ∧ spanOf l.next.1 = some (l.spanAhead (byteLength skipped) inside) := by
  have hrun (family : Char → Bool) :
      l.rest = [] ++ l.rest.takeWhile family ++ l.rest.dropWhile family :=
    List.takeWhile_append_dropWhile.symm
  unfold Lexer.next
  split
  · next hl => exact ⟨[], [], [], hl, .inl rfl, rfl⟩
  · next c cs hl =>
    split_ifs with hquote
    · subst hquote
      have hsplit := List.takeWhile_append_dropWhile (p := (!Token.endsString ·)) (l := cs)
      unfold Lexer.nextString
      split
      · refine ⟨['"'], _, cs.dropWhile (!Token.endsString ·), ?_, .inr rfl, rfl⟩
        exact hl.trans (congrArg ('"' :: ·) hsplit.symm)
      · exact ⟨[], ['"'], cs, hl, .inl rfl, rfl⟩
    · exact ⟨[], _, _, hrun Token.isGlobChar, .inl rfl, rfl⟩
    · exact ⟨[], _, _, hrun Token.isSymbolChar, .inl rfl, rfl⟩
    · exact ⟨[], _, _, hrun Token.isNewlineChar, .inl rfl, rfl⟩
    · next hspacing =>
      refine ⟨[], _, l.nextSpacing.2.rest, ?_, .inl rfl, rfl⟩
      rw [List.nil_append, ← lexeme_nextSpacing]
      exact (reads_nextSpacing hl hspacing).rest_eq
    · exact ⟨[], [c], cs, hl, .inl rfl, rfl⟩

/-- Behind a run from the beginning of a text, a call names a piece of it, with the line and the
column that the text in front of the piece makes. -/
theorem Run.exists_piece {src : Source} {ts : List Token} (h : Run (ofSource src) ts l) :
    ∃ s front inside back, spanOf l.next.1 = some s ∧ s.StandsIn src
      ∧ src.contents.toList = front ++ inside ++ back
      ∧ s.text = String.ofList inside
      ∧ s.start = byteLength front
      ∧ s.line = 1 + front.count '\n'
      ∧ s.col = (1 + plain.columns (lastLine front)) % UInt32.size := by
  have hplaced := h.isPlaced (isPlaced_ofSource src)
  have haligned : l.IsAligned (ts.flatMap Token.lexeme) := h.isAligned (isAligned_ofSource src)
  obtain ⟨skipped, inside, back, hrest, hskipped, hspan⟩ := l.exists_spanOf_next
  have hfeed : '\n' ∉ skipped := by rcases hskipped with rfl | rfl <;> decide
  have hwidth (s : Surroundings) : s.columns skipped = byteLength skipped := by
    rcases hskipped with rfl | rfl <;> cases s <;> decide
  have hstands := hplaced.spanAhead skipped inside hrest hfeed
  obtain ⟨front, hcontents, hoffset, hline⟩ := hplaced
  -- the text in front is the lexemes of the run, so both accounts are of the same characters
  obtain rfl : ts.flatMap Token.lexeme = front :=
    List.append_cancel_right (h.rest_eq.symm.trans hcontents)
  refine ⟨_, ts.flatMap Token.lexeme ++ skipped, inside, back, hspan, hstands, ?_, rfl, ?_, ?_, ?_⟩
  · rw [hcontents, hrest, List.append_assoc, List.append_assoc, List.append_assoc]
  · rw [byteLength_append, hoffset]
    rfl
  · rw [List.count_append, List.count_eq_zero.2 hfeed, Nat.add_zero, Nat.add_comm]
    exact hline
  · -- the sum in 32 bits is the sum of the columns, modulo their number
    have hcol : l.col + .ofNat (byteLength skipped)
        = .ofNat (1 + plain.columns (lastLine (ts.flatMap Token.lexeme ++ skipped))) := by
      rw [lastLine_append_of_notMem hfeed, columns_append, hwidth, haligned.col_eq, ← Nat.add_assoc,
        UInt32.ofNat_add, UInt32.ofNat_add]
      rfl
    exact (congrArg UInt32.toNat hcol).trans UInt32.toNat_ofNat'

end Lexer

namespace TokenStream

open Surroundings

end TokenStream

end Conformance
