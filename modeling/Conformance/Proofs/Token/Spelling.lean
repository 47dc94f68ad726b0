import Conformance.Proofs.Token.Lexeme

/-!
# Texts that spell words

A text spells words when every lexer that it lies in front of reads tokens of just these kinds and
texts off it, blanks and comments left out, whatever was read before (`Lexer.Spells`). A run of
characters of one kind spells a word of its own if the text behind it does not go on with it, and
texts that are put together spell their words in a row.
-/

namespace Conformance

/-- What a token is, wherever it stands. -/
def Token.word (t : Token) : TokenKind × String :=
  (t.kind, t.text)

/-- Is the text a run of characters that a token of the kind can begin with? -/
def TokenKind.isWord (kind : TokenKind) (word : String) : Bool :=
  !word.toList.isEmpty && word.toList.all kind.begins

/-- A word is not empty, and each of its characters could begin it. -/
theorem TokenKind.isWord_iff {kind : TokenKind} {word : String} :
    kind.isWord word = true ↔ word.toList ≠ [] ∧ ∀ c ∈ word.toList, kind.begins c = true := by
  simp [isWord]

/-- A word begins with a character that a token of its kind can begin with. -/
theorem TokenKind.exists_cons_of_isWord {kind : TokenKind} {word : String}
    (h : kind.isWord word = true) :
    ∃ c cs, word.toList = c :: cs ∧ kind.begins c = true := by
  obtain ⟨hne, hall⟩ := isWord_iff.1 h
  obtain ⟨c, cs, hchars⟩ := List.exists_cons_of_ne_nil hne
  exact ⟨c, cs, hchars, hall c (by rw [hchars]; exact List.mem_cons_self)⟩

/-- Can the text not go on with a token of the kind? -/
def TokenKind.Stops (kind : TokenKind) (cs : List Char) : Prop :=
  ∀ c ∈ cs.head?, kind.begins c = false

/-- Nothing goes on at the end of a text. -/
theorem TokenKind.stops_nil (kind : TokenKind) : kind.Stops [] := by
  intro c hc
  cases hc

/-- The first character decides whether a token goes on. -/
theorem TokenKind.stops_cons {kind : TokenKind} {c : Char} (h : kind.begins c = false)
    (cs : List Char) : kind.Stops (c :: cs) := by
  intro d hd
  obtain rfl : c = d := by simpa using hd
  exact h

namespace Lexer

variable {l : Lexer} {cs rest : List Char}

/-- A run of characters that pass a test ends where one comes that does not. -/
theorem takeWhile_append_of_stops {test : Char → Bool} (hall : ∀ c ∈ cs, test c = true)
    (hstops : ∀ c ∈ rest.head?, test c = false) : (cs ++ rest).takeWhile test = cs := by
  rw [List.takeWhile_append_of_pos hall]
  cases rest with
  | nil => exact List.append_nil cs
  | cons c rest =>
    rw [List.takeWhile_cons_of_neg (by simp [hstops c rfl]), List.append_nil]

/-- What is left behind such a run is what comes behind it. -/
theorem dropWhile_append_of_stops {test : Char → Bool} (hall : ∀ c ∈ cs, test c = true)
    (hstops : ∀ c ∈ rest.head?, test c = false) : (cs ++ rest).dropWhile test = rest := by
  rw [List.dropWhile_append_of_pos hall]
  cases rest with
  | nil => rfl
  | cons c rest => rw [List.dropWhile_cons_of_neg (by simp [hstops c rfl])]

/-! ## Single calls -/

/-- A character of names begins neither a string nor a line end nor blanks. -/
theorem not_begins_of_isGlobChar {c : Char} (h : Token.isGlobChar c = true) :
    c ≠ '"' ∧ TokenKind.newline.begins c = false ∧ TokenKind.spacing.begins c = false := by
  refine ⟨?_, ?_, ?_⟩
  · rintro rfl
    exact absurd h (by decide)
  · rw [Bool.eq_false_iff]
    intro hnewline
    simp only [TokenKind.begins, Token.isNewlineChar, Bool.or_eq_true, decide_eq_true_eq]
      at hnewline
    obtain rfl | rfl := hnewline <;> exact absurd h (by decide)
  · rw [Bool.eq_false_iff]
    intro hspacing
    simp only [TokenKind.begins, Token.isSpaceChar, Bool.or_eq_true, decide_eq_true_eq]
      at hspacing
    obtain (rfl | rfl) | rfl := hspacing <;> exact absurd h (by decide)

/-- A character of operators begins neither a string nor a name nor blanks. -/
theorem not_begins_of_isSymbolChar {c : Char} (h : Token.isSymbolChar c = true) :
    c ≠ '"' ∧ Token.isGlobChar c = false ∧ TokenKind.spacing.begins c = false := by
  simp only [Token.isSymbolChar, Bool.or_eq_true, decide_eq_true_eq] at h
  obtain ((((((rfl | rfl) | rfl) | rfl) | rfl) | rfl) | rfl) | rfl := h <;> decide

/-- A character of line ends begins neither a string nor a name nor an operator. -/
theorem not_begins_of_isNewlineChar {c : Char} (h : Token.isNewlineChar c = true) :
    c ≠ '"' ∧ Token.isGlobChar c = false ∧ Token.isSymbolChar c = false := by
  simp only [Token.isNewlineChar, Bool.or_eq_true, decide_eq_true_eq] at h
  obtain rfl | rfl := h <;> decide

/-- A call reads the longest run of one kind that the text begins with. -/
theorem next_of_begins {kind : TokenKind} (hkind : kind = .glob ∨ kind = .symbol ∨ kind = .newline)
    (hbegins : ∃ c ∈ l.rest.head?, kind.begins c = true) :
    ∃ l', l.next = (.ok ⟨kind, l.spanAhead 0 (l.rest.takeWhile kind.begins)⟩, l')
      ∧ l'.rest = l.rest.dropWhile kind.begins := by
  obtain ⟨c, hc, hbegins⟩ := hbegins
  obtain ⟨cs, hl⟩ := List.head?_eq_some_iff.1 hc
  unfold next
  split
  · rename_i hnil
    cases hnil.symm.trans hl
  · rename_i d ds hcons
    obtain ⟨rfl, -⟩ := List.cons.inj (hcons.symm.trans hl)
    -- a character begins tokens of one kind only, so the tests for the others fail
    obtain rfl | rfl | rfl := hkind
    · have hglob : Token.isGlobChar d = true := hbegins
      rw [if_neg (not_begins_of_isGlobChar hglob).1, if_pos hglob]
      exact ⟨_, rfl, rfl⟩
    · have hsymbol : Token.isSymbolChar d = true := hbegins
      obtain ⟨hquote, hglob, -⟩ := not_begins_of_isSymbolChar hsymbol
      rw [if_neg hquote, if_neg (by simp [hglob]), if_pos hsymbol]
      exact ⟨_, rfl, rfl⟩
    · have hnewline : Token.isNewlineChar d = true := hbegins
      obtain ⟨hquote, hglob, hsymbol⟩ := not_begins_of_isNewlineChar hnewline
      rw [if_neg hquote, if_neg (by simp [hglob]), if_neg (by simp [hsymbol]), if_pos hnewline]
      exact ⟨_, rfl, rfl⟩

/-- Where a blank or a comment begins, a call reads blanks and a comment behind them. -/
theorem next_of_spacing {c : Char} (hl : l.rest = c :: cs)
    (hc : TokenKind.spacing.begins c = true) :
    l.next = (.ok l.nextSpacing.1, l.nextSpacing.2) := by
  simp only [TokenKind.begins, Token.isSpaceChar, Bool.or_eq_true, decide_eq_true_eq] at hc
  rw [next, hl]
  obtain (rfl | rfl) | rfl := hc
  · rfl
  · rfl
  · rfl

/-- A call reads blanks in front of something else. -/
theorem next_of_blanks (hl : l.rest = cs ++ rest) (hne : cs ≠ [])
    (hblanks : ∀ c ∈ cs, Token.isSpaceChar c = true) (hstops : TokenKind.spacing.Stops rest) :
    ∃ t l', l.next = (.ok t, l') ∧ t.kind = .spacing ∧ t.lexeme = cs ∧ l'.rest = rest := by
  obtain ⟨c, ds, rfl⟩ := List.exists_cons_of_ne_nil hne
  have hc : TokenKind.spacing.begins c = true := by
    simp [TokenKind.begins, hblanks c List.mem_cons_self]
  have hspace : ∀ d ∈ rest.head?, Token.isSpaceChar d = false ∧ d ≠ '#' := by
    intro d hd
    have hbegins := hstops d hd
    simpa [TokenKind.begins] using hbegins
  have htake : l.rest.takeWhile Token.isSpaceChar = c :: ds := by
    rw [hl, takeWhile_append_of_stops hblanks fun d hd => (hspace d hd).1]
  have hdrop : l.rest.dropWhile Token.isSpaceChar = rest := by
    rw [hl, dropWhile_append_of_stops hblanks fun d hd => (hspace d hd).1]
  -- no comment stands behind the blanks, or it would be part of the token
  have hcomment : comment rest = [] := by
    unfold comment
    split
    · exact absurd rfl (hspace '#' rfl).2
    · rfl
  refine ⟨_, _, next_of_spacing hl hc, rfl, ?_, ?_⟩
  · rw [lexeme_nextSpacing, htake, hdrop, hcomment, List.append_nil]
  · show (l.rest.dropWhile Token.isSpaceChar).drop _ = rest
    rw [hdrop, hcomment]
    rfl

/-- Where a quote stands, a call reads a string. -/
theorem next_of_quote (hl : l.rest = '"' :: cs) : l.next = l.nextString cs := by
  rw [next, hl]
  rfl

/-- A string whose search ends at a quote is what stands in front of that. -/
theorem nextString_of_closed (hclosed : cs.dropWhile (!Token.endsString ·) = '"' :: rest) :
    ∃ l', l.nextString cs = (.ok ⟨.string, l.spanAhead 1 (cs.takeWhile (!Token.endsString ·))⟩, l')
      ∧ l'.rest = rest := by
  rw [nextString, hclosed]
  exact ⟨_, rfl, rfl⟩

/-- A string whose search ends elsewhere is reported, and the lexer goes on from there. -/
theorem nextString_of_unclosed (hopen : ∀ rest, cs.dropWhile (!Token.endsString ·) ≠ '"' :: rest) :
    ∃ l', l.nextString cs = (.error (.placed .unterminatedString (l.spanAhead 0 ['"'])), l')
      ∧ l'.rest = cs.dropWhile (!Token.endsString ·) := by
  unfold nextString
  split
  · next rest hclosed => exact absurd hclosed (hopen rest)
  · exact ⟨_, rfl, rfl⟩

/-- A call reads a text in quotes as a string, if nothing in it ends one. -/
theorem next_of_quoted {inside : List Char} (hl : l.rest = '"' :: (inside ++ '"' :: rest))
    (hinside : ∀ c ∈ inside, Token.endsString c = false) :
    ∃ l', l.next = (.ok ⟨.string, l.spanAhead 1 inside⟩, l') ∧ l'.rest = rest := by
  have hall : ∀ c ∈ inside, (!Token.endsString c) = true := by
    intro c hc
    rw [hinside c hc]
    rfl
  have hquote : ∀ c ∈ ('"' :: rest).head?, (!Token.endsString c) = false := by
    rintro _ ⟨⟩
    rfl
  have htake := takeWhile_append_of_stops hall hquote
  have hdrop := dropWhile_append_of_stops hall hquote
  obtain ⟨l', hstring, hrest⟩ := nextString_of_closed (l := l) hdrop
  rw [htake] at hstring
  exact ⟨l', (next_of_quote hl).trans hstring, hrest⟩

/-! ## Spelling -/

/-- Does a lexer that has the text `cs` in front of `rest` read just these words off it, blanks and
comments left out? -/
def Spells (cs rest : List Char) (words : List (TokenKind × String)) : Prop :=
  ∀ l : Lexer, l.rest = cs ++ rest →
    ∃ ts l', l.Run ts l' ∧ l'.rest = rest ∧ (Grammar.significant ts).map Token.word = words

section
variable {ds : List Char} {words words' : List (TokenKind × String)}

/-- A text without characters spells nothing. -/
theorem spells_nil : Spells [] rest [] :=
  fun l hl => ⟨[], l, .none, hl, rfl⟩

/-- Texts put together spell the words of one and then those of the other. -/
theorem Spells.append (h : Spells cs (ds ++ rest) words) (h' : Spells ds rest words') :
    Spells (cs ++ ds) rest (words ++ words') := by
  intro l hl
  obtain ⟨ts, m, hrun, hrest, rfl⟩ := h l (by rw [hl, List.append_assoc])
  obtain ⟨us, l', hrun', hrest', rfl⟩ := h' m hrest
  refine ⟨ts ++ us, l', hrun.append hrun', hrest', ?_⟩
  rw [Grammar.significant, List.filter_append, List.map_append]
  rfl

/-- Texts one behind the other spell their words in a row, if each does in front of what the others
begin with. -/
theorem spells_flatMap {α : Type} {chars : α → List Char} {words : α → List (TokenKind × String)}
    {front : List Char → Prop} {xs : List α}
    (hspells : ∀ x ∈ xs, ∀ rest, front rest → Spells (chars x) rest (words x))
    (hfront : ∀ x ∈ xs, ∀ rest, front (chars x ++ rest)) (hrest : front rest) :
    front (xs.flatMap chars ++ rest) ∧ Spells (xs.flatMap chars) rest (xs.flatMap words) := by
  -- from the last text to the first: each has to know what it stands in front of
  induction xs with
  | nil => exact ⟨hrest, spells_nil⟩
  | cons x xs ih =>
    obtain ⟨hx, hxs⟩ := List.forall_mem_cons.1 hspells
    obtain ⟨hxfront, hxsfront⟩ := List.forall_mem_cons.1 hfront
    obtain ⟨hbehind, htail⟩ := ih hxs hxsfront
    rw [List.flatMap_cons, List.flatMap_cons]
    refine ⟨?_, (hx _ hbehind).append htail⟩
    rw [List.append_assoc]
    exact hxfront _

end

/-- A run of characters of one kind spells one word. -/
theorem spells_word {kind : TokenKind} (word : String)
    (hkind : kind = .glob ∨ kind = .symbol ∨ kind = .newline) (hword : kind.isWord word = true)
    (hstops : kind.Stops rest) : Spells word.toList rest [(kind, word)] := by
  intro l hl
  obtain ⟨-, hall⟩ := TokenKind.isWord_iff.1 hword
  have hhead : ∃ c ∈ l.rest.head?, kind.begins c = true := by
    obtain ⟨c, cs, hchars, hc⟩ := TokenKind.exists_cons_of_isWord hword
    rw [hl, hchars]
    exact ⟨c, rfl, hc⟩
  obtain ⟨l', hnext, hrest⟩ := next_of_begins hkind hhead
  rw [hl, dropWhile_append_of_stops hall hstops] at hrest
  rw [hl, takeWhile_append_of_stops hall hstops] at hnext
  have heof : kind ≠ .eof := by
    obtain rfl | rfl | rfl := hkind <;> decide
  -- the token is not left out, as it is no blank
  have hspacing : kind ≠ .spacing := by
    obtain rfl | rfl | rfl := hkind <;> decide
  refine ⟨_, l', .more hnext heof .none, hrest, ?_⟩
  rw [Grammar.significant, List.filter_cons_of_pos (by simpa using hspacing)]
  show [(kind, String.ofList word.toList)] = [(kind, word)]
  rw [String.ofList_toList]

/-- Blanks in front of something else spell nothing. -/
theorem spells_blanks (hblanks : ∀ c ∈ cs, Token.isSpaceChar c = true)
    (hstops : TokenKind.spacing.Stops rest) : Spells cs rest [] := by
  intro l hl
  by_cases hne : cs = []
  · subst hne
    exact ⟨[], l, .none, hl, rfl⟩
  · obtain ⟨t, l', hnext, hkind, -, hrest⟩ := next_of_blanks hl hne hblanks hstops
    have heof : t.kind ≠ .eof := by rw [hkind]; decide
    refine ⟨[t], l', .more hnext heof .none, hrest, ?_⟩
    rw [Grammar.significant, List.filter_cons_of_neg (by simp [hkind])]
    rfl

/-- A single blank in front of something else spells nothing. -/
theorem spells_blank (hstops : TokenKind.spacing.Stops rest) : Spells [' '] rest [] :=
  spells_blanks (List.forall_mem_singleton.2 rfl) hstops

/-- A text in quotes spells a string, if nothing in it ends one. -/
theorem spells_string {text : String} (hinside : ∀ c ∈ text.toList, Token.endsString c = false) :
    Spells ('"' :: text.toList ++ ['"']) rest [(.string, text)] := by
  intro l hl
  have hbody : l.rest = '"' :: (text.toList ++ '"' :: rest) := by
    rw [hl]
    simp
  obtain ⟨l', hnext, hrest⟩ := next_of_quoted hbody hinside
  have heof : TokenKind.string ≠ .eof := by decide
  refine ⟨_, l', .more hnext heof .none, hrest, ?_⟩
  show [(TokenKind.string, String.ofList text.toList)] = [(.string, text)]
  rw [String.ofList_toList]

end Lexer

end Conformance
