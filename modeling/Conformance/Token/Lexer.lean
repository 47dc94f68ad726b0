import Conformance.Token

/-!
# From text to tokens

`Lexer.next` reads one token off the front of a text and returns the lexer behind it. A call either
shortens the text or leaves the lexer as it is; the latter happens at the end of the text and at a
character that begins no token. `Lexer.tokens` lists all tokens up to the end or the first error.

Columns are counted in 32 bits and go on from 0 behind the last of them. A text of characters that
take one column each is too short for that, but a tab takes four.
-/

namespace Conformance

open Text

/-- What is left of a text, and the place where it begins. -/
structure Lexer where
  rest : List Char
  offset : Nat
  line : Nat
  col : UInt32
deriving DecidableEq, Repr

/-- A token or a lexical error. -/
abbrev Lexed := Except (Spanned LexError) Token

namespace Lexer

/-- The lexer before the first character of a text. -/
def ofSource (src : Source) : Lexer := ⟨src.contents.toList, 0, 1, 1⟩

/-- The span of `text`, which stands `skipped` bytes and as many columns behind the lexer. -/
def spanAhead (l : Lexer) (skipped : Nat) (text : List Char) : Span :=
  ⟨l.line, (l.col + .ofNat skipped).toNat, l.offset + skipped, l.offset + skipped + byteLength text,
    String.ofList text⟩

/-- The lexer behind `text`, which is `width` columns wide, when `rest` comes after it. -/
def advance (l : Lexer) (text : List Char) (width : Nat) (rest : List Char) : Lexer :=
  ⟨rest, l.offset + byteLength text, l.line, l.col + .ofNat width⟩

/-- Reads the longest run of characters of one family. -/
def nextRun (l : Lexer) (kind : TokenKind) (family : Char → Bool) : Token × Lexer :=
  let run := l.rest.takeWhile family
  (⟨kind, l.spanAhead 0 run⟩, l.advance run run.length (l.rest.dropWhile family))

/-- Columns that a blank takes: a tab takes four. -/
def spaceWidth (c : Char) : Nat :=
  if c = '\t' then 4 else 1

/-- Columns that several blanks take. -/
def spacesWidth : List Char → Nat
  | [] => 0
  | c :: cs => spaceWidth c + spacesWidth cs

/-- The comment that a text begins with, if any: everything from `#` to the end of the line. -/
def comment : List Char → List Char
  | '#' :: cs => '#' :: cs.takeWhile (!Token.endsComment ·)
  | _ => []

/-- Reads blanks and a comment behind them. -/
def nextSpacing (l : Lexer) : Token × Lexer :=
  let blanks := l.rest.takeWhile Token.isSpaceChar
  let rest := l.rest.dropWhile Token.isSpaceChar
  let remark := comment rest
  let width := spacesWidth blanks + remark.length
  (⟨.spacing, l.spanAhead 0 (blanks ++ remark)⟩,
    l.advance (blanks ++ remark) width (rest.drop remark.length))

/-- Reads a run of line ends. A line feed begins a line, a carriage return has no width. -/
def nextNewlines (l : Lexer) : Token × Lexer :=
  let run := l.rest.takeWhile Token.isNewlineChar
  (⟨.newline, l.spanAhead 0 run⟩,
    ⟨l.rest.dropWhile Token.isNewlineChar, l.offset + byteLength run, l.line + run.count '\n',
      if '\n' ∈ run then 1 else l.col⟩)

/-- Reads a string whose opening quote has `body` behind it. Without a closing quote on the line the
error is at the opening one, and the lexer goes on behind what was searched. -/
def nextString (l : Lexer) (body : List Char) : Lexed × Lexer :=
  let inside := body.takeWhile (!Token.endsString ·)
  match body.dropWhile (!Token.endsString ·) with
  | '"' :: rest =>
    (.ok ⟨.string, l.spanAhead 1 inside⟩,
      l.advance ('"' :: inside ++ ['"']) (inside.length + 2) rest)
  | rest =>
    (.error (.placed .unterminatedString (l.spanAhead 0 ['"'])),
      l.advance ('"' :: inside) (inside.length + 1) rest)

/-- Reads the next token. -/
def next (l : Lexer) : Lexed × Lexer :=
  match l.rest with
  | [] => (.ok ⟨.eof, l.spanAhead 0 []⟩, l)
  | c :: cs =>
    if c = '"' then l.nextString cs
    else if Token.isGlobChar c then (l.nextRun .glob Token.isGlobChar).map .ok id
    else if Token.isSymbolChar c then (l.nextRun .symbol Token.isSymbolChar).map .ok id
    else if Token.isNewlineChar c then l.nextNewlines.map .ok id
    -- a comment without blanks in front of it is a token of its own
    else if Token.isSpaceChar c || c = '#' then l.nextSpacing.map .ok id
    else (.error (.placed (.unrecognisedCharacter c) (l.spanAhead 0 [c])), l)

private theorem length_dropWhile_le (p : Char → Bool) (cs : List Char) :
    (cs.dropWhile p).length ≤ cs.length :=
  (List.dropWhile_sublist p).length_le

private theorem length_dropWhile_lt {p : Char → Bool} {c : Char} (h : p c = true)
    (cs : List Char) : ((c :: cs).dropWhile p).length < (c :: cs).length := by
  rw [List.dropWhile_cons, if_pos h, List.length_cons]
  exact Nat.lt_succ_of_le (length_dropWhile_le p cs)

private theorem nextString_length (l : Lexer) (body : List Char) :
    (l.nextString body).2.rest.length ≤ body.length := by
  have h := length_dropWhile_le (!Token.endsString ·) body
  simp only [nextString]
  split
  · rename_i rest heq
    simp only [heq, List.length_cons] at h
    simp only [advance]
    omega
  · simpa only [advance] using h

private theorem nextSpacing_length {l : Lexer} {c : Char} {cs : List Char} (hl : l.rest = c :: cs)
    (hc : (Token.isSpaceChar c || c = '#') = true) :
    l.nextSpacing.2.rest.length < l.rest.length := by
  have h := length_dropWhile_le Token.isSpaceChar l.rest
  simp only [nextSpacing, advance, List.length_drop]
  by_cases hs : Token.isSpaceChar c = true
  · have := length_dropWhile_lt hs cs
    rw [hl]
    omega
  · obtain rfl : c = '#' := by simpa [hs] using hc
    rw [hl, List.dropWhile_cons, if_neg hs]
    simp only [comment, List.length_cons]
    omega

/-- The result of `next` is an error or the end of the text and the lexer stays, or the lexer moves
on. -/
theorem next_stays_or_shortens (l : Lexer) :
    l.next.2 = l ∧ (∀ t, l.next.1 = .ok t → t.kind = .eof)
      ∨ l.next.2.rest.length < l.rest.length := by
  unfold next
  split
  · left
    refine ⟨rfl, fun t ht => ?_⟩
    obtain rfl := Except.ok.inj ht
    rfl
  · rename_i c cs hl
    split
    · right
      have := nextString_length l cs
      rw [hl, List.length_cons]
      omega
    split
    · right
      rename_i hc
      simpa [nextRun, advance, hl] using length_dropWhile_lt hc cs
    split
    · right
      rename_i hc
      simpa [nextRun, advance, hl] using length_dropWhile_lt hc cs
    split
    · right
      rename_i hc
      simpa [nextNewlines, hl] using length_dropWhile_lt hc cs
    split
    · right
      rename_i hc
      simpa using nextSpacing_length hl hc
    · left
      exact ⟨rfl, fun t ht => nomatch ht⟩

/-- Reading a token other than the end shortens the text. -/
theorem length_rest_of_next {l l' : Lexer} {t : Token} (h : l.next = (.ok t, l'))
    (ht : t.kind ≠ .eof) : l'.rest.length < l.rest.length := by
  rcases next_stays_or_shortens l with ⟨_, heof⟩ | hlt
  · exact absurd (heof t (by rw [h])) ht
  · rwa [h] at hlt

/-- All tokens of a text, up to the end or the first error, which is the last item. -/
def tokens (l : Lexer) : List Lexed :=
  match _h : l.next with
  | (.ok t, l') => if _ht : t.kind = .eof then [.ok t] else .ok t :: tokens l'
  | (.error e, _) => [.error e]
termination_by l.rest.length
decreasing_by exact length_rest_of_next _h _ht

end Lexer

/-- The tokens of a text one by one: once the end or an error has been given out there are no more.
-/
structure TokenStream where
  lexer : Lexer
  ended : Bool
deriving DecidableEq, Repr

namespace TokenStream

/-- The stream of all tokens of a text. -/
def ofSource (src : Source) : TokenStream := ⟨.ofSource src, false⟩

/-- The next item of the stream, if it has not ended. -/
def next? (s : TokenStream) : Option Lexed × TokenStream :=
  if s.ended then (none, s)
  else
    let (item, lexer) := s.lexer.next
    let last := match item with
      | .ok t => t.kind = .eof
      | .error _ => true
    (some item, ⟨lexer, last⟩)

/-- Reads a token whether or not the stream has ended. -/
def read (s : TokenStream) : Lexed × TokenStream :=
  let (item, lexer) := s.lexer.next
  (item, ⟨lexer, s.ended⟩)

end TokenStream

end Conformance
