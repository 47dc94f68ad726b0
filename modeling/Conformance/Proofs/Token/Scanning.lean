import Conformance.Proofs.Token.Spelling
import Mathlib.Data.List.TakeWhile

/-!
# Scanning character by character

The skeleton of tokens is what a reader goes by who looks neither at places nor at layout: blanks and
comments are left out, and line ends in a row are one. A `Scanner` makes the skeleton of a text with
one step for each character, where the lexer makes one call for each token. Both come to the same
(`Lexer.skeleton?_eq_some_iff`), but it is the scanner that can be stopped and fed anywhere, also
within a run of line ends.
-/

namespace Conformance

/-! ## Skeletons -/

/-- Has a token of the kind a text that matters? -/
def TokenKind.tells : TokenKind → Bool
  | glob | symbol | string => true
  | newline | spacing | eof => false

/-- A token that stands nowhere. -/
def Token.plain (kind : TokenKind) (text : String) : Token :=
  ⟨kind, ⟨0, 0, 0, 0, text⟩⟩

/-- A token without its place, and without a text that does not matter. -/
def Token.bare (t : Token) : Token :=
  .plain t.kind (if t.kind.tells then t.text else "")

/-- Puts a line end behind others, unless one is at their end already. -/
def addNewline (ts : List Token) : List Token :=
  if ts.getLast?.any (·.kind = .newline) then ts else ts ++ [.plain .newline ""]

/-- Puts what matters of a token behind others. -/
def addBare (ts : List Token) (t : Token) : List Token :=
  if t.kind = .spacing then ts
  else if t.kind = .newline then addNewline ts
  else ts ++ [t.bare]

/-- What matters of several tokens. -/
def skeleton (ts : List Token) : List Token :=
  ts.foldl addBare []

/-- A second line end in a row changes nothing. -/
theorem addNewline_addNewline (ts : List Token) : addNewline (addNewline ts) = addNewline ts := by
  have hlast : (addNewline ts).getLast?.any (·.kind = .newline) = true := by
    unfold addNewline
    split
    · assumption
    · rw [List.getLast?_append]
      rfl
  rw [addNewline, if_pos hlast]

/-- Blanks and comments have no part in a skeleton. -/
theorem foldl_addBare_significant (us ts : List Token) :
    (Grammar.significant ts).foldl addBare us = ts.foldl addBare us := by
  rw [Grammar.significant, List.foldl_filter]
  congr 1
  funext vs t
  by_cases ht : t.kind = .spacing
  · simp [addBare, ht]
  · simp [ht]

/-! ## Scanners -/

/-- What a scanner is in the middle of. -/
inductive Pending where
  | none
  /-- A name or an operator, which may go on. -/
  | word (kind : TokenKind) (chars : List Char) (h : kind = .glob ∨ kind = .symbol)
  | string (chars : List Char)
  | remark

/-- The skeleton of the tokens that have been scanned, and what comes after them. -/
structure Scanner where
  tokens : List Token
  pending : Pending

namespace Scanner

/-- The scanner in the middle of nothing. -/
def idle (ts : List Token) : Scanner := ⟨ts, .none⟩

/-- The skeleton when nothing goes on with what is pending. A string is not over without its quote.
-/
def settled (s : Scanner) : Option (List Token) :=
  match s.pending with
  | .none | .remark => some s.tokens
  | .word kind chars _ => some (s.tokens ++ [.plain kind (String.ofList chars)])
  | .string _ => none

/-- Takes in a character behind the tokens `ts` that goes on with none of them. -/
def enter (ts : List Token) (c : Char) : Option Scanner :=
  if c = '"' then some ⟨ts, .string []⟩
  else if Token.isGlobChar c then some ⟨ts, .word .glob [c] (.inl rfl)⟩
  else if Token.isSymbolChar c then some ⟨ts, .word .symbol [c] (.inr rfl)⟩
  else if Token.isNewlineChar c then some (idle (addNewline ts))
  else if Token.isSpaceChar c then some (idle ts)
  else if c = '#' then some ⟨ts, .remark⟩
  else none

/-- Takes in a character. -/
def step (s : Scanner) (c : Char) : Option Scanner :=
  match s.pending with
  | .none => enter s.tokens c
  | .word kind chars h =>
    if kind.begins c then some ⟨s.tokens, .word kind (chars ++ [c]) h⟩
    else enter (s.tokens ++ [.plain kind (String.ofList chars)]) c
  | .string chars =>
    if c = '"' then some (idle (s.tokens ++ [.plain .string (String.ofList chars)]))
    else if Token.endsString c then none
    else some ⟨s.tokens, .string (chars ++ [c])⟩
  | .remark => if Token.endsComment c then enter s.tokens c else some s

/-- Takes in several characters in order. -/
def run (s : Scanner) : List Char → Option Scanner
  | [] => some s
  | c :: cs => (s.step c).bind fun s' => s'.run cs

/-- Takes in the rest of a text, and gives the skeleton of all of it. -/
def scan (s : Scanner) (cs : List Char) : Option (List Token) :=
  ((s.run cs).bind settled).map (· ++ [.plain .eof ""])

/-- The skeleton of a text, if it is one of tokens. -/
def skeleton? (text : String) : Option (List Token) := (idle []).scan text.toList

variable {s s' : Scanner} {ts : List Token} {c : Char} {cs rest : List Char}

/-- Characters are taken in part by part. -/
theorem run_append (s : Scanner) (cs ds : List Char) :
    s.run (cs ++ ds) = (s.run cs).bind fun s' => s'.run ds := by
  induction cs generalizing s with
  | nil => rfl
  | cons c cs ih =>
    rw [List.cons_append, run, run, Option.bind_assoc]
    congr 1
    funext s'
    exact ih s'

theorem run_cons_of_step (h : s.step c = some s') (cs : List Char) :
    s.run (c :: cs) = s'.run cs := by
  rw [run, h, Option.bind_some]

theorem run_append_of_run (h : s.run cs = some s') (ds : List Char) :
    s.run (cs ++ ds) = s'.run ds := by
  rw [run_append, h, Option.bind_some]

/-- What is scanned behind a front that it gets through does not depend on the front any more. -/
theorem scan_append_of_run (h : s.run cs = some s') (ds : List Char) :
    s.scan (cs ++ ds) = s'.scan ds := by
  rw [scan, run_append_of_run h, scan]

/-- A scan that succeeds gets through each part of the text. -/
theorem exists_run_of_scan {ds : List Char} {w : List Token} (h : s.scan (cs ++ ds) = some w) :
    ∃ s', s.run cs = some s' ∧ s'.scan ds = some w := by
  cases hrun : s.run cs with
  | none =>
    rw [scan, run_append, hrun] at h
    cases h
  | some s' =>
    rw [scan_append_of_run hrun] at h
    exact ⟨s', rfl, h⟩

/-! ## Where nothing is pending that goes on -/

/-- Is the skeleton `ts`, and does the rest of the text go on with nothing that is pending? -/
structure Settles (s : Scanner) (rest : List Char) (ts : List Token) : Prop where
  settled : s.settled = some ts
  enters : ∀ c ∈ rest.head?, s.step c = enter ts c

theorem settled_idle (ts : List Token) : (idle ts).settled = some ts := rfl

/-- Behind nothing that is pending everything enters anew. -/
theorem settles_idle (ts : List Token) (rest : List Char) : (idle ts).Settles rest ts :=
  ⟨rfl, fun _ _ => rfl⟩

/-- A name or an operator that cannot go on is settled as a token. -/
theorem settles_word {kind : TokenKind} (h : kind = .glob ∨ kind = .symbol)
    (hstops : kind.Stops rest) :
    Settles ⟨ts, .word kind cs h⟩ rest (ts ++ [.plain kind (String.ofList cs)]) := by
  refine ⟨rfl, fun c hc => ?_⟩
  show (if kind.begins c then _ else _) = _
  rw [if_neg (by simp [hstops c hc])]

/-- A comment that ends here leaves no token. -/
theorem settles_remark (hends : ∀ c ∈ rest.head?, Token.endsComment c = true) :
    Settles ⟨ts, .remark⟩ rest ts := by
  refine ⟨rfl, fun c hc => ?_⟩
  show (if Token.endsComment c then _ else _) = _
  rw [if_pos (hends c hc)]

/-- What is pending makes no difference then. -/
theorem Settles.run_cons (h : s.Settles (c :: rest) ts) (cs : List Char) :
    s.run (c :: cs) = (idle ts).run (c :: cs) := by
  rw [run, h.enters c rfl]
  rfl

/-- A scan from a settled scanner on is that from its skeleton on. -/
theorem Settles.scan_eq (h : s.Settles rest ts) : s.scan rest = (idle ts).scan rest := by
  cases rest with
  | nil =>
    rw [scan, run, Option.bind_some, h.settled]
    rfl
  | cons c rest => rw [scan, h.run_cons, scan]

/-! ## Runs of characters -/

/-- A line end enters as one, unless the last token is one already. -/
theorem enter_of_isNewlineChar (hc : Token.isNewlineChar c = true) (ts : List Token) :
    enter ts c = some (idle (addNewline ts)) := by
  obtain ⟨hquote, hglob, hsymbol⟩ := Lexer.not_begins_of_isNewlineChar hc
  simp [enter, hquote, hglob, hsymbol, hc]

/-- A blank enters as nothing. -/
theorem enter_of_isSpaceChar (hc : Token.isSpaceChar c = true) (ts : List Token) :
    enter ts c = some (idle ts) := by
  rcases Token.isSpaceChar_iff.1 hc with rfl | rfl
  · rfl
  · rfl

/-- A name or an operator enters with its first character. -/
theorem enter_of_begins {kind : TokenKind} (h : kind = .glob ∨ kind = .symbol)
    (hc : kind.begins c = true) (ts : List Token) :
    enter ts c = some ⟨ts, .word kind [c] h⟩ := by
  rcases h with rfl | rfl
  · have hglob : Token.isGlobChar c = true := hc
    simp [enter, (Lexer.not_begins_of_isGlobChar hglob).1, hglob]
  · have hsymbol : Token.isSymbolChar c = true := hc
    obtain ⟨hquote, hglob, -⟩ := Lexer.not_begins_of_isSymbolChar hsymbol
    simp [enter, hquote, hglob, hsymbol]

/-- A name or an operator goes on with characters of its own kind. -/
theorem run_word {kind : TokenKind} (h : kind = .glob ∨ kind = .symbol)
    (hall : ∀ c ∈ cs, kind.begins c = true) (chars : List Char) :
    run ⟨ts, .word kind chars h⟩ cs = some ⟨ts, .word kind (chars ++ cs) h⟩ := by
  induction cs generalizing chars with
  | nil => rw [List.append_nil, run]
  | cons c cs ih =>
    have hstep : step ⟨ts, .word kind chars h⟩ c = some ⟨ts, .word kind (chars ++ [c]) h⟩ :=
      if_pos (hall c List.mem_cons_self)
    rw [run_cons_of_step hstep, ih fun d hd => hall d (List.mem_cons_of_mem c hd),
      List.append_assoc]
    rfl

/-- A string goes on up to what ends it. -/
theorem run_string (hall : ∀ c ∈ cs, Token.endsString c = false) (chars : List Char) :
    run ⟨ts, .string chars⟩ cs = some ⟨ts, .string (chars ++ cs)⟩ := by
  induction cs generalizing chars with
  | nil => rw [List.append_nil, run]
  | cons c cs ih =>
    have hc := hall c List.mem_cons_self
    have hquote : c ≠ '"' := by
      rintro rfl
      exact absurd hc (by decide)
    have hstep : step ⟨ts, .string chars⟩ c = some ⟨ts, .string (chars ++ [c])⟩ := by
      simp [step, hquote, hc]
    rw [run_cons_of_step hstep, ih fun d hd => hall d (List.mem_cons_of_mem c hd),
      List.append_assoc]
    rfl

/-- A comment goes on up to what ends it. -/
theorem run_remark (hall : ∀ c ∈ cs, Token.endsComment c = false) :
    run ⟨ts, .remark⟩ cs = some ⟨ts, .remark⟩ := by
  induction cs with
  | nil => rfl
  | cons c cs ih =>
    have hstep : step ⟨ts, .remark⟩ c = some ⟨ts, .remark⟩ := by
      simp [step, hall c List.mem_cons_self]
    rw [run_cons_of_step hstep]
    exact ih fun d hd => hall d (List.mem_cons_of_mem c hd)

/-- Blanks come to nothing. -/
theorem run_blanks (hall : ∀ c ∈ cs, Token.isSpaceChar c = true) (ts : List Token) :
    (idle ts).run cs = some (idle ts) := by
  induction cs with
  | nil => rfl
  | cons c cs ih =>
    have hstep : (idle ts).step c = some (idle ts) :=
      enter_of_isSpaceChar (hall c List.mem_cons_self) ts
    rw [run_cons_of_step hstep]
    exact ih fun d hd => hall d (List.mem_cons_of_mem c hd)

/-- A line end ends everything but a string, which it must not stand in. -/
theorem step_of_isNewlineChar (hc : Token.isNewlineChar c = true) (s : Scanner) :
    s.step c = s.settled.map fun ts => idle (addNewline ts) := by
  obtain ⟨ts, pending⟩ := s
  cases pending with
  | none => exact enter_of_isNewlineChar hc ts
  -- the word is over, and the line end enters behind it
  | word kind chars h =>
    have hbegins : kind.begins c = false := by
      obtain ⟨-, hglob, hsymbol⟩ := Lexer.not_begins_of_isNewlineChar hc
      rcases h with rfl | rfl
      · exact hglob
      · exact hsymbol
    simp only [step, hbegins, settled]
    exact enter_of_isNewlineChar hc _
  | string chars =>
    have hquote := (Lexer.not_begins_of_isNewlineChar hc).1
    simp [step, hquote, Token.endsString_of_isNewlineChar hc, settled]
  | remark =>
    simp only [step, Token.endsComment_of_isNewlineChar hc, settled]
    exact enter_of_isNewlineChar hc ts

/-- One line end or more come to one. -/
theorem run_newlines (hs : s.settled = some ts) (hne : cs ≠ [])
    (hall : ∀ c ∈ cs, Token.isNewlineChar c = true) :
    s.run cs = some (idle (addNewline ts)) := by
  induction cs generalizing s ts with
  | nil => exact absurd rfl hne
  | cons c cs ih =>
    have hstep : s.step c = some (idle (addNewline ts)) := by
      rw [step_of_isNewlineChar (hall c List.mem_cons_self), hs]
      rfl
    rw [run_cons_of_step hstep]
    -- behind the first one the scanner is idle, and the others change nothing
    by_cases hcs : cs = []
    · rw [hcs, run]
    · rw [ih (settled_idle _) hcs fun d hd => hall d (List.mem_cons_of_mem c hd),
        addNewline_addNewline]

end Scanner

/-! ## The scanner and the lexer -/

namespace Lexer

open Scanner (idle)

variable {l l' : Lexer} {c : Char} {cs : List Char} {t : Token} {ts : List Token}

/-- A name or an operator. -/
theorem exists_run_nextRun {kind : TokenKind} (h : kind = .glob ∨ kind = .symbol)
    (hl : l.rest = c :: cs) (hc : kind.begins c = true) (us : List Token) :
    ∃ s, (idle us).run (l.rest.takeWhile kind.begins) = some s
      ∧ s.Settles (l.rest.dropWhile kind.begins)
        (us ++ [.plain kind (String.ofList (l.rest.takeWhile kind.begins))]) := by
  refine ⟨⟨us, .word kind (l.rest.takeWhile kind.begins) h⟩, ?_,
    Scanner.settles_word h fun d hd => eq_false_of_head?_dropWhile hd⟩
  -- the first character enters, and the others go on with it
  rw [hl, List.takeWhile_cons_of_pos hc]
  have hstep : (idle us).step c = some ⟨us, .word kind [c] h⟩ := Scanner.enter_of_begins h hc us
  rw [Scanner.run_cons_of_step hstep]
  exact Scanner.run_word h (fun d hd => List.mem_takeWhile_imp hd) [c]

/-- A run of line ends. -/
theorem exists_run_nextNewlines (hl : l.rest = c :: cs) (hc : Token.isNewlineChar c = true)
    (us : List Token) :
    ∃ s, (idle us).run (l.rest.takeWhile Token.isNewlineChar) = some s
      ∧ s.Settles (l.rest.dropWhile Token.isNewlineChar) (addNewline us) := by
  refine ⟨idle (addNewline us), ?_, Scanner.settles_idle _ _⟩
  apply Scanner.run_newlines (Scanner.settled_idle us)
  · rw [hl, List.takeWhile_cons_of_pos hc]
    exact List.cons_ne_nil _ _
  · exact fun d hd => List.mem_takeWhile_imp hd

/-- Blanks, and a comment if one follows them. -/
theorem exists_run_nextSpacing (l : Lexer) (us : List Token) :
    ∃ s, (idle us).run l.nextSpacing.1.lexeme = some s ∧ s.Settles l.nextSpacing.2.rest us := by
  have hrest : l.nextSpacing.2.rest = (l.rest.dropWhile Token.isSpaceChar).drop
      (comment (l.rest.dropWhile Token.isSpaceChar)).length := rfl
  have hblanks : (idle us).run (l.rest.takeWhile Token.isSpaceChar) = some (idle us) :=
    Scanner.run_blanks (fun d hd => List.mem_takeWhile_imp hd) us
  rw [lexeme_nextSpacing, hrest, Scanner.run_append_of_run hblanks]
  generalize l.rest.dropWhile Token.isSpaceChar = rest
  unfold comment
  split
  · have hstep : (idle us).step '#' = some ⟨us, .remark⟩ := rfl
    rw [drop_comment, Scanner.run_cons_of_step hstep]
    refine ⟨_, Scanner.run_remark fun d hd => eq_false_of_mem_takeWhile hd,
      Scanner.settles_remark fun d hd => ?_⟩
    simpa using eq_false_of_head?_dropWhile hd
  · exact ⟨idle us, rfl, Scanner.settles_idle _ _⟩

/-- The inside of a string, up to what ends it. -/
theorem run_inside (us : List Token) (cs : List Char) :
    Scanner.run ⟨us, .string []⟩ (cs.takeWhile (!Token.endsString ·))
      = some ⟨us, .string (cs.takeWhile (!Token.endsString ·))⟩ := by
  rw [Scanner.run_string fun c hc => eq_false_of_mem_takeWhile hc, List.nil_append]

/-- A string. -/
theorem exists_run_nextString (h : l.nextString cs = (.ok t, l')) (us : List Token) :
    ∃ s, (idle us).run t.lexeme = some s ∧ s.Settles l'.rest (addBare us t) := by
  unfold nextString at h
  split at h
  · obtain ⟨⟨rfl⟩, rfl⟩ := Prod.mk.inj h
    refine ⟨_, ?_, Scanner.settles_idle _ _⟩
    have hstep : (idle us).step '"' = some ⟨us, .string []⟩ := rfl
    rw [lexeme_spanAhead_string, List.cons_append, Scanner.run_cons_of_step hstep,
      Scanner.run_append_of_run (run_inside us cs)]
    rfl
  · cases (Prod.mk.inj h).1

/-- What a call reads the scanner gets through, and then nothing is pending that goes on. -/
theorem exists_run_lexeme (h : l.next = (.ok t, l')) (ht : t.kind ≠ .eof) (us : List Token) :
    ∃ s, (idle us).run t.lexeme = some s ∧ s.Settles l'.rest (addBare us t) := by
  unfold next at h
  split at h
  · obtain ⟨⟨rfl⟩, -⟩ := Prod.mk.inj h
    exact absurd rfl ht
  · rename_i c cs hl
    split_ifs at h with hquote hglob hsymbol hnewline hspacing
    · exact exists_run_nextString h us
    · obtain ⟨⟨rfl⟩, rfl⟩ := Prod.mk.inj h
      rw [lexeme_spanAhead (by decide)]
      exact exists_run_nextRun (.inl rfl) hl hglob us
    · obtain ⟨⟨rfl⟩, rfl⟩ := Prod.mk.inj h
      rw [lexeme_spanAhead (by decide)]
      exact exists_run_nextRun (.inr rfl) hl hsymbol us
    · obtain ⟨⟨rfl⟩, rfl⟩ := Prod.mk.inj h
      rw [lexeme_spanAhead (by decide)]
      exact exists_run_nextNewlines hl hnewline us
    · obtain ⟨⟨rfl⟩, rfl⟩ := Prod.mk.inj h
      exact exists_run_nextSpacing l us
    · cases (Prod.mk.inj h).1

/-- What several calls read the scanner gets through. -/
theorem Run.exists_run_scanner (h : Run l ts l') (us : List Token) :
    ∃ front s, l.rest = front ++ l'.rest ∧ (idle us).run front = some s
      ∧ s.Settles l'.rest (ts.foldl addBare us) := by
  induction h generalizing us with
  | none => exact ⟨[], idle us, rfl, rfl, Scanner.settles_idle _ _⟩
  | @more l m l' t ts hnext ht _ ih =>
    obtain ⟨s, hs, hsettles⟩ := exists_run_lexeme hnext ht us
    obtain ⟨front, s', hfront, hs', hsettles'⟩ := ih (addBare us t)
    have hrest := (reads_of_next hnext).rest_eq
    rw [List.foldl_cons]
    -- the token in front settles, so the rest is scanned as from its skeleton
    cases front with
    | nil =>
      obtain rfl := Option.some.inj hs'
      rw [List.nil_append] at hfront
      refine ⟨t.lexeme, s, hfront ▸ hrest, hs, hfront ▸ ?_⟩
      rwa [← Option.some.inj hsettles'.settled]
    | cons c front =>
      refine ⟨t.lexeme ++ c :: front, s', ?_, ?_, hsettles'⟩
      · rw [hrest, hfront, List.append_assoc]
      · rw [hfront] at hsettles
        rw [Scanner.run_append_of_run hs, hsettles.run_cons, hs']

/-- Where a call fails the scanner does, now or later. -/
theorem scan_of_next_error {e : Spanned LexError} (h : l.next = (.error e, l')) (us : List Token) :
    (idle us).scan l.rest = none := by
  unfold next at h
  split at h
  · cases (Prod.mk.inj h).1
  · rename_i c cs hl
    split_ifs at h with hquote hglob hsymbol hnewline hspacing
    · subst hquote
      have hsplit := List.takeWhile_append_dropWhile (p := (!Token.endsString ·)) (l := cs)
      have hstep : (idle us).step '"' = some ⟨us, .string []⟩ := rfl
      rw [hl, Scanner.scan, Scanner.run_cons_of_step hstep, ← hsplit,
        Scanner.run_append_of_run (run_inside us cs)]
      unfold nextString at h
      split at h
      · cases (Prod.mk.inj h).1
      · next hclosed =>
        -- the string ends with the text, or with a character that is no quote
        rcases hstop : cs.dropWhile (!Token.endsString ·) with _ | ⟨d, ds⟩
        · rfl
        · have hends : Token.endsString d = true := by
            have hd : d ∈ (cs.dropWhile (!Token.endsString ·)).head? := by simp [hstop]
            simpa using eq_false_of_head?_dropWhile hd
          have hquote : d ≠ '"' := by
            rintro rfl
            exact hclosed ds hstop
          simp [Scanner.run, Scanner.step, hquote, hends]
    · cases (Prod.mk.inj h).1
    · cases (Prod.mk.inj h).1
    · cases (Prod.mk.inj h).1
    · cases (Prod.mk.inj h).1
    · -- a character that begins no token cannot enter
      rw [Bool.or_eq_true, not_or, decide_eq_true_eq] at hspacing
      have hstep : (idle us).step c = none := by
        show Scanner.enter us c = none
        simp [Scanner.enter, hquote, hglob, hsymbol, hnewline, hspacing.1, hspacing.2]
      rw [hl, Scanner.scan, Scanner.run, hstep]
      rfl

/-- The scanner gives the skeleton of the tokens that the lexer gives, and gives none when the lexer
fails. -/
theorem scan_eq_some_iff {w : List Token} :
    (idle []).scan l.rest = some w ↔ ∃ us, l.upcoming = us.map .ok ∧ skeleton us = w := by
  obtain ⟨ts, l', hrun, hend⟩ := exists_run l
  obtain ⟨front, s, hfront, hs, hsettles⟩ := hrun.exists_run_scanner []
  have hscan : (idle []).scan l.rest = (idle (skeleton (Grammar.significant ts))).scan l'.rest := by
    rw [hfront, Scanner.scan_append_of_run hs, hsettles.scan_eq, skeleton,
      foldl_addBare_significant]
  rw [hscan, hrun.upcoming_eq]
  obtain ⟨t, hnext, ht⟩ | ⟨e, m, hnext⟩ := hend
  · have hrest : l'.rest = [] := (reads_of_next hnext).rest_eq_nil ht
    have hskeleton : skeleton (Grammar.significant ts ++ [t])
        = skeleton (Grammar.significant ts) ++ [.plain .eof ""] := by
      rw [skeleton, List.foldl_append]
      simp [skeleton, addBare, Token.bare, TokenKind.tells, ht]
    rw [hrest, ← hrun.upcoming_eq, hrun.upcoming_of_eof hnext ht]
    simp only [map_ok_inj, exists_eq_left', hskeleton]
    exact Option.some_inj
  · -- neither side has anything if the lexer fails
    have hlast : l'.upcoming = [.error e] := by
      rw [upcoming, tokens_of_error hnext]
      rfl
    rw [scan_of_next_error hnext, hlast]
    constructor
    · intro h
      cases h
    · intro hsome
      obtain ⟨us, hus, -⟩ := hsome
      have herror : (Except.error e : Lexed) ∈ us.map .ok := by
        rw [← hus]
        simp
      obtain ⟨_, _, h⟩ := List.mem_map.1 herror
      cases h

/-- The skeleton of a text is that of its tokens, if the lexer does not fail. -/
theorem skeleton?_eq_some_iff {src : Source} {w : List Token} :
    Scanner.skeleton? src.contents = some w
      ↔ ∃ us, (ofSource src).upcoming = us.map .ok ∧ skeleton us = w :=
  scan_eq_some_iff (l := ofSource src)

end Lexer

end Conformance
