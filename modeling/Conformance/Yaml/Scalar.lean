import Conformance.Yaml.Cursor

/-!
# Scalars of a YAML text

A scalar is written plain, in single quotes or in double quotes, and may go over several lines. What
stands between two words of it is a `Gap`: blanks stay as they are, and line ends are folded, so
that a single one becomes a space.
-/

namespace Conformance.Yaml

/-! ## Gaps -/

/-- Blanks and line ends between two words of a scalar; the last character comes first. -/
inductive Gap where
  /-- Blanks on one line. -/
  | blanks (text : List Char)
  /-- Line ends and blanks: the first line end, unless it is escaped, and the other ones. -/
  | lines (first : Option Char) (more : List Char)
deriving DecidableEq, Repr

namespace Gap

/-- The empty gap. -/
def empty : Gap := blanks []

/-- What a gap stands for, the last character first. -/
def folded : Gap → List Char
  | blanks text => text
  | lines none more => more
  | lines (some c) more =>
    if c = '\n' then if more.isEmpty then [' '] else more
    else more ++ [c]

/-- Does the gap go over a line end? -/
def isLines : Gap → Bool
  | blanks _ => false
  | lines _ _ => true

end Gap

/-- The character that a line end stands for. -/
def lineEnd (c : Char) : Char :=
  if c = '\u2028' || c = '\u2029' then c else '\n'

/-- Reads blanks and line ends, `gap` being what came before. On a new line no tab may stand in
front of column `least`. -/
def gap? (least : Nat) (gap : Gap) (c : Cursor) : Option (Gap × Cursor) :=
  match _h : c.rest with
  | [] => some (gap, c)
  | d :: _ =>
    if isBlank d then
      match gap with
      | .blanks text => gap? least (.blanks (d :: text)) (c.forward 1)
      | .lines _ _ =>
        if d = '\t' && c.col < least then none else gap? least gap (c.forward 1)
    else if isBreak d then
      match gap with
      | .blanks _ => gap? least (.lines (some (lineEnd d)) []) c.nextLine
      | .lines first more => gap? least (.lines first (lineEnd d :: more)) c.nextLine
    else some (gap, c)
termination_by c.rest.length
decreasing_by
  · simp [_h]
  · simp [_h]
  · exact c.length_nextLine_lt (by simp [_h])
  · exact c.length_nextLine_lt (by simp [_h])

/-- Reading a gap leaves no more of the text, and less if a blank or line end comes first. -/
theorem length_of_gap? {least : Nat} {gap : Gap} {c : Cursor} {r : Gap × Cursor}
    (h : gap? least gap c = some r) :
    r.2.rest.length ≤ c.rest.length
      ∧ (c.rest ≠ [] → isGap c.rest = true → r.2.rest.length < c.rest.length) := by
  fun_induction gap? least gap c <;>
    grind [isGap, Cursor.length_forward, Cursor.length_nextLine_lt]

/-! ## Plain scalars -/

/-- Is the character a mark in flow collections, which no plain scalar there may hold? -/
def isFlowMark (c : Char) : Bool :=
  c = ',' || c = '[' || c = ']' || c = '\x7b' || c = '\x7d'

/-- May a plain scalar begin here? Most marks may not come first, and three of them only in front of
a character that is no blank. -/
def canBeginPlain (inFlow : Bool) : List Char → Bool
  | [] => false
  | c :: cs =>
    if c = '-' then !isGap cs
    else if c = '?' || c = ':' then !inFlow && !isGap cs
    else !(isBlank c || isBreak c || isFlowMark c || "#&*!|>'\"%@`".toList.contains c)

/-- The characters of one word of a plain scalar. -/
def plainWord (inFlow : Bool) : List Char → List Char
  | [] => []
  | c :: cs =>
    if isBlank c || isBreak c || (c = ':' && isGap cs) || (inFlow && isFlowMark c) then []
    else c :: plainWord inFlow cs

/-- A word is no longer than the text. -/
theorem length_plainWord_le (inFlow : Bool) (cs : List Char) :
    (plainWord inFlow cs).length ≤ cs.length := by
  fun_induction plainWord inFlow cs <;> simp_all

/-- Does a colon come right in front of a mark of flow collections? -/
def hasLooseColon (cs : List Char) : Bool :=
  (cs.zip cs.tail).any fun (a, b) => a = ':' && (isFlowMark b || b = '?')

/-- Reads on in a plain scalar: `text` is what came before, the last character first, and `gap` what
comes between. A line of a block has to begin in column `least` or behind. The scalar is given with
whether a line end stands behind it. -/
def plainFrom? (inFlow : Bool) (least : Nat) (text : List Char) (gap : Gap) (c : Cursor) :
    Option (List Char × Bool × Cursor) :=
  let word := plainWord inFlow c.rest
  if _h : word.isEmpty || c.atDocumentMark || c.rest.head? = some '#' then
    some (text, gap.isLines, c)
  else if inFlow && hasLooseColon (c.rest.take (word.length + 1)) then none
  else
    let text := word.reverse ++ gap.folded ++ text
    match _hg : gap? least .empty (c.forward word.length) with
    | none => none
    | some (gap, c') =>
      if !inFlow && gap.isLines && c'.col < least then some (text, true, c')
      else plainFrom? inFlow least text gap c'
termination_by c.rest.length
decreasing_by
  have := (length_of_gap? _hg).1
  have : word.length ≤ c.rest.length := length_plainWord_le inFlow c.rest
  have : 0 < word.length := by
    simp only [Bool.or_eq_true, not_or, Bool.not_eq_true, List.isEmpty_eq_false_iff] at _h
    exact List.length_pos_iff.2 _h.1.1
  simp only [Cursor.length_forward] at *
  omega

/-- Reads a plain scalar, with whether a line end stands behind it. -/
def plain? (inFlow : Bool) (least : Nat) (c : Cursor) : Option (String × Bool × Cursor) :=
  (plainFrom? inFlow least [] .empty c).map fun (text, ended, c) =>
    (String.ofList text.reverse, ended, c)

/-! ## Quoted scalars -/

/-- The value of a digit in base 16. -/
def hexDigit? (c : Char) : Option Nat :=
  if c.isDigit then some (c.toNat - '0'.toNat)
  else if 'a' ≤ c && c ≤ 'f' then some (c.toNat - 'a'.toNat + 10)
  else if 'A' ≤ c && c ≤ 'F' then some (c.toNat - 'A'.toNat + 10)
  else none

/-- The character whose number the digits give. -/
def numberedChar? (ds : List Char) : Option Char := do
  let n := (← ds.mapM hexDigit?).foldl (fun n d => 16 * n + d) 0
  if n.isValidChar then some (Char.ofNat n) else none

/-- The characters of short escapes. -/
def shortEscapes : List (Char × Char) :=
  [('0', '\x00'), ('a', '\x07'), ('b', '\x08'), ('t', '\t'), ('\t', '\t'), ('n', '\n'),
    ('v', '\x0b'), ('f', '\x0c'), ('r', '\r'), ('e', '\x1b'), (' ', ' '), ('"', '"'),
    ('/', '/'), ('\\', '\\'), ('N', '\u0085'), ('_', '\u00a0'), ('L', '\u2028'), ('P', '\u2029')]

/-- How many digits follow the letter of a numbered escape. -/
def digitCount? (c : Char) : Option Nat :=
  if c = 'x' then some 2 else if c = 'u' then some 4 else if c = 'U' then some 8 else none

/-- The character of an escape behind its backslash, and how many characters the escape has. -/
def escape? (cs : List Char) : Option (Char × Nat) := do
  let c ← cs.head?
  match digitCount? c with
  | some n =>
    let ds := cs.tail.take n
    if ds.length < n then none else return (← numberedChar? ds, n + 1)
  | none => return (← shortEscapes.lookup c, 1)

/-- The two kinds of quotes. -/
inductive Quote where
  | single
  | double
deriving DecidableEq, Repr

/-- The character of a quote. -/
def Quote.char : Quote → Char
  | single => '\''
  | double => '"'

/-- Reads on in a quoted scalar up to its closing quote, `text` being what came before, the last
character first. In single quotes a quote is written twice; in double quotes a backslash begins an
escape, or takes a line end away. No mark between documents may stand in the scalar. -/
def quotedFrom? (q : Quote) (text : List Char) (c : Cursor) : Option (List Char × Cursor) :=
  match _h : c.rest with
  | [] => none
  | d :: ds =>
    if c.atDocumentMark then none
    else if _hd : isBlank d || isBreak d then
      match _hg : gap? 0 .empty c with
      | none => none
      | some (gap, c') => quotedFrom? q (gap.folded ++ text) c'
    else if d = q.char then
      if q = .single && ds.head? = some d then quotedFrom? q (d :: text) (c.forward 2)
      else some (text, c.forward 1)
    else if q = .double && d = '\\' then
      if ds.head?.any isBreak then
        match _hg : gap? 0 (.lines none []) (c.forward 1).nextLine with
        | none => none
        | some (gap, c') => quotedFrom? q (gap.folded ++ text) c'
      else
        match escape? ds with
        | some (e, n) => quotedFrom? q (e :: text) (c.forward (n + 1))
        | none => none
    else quotedFrom? q (d :: text) (c.forward 1)
termination_by c.rest.length
decreasing_by
  · exact (length_of_gap? _hg).2 (by simp [_h]) (by simpa [_h, isGap] using _hd)
  · simp only [Cursor.length_forward, _h, List.length_cons]
    omega
  · have := (length_of_gap? _hg).1
    have := (c.forward 1).length_nextLine_le
    simp only [Cursor.length_forward, _h, List.length_cons] at *
    omega
  · simp only [Cursor.length_forward, _h, List.length_cons]
    omega
  · simp only [Cursor.length_forward, _h, List.length_cons]
    omega

/-- Reads a quoted scalar. -/
def quoted? (q : Quote) (c : Cursor) : Option (String × Cursor) :=
  (quotedFrom? q [] (c.forward 1)).map fun (text, c) => (String.ofList text.reverse, c)

end Conformance.Yaml
