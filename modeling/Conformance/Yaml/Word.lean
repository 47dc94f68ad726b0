import Conformance.Yaml.Scalar

/-!
# Words of a YAML text

A text as a row of words, in which brackets of their own show where the collections of a block begin
and end. The scan keeps the columns of the blocks that are open, and remembers where a key may have
begun: only the colon behind it tells that it is one, and then a word is put in front of it.
-/

namespace Conformance.Yaml

/-- A mark or scalar, or what the layout of a block stands for. -/
inductive Word where
  /-- A list in block style begins. -/
  | openItems
  /-- A map in block style begins. -/
  | openFields
  /-- A list or map in block style ends. -/
  | closeBlock
  /-- An item of a block follows. -/
  | dash
  /-- A key follows. -/
  | key
  /-- A value follows. -/
  | colon
  | comma
  | openList
  | closeList
  | openMap
  | closeMap
  /-- Three dashes at the start of a line. -/
  | documentStart
  /-- Three points at the start of a line. -/
  | documentEnd
  /-- A scalar; `plain` says that it is not in quotes. -/
  | scalar (text : String) (plain : Bool)
deriving DecidableEq, Repr

/-- A place where a key may have begun. -/
structure KeyStart where
  /-- How many words come before. -/
  index : Nat
  line : Nat
  col : Nat
  offset : Nat
  /-- Nothing but a key can stand there. -/
  isRequired : Bool
deriving DecidableEq, Repr

/-- A key has this many bytes at most. -/
def keyLimit : Nat := 1024

/-- Can a colon at `c` belong to the key? It has to be on the same line and not too far behind. -/
def KeyStart.reaches (k : KeyStart) (c : Cursor) : Bool :=
  k.line = c.line && c.offset ≤ k.offset + keyLimit

/-- A scan of a text. -/
structure Scanner where
  place : Cursor
  words : Array Word
  /-- The columns of the blocks that are open, the innermost one first. -/
  blocks : List Nat
  /-- Where a key may have begun in the innermost collection. -/
  key : Option KeyStart
  /-- The same for the collections around the flow collections that are open. -/
  outerKeys : List (Option KeyStart)
  /-- May a key or an item of a block begin here? -/
  mayBegin : Bool

namespace Scanner

/-- The scan before the first character. -/
def ofText (text : String) : Scanner := ⟨.ofText text, #[], [], none, [], true⟩

/-- Is a flow collection open? -/
def inFlow (s : Scanner) : Bool := !s.outerKeys.isEmpty

/-- The column behind that of the innermost block. -/
def least (s : Scanner) : Nat := (s.blocks.head?.map (· + 1)).getD 0

/-! ## Between words -/

/-- Skips blanks, comments and line ends; `inComment` says that a comment has begun. A byte order
mark may stand in front of a line. A tab may not stand where an item or key of a block may begin, so
that it is no indentation. -/
def skip (inComment : Bool) (s : Scanner) : Scanner :=
  match _h : s.place.rest with
  | [] => s
  | c :: _ =>
    let s' := { s with place := s.place.forward 1 }
    if isBreak c then
      skip false { s with place := s.place.nextLine, mayBegin := s.mayBegin || !s.inFlow }
    else if inComment then skip true s'
    else if c = ' ' || (c = '\ufeff' && s.place.col = 0)
        || (c = '\t' && (s.inFlow || !s.mayBegin)) then skip false s'
    else if c = '#' then skip true s'
    else s
termination_by s.place.rest.length
decreasing_by
  · exact s.place.length_nextLine_lt (by simp [_h])
  all_goals simp [_h]

/-! ## Blocks -/

/-- Begins a block in column `col` with `w` in front of the word of number `index`, unless one is
open there. -/
def openBlock (s : Scanner) (w : Word) (col index : Nat) : Scanner :=
  if s.inFlow || s.blocks.head?.any (col ≤ ·) then s
  else { s with blocks := col :: s.blocks, words := s.words.insertIdxIfInBounds index w }

/-- Closes the innermost blocks, those of which `closes` holds. In a flow collection the layout
tells nothing. -/
def closeBlocks (s : Scanner) (closes : Nat → Bool) : Scanner :=
  if s.inFlow then s
  else
    let closed := s.blocks.takeWhile closes
    { s with
      blocks := s.blocks.drop closed.length
      words := s.words ++ Array.replicate closed.length Word.closeBlock }

/-! ## Keys -/

/-- Gives up the key that may have begun; none if it had to be one. -/
def dropKey? (s : Scanner) : Option Scanner :=
  if s.key.any KeyStart.isRequired then none else some { s with key := none }

/-- Remembers that a key may begin here. It has to where a new line begins in the column of a block.
-/
def beginKey? (s : Scanner) : Option Scanner :=
  if s.mayBegin then
    let c := s.place
    let isRequired := !s.inFlow && s.blocks.head? = some c.col
    s.dropKey?.map fun s =>
      { s with key := some ⟨s.words.size, c.line, c.col, c.offset, isRequired⟩ }
  else some s

/-! ## Words -/

/-- Takes a word of `n` characters. -/
def take (s : Scanner) (w : Word) (n : Nat) (mayBegin : Bool) : Scanner :=
  { s with place := s.place.forward n, words := s.words.push w, mayBegin := mayBegin }

/-- Takes a mark between documents. -/
def document? (s : Scanner) (w : Word) : Option Scanner :=
  (s.closeBlocks fun _ => true).dropKey?.map (·.take w 3 false)

/-- Takes the opening mark of a flow collection. -/
def openFlow? (s : Scanner) (w : Word) : Option Scanner :=
  s.beginKey?.map fun s => { s with key := none, outerKeys := s.key :: s.outerKeys }.take w 1 true

/-- Takes the closing mark of a flow collection. -/
def closeFlow? (s : Scanner) (w : Word) : Option Scanner :=
  s.dropKey?.map fun s =>
    { s with key := s.outerKeys.head?.join, outerKeys := s.outerKeys.tail }.take w 1 false

/-- Takes the mark in front of an item or key of a block, which may stand in front of a key. -/
def blockMark? (s : Scanner) (opening w : Word) (mayBegin : Bool) : Option Scanner :=
  if s.inFlow || s.mayBegin then
    (s.openBlock opening s.place.col s.words.size).dropKey?.map (·.take w 1 mayBegin)
  else none

/-- Takes a colon. It makes a key of what has begun, or else belongs to no key that was seen. -/
def colon? (s : Scanner) : Option Scanner :=
  match s.key.filter (·.reaches s.place) with
  | some k =>
    let s := { s with key := none, words := s.words.insertIdxIfInBounds k.index .key }
    some ((s.openBlock .openFields k.col k.index).take .colon 1 false)
  | none => s.blockMark? .openFields .colon (!s.inFlow)

/-- Takes a scalar, behind which `mayBegin` holds. -/
def scalar (s : Scanner) (text : String) (plain mayBegin : Bool) (place : Cursor) : Scanner :=
  { s with
    place := place, words := s.words.push (.scalar text plain), mayBegin := mayBegin }

/-- Takes a scalar in quotes. -/
def quoted? (s : Scanner) (q : Quote) : Option Scanner := do
  let s ← s.beginKey?
  let (text, place) ← Yaml.quoted? q s.place
  return s.scalar text false false place

/-- Takes a plain scalar. -/
def plain? (s : Scanner) : Option Scanner := do
  let s ← s.beginKey?
  let (text, ended, place) ← Yaml.plain? s.inFlow s.least s.place
  return s.scalar text true ended place

/-- Takes the next word, of which the first character is `c`; none if the text is refused. Anchors,
aliases, tags, directives and block scalars are not covered. -/
def word? (s : Scanner) (c : Char) (cs : List Char) : Option Scanner :=
  if s.place.atTriple '-' then s.document? .documentStart
  else if s.place.atTriple '.' then s.document? .documentEnd
  else if c = '[' then s.openFlow? .openList
  else if c = '\x7b' then s.openFlow? .openMap
  else if c = ']' then s.closeFlow? .closeList
  else if c = '\x7d' then s.closeFlow? .closeMap
  else if c = ',' then s.dropKey?.map (·.take .comma 1 true)
  else if c = '-' && isGap cs then s.blockMark? .openItems .dash true
  else if c = '?' && (s.inFlow || isGap cs) then s.blockMark? .openFields .key (!s.inFlow)
  else if c = ':' && (s.inFlow || isGap cs) then s.colon?
  else if c = '\'' then s.quoted? .single
  else if c = '"' then s.quoted? .double
  else if canBeginPlain s.inFlow (c :: cs) then s.plain?
  else none

/-- The words up to the end of the text, `n` at most; none if it is refused. -/
def words? : Nat → Scanner → Option (List Word)
  | 0, _ => none
  | n + 1, s =>
    let s := s.skip false
    match s.place.rest with
    | [] => (s.closeBlocks fun _ => true).dropKey?.map (·.words.toList)
    | c :: cs => ((s.closeBlocks (s.place.col < ·)).word? c cs).bind (words? n)

end Scanner

/-- The words of a text; none if it is refused. -/
def words? (text : String) : Option (List Word) :=
  -- each word takes at least one character
  if text.toList.all isAllowed then (Scanner.ofText text).words? (text.length + 1) else none

end Conformance.Yaml
