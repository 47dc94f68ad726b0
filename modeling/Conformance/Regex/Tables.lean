import Conformance.Regex

/-!
# Matching by tables

`Regex.tables` is an engine for the expressions that are put together of `Part`s; it refuses all
others. It goes through the parts from the last to the first with a table row that holds, for each
place of a text, its end included, whether the parts from here on match there. So the time that it
takes is proportional to the product of both lengths.
-/

namespace Conformance.Regex

/-- Has the character a meaning of its own in expressions? A backslash in front takes it away. -/
def isMeta (c : Char) : Bool :=
  ['\\', '.', '+', '*', '?', '(', ')', '|', '[', ']', '{', '}', '^', '$', '#', '&', '-', '~'].contains
    c

/-- A character that stands for itself, as it is written. -/
def escaped (c : Char) : List Char :=
  if isMeta c then ['\\', c] else [c]

/-- The parts of a written expression, if there is nothing else in it. -/
def parts? : List Char → Option (List Part)
  | [] => some []
  | '^' :: cs => (parts? cs).map (.start :: ·)
  | '$' :: cs => (parts? cs).map (.stop :: ·)
  | '.' :: '*' :: cs => (parts? cs).map (.anyRun :: ·)
  | '.' :: cs => (parts? cs).map (.any :: ·)
  | '\\' :: c :: cs => if isMeta c then (parts? cs).map (.literal c :: ·) else none
  | c :: cs => if isMeta c then none else (parts? cs).map (.literal c :: ·)

/-! ## Rows -/

/-- The row for an expression that begins at the beginning of the text, from the row behind it.
`atStart` says whether the first place of the row is there. -/
def startRow (atStart : Bool) : List Bool → List Bool
  | [] => []
  | b :: bs => (atStart && b) :: bs.map fun _ => false

/-- The row for an expression that begins at the end of the text, from the row behind it. -/
def stopRow : List Char → List Bool → List Bool
  | [], row => [row.headD false]
  | _ :: cs, row => false :: stopRow cs row.tail

/-- The row for an expression that begins with one character out of a class, from the row behind it.
-/
def oneRow (admits : Char → Bool) : List Char → List Bool → List Bool
  | [], _ => [false]
  | c :: cs, row => (admits c && row.tail.headD false) :: oneRow admits cs row.tail

/-- The row for an expression that begins with a run, from the row behind it. -/
def runRow : List Char → List Bool → List Bool
  | [], row => [row.headD false]
  | c :: cs, row =>
    let later := runRow cs row.tail
    (row.headD false || (isDot c && later.headD false)) :: later

/-- The row for an expression, over the rest of a text. -/
def row (atStart : Bool) (text : List Char) : List Part → List Bool
  | [] => List.replicate (text.length + 1) true
  | .start :: ps => startRow atStart (row atStart text ps)
  | .stop :: ps => stopRow text (row atStart text ps)
  | .any :: ps => oneRow isDot text (row atStart text ps)
  | .anyRun :: ps => runRow text (row atStart text ps)
  | .literal c :: ps => oneRow (· == c) text (row atStart text ps)

/-- The engine that matches by tables. It has no limit of size. -/
def tables : Engine where
  Program := List Part
  compile? s := parts? s.toList
  isMatch ps s := (row true s.toList ps).any id
  escape s := String.ofList (s.toList.flatMap escaped)
  FitsLimit _ := True

end Conformance.Regex
