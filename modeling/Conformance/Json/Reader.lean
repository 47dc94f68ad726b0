import Conformance.Json.Fault
import Conformance.Number.Binary64

/-!
# Reading JSON texts

Steps that read a piece of JSON off the front of a text. What a value has to look like is known
before it is read: a value of another shape is a fault as soon as it begins, so what comes behind it
in the text does not matter any more. Values that nobody asks for are skipped, which only looks at
their form.
-/

namespace Conformance.Json

/-- A step that reads a piece of a text, or fails. -/
abbrev Reader := StateT (List Char) (Except Failure)

namespace Reader

/-- Fails here. -/
def fail {α : Type} (f : Fault) : Reader α := fun rest => .error ⟨f, rest⟩

/-- Fails because the text cannot go on like this. -/
def malformed {α : Type} : Reader α := fail .malformed

/-- Fails because the text ends here. -/
def ended {α : Type} : Reader α := fail .endOfInput

/-- The next character, which stays in the text. -/
def peek? : Reader (Option Char) := do
  return (← get).head?

/-- Takes the next character. -/
def take? : Reader (Option Char) := do
  let rest ← get
  set rest.tail
  return rest.head?

/-- Drops the next character. -/
def drop : Reader Unit :=
  modify List.tail

/-- Is the character a blank between the pieces of a text? -/
def isBlank (c : Char) : Bool :=
  c = ' ' || c = '\n' || c = '\t' || c = '\r'

/-- Skips blanks and looks at the next character. -/
def peekPiece? : Reader (Option Char) := do
  modify (·.dropWhile isBlank)
  peek?

/-- Repeats a step up to `n` times, until it gives no state. -/
def rounds {σ : Type} (step : σ → Reader (Option σ)) : Nat → σ → Reader σ
  | 0, s => return s
  | n + 1, s => do
    match ← step s with
    | none => return s
    | some s' => rounds step n s'

/-- Repeats a step that ends by giving no state. A round that gives one has read something, so there
are no more of them than characters. -/
def iterate {σ : Type} (step : σ → Reader (Option σ)) (s : σ) : Reader σ := do
  rounds step ((← get).length + 1) s

/-! ## Words and numbers -/

/-- Reads the characters of a word. -/
def word : List Char → Reader Unit
  | [] => return
  | c :: cs => do
    match ← take? with
    | none => ended
    | some d => if d = c then word cs else malformed

/-- Reads digits. -/
def digits : Reader (List Char) := do
  let rest ← get
  set (rest.dropWhile Char.isDigit)
  return rest.takeWhile Char.isDigit

/-- The number of a run of digits. -/
def value (ds : List Char) : Nat :=
  ds.foldl (fun n d => 10 * n + (d.toNat - '0'.toNat)) 0

/-- Reads the digits in front of a point: a zero, or digits without a zero in front. -/
def integerDigits : Reader (List Char) := do
  match ← take? with
  | none => ended
  | some c =>
    if c = '0' then
      if (← peek?).any Char.isDigit then malformed else return ['0']
    else if c.isDigit then return c :: (← digits)
    else malformed

/-- Reads at least one digit behind a point. -/
def fractionDigits : Reader (List Char) := do
  match ← digits with
  | [] => if (← peek?).isSome then malformed else ended
  | ds => return ds

/-- Reads an exponent behind its letter. -/
def exponent : Reader Int := do
  let sign ← peek?
  if sign = some '+' || sign = some '-' then drop
  match ← take? with
  | none => ended
  | some c =>
    if c.isDigit then
      let n : Int := value (c :: (← digits))
      return if sign = some '-' then -n else n
    else malformed

/-- The greatest number that is kept exactly while digits are read. -/
def digitLimit : Nat := 0xFFFFFFFFFFFFFFFF

/-- The greatest number that is an integer with a minus sign. -/
def negativeLimit : Nat := 0x8000000000000000

/-- The number of as many digits as stay within the limit, and how many of them there are. -/
def significand (n count : Nat) : List Char → Nat × Nat
  | [] => (n, count)
  | d :: ds =>
    let m := 10 * n + (d.toNat - '0'.toNat)
    if m ≤ digitLimit then significand m (count + 1) ds else (n, count)

/-- The number `(-1) ^ negative * n * 10 ^ e` as a floating point number. -/
def float (negative : Bool) (n : Nat) (e : Int) : Reader Unexpected :=
  match (Binary64.ofRatio? n 1).bind (·.scaleTen? e) with
  | some x => return .float ((if negative then "-" else "") ++ x.text)
  | none => malformed

/-- Reads a number behind its sign. It is an integer if it has neither fraction nor exponent and is
in the range of 64 bits; `-0` is none. -/
def number (negative : Bool) : Reader Unexpected := do
  let whole ← integerDigits
  let (n, used) := significand 0 0 whole
  -- digits behind the limit only shift the point
  let dropped := whole.length - used
  let next ← peek?
  if next = some '.' then
    drop
    let fraction ← fractionDigits
    let (m, more) := significand n 0 fraction
    let scale : Int := dropped - more
    if (← peek?).any fun c => c = 'e' || c = 'E' then
      drop
      float negative m (scale + (← exponent))
    else float negative m scale
  else if next = some 'e' || next = some 'E' then
    drop
    float negative n (dropped + (← exponent))
  else if 0 < dropped then float negative n dropped
  else if negative then
    -- minus zero is a floating point number
    if n = 0 || negativeLimit < n then float true n 0 else return .integer (-n)
  else return .integer n

/-! ## Strings -/

/-- The value of a digit in base 16. -/
def hexValue? (c : Char) : Option Nat :=
  if c.isDigit then some (c.toNat - '0'.toNat)
  else if 'a' ≤ c && c ≤ 'f' then some (c.toNat - 'a'.toNat + 10)
  else if 'A' ≤ c && c ≤ 'F' then some (c.toNat - 'A'.toNat + 10)
  else none

/-- Reads four digits in base 16. -/
def fourHex : Reader Nat := do
  let rest ← get
  -- four bytes are taken before they are looked at
  if Text.byteLength rest < 4 then ended
  else
    match (rest.take 4).mapM hexValue? with
    | some ds =>
      set (rest.drop 4)
      return ds.foldl (fun n d => 16 * n + d) 0
    | none => malformed

/-- Is the number the first half of a pair that stands for one character? -/
def isLeading (n : Nat) : Bool := 0xD800 ≤ n && n ≤ 0xDBFF

/-- Is the number the second half of such a pair? -/
def isTrailing (n : Nat) : Bool := 0xDC00 ≤ n && n ≤ 0xDFFF

/-- Reads this character. -/
def expect (c : Char) : Reader Unit := do
  match ← peek? with
  | none => ended
  | some d => if d = c then drop else malformed

/-- Reads a character given by number, or by two if it has no number of four digits. -/
def numbered : Reader Char := do
  let n ← fourHex
  if isTrailing n then malformed
  else if isLeading n then
    expect '\\'
    expect 'u'
    let m ← fourHex
    if isTrailing m then
      return Char.ofNat (0x10000 + (n - 0xD800) * 0x400 + (m - 0xDC00))
    else malformed
  else return Char.ofNat n

/-- The character of a short escape. -/
def shortEscape? (c : Char) : Option Char :=
  if c = '"' || c = '\\' || c = '/' then some c
  else if c = 'b' then some '\x08'
  else if c = 'f' then some '\x0c'
  else if c = 'n' then some '\n'
  else if c = 'r' then some '\r'
  else if c = 't' then some '\t'
  else none

/-- Reads the rest of an escape. -/
def escaped : Reader Char := do
  match ← take? with
  | none => ended
  | some c =>
    if c = 'u' then numbered
    else
      match shortEscape? c with
      | some d => return d
      | none => malformed

/-- Skips the rest of an escape. Numbers need not stand for characters. -/
def skipEscaped : Reader Char := do
  match ← take? with
  | none => ended
  | some c =>
    if c = 'u' then
      let _ ← fourHex
      return c
    else if (shortEscape? c).isSome then return c
    else malformed

/-- Reads the next character of a string, an escape by `escape`, unless the closing quote comes
next. Of the characters read the last one comes first. -/
def character (escape : Reader Char) (cs : List Char) : Reader (Option (List Char)) := do
  match ← peek? with
  | none => ended
  | some c =>
    if c = '"' then return none
    else if c = '\\' then
      drop
      return some ((← escape) :: cs)
    else if c.toNat < 0x20 then malformed
    else
      drop
      return some (c :: cs)

/-- Reads the characters of a string and its closing quote. -/
def charactersWith (escape : Reader Char) : Reader (List Char) := do
  let cs ← iterate (character escape) []
  drop
  return cs.reverse

/-- Reads a string behind its opening quote. -/
def stringRest : Reader String := do
  return String.ofList (← charactersWith escaped)

/-- Skips a string behind its opening quote. -/
def skipString : Reader Unit := do
  let _ ← charactersWith skipEscaped

/-! ## Values of the wrong shape -/

/-- Fails at a value because it is not `wanted`, or because it is no value. -/
def invalidType {α : Type} (wanted : String) : Reader α := do
  let reject (u : Unexpected) : Reader α := fail (.data (.invalidType u wanted))
  match ← peek? with
  | none => malformed
  | some c =>
    if c = 'n' then
      word "null".toList
      reject .null
    else if c = 't' then
      word "true".toList
      reject (.boolean true)
    else if c = 'f' then
      word "false".toList
      reject (.boolean false)
    else if c = '-' then
      drop
      reject (← number true)
    else if c.isDigit then reject (← number false)
    else if c = '"' then
      drop
      reject (.string (← stringRest))
    else if c = '[' then reject .sequence
    else if c = '\x7b' then reject .map
    else malformed

/-- Reads a string. -/
def string : Reader String := do
  match ← peekPiece? with
  | none => ended
  | some c =>
    if c = '"' then
      drop
      stringRest
    else invalidType "a string"

/-! ## Lists and objects -/

/-- Goes to the next item of a list, if there is one; `first` says that none came before. The
closing bracket stays. -/
def toItem (first : Bool) : Reader Bool := do
  match ← peekPiece? with
  | none => ended
  | some c =>
    if c = ']' then return false
    else if first then return true
    else if c = ',' then
      drop
      match ← peekPiece? with
      | none => ended
      | some d => if d = ']' then malformed else return true
    else malformed

/-- Goes to the name of the next field of an object, if there is one; `first` says that none came
before. The closing brace stays. -/
def toField (first : Bool) : Reader Bool := do
  match ← peekPiece? with
  | none => ended
  | some c =>
    if c = '\x7d' then return false
    else if first then
      if c = '"' then return true else malformed
    else if c = ',' then
      drop
      match ← peekPiece? with
      | none => ended
      | some d => if d = '"' then return true else malformed
    else malformed

/-- Reads the bracket or brace that closes a list or object. -/
def close (c : Char) : Reader Unit := do
  match ← peekPiece? with
  | none => ended
  | some d => if d = c then drop else malformed

/-- Reads the colon between a name and a value. -/
def colon : Reader Unit := close ':'

/-- Goes behind the closing character `c`, if it comes next: this is where a fault of the whole list
or object is placed. -/
def settle (c : Char) : Reader Unit := do
  if (← peekPiece?) = some c then drop

/-- Fails because of a list or object as a whole. -/
def failWhole {α : Type} (c : Char) (fault : DataFault) : Reader α := do
  settle c
  fail (.data fault)

/-- Reads the next item of a list, if there is one; `first` says that none came before. -/
def item? {α : Type} (item : Reader α) (first : Bool) : Reader (Option α) := do
  if ← toItem first then return some (← item) else return none

/-- Reads the items of a list behind its opening bracket, and the closing one. -/
def itemsOf {α : Type} (item : Reader α) : Reader (List α) := do
  let items ← iterate (fun items : List α => do
    return (← item? item items.isEmpty).map (· :: items)) []
  close ']'
  return items.reverse

/-- Reads a list. -/
def listOf {α : Type} (item : Reader α) : Reader (List α) := do
  match ← peekPiece? with
  | none => ended
  | some c =>
    if c = '[' then
      drop
      itemsOf item
    else invalidType "a sequence"

/-! ## Skipping -/

/-- Skips a number behind its sign. -/
def skipNumber : Reader Unit := do
  match ← take? with
  | none => malformed
  | some c =>
    if c = '0' then
      if (← peek?).any Char.isDigit then malformed
    else if c.isDigit then
      let _ ← digits
    else malformed
  if (← peek?) = some '.' then
    drop
    if (← digits).isEmpty then malformed
  if (← peek?).any fun c => c = 'e' || c = 'E' then
    drop
    if (← peek?).any fun c => c = '+' || c = '-' then drop
    if (← digits).isEmpty then malformed

/-- Skips the name of a field and the colon behind it. -/
def skipName : Reader Unit := do
  match ← peekPiece? with
  | none => ended
  | some c =>
    if c = '"' then
      drop
      skipString
      colon
    else malformed

/-- Skips the beginning of a value: all of it, or the opening character of a list or object, which
is given. -/
def skipHead : Reader (Option Char) := do
  match ← peekPiece? with
  | none => ended
  | some c =>
    if c = 'n' then
      word "null".toList
      return none
    else if c = 't' then
      word "true".toList
      return none
    else if c = 'f' then
      word "false".toList
      return none
    else if c = '-' then
      drop
      skipNumber
      return none
    else if c.isDigit then
      skipNumber
      return none
    else if c = '"' then
      drop
      skipString
      return none
    else if c = '[' || c = '\x7b' then
      drop
      return some c
    else malformed

/-- The character that closes what `c` opened. -/
def closing (c : Char) : Char :=
  if c = '[' then ']' else '\x7d'

/-- What skipping is inside of: the lists and objects that are open, innermost first, and whether it
stands behind a value. -/
structure Nesting where
  opened : List Char
  afterValue : Bool

/-- Skips the next piece inside open lists and objects. -/
def skipPiece (s : Nesting) : Reader (Option Nesting) := do
  match s.opened with
  | [] =>
    if s.afterValue then return none
    else
      match ← skipHead with
      | none => return some ⟨[], true⟩
      | some c => return some ⟨[c], false⟩
  | c :: outer =>
    match ← peekPiece? with
    | none => ended
    | some d =>
      if d = closing c then
        drop
        return some ⟨outer, true⟩
      else
        -- behind a comma a value has to come, so `[1,]` is refused by `skipHead`
        if s.afterValue then
          if d = ',' then drop else malformed
        if c = '\x7b' then skipName
        match ← skipHead with
        | none => return some ⟨c :: outer, true⟩
        | some e => return some ⟨e :: c :: outer, false⟩

/-- Skips a value of any shape. -/
def skipValue : Reader Unit := do
  let _ ← iterate skipPiece ⟨[], false⟩

/-! ## Records -/

/-- Reads the fields of an object up to its closing brace. A field is taken into the state by what
`known` gives for its name, which begins at the colon; other fields are skipped. -/
def fieldsOf {σ : Type} (known : String → Option (σ → Reader σ)) (s : σ) : Reader σ := do
  let (_, s) ← iterate (fun (first, s) => do
    if ← toField first then
      drop
      let name ← stringRest
      match known name with
      | some take => return some (false, ← take s)
      | none =>
        colon
        skipValue
        return some (false, s)
    else return none) (true, s)
  return s

/-- Reads the value of a field that may come once, `old` being what came before. -/
def once {α : Type} (name : String) (old : Option α) (r : Reader α) : Reader α := do
  if old.isSome then failWhole '\x7d' (.duplicateField name)
  colon
  r

/-- Reads a record, which is an object or the list of its fields in their order. -/
def recordOf {α : Type} (wanted : String) (ofObject ofList : Reader α) : Reader α := do
  match ← peekPiece? with
  | none => ended
  | some c =>
    if c = '[' then
      drop
      let a ← ofList
      close ']'
      return a
    else if c = '\x7b' then
      drop
      let a ← ofObject
      close '\x7d'
      return a
    else invalidType wanted

/-- The value of a field that has to be there. -/
def required {α : Type} (name : String) : Option α → Reader α
  | some a => return a
  | none => failWhole '\x7d' (.missingField name)

/-- Reads the item of a list that stands for a field that has to be there; `count` of them came
before. -/
def requiredItem {α : Type} (r : Reader α) (count : Nat) (wanted : String) : Reader α := do
  match ← item? r (count = 0) with
  | some a => return a
  | none => failWhole ']' (.invalidLength count wanted)

/-! ## Whole texts -/

/-- Reads a text that holds nothing but one value. -/
def whole {α : Type} (r : Reader α) (text : String) : Except Failure α :=
  (run text.toList).map Prod.fst
where
  run : Reader α := do
    let a ← r
    match ← peekPiece? with
    | none => return a
    | some _ => malformed

end Reader

end Conformance.Json
