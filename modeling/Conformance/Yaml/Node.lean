import Conformance.Yaml.Word

/-!
# YAML texts as trees

A node is a scalar, a list or a map. `Growth` takes the words of a text one by one and keeps the
collections that are open, each with what it waits for.
-/

namespace Conformance.Yaml

/-- A scalar, list or map. -/
inductive Node where
  | scalar (text : String) (plain : Bool)
  | list (items : List Node)
  | map (fields : List (Node × Node))

/-- The node where nothing is written. -/
def Node.blank : Node := .scalar "" true

/-! ## Open collections -/

/-- Where reading stands in the fields of a map. -/
inductive Slot where
  /-- Behind a field in flow style, where a comma has to come before the next one. -/
  | between
  /-- In front of a field. -/
  | field
  /-- Behind the mark of a key. -/
  | key
  /-- Behind a key, where its colon may come. -/
  | colon (key : Node)
  /-- Behind the colon. -/
  | value (key : Node)

/-- A collection that is open, with what it holds so far, the last one first. -/
inductive Open where
  /-- A list in block style; `atItem` says that a dash has come and its item has not. The dashes of
  a `loose` list stand in the column of the keys around it, and it ends with the last of them. -/
  | items (loose : Bool) (done : List Node) (atItem : Bool)
  /-- A map in block style. -/
  | fields (done : List (Node × Node)) (slot : Slot)
  /-- A list in flow style; `atItem` says that an item may come. -/
  | flowItems (done : List Node) (atItem : Bool)
  /-- A map in flow style. -/
  | flowFields (done : List (Node × Node)) (slot : Slot)
  /-- A single field as an item of a list in flow style. -/
  | pair (slot : Slot)

namespace Open

/-- Where reading stands, if the collection has fields. -/
def slot? : Open → Option Slot
  | fields _ slot | flowFields _ slot | pair slot => some slot
  | _ => none

/-- The same collection with reading at another place. -/
def moveTo (slot : Slot) : Open → Open
  | fields done _ => fields done slot
  | flowFields done _ => flowFields done slot
  | pair _ => pair slot
  | o => o

/-- Can a node come next? -/
def awaitsNode : Open → Bool
  | items _ _ atItem | flowItems _ atItem => atItem
  | flowFields _ .field => true
  | o =>
    match o.slot? with
    | some .key | some (.value _) => true
    | _ => false

/-- Does a node come next even if none is written? -/
def takesBlank : Open → Bool
  | flowItems _ _ | flowFields _ .field | pair .key => false
  | o => o.awaitsNode

/-- Can a node begin with the word? In flow style the layout of blocks means nothing, and only a
field may hold a loose list. -/
def canBegin : Open → Word → Bool
  | _, .scalar _ _ | _, .openList | _, .openMap => true
  | items _ _ _, .openItems | items _ _ _, .openFields => true
  | fields _ _, .openItems | fields _ _, .openFields | fields _ _, .dash => true
  | _, _ => false

end Open

/-! ## Growing trees -/

/-- What has been read of a text: the collections that are open, the innermost one first, and the
whole node once it is complete. -/
structure Growth where
  opened : List Open
  root : Option Node

namespace Growth

/-- The growth before the first word. -/
def empty : Growth := ⟨[], none⟩

/-- Puts a complete node into the innermost of the collections. -/
def put? (n : Node) : List Open → Option Growth
  | [] => some ⟨[], some n⟩
  | .items loose done true :: os => some ⟨.items loose (n :: done) false :: os, none⟩
  | .flowItems done true :: os => some ⟨.flowItems (n :: done) false :: os, none⟩
  | .fields done (.value k) :: os => some ⟨.fields ((k, n) :: done) .field :: os, none⟩
  | .flowFields done (.value k) :: os => some ⟨.flowFields ((k, n) :: done) .between :: os, none⟩
  -- a key without its mark has no value
  | .flowFields done .field :: os =>
    some ⟨.flowFields ((n, .blank) :: done) .between :: os, none⟩
  | .pair (.value k) :: os => put? (.map [(k, n)]) os
  | o :: os =>
    match o.slot? with
    | some .key => some ⟨o.moveTo (.colon n) :: os, none⟩
    | _ => none

/-- Puts in the node that is not written in front of a word. -/
def fill? (w : Word) (g : Growth) : Option Growth :=
  match g.opened with
  | o :: os => if o.takesBlank && !o.canBegin w then put? .blank (o :: os) else some g
  | [] => some g

/-- Ends a loose list in front of a word that is no dash. -/
def endLoose? (w : Word) (g : Growth) : Option Growth :=
  match g.opened with
  | .items true done false :: os => if w = .dash then some g else put? (.list done.reverse) os
  | _ => some g

/-- Leaves out the value of a key without a colon. -/
def endKey? (w : Word) (g : Growth) : Option Growth :=
  match g.opened with
  | o :: os =>
    match o.slot? with
    | some (.colon k) => if w = .colon then some g else put? .blank (o.moveTo (.value k) :: os)
    | _ => some g
  | [] => some g

/-- Begins a node with a word. -/
def begin? (w : Word) (g : Growth) : Option Growth :=
  let fits :=
    match g.opened with
    | o :: _ => o.awaitsNode && o.canBegin w
    | [] => g.root.isNone
  let opening (o : Open) : Option Growth := some ⟨o :: g.opened, none⟩
  if fits then
    match w with
    | .scalar text plain => put? (.scalar text plain) g.opened
    | .openItems => opening (.items false [] false)
    | .openFields => opening (.fields [] .field)
    | .openList => opening (.flowItems [] true)
    | .openMap => opening (.flowFields [] .field)
    | .dash => if g.opened.isEmpty then none else opening (.items true [] true)
    | _ => none
  else none

/-- Takes a word that goes on with the innermost collection or ends it, or begins a node in it. -/
def advance? (w : Word) (g : Growth) : Option Growth :=
  match w, g.opened with
  | .dash, .items loose done false :: os => some ⟨.items loose done true :: os, none⟩
  | .closeBlock, .items false done false :: os => put? (.list done.reverse) os
  | .closeBlock, .fields done .field :: os => put? (.map done.reverse) os
  | .closeList, .flowItems done _ :: os => put? (.list done.reverse) os
  | .closeMap, .flowFields done .field :: os => put? (.map done.reverse) os
  | .closeMap, .flowFields done .between :: os => put? (.map done.reverse) os
  | .comma, .flowItems done false :: os => some ⟨.flowItems done true :: os, none⟩
  | .comma, .flowFields done .between :: os => some ⟨.flowFields done .field :: os, none⟩
  | .key, .fields done .field :: os => some ⟨.fields done .key :: os, none⟩
  | .key, .flowFields done .field :: os => some ⟨.flowFields done .key :: os, none⟩
  | .key, .flowItems done true :: os => some ⟨.pair .key :: .flowItems done true :: os, none⟩
  -- the mark of a key that is not written takes the next mark with it
  | .colon, .pair .key :: os | .comma, .pair .key :: os | .closeList, .pair .key :: os =>
    some ⟨.pair (.colon .blank) :: os, none⟩
  | .colon, o :: os =>
    match o.slot? with
    | some (.colon k) => some ⟨o.moveTo (.value k) :: os, none⟩
    | _ => none
  | w, _ => begin? w g

/-- Takes the next word. -/
def take? (g : Growth) (w : Word) : Option Growth := do
  advance? w (← endKey? w (← endLoose? w (← fill? w g)))

end Growth

namespace Node

/-- The node of a text with one document, where nothing at all is a blank; none if there is no such
node. -/
def ofWords? (words : List Word) : Option Node :=
  let hasStart := words.head? = some .documentStart
  let body := if hasStart then words.tail else words
  let content := body.takeWhile (· ≠ .documentEnd)
  let ending := body.drop content.length
  if ending.any (· ≠ .documentEnd) then none
  else if content.isEmpty then if hasStart || ending.isEmpty then some blank else none
  else (content.foldlM Growth.take? .empty).bind Growth.root

/-- The node of a text; none if the text is refused. -/
def ofText? (text : String) : Option Node :=
  (words? text).bind ofWords?

end Node

end Conformance.Yaml
