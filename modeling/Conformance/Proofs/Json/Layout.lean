import Conformance.Json.Reader
import Conformance.Json.Value
import Mathlib.Data.List.Basic

/-!
# Texts of a value

A value has many texts, which differ in the blanks between their pieces: `HasText` says which. Both
ways to write a value give one of them (`hasText_compact`, `hasText_pretty`), so what is shown of
reading any text of a value holds of reading either.
-/

namespace Conformance.Json

/-- Are all characters blanks? -/
def IsGap (cs : List Char) : Prop := ∀ c ∈ cs, Reader.isBlank c = true

theorem isGap_nil : IsGap [] := fun _ h => nomatch h

/-- The comma in front of an item, with blanks before it, if `more` says that others stand in front.
-/
def comma (more : Bool) (gap : List Char) : List Char :=
  if more then gap ++ [','] else []

namespace Value

mutual

/-- Is the value written by these characters, whatever blanks stand between the pieces? -/
inductive HasText : Value → List Char → Prop where
  | text (s : String) : HasText (.text s) (quote s.toList)
  | number (n : Nat) : HasText (.number n) (digits n)
  | list {items : List Value} {cs gap : List Char} :
    HasItems false items cs → IsGap gap → HasText (.list items) ('[' :: cs ++ gap ++ [']'])
  | object {fields : List (String × Value)} {cs gap : List Char} :
    HasFields false fields cs → IsGap gap →
      HasText (.object fields) ('\x7b' :: cs ++ gap ++ ['\x7d'])

/-- Are these items of a list written by these characters? `more` says that others stand in front.
-/
inductive HasItems : Bool → List Value → List Char → Prop where
  | nil {more : Bool} : HasItems more [] []
  | cons {more : Bool} {v : Value} {vs : List Value} {behind front cs ds : List Char} :
    IsGap behind → IsGap front → HasText v cs → HasItems true vs ds →
      HasItems more (v :: vs) (comma more behind ++ front ++ cs ++ ds)

/-- Are these fields of an object written by these characters? `more` says that others stand in
front. -/
inductive HasFields : Bool → List (String × Value) → List Char → Prop where
  | nil {more : Bool} : HasFields more [] []
  | cons {more : Bool} {name : String} {v : Value} {fields : List (String × Value)}
    {behind front colon gap cs ds : List Char} :
    IsGap behind → IsGap front → IsGap colon → IsGap gap → HasText v cs → HasFields true fields ds →
      HasFields more ((name, v) :: fields)
        (comma more behind ++ front ++ quote name.toList ++ colon ++ ':' :: gap ++ cs ++ ds)

end

/-! ## On one line -/

mutual

/-- A value on one line has no blanks between its pieces at all. -/
theorem hasText_compact : ∀ v : Value, HasText v v.compact
  | .text s => .text s
  | .number n => .number n
  | .list items => by
    have h := HasText.list (hasItems_compact items) isGap_nil
    rwa [List.append_nil] at h
  | .object fields => by
    have h := HasText.object (hasFields_compact fields) isGap_nil
    rwa [List.append_nil] at h

theorem hasItems_compact : ∀ items : List Value, HasItems false items (compactItems items)
  | [] => .nil
  | v :: vs => .cons isGap_nil isGap_nil (hasText_compact v) (hasItems_compactMore vs)

/-- The items behind the first one have a comma in front. -/
theorem hasItems_compactMore : ∀ items : List Value, HasItems true items (compactMoreItems items)
  | [] => .nil
  | v :: vs => .cons isGap_nil isGap_nil (hasText_compact v) (hasItems_compactMore vs)

theorem hasFields_compact :
    ∀ fields : List (String × Value), HasFields false fields (compactFields fields)
  | [] => .nil
  | (name, v) :: fields => by
    have h : HasFields false ((name, v) :: fields) _ :=
      .cons isGap_nil isGap_nil isGap_nil isGap_nil (hasText_compact v)
        (hasFields_compactMore fields)
    simpa [comma, compactFields] using h

/-- The fields behind the first one have a comma in front. -/
theorem hasFields_compactMore :
    ∀ fields : List (String × Value), HasFields true fields (compactMoreFields fields)
  | [] => .nil
  | (name, v) :: fields => by
    have h : HasFields true ((name, v) :: fields) _ :=
      .cons isGap_nil isGap_nil isGap_nil isGap_nil (hasText_compact v)
        (hasFields_compactMore fields)
    simpa [comma, compactMoreFields] using h

end

/-! ## Over several lines -/

/-- A new line and its indentation are blanks. -/
theorem isGap_newLine (depth : Nat) : IsGap (newLine depth) := by
  intro c hc
  rcases List.mem_cons.1 hc with rfl | hc
  · decide
  · obtain rfl := List.eq_of_mem_replicate hc
    decide

mutual

/-- A value over several lines has a new line in front of each item and each field, and of the
bracket behind them, unless there are none. -/
theorem hasText_pretty (depth : Nat) : ∀ v : Value, HasText v (v.pretty depth)
  | .text s => .text s
  | .number n => .number n
  | .list [] => .list .nil isGap_nil
  | .list (v :: vs) => by
    have h := HasText.list (hasItems_pretty (depth + 1) false (v :: vs)) (isGap_newLine depth)
    simpa [pretty] using h
  | .object [] => .object .nil isGap_nil
  | .object (field :: fields) => by
    have h := HasText.object (hasFields_pretty (depth + 1) false (field :: fields))
      (isGap_newLine depth)
    simpa [pretty] using h

/-- The items of a list, each on a line of its own. -/
theorem hasItems_pretty (depth : Nat) (more : Bool) :
    ∀ items : List Value, HasItems more items (prettyItems depth more items)
  | [] => .nil
  | v :: vs =>
    .cons isGap_nil (isGap_newLine depth) (hasText_pretty depth v) (hasItems_pretty depth true vs)

/-- The fields of an object, each on a line of its own, with a blank behind the colon. -/
theorem hasFields_pretty (depth : Nat) (more : Bool) :
    ∀ fields : List (String × Value), HasFields more fields (prettyFields depth more fields)
  | [] => .nil
  | (name, v) :: fields => by
    have hblank : IsGap [' '] := by simp [IsGap, Reader.isBlank]
    have h : HasFields more ((name, v) :: fields) _ :=
      .cons isGap_nil (isGap_newLine depth) isGap_nil hblank (hasText_pretty depth v)
        (hasFields_pretty depth true fields)
    simpa [prettyFields, comma] using h

end

end Value

end Conformance.Json
