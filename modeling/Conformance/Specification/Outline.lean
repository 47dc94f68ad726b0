import Conformance.Specification

/-!
# Outlines

A specification shown as nested records, one field or item a line, each level indented by four
spaces.
-/

namespace Conformance

/-- A tree of named records and lists. -/
inductive Outline where
  | leaf (text : String)
  | record (name : String) (fields : List (String × Outline))
  | list (items : List Outline)

namespace Outline

/-- The blanks in front of a line at a depth. -/
def margin (depth : Nat) : String :=
  Source.spaces (4 * depth)

mutual

/-- The text of an outline whose first line stands at `depth`. -/
def render (depth : Nat) : Outline → String
  | leaf text => text
  | record name fields =>
    name ++ " \x7b\n" ++ renderFields (depth + 1) fields ++ margin depth ++ "\x7d"
  | list items =>
    if items.isEmpty then "[]"
    else "[\n" ++ renderItems (depth + 1) items ++ margin depth ++ "]"

/-- One line and its nested lines for each field. -/
def renderFields (depth : Nat) : List (String × Outline) → String
  | [] => ""
  | (name, value) :: fields =>
    margin depth ++ name ++ ": " ++ render depth value ++ ",\n" ++ renderFields depth fields

/-- One line and its nested lines for each item. -/
def renderItems (depth : Nat) : List Outline → String
  | [] => ""
  | item :: items => margin depth ++ render depth item ++ ",\n" ++ renderItems depth items

end

end Outline

/-- The outline of a span is its place and excerpt. -/
def Span.outline (s : Span) : Outline :=
  .leaf s.describe

/-- The outline of a list of spans. -/
def Span.outlines (spans : List Span) : Outline :=
  .list (spans.map Span.outline)

/-- The outline of the definition of a module. -/
def ModuleDef.outline (d : ModuleDef) : Outline :=
  .record "ModuleDef"
    [("span", d.span.outline), ("name", d.name.outline), ("patterns", Span.outlines d.patterns)]

/-- The outline of a rule. -/
def Rule.outline : Rule → Outline
  | chain span modules =>
    .record "Chain" [("span", span.outline), ("modules", Span.outlines modules)]
  | noDependency span source dest =>
    .record "NoDependency"
      [("span", span.outline), ("source", source.outline), ("dest", dest.outline)]

/-- A specification as an indented text. -/
def Specification.outline (s : Specification) : String :=
  Outline.render 0 <| .record "Specification"
    [("modules", .list (s.modules.map ModuleDef.outline)),
      ("rules", .list (s.rules.map Rule.outline))]

end Conformance
