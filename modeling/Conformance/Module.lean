import Conformance.Module.Glob
import Conformance.Text.Quoted

/-!
# Modules

A `Module` is a named set of code elements, given by patterns of their names. Two modules are the
same when their names and the texts of their patterns agree, and modules are ordered by name first
and then by the list of these texts.
-/

namespace Conformance

/-- A named set of code elements. -/
structure Module where
  name : String
  patterns : List Glob
deriving DecidableEq

namespace Module

/-- The catch-all module, to which elements go that no declared module contains. It has no patterns.
-/
def other : Module := ⟨"(other)", []⟩

/-- The texts of the patterns of a module. -/
def patternTexts (m : Module) : List String :=
  m.patterns.map Glob.text

/-- Does some pattern of the module fit the name of the element? -/
def contains (m : Module) (element : String) (engine : Regex.Engine := Regex.tables) : Bool :=
  m.patterns.any (·.accepts element engine)

/-- Order by name, then by the texts of the patterns. -/
def compare (a b : Module) : Ordering :=
  (Ord.compare a.name b.name).then (Ord.compare a.patternTexts b.patternTexts)

instance : Ord Module := ⟨compare⟩

/-- The texts that tell a module from others. -/
def identity (m : Module) : List String :=
  m.name :: m.patternTexts

instance : Hashable Module := ⟨fun m => hash m.identity⟩

/-- Modules in ascending order; equal ones keep their places. -/
def sort (ms : List Module) : List Module :=
  ms.mergeSort fun a b => (compare a b).isLE

/-- A module with its name and patterns as quoted values on one line. -/
def describe (m : Module) : String :=
  let patterns := ", ".intercalate (m.patternTexts.map Text.quoted)
  "Module \x7b name: " ++ Text.quoted m.name ++ ", patterns: [" ++ patterns ++ "] \x7d"

end Module

end Conformance
