import Conformance.Definition

/-!
# Histories of definitions

A definition grows by steps, each of which may be refused; a step that is refused changes nothing.
The history of a definition is the list of all steps that were tried.
-/

namespace Conformance.Definition

/-- A step that a definition can grow by. -/
inductive Step where
  | addModule (m : Module)
  | allow (source dest : String)
  | forbid (source dest : String)
deriving DecidableEq

/-- Tries a step. -/
def tryStep (d : Definition) : Step → Except DefinitionError Definition
  | .addModule m => d.addModule m
  | .allow source dest => d.allow source dest
  | .forbid source dest => d.forbid source dest

/-- The definition after a step, refused or not. -/
def after (d : Definition) (s : Step) : Definition :=
  match d.tryStep s with
  | .ok d' => d'
  | .error _ => d

/-- The definition after a history. -/
def afterAll (d : Definition) (history : List Step) : Definition :=
  history.foldl after d

end Conformance.Definition
