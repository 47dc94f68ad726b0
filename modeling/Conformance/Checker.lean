import Conformance.Access.Log
import Conformance.Analysis
import Conformance.Definition.Compile
import Conformance.Report

/-!
# Checks

A `Checker` holds the definition in force and the settings of a check. A specification that cannot
be read leaves it as it is.
-/

namespace Conformance

/-- A definition, if there is one yet, and the settings of a check. -/
structure Checker where
  definition : Option Definition
  mode : AnalysisMode
  /-- Do findings of the survey make a check fail? -/
  failOnDiagnostics : Bool
deriving DecidableEq

/-- Why a check has no outcome. -/
inductive CheckError where
  | noSpecification
  | scanFailed (text : String)
  | analysis (e : AnalysisError)
deriving DecidableEq, Repr

/-- The wording of the reason. -/
def CheckError.message : CheckError → String
  | noSpecification => "no specification added"
  | scanFailed text => text
  | analysis e => e.message

namespace Checker

/-- A checker without a definition, in strict mode. -/
def new : Checker := ⟨none, .strict, false⟩

/-- Puts a definition in force. -/
def setDefinition (c : Checker) (d : Definition) : Checker :=
  { c with definition := some d }

/-- Puts the definition of a specification text in force. -/
def addSpecification (c : Checker) (src : Source) : Except SpecificationError Checker :=
  (Definition.ofSource src).map c.setDefinition

/-- Puts the definition of a text in force that is given under the name of its file, or says why this
cannot be done. -/
def addText (c : Checker) (file contents : String) : Except String Checker :=
  match Source.ofContents? file contents with
  | none => .error (Source.tooLargeMessage file)
  | some src => (c.addSpecification src).mapError (·.render src)

/-- Chooses the analysis. -/
def setMode (c : Checker) (mode : AnalysisMode) : Checker :=
  { c with mode := mode }

/-- Chooses whether findings make a check fail. -/
def setFailOnDiagnostics (c : Checker) (b : Bool) : Checker :=
  { c with failOnDiagnostics := b }

/-- The survey of the modules of a definition. -/
def survey (d : Definition) (events : List AccessEvent) : Survey :=
  (Survey.start d.modules Module.other).recordAll events

/-- The comparison of a definition with what was surveyed. -/
def analysis (d : Definition) (s : Survey) : Analysis :=
  ⟨d, s.graph, Module.other⟩

/-- Checks what a scanner reports against the definition in force. -/
def check (c : Checker) (scan : Scan) : Except CheckError Report :=
  match c.definition, scan.failure with
  | none, _ => .error .noSpecification
  | some _, some text => .error (.scanFailed text)
  | some d, none =>
    let s := survey d scan.events
    match (analysis d s).run c.mode with
    | .ok result => .ok ⟨result, s.findings, c.failOnDiagnostics⟩
    | .error e => .error (.analysis e)

/-- One use of a checker. -/
inductive Step where
  | addSpecification (src : Source)
  | setDefinition (d : Definition)
  | setMode (mode : AnalysisMode)
  | setFailOnDiagnostics (b : Bool)
  | check (scan : Scan)
deriving DecidableEq

/-- What a step comes back with. -/
inductive Outcome where
  | done
  | specificationRefused (src : Source) (e : SpecificationError)
  | checked (outcome : Except CheckError Report)

/-- Makes a step. -/
def step (c : Checker) : Step → Outcome × Checker
  | .addSpecification src =>
    match c.addSpecification src with
    | .ok c' => (.done, c')
    | .error e => (.specificationRefused src e, c)
  | .setDefinition d => (.done, c.setDefinition d)
  | .setMode mode => (.done, c.setMode mode)
  | .setFailOnDiagnostics b => (.done, c.setFailOnDiagnostics b)
  | .check scan => (.checked (c.check scan), c)

/-- Makes several steps in order and lists their outcomes. -/
def run (c : Checker) : List Step → List Outcome × Checker
  | [] => ([], c)
  | s :: ss =>
    let (outcome, c') := c.step s
    let (outcomes, c'') := c'.run ss
    (outcome :: outcomes, c'')

end Checker

end Conformance
