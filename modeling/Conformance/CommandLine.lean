import Conformance.Checker
import Conformance.Files
import Conformance.Specification.Outline

/-!
# The command line

Three commands: `lex` lists the tokens of a specification, `parse` shows its outline, and `check`
compares an access log with it. `Command.ofArgs?` reads the arguments and `Command.run` does the
work, with files read by whatever is given for that.
-/

namespace Conformance

/-- What the program is asked to do. -/
inductive Command where
  | lex (file : String) (verbose : Bool)
  | parse (file : String)
  | check (specification accesses : String) (loose failOnDiagnostics : Bool)
deriving DecidableEq, Repr

/-- What the program comes back with. -/
structure CommandOutcome where
  code : Nat
  stdout : String
  stderr : String
deriving DecidableEq, Repr

/-! ## Arguments -/

/-- An option of a command. -/
structure CommandOption where
  long : String
  short : Option Char
  takesValue : Bool
deriving DecidableEq, Repr

/-- An argument that has been recognised. -/
inductive Argument where
  /-- An option by its long name, with its value if it takes one. -/
  | option (long : String) (value : String)
  | positional (text : String)
deriving DecidableEq, Repr

namespace Argument

/-- Can the argument be the value of an option? -/
def isValue (arg : String) : Bool :=
  !arg.startsWith "-" || arg = "-"

/-- Recognises short options that stand together behind one dash. The value of one that takes a
value is the rest of the argument, after an equals sign if there is one, or else the next argument.
-/
def shorts? (options : List CommandOption) :
    List Char → List String → Option (List Argument × List String)
  | [], args => some ([], args)
  | c :: cs, args => do
    let o ← options.find? fun o => o.short = some c
    if o.takesValue then
      match cs, args with
      | '=' :: value, _ => return ([.option o.long (String.ofList value)], args)
      | [], value :: args => if isValue value then some ([.option o.long value], args) else none
      | [], [] => none
      -- the rest of the argument is the value, so no other option stands behind this one
      | value, _ => return ([.option o.long (String.ofList value)], args)
    else
      let (others, args) ← shorts? options cs args
      return (.option o.long "" :: others, args)

/-- Recognises a long option, the value of which stands behind an equals sign or is the next
argument. -/
def long? (options : List CommandOption) (body : String) (args : List String) :
    Option (Argument × List String) := do
  let cs := body.toList
  let name := String.ofList (cs.takeWhile (· ≠ '='))
  let o ← options.find? fun o => o.long = name
  match cs.dropWhile (· ≠ '='), o.takesValue with
  | '=' :: value, true => return (.option o.long (String.ofList value), args)
  | [], true =>
    match args with
    | value :: args => if isValue value then return (.option o.long value, args) else none
    | [] => none
  | [], false => return (.option o.long "", args)
  | _, _ => none

/-- Recognises all arguments. Behind two dashes all are positional. -/
def all? (options : List CommandOption) : Nat → List String → Option (List Argument)
  | 0, _ => none
  | _, [] => some []
  | fuel + 1, arg :: args =>
    if arg = "--" then some (args.map .positional)
    else if isValue arg then (all? options fuel args).map (.positional arg :: ·)
    else if arg.startsWith "--" then do
      let (found, args) ← long? options (String.ofList (arg.toList.drop 2)) args
      return found :: (← all? options fuel args)
    else do
      let (found, args) ← shorts? options arg.toList.tail args
      return found ++ (← all? options fuel args)

/-- The positional arguments. -/
def positionals (args : List Argument) : List String :=
  args.filterMap fun
    | positional text => some text
    | option _ _ => none

/-- The values of an option. -/
def values (args : List Argument) (long : String) : List String :=
  args.filterMap fun
    | positional _ => none
    | option name value => if name = long then some value else none

end Argument

namespace Command

/-- Recognises the arguments of a command, each option at most once. -/
def arguments? (options : List CommandOption) (args : List String) : Option (List Argument) := do
  let found ← Argument.all? options (args.length + 1) args
  if options.all fun o => (Argument.values found o.long).length ≤ 1 then some found else none

/-- Was the option given? -/
def isSet (args : List Argument) (long : String) : Bool :=
  !(Argument.values args long).isEmpty

/-- The command that the arguments ask for; none if they ask for nothing that there is. -/
def ofArgs? : List String → Option Command
  | "lex" :: args => do
    let args ← arguments? [⟨"verbose", some 'v', false⟩] args
    match Argument.positionals args with
    | [file] => return .lex file (isSet args "verbose")
    | _ => none
  | "parse" :: args => do
    let args ← arguments? [] args
    match Argument.positionals args with
    | [file] => return .parse file
    | _ => none
  | "check" :: args => do
    let args ← arguments?
      [⟨"spec", some 's', true⟩, ⟨"accesses", some 'a', true⟩, ⟨"loose", some 'l', false⟩,
        ⟨"strict-diagnostics", none, false⟩] args
    let specs := Argument.values args "spec"
    match Argument.positionals args, specs, Argument.values args "accesses" with
    | [], [spec], [accesses] =>
      return .check spec accesses (isSet args "loose") (isSet args "strict-diagnostics")
    | _, _, _ => none
  | _ => none

/-- The files that a command reads. -/
def files : Command → List String
  | lex file _ => [file]
  | parse file => [file]
  | check specification accesses _ _ => [specification, accesses]

/-! ## Work -/

/-- The outcome of a success. -/
def success (stdout : String) : CommandOutcome := ⟨0, stdout, ""⟩

/-- The outcome of a failure, after some output. -/
def failure (stdout message : String) : CommandOutcome := ⟨1, stdout, s!"Error: {message}\n"⟩

/-- The outcome of a wrong call. -/
def wrongCall : CommandOutcome := ⟨2, "", "wrong arguments\n"⟩

/-- Lists tokens, each after its place in the text if `verbose`. -/
def listTokens (src : Source) (verbose : Bool) : List Lexed → String → CommandOutcome
  | [], out => success out
  | .ok t :: items, out =>
    if t.kind = .eof then success out
    else
      let place := if verbose then t.span.message src "" "" ++ "\n" else ""
      listTokens src verbose items (out ++ place ++ t.describe ++ "\n")
  | .error e :: _, out => failure out (e.render src LexError.message)

/-- A message and what caused it. The lines of the cause are indented. -/
def causedBy (message cause : String) : String :=
  message ++ "\n\nCaused by:" ++ String.join ((cause.splitOn "\n").map ("\n    " ++ ·))

/-- Checks an access log against a specification text. -/
def runCheck (src : Source) (log : Except LogFileError AccessLog) (loose failOnDiagnostics : Bool) :
    CommandOutcome :=
  match Checker.new.addSpecification src, log with
  | .error e, _ => failure "" (e.render src)
  | .ok _, .error e =>
    failure "" <|
      match e.cause? with
      | some cause => causedBy e.message cause
      | none => e.message
  | .ok c, .ok log =>
    let c := c.setFailOnDiagnostics failOnDiagnostics
    let c := if loose then c.setMode .loose else c
    match c.check log.scan with
    | .error e => failure "" e.message
    | .ok report =>
      let out := report.toJson.toPrettyText ++ "\n"
      match report.ensureConformant with
      | .ok () => success out
      | .error e => failure out e.message

/-- Works on a specification from a file. -/
def onSource (read : FileReader) (file : String) (work : Source → CommandOutcome) :
    CommandOutcome :=
  match Source.ofFile read file with
  | .ok src => work src
  | .error e => failure "" (Source.readErrorMessage file e)

/-- Does what a command asks for. -/
def run (read : FileReader) : Command → CommandOutcome
  | lex file verbose =>
    onSource read file fun src => listTokens src verbose (Lexer.ofSource src).tokens ""
  | parse file =>
    onSource read file fun src =>
      match Specification.ofSource src with
      | .ok s => success (s.outline ++ "\n")
      | .error e => failure "" (e.render src)
  | check specification accesses loose failOnDiagnostics =>
    onSource read specification fun src =>
      runCheck src (AccessLog.ofFile read accesses) loose failOnDiagnostics

/-- Does what the arguments ask for. -/
def runArgs (read : FileReader) (args : List String) : CommandOutcome :=
  match ofArgs? args with
  | some command => command.run read
  | none => wrongCall

end Command

end Conformance
