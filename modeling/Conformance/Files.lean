import Conformance.Access.Log.Json
import Conformance.Access.Log.Yaml
import Conformance.Source

/-!
# Files

Specifications and access logs that come from files. What a path leads to is asked of a
`FileReader`, such as a `Directory` held in memory.
-/

namespace Conformance

/-- Why a file has no text. -/
inductive ReadError where
  | notFound
  | notDirectory
  | isDirectory
  | nameTooLong
  /-- The path has a character of number zero, which no name can hold. -/
  | zeroInPath
  | notText
  /-- The system has another reason. -/
  | other (reason : String)
deriving DecidableEq, Repr

/-- The wording of the reason. -/
def ReadError.message : ReadError → String
  | notFound => "No such file or directory (os error 2)"
  | notDirectory => "Not a directory (os error 20)"
  | isDirectory => "Is a directory (os error 21)"
  | nameTooLong => "File name too long (os error 36)"
  | zeroInPath => "file name contained an unexpected NUL byte"
  | notText => "stream did not contain valid UTF-8"
  | other reason => reason

/-- The text of the file at a path, or why there is none. -/
abbrev FileReader := String → Except ReadError String

/-- The names on a path, which lead from folder to folder. -/
def pathNames (path : String) : List String :=
  (path.splitOn "/").filter fun name => name ≠ "" && name ≠ "."

/-! ## Directories in memory -/

/-- Files by name and contents. A name may lead through folders, with slashes between them. -/
structure Directory where
  files : List (String × ByteArray)

/-- A path has fewer bytes than this. -/
def pathLimit : Nat := 4096

/-- A name has this many bytes at most. -/
def nameLimit : Nat := 255

/-- Where a path has led to. -/
inductive Place where
  /-- The file or folder of a directory with these names. -/
  | inside (names : List String)
  /-- A folder around the directory. -/
  | outside
deriving DecidableEq, Repr

namespace Directory

/-- The names that lead to each file, and its contents. -/
def entries (d : Directory) : List (List String × ByteArray) :=
  d.files.map fun (name, bytes) => (pathNames name, bytes)

/-- Do the names lead to a folder? -/
def isFolder (d : Directory) (names : List String) : Bool :=
  names.isEmpty || d.entries.any fun e => names.isPrefixOf e.1 && names ≠ e.1

/-- Takes one step of a path. A step without a name stays in the folder, as one point does. Nothing
is known of what stands around the directory, but that it has no file by the name. -/
def step (d : Directory) (place : Place) (name : String) : Except ReadError Place :=
  let stays := name = "" || name = "."
  match place with
  | .outside =>
    if stays || name = ".." then .ok .outside
    else if nameLimit < name.utf8ByteSize then .error .nameTooLong
    else .error .notFound
  | .inside names =>
    if !d.isFolder names then .error .notDirectory
    else if stays then .ok (.inside names)
    else if name = ".." then
      if names.isEmpty then .ok .outside else .ok (.inside names.dropLast)
    else if nameLimit < name.utf8ByteSize then .error .nameTooLong
    else
      let names := names ++ [name]
      if d.entries.any fun e => names.isPrefixOf e.1 then .ok (.inside names)
      else .error .notFound

/-- Follows a path step by step. A slash in front leads out of the directory. -/
def follow (d : Directory) (path : String) : Except ReadError Place :=
  let start := if path.startsWith "/" then .outside else .inside []
  (path.splitOn "/").foldlM d.step start

/-- Reads a file of a directory. -/
def read (d : Directory) : FileReader := fun path =>
  if path.toList.contains '\x00' then .error .zeroInPath
  else if path.isEmpty then .error .notFound
  else if pathLimit ≤ path.utf8ByteSize then .error .nameTooLong
  else
    match d.follow path with
    | .error e => .error e
    | .ok .outside => .error .isDirectory
    | .ok (.inside names) =>
      if d.isFolder names then .error .isDirectory
      else
        match d.entries.lookup names with
        | none => .error .notFound
        | some bytes =>
          match String.fromUTF8? bytes with
          | some text => .ok text
          | none => .error .notText

end Directory

/-! ## What is read -/

/-- The part of the name of a file behind its last point. A point in front begins no such part. -/
def fileExtension? (path : String) : Option String := do
  let name ← (pathNames path).getLast?
  let reversed := name.toList.reverse
  let ending := reversed.takeWhile (· ≠ '.')
  let stem := (reversed.drop ending.length).tail
  if stem.isEmpty || name = ".." then none else some (String.ofList ending.reverse)

/-- Why a file gives no specification text. -/
inductive SourceError where
  | unreadable (e : ReadError)
  | tooLarge
deriving DecidableEq, Repr

/-- Reads a specification text. -/
def Source.ofFile (read : FileReader) (path : String) : Except SourceError Source :=
  match read path with
  | .error e => .error (.unreadable e)
  | .ok text =>
    match ofContents? path text with
    | none => .error .tooLarge
    | some src => .ok src

/-- The wording of a failure to read a specification. -/
def Source.readErrorMessage (path : String) : SourceError → String
  | .unreadable e => s!"Failed to read {path}. {e.message}"
  | .tooLarge => tooLargeMessage path

/-- Why a file gives no access log. -/
inductive LogFileError where
  | unreadable (path : String) (e : ReadError)
  /-- The extension is that of no known format. -/
  | unsupported (path : String)
  | badJson (path text : String) (failure : Json.Failure)
  | badYaml (path : String)

namespace LogFileError

/-- What could not be done. -/
def message : LogFileError → String
  | unreadable path _ => s!"Failed to read {path}"
  | unsupported path => s!"Unsupported access log `{path}`."
  | badJson path _ _ => s!"Failed to parse {path}"
  | badYaml path => s!"Failed to parse {path}"

/-- Why it could not, if there is more to say. -/
def cause? : LogFileError → Option String
  | unreadable _ e => some e.message
  | unsupported _ => none
  | badJson _ text failure => some (failure.message text.toList)
  | badYaml _ => some "malformed YAML"

end LogFileError

/-- Reads an access log; the extension of its file tells the format. -/
def AccessLog.ofFile (read : FileReader) (path : String) : Except LogFileError AccessLog :=
  match read path with
  | .error e => .error (.unreadable path e)
  | .ok text =>
    match fileExtension? path with
    | some "json" => (ofJsonText text).mapError (.badJson path text)
    | some "yaml" | some "yml" =>
      match ofYamlText? text with
      | some log => .ok log
      | none => .error (.badYaml path)
    | _ => .error (.unsupported path)

end Conformance
