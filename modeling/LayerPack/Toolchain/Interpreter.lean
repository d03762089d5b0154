import LayerPack.Host.Files
import LayerPack.Toolchain.Capture

/-! Finding the interpreter. A name is looked up in the directories of `PATH`; a path with more
than one component must exist as it is given. -/
namespace LayerPack.Interpreter

open Program

inductive NotFound where
  /-- There is no search path. -/
  | noSearchPath
  | notFound
  deriving DecidableEq

def NotFound.message : NotFound → String
  | noSearchPath => "no path to search and provided name is not an absolute path"
  | notFound => "cannot find binary path"

def colon : UInt8 := 0x3A

def splitColon : Bytes → List Bytes
  | [] => [[]]
  | b :: rest =>
    match splitColon rest with
    | [] => [[b]]
    | part :: parts => if b = colon then [] :: part :: parts else (b :: part) :: parts

/-- A file that somebody may execute. -/
def isExecutable (p : Path) : Program Bool := do
  match ← Files.stat p with
  | .ok s => return s.kind = .file && s.mode &&& 0o111 != 0
  | .error _ => return false

/-- The first executable file of a name in some directories. -/
def searchIn (name : Path) : List Path → Program (Option Path)
  | [] => return none
  | dir :: rest => do
    let candidate := dir.join name
    if ← isExecutable candidate then return some candidate else searchIn name rest

/-- A path from the current directory, without the dots that do not count. -/
def fromCurrent (current p : Path) : Path :=
  if p.isAbsolute then p
  else (p.components.dropWhile (· = .current)).foldl (fun q c => q.join ⟨c.bytes⟩) current

/-- Looks a name up in `PATH`. -/
def search (name : Path) : Program (Except NotFound Path) := do
  match ← request (.variable "PATH") with
  | none => return .error .noSearchPath
  | some value =>
    match ← searchIn name ((splitColon value).map Path.mk) with
    | none => return .error .notFound
    | some found =>
      match ← request .workingDirectory with
      | .ok current => return .ok (fromCurrent current found)
      | .error _ => return .ok found

/-- The first of some names that is found. -/
def firstOf : List String → Program (Option Path)
  | [] => return none
  | name :: rest => do
    match ← search (.ofString name) with
    | .ok p =>
      request (.log .debug ("Found " ++ name ++ " at: " ++ p.display))
      return some p
    | .error e =>
      request (.log .debug (name ++ " not found in PATH: " ++ e.message))
      firstOf rest

/-- The names under which an interpreter is installed. -/
def defaultNames : List String := ["python3", "python"]

/-- The interpreter to use. Where the default name is missing, the other one is tried. -/
def resolve (requested : Path) : Program (Except Error Path) := do
  if requested.components.length > 1 then
    if ← Files.isFile requested then return .ok requested
    return .error (.other ("Python interpreter " ++ requested.display ++ " does not exist"))
  match ← search requested with
  | .ok p => return .ok p
  | .error e =>
    if requested.components = (Path.ofString "python3").components then
      match ← firstOf defaultNames with
      | some p => return .ok p
      | none => return .error (.other ("no Python interpreter found in PATH (" ++ e.message ++
          "). Install Python 3 or pass --python"))
    else return .error (.other
      ("Python interpreter `" ++ requested.display ++ "` not found in PATH: " ++ e.message))

def versionCommand (python : Path) : Command :=
  ({ program := python } : Command).argList ["-m", "pip", "--version"]

/-- What the installer of an interpreter says about its version. -/
def installerVersion (python : Path) : Work String := do
  let output ← Command.run (versionCommand python)
  if output.status.success then
    let version := Text.trim output.stdout
    Work.now (request (.log .info ("✓ pip available: " ++ version)))
    return version
  else
    let complaint := Text.trim output.stderr
    Work.now (request (.log .warn (python.display ++ " cannot run pip (" ++
      output.status.describe ++ "). Stderr: " ++ complaint)))
    Work.fail (.other ("pip is not available for " ++ python.display ++ ": " ++ complaint))

end LayerPack.Interpreter
