import LayerPack.Settings.Basic
import LayerPack.Toolchain.Basic
import LayerPack.Toolchain.Capture

/-! Collaborators that call an interpreter's own installer and build tool. -/
namespace LayerPack

structure Pip where
  python : Path
  frontend : Frontend := .pip
  target : TargetPlatform := {}
  pipArgs : List String := []

namespace Pip

def ofSettings (s : Settings) (python : Path) : Pip :=
  { python, frontend := s.frontend, target := s.target, pipArgs := s.pipArgs }

/-- A call of a module of the interpreter that asks nothing and checks for no new version. -/
def moduleCommand (p : Pip) (module_ : String) : Command :=
  ({ program := p.python } : Command).argList ["-m", module_]
    |>.env "PIP_DISABLE_PIP_VERSION_CHECK" "1" |>.env "PIP_NO_INPUT" "1"

def buildCommand (p : Pip) (source dist : Path) : Command :=
  match p.frontend with
  | .pip => ((p.moduleCommand "pip").argList ["wheel", "--no-deps", "--wheel-dir"]
      |>.argPath dist).argPath source
  | .build => ((p.moduleCommand "build").argList ["--wheel", "--outdir"]
      |>.argPath dist).argPath source

/-- The options for a platform other than the building host. -/
def targetArgs (t : TargetPlatform) : List String :=
  t.platforms.flatMap (fun platform => ["--platform", platform]) ++
    (match t.pythonVersion with
      | some version => ["--python-version", version]
      | none => []) ++
    (match t.implementation with
      | some implementation => ["--implementation", implementation]
      | none => []) ++
    (if t.isCross then ["--only-binary=:all:"] else [])

def targetInstallCommand (p : Pip) (wheel target : Path) : Command :=
  ((((p.moduleCommand "pip").env "PIP_USER" "0").argList
      ["install", "--no-compile", "--ignore-installed", "--target"]).argPath target
    |>.argList (targetArgs p.target) |>.argList p.pipArgs).argPath wheel

def showCommand (p : Pip) (project : String) : Command :=
  (p.moduleCommand "pip").argList ["show", "--quiet", project]

def uninstallCommand (p : Pip) (project : String) : Command :=
  (p.moduleCommand "pip").argList ["uninstall", "--yes", project]

def installCommand (p : Pip) (wheel : Path) : Command :=
  ((p.moduleCommand "pip").argList ["install"] |>.argList p.pipArgs).argPath wheel

/-- What the installer prints when the dependency constraints cannot be met. -/
def resolutionMarkers : List String :=
  ["ResolutionImpossible", "No matching distribution found",
    "Could not find a version that satisfies", "conflicting dependencies",
    "requires a different Python"]

def isResolutionFailure (stderr : String) : Bool :=
  resolutionMarkers.any fun marker => Text.occursIn marker.toList stderr.toList

/-- The last line that is not blank, trimmed. -/
def lastLine (stderr : String) : String :=
  match (Text.lines stderr).reverse.find? fun line => !Text.isBlankText line with
  | some line => Text.trim line
  | none => ""

/-- Why an isolated install failed. -/
def installFailure (wheel target : Path) (output : CommandOutput) : Error :=
  if isResolutionFailure output.stderr then .unresolved wheel output.stderr
  else .install wheel target
    ("pip " ++ output.status.describe ++ ": " ++ lastLine output.stderr)

def buildFailure (c : Command) (output : CommandOutput) : Error :=
  .build c.display output.status.describe output.stderr

def environmentFailure (c : Command) (output : CommandOutput) : Error :=
  .other ("`" ++ c.display ++ "` failed with " ++ output.status.describe ++ ": " ++
    Text.trim output.stderr)

/-- Runs a command that must succeed. -/
def runOrFail (c : Command) (failure : CommandOutput → Error) : Work Unit := do
  let output ← Command.run c
  if output.status.success then return () else Work.fail (failure output)

def perform (p : Pip) : (call : Call) → Work call.Result
  | .build source dist =>
    let c := p.buildCommand source dist
    runOrFail c (buildFailure c)
  | .installInto wheel target =>
    runOrFail (p.targetInstallCommand wheel target) (installFailure wheel target)
  | .isInstalled project => do
    let output ← Command.run (p.showCommand project)
    return output.status.success
  | .uninstall project =>
    let c := p.uninstallCommand project
    runOrFail c (environmentFailure c)
  | .install wheel =>
    let c := p.installCommand wheel
    runOrFail c (environmentFailure c)

def toolchain (p : Pip) : Toolchain := ⟨p.perform⟩

end Pip

end LayerPack
