import LayerPack.Host.Files
import LayerPack.Settings.Basic

/-! From what a caller asks for to settings. Only package and source tree are required. The
workspace must not be a root, and it must hold neither the source tree nor the current directory
nor the output, since it is wiped. -/
namespace LayerPack

structure Options where
  package : Option Package := none
  source : Option Path := none
  workspace : Option Path := none
  dist : Option Path := none
  output : Option Path := none
  python : Option Path := none
  frontend : Frontend := .pip
  layerPrefix : Option Path := none
  target : TargetPlatform := {}
  pipArgs : List String := []
  stageTimeout : Option Nat := none
  keepWorkspace : Bool := false
  skipReconcile : Bool := false

namespace Options

def defaultWorkspace : Path := .ofString ".layer-build"

def defaultPython : Path := .ofString "python3"

/-- The package and the source tree, if they are there and the name is not blank. -/
def required (o : Options) : Except Error (Package × Path) := do
  let some package := o.package | throw (.other "package_settings is required")
  if Text.isBlankText package.name then throw (.other "project name must not be empty")
  let some source := o.source | throw (.other "source_dir is required")
  return (package, source)

/-- What a workspace must not be or contain; all paths are absolute without dots. -/
def checkWorkspace (workspace source current output : Path) : Except Error Unit :=
  if workspace.parent?.isNone then
    .error (.other ("workspace " ++ workspace.display ++ " must not be a file system root"))
  else if source.startsWith workspace then
    .error (.other ("workspace " ++ workspace.display ++ " contains the source tree " ++
      source.display ++ "; it is wiped on every run"))
  else if current.startsWith workspace then
    .error (.other ("workspace " ++ workspace.display ++
      " contains the current directory; it is wiped on every run"))
  else if output.startsWith workspace then
    .error (.other ("output " ++ output.display ++ " is inside the workspace " ++
      workspace.display ++ "; it would be removed after the run"))
  else .ok ()

def staysBelow : Component → Bool
  | .normal _ | .current => true
  | .root | .parent => false

/-- A prefix stays inside the archive; an empty one is none. -/
def checkPrefix : Option Path → Except Error (Option Path)
  | none => .ok none
  | some p =>
    if p.isEmpty then .ok none
    else if p.components.all staysBelow then .ok (some p)
    else .error (.other
      ("layer prefix " ++ p.display ++ " must be a relative path without `..`"))

/-- The settings with every path made absolute from the current directory. -/
def settle (o : Options) (current : Path) (package : Package) (source : Path) :
    Except Error Settings := do
  let workspace := Path.absolute current (o.workspace.getD defaultWorkspace)
  let dist := match o.dist with
    | some dir => Path.absolute current dir
    | none => workspace.join (.ofString "dist")
  let output := Path.absolute current (o.output.getD (.ofString package.archiveName))
  checkWorkspace workspace source current output
  let layerPrefix ← checkPrefix o.layerPrefix
  return {
    package, source, workspace, dist, output, layerPrefix
    python := o.python.getD defaultPython
    frontend := o.frontend
    target := o.target
    pipArgs := o.pipArgs
    stageTimeout := o.stageTimeout
    keepWorkspace := o.keepWorkspace
    reconcile := !o.skipReconcile }

/-- Checks the options and makes settings of them. Nothing on disk is changed. -/
def resolve (o : Options) : Program (Except Error Settings) := do
  match o.required with
  | .error e => return .error e
  | .ok (package, source) =>
    match ← Program.request .workingDirectory with
    | .error e => return .error (.files "resolving path" source e)
    | .ok current =>
      let source := Path.absolute current source
      if ← Files.isDir source then return o.settle current package source
      else return .error (.other ("source tree " ++ source.display ++ " is not a directory"))

end Options

end LayerPack
