import LayerPack.CommandLine.Args
import LayerPack.Project.Metadata
import LayerPack.RunError
import LayerPack.Settings.Options

/-! What a run is asked to do: the command line first, then what the project declares, then the
defaults. Paths of the project start from its source tree. -/
namespace LayerPack

namespace Args

/-- A path of the command line, or one of the project. -/
def pickPath (given : Option Path) (declared : Option String) (source : Path) : Option Path :=
  match given, declared with
  | some p, _ => some p
  | none, some text => some (source.join (.ofString text))
  | none, none => none

/-- An interpreter that the project declares. A bare name is looked up later. -/
def declaredPython (source : Path) (text : String) : Path :=
  let p := Path.ofString text
  if p.components.length > 1 then source.join p else p

def pickList (given declared : List String) : List String :=
  if given.isEmpty then declared else given

def target (a : Args) (layer : LayerConfig) : TargetPlatform :=
  { platforms := pickList a.platforms layer.platforms
    pythonVersion := a.pythonVersion.or layer.pythonVersion
    implementation := a.implementation.or layer.implementation }

def missingName : RunError :=
  .missingArgument "--project-name (no static name in pyproject.toml or setup.cfg)"

/-- The options of a run on a project. -/
def options (a : Args) (m : Metadata) : Except RunError Options :=
  match a.projectName.or m.name with
  | none => .error missingName
  | some name => .ok {
      package := some { name := Text.trim name, version := m.version }
      source := some a.source
      workspace := pickPath a.workspace m.layer.workspace a.source
      dist := a.distDir
      output := pickPath a.output m.layer.output a.source
      python := a.python.or (m.layer.python.map (declaredPython a.source))
      frontend := (a.frontend.or m.layer.frontend).getD .pip
      layerPrefix := (a.layerPrefix.or m.layer.layerPrefix).map Path.ofString
      target := a.target m.layer
      pipArgs := pickList a.pipArgs m.layer.pipArgs
      stageTimeout := a.stageTimeout.map (· * 1000)
      keepWorkspace := a.keepWorkspace
      skipReconcile := a.skipReconcile || m.layer.skipReconcile.getD false }

/-- The settings of a run on a project. -/
def settings (a : Args) (m : Metadata) : Program (Except RunError Settings) :=
  match a.options m with
  | .error e => return .error e
  | .ok o => do
    return (← o.resolve).mapError fun e => .invalidArguments e.message

end Args

end LayerPack
