import LayerPack.Host.Files
import LayerPack.Project.Metadata
import LayerPack.RunError

/-! Reading the metadata of a source tree: `pyproject.toml` first, and `setup.cfg` if that does not
name the project. -/
namespace LayerPack.Metadata

open Program

def readFailure (step : String) (p : Path) (e : SystemError) : RunError :=
  .execution step ("Failed to read " ++ p.display ++ ": " ++ e.message)

/-- Reads `pyproject.toml`, if it is there. -/
def loadPyproject (p : Path) : Program (Except RunError Metadata) := do
  if ← Files.isFile p then
    match ← Files.readText p with
    | .error e => return .error (readFailure "read_pyproject" p e)
    | .ok content =>
      match parsePyproject content with
      | .error e => return .error (.invalidArguments (p.display ++ ": " ++ e.message))
      | .ok m => return .ok m
  else return .ok {}

/-- Completes metadata without a name from `setup.cfg`, if that is there. -/
def loadSetupCfg (p : Path) (m : Metadata) : Program (Except RunError Metadata) := do
  if ← Files.isFile p then
    match ← Files.readText p with
    | .error e => return .error (readFailure "read_setup_cfg" p e)
    | .ok content =>
      let declared := SetupCfg.parse content
      if declared.name.isSome then
        return .ok { m with
          name := declared.name
          version := m.version.or declared.version
          sourceFile := some p }
      else return .ok m
  else return .ok m

/-- The metadata of a source tree. A tree without a name is not an error here. -/
def load (source : Path) : Program (Except RunError Metadata) := do
  let pyproject := source.join (.ofString "pyproject.toml")
  match ← loadPyproject pyproject with
  | .error e => return .error e
  | .ok m =>
    if m.name.isSome then return .ok { m with sourceFile := some pyproject }
    match ← loadSetupCfg (source.join (.ofString "setup.cfg")) m with
    | .error e => return .error e
    | .ok m =>
      if m.name.isNone then
        request (.log .debug ("No static project name found in " ++ source.display))
      return .ok m

end LayerPack.Metadata
