import LayerPack.Path.Basic
import LayerPack.Project.Frontend
import LayerPack.Project.Name

/-! The settings of a run: who is packaged, where everything stands, and how the tools are called.
All directories and the output are absolute. -/
namespace LayerPack

/-- Name and version of a project. The version is informational. -/
structure Package where
  name : String
  version : Option String := none
  deriving DecidableEq, Repr

namespace Package

def canonicalName (p : Package) : String := ProjectName.canonical p.name

/-- The name of the archive where none is chosen. -/
def archiveName (p : Package) : String := p.name ++ "-layer.zip"

end Package

structure Settings where
  package : Package
  /-- The source tree. -/
  source : Path
  /-- Owned by the run: everything in it is deleted at the start. -/
  workspace : Path
  /-- Where the build tool puts wheels. -/
  dist : Path
  /-- The archive. -/
  output : Path
  python : Path
  frontend : Frontend
  /-- The directory inside the archive that holds the tree. -/
  layerPrefix : Option Path
  target : TargetPlatform
  /-- Further arguments for every install. -/
  pipArgs : List String
  /-- The time limit of a stage in milliseconds. -/
  stageTimeout : Option Nat
  keepWorkspace : Bool
  reconcile : Bool
  deriving DecidableEq

namespace Settings

def project (s : Settings) : String := s.package.name

/-- The dist directory is wiped together with the workspace. -/
def distInWorkspace (s : Settings) : Bool := s.dist.startsWith s.workspace

end Settings

end LayerPack
