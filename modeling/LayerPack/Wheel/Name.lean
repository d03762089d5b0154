import LayerPack.Path.Basic
import LayerPack.Project.Name

/-! Wheel files: the distribution name at the front of a file name, and whose wheel it is. -/
namespace LayerPack

/-- The wheel of a project. -/
structure Wheel where
  path : Path
  /-- Its file name as text. -/
  fileName : String
  deriving DecidableEq

namespace Wheel

def suffix : Bytes := Bytes.ofString ".whl"

def isWheelName (name : Name) : Bool := suffix.isSuffixOf name

/-- The part before the first dash of the stem; there must be something on both sides of it. -/
def distributionOf (stem : List Char) : Option (List Char) :=
  match Text.splitAt? '-' stem with
  | some (before, after) => if before = [] ∨ after = [] then none else some before
  | none => none

/-- The distribution name of a file, if its name is text. -/
def distribution? (p : Path) : Option String := do
  let name ← p.fileName?
  let stem ← Bytes.toText? (Path.stem name)
  return String.ofList (← distributionOf stem.toList)

def belongsTo (project : String) (p : Path) : Bool :=
  match distribution? p with
  | some name => ProjectName.canonical name == ProjectName.canonical project
  | none => false

/-- What stands between the first two dashes of the file name. -/
def version? (w : Wheel) : Option String :=
  match Text.splitAll '-' w.fileName.toList with
  | _ :: version :: _ => some (String.ofList version)
  | _ => none

def ofPath (p : Path) : Wheel := ⟨p, Bytes.display (p.fileName?.getD [])⟩

end Wheel

end LayerPack
