import LayerPack.Text.Lowercase

/-! The tool that turns a source tree into a wheel, and the platform a layer is made for. -/
namespace LayerPack

inductive Frontend where
  /-- `python -m pip wheel` -/
  | pip
  /-- `python -m build` -/
  | build
  deriving DecidableEq, Repr

namespace Frontend

def name : Frontend → String
  | pip => "pip"
  | build => "build"

/-- Reads a frontend in any mix of capital and small letters; fails with a message. -/
def parse (text : String) : Except String Frontend :=
  let word := Text.lowerAscii text
  if word = "pip" then .ok pip
  else if word = "build" then .ok build
  else .error ("unknown build frontend `" ++ word ++ "`, expected `pip` or `build`")

end Frontend

/-- What dependency wheels are chosen for. -/
structure TargetPlatform where
  platforms : List String := []
  pythonVersion : Option String := none
  implementation : Option String := none
  deriving DecidableEq, Repr

/-- Installs go to something other than the building host. -/
def TargetPlatform.isCross (t : TargetPlatform) : Bool :=
  !t.platforms.isEmpty || t.pythonVersion.isSome || t.implementation.isSome

end LayerPack
