import LayerPack.Host.Program
import LayerPack.Path.Basic
import LayerPack.Project.Frontend
import LayerPack.Text.Blank

/-! The arguments of the command line: what they are once read, and when they make no sense
together. -/
namespace LayerPack

structure Args where
  source : Path := .ofString "."
  projectName : Option String := none
  output : Option Path := none
  workspace : Option Path := none
  distDir : Option Path := none
  python : Option Path := none
  frontend : Option Frontend := none
  layerPrefix : Option String := none
  platforms : List String := []
  pythonVersion : Option String := none
  implementation : Option String := none
  pipArgs : List String := []
  /-- In seconds. -/
  stageTimeout : Option Nat := none
  keepWorkspace : Bool := false
  skipReconcile : Bool := false
  checkLimits : Bool := false
  maxZippedMib : Nat := 50
  maxUnzippedMib : Nat := 250
  json : Bool := false
  verbose : Bool := false
  quiet : Bool := false
  deriving DecidableEq

namespace Args

/-- What is wrong with arguments that were read without an error. -/
def problem (a : Args) : Option String :=
  if a.source.isEmpty then some "Source cannot be empty"
  else if a.projectName.any Text.isBlankText then some "Project name cannot be empty"
  else if a.stageTimeout = some 0 then some "Stage timeout must be at least 1 second"
  else if a.checkLimits ∧ (a.maxZippedMib = 0 ∨ a.maxUnzippedMib = 0) then
    some "Size limits must be greater than zero"
  else none

/-- Nothing but errors is printed for the reader; a report for programs owns the output. -/
def isQuiet (a : Args) : Bool := a.quiet || a.json

def isVerbose (a : Args) : Bool := a.verbose && !a.isQuiet

end Args

end LayerPack
