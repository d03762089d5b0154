import LayerPack.Host.Files
import LayerPack.Toolchain.Basic
import LayerPack.Wheel.Select

/-! The stages that call the collaborators: building the wheel, installing it with all that it
depends on into the tree of the archive, and refreshing the active environment. -/
namespace LayerPack

open Program

/-- Builds the project and selects its wheel. -/
def buildWheel (t : Toolchain) (source dist : Path) (project : String) : Work Wheel := do
  Work.now (request (.log .info
    ("Building distribution for `" ++ project ++ "` from " ++ source.display)))
  t.perform (.build source dist)
  let wheel ← Wheel.select dist project
  Work.now (request (.log .info ("✓ Built " ++ wheel.fileName)))
  return wheel

/-- What the installer has classified is kept; all else is a failed install. -/
def asInstallError (wheel : Wheel) (target : Path) (e : Error) : Error :=
  match e with
  | .unresolved .. | .install .. | .timeout .. => e
  | other => .install wheel.path target other.message

/-- Installs a wheel and what it depends on into a directory of a fresh workspace. -/
def materialize (t : Toolchain) (wheel : Wheel) (target : Path) : Work Unit := do
  Work.now (request (.log .info
    ("Installing " ++ wheel.fileName ++ " with dependencies into " ++ target.display)))
  let made ← Work.await (Files.makeDirs target)
  Work.ofExcept (made.mapError fun e =>
    asInstallError wheel target (.files "creating install target" target e))
  (t.perform (.installInto wheel.path target)).mapError (asInstallError wheel target)
  Work.now (request (.log .info "✓ Materialized dependency tree"))

def reconcileError (project what : String) (e : Error) : Error :=
  .reconciliation project (what ++ ": " ++ e.message)

/-- Removes what is installed of a project, if anything is. -/
def removeInstalled (t : Toolchain) (project : String) : Bool → Work Unit
  | true => do
    Work.now (request (.log .info
      ("Removing installed `" ++ project ++ "` from the active environment")))
    (t.perform (.uninstall project)).mapError
      (reconcileError project "removing the existing installation")
  | false => Work.now (request (.log .debug
      ("`" ++ project ++ "` is not installed, nothing to remove")))

def installWheel (t : Toolchain) (project : String) (wheel : Wheel) : Work Unit := do
  Work.now (request (.log .info
    ("Installing " ++ wheel.fileName ++ " into the active environment")))
  (t.perform (.install wheel.path)).mapError
    (reconcileError project ("installing " ++ wheel.fileName))
  Work.now (request (.log .info ("✓ Active environment now has " ++ wheel.fileName)))

/-- Replaces what is installed of a project by its fresh wheel. Answers whether something was
there to be replaced. -/
def refreshEnvironment (t : Toolchain) (project : String) (wheel : Wheel) : Work Bool := do
  let installed : Bool ← (t.perform (.isInstalled project)).mapError
    (reconcileError project "checking for an existing installation")
  removeInstalled t project installed
  installWheel t project wheel
  return installed

end LayerPack
