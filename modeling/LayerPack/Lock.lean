import LayerPack.Host.Files
import LayerPack.RunError

/-! The lock of a workspace: an advisory lock on a file beside it, taken without waiting. The file
stays when the lock is released, since another run may already have it open. -/
namespace LayerPack

structure RunLock where
  path : Path
  handle : Handle
  deriving DecidableEq

namespace RunLock

open Program

/-- The lock file of a workspace. -/
def pathFor (workspace : Path) : Path :=
  let name := match workspace.fileName? with
    | some name => Bytes.display name
    | none => "workspace"
  workspace.withFileName (Bytes.ofString (name ++ ".lock"))

/-- Opens the lock file of which the directory is there, and locks it. -/
def take (p : Path) : Program (Except RunError RunLock) := do
  match ← request (.openWrite false p) with
  | .error _ => return .error (.described ("opening lock file " ++ p.display))
  | .ok handle =>
    match ← request (.lock handle) with
    | .ok () =>
      request (.log .debug ("Acquired run lock " ++ p.display))
      return .ok ⟨p, handle⟩
    | .error e =>
      return .error
        (if e = .wouldBlock then .locked p.display
        else .described ("locking " ++ p.display ++ ": " ++ e.message))

/-- Takes the lock of a workspace, if nobody holds it. -/
def acquire (workspace : Path) : Program (Except RunError RunLock) := do
  let p := pathFor workspace
  match p.parent? with
  | none => take p
  | some up =>
    match ← Files.makeDirs up with
    | .error _ => return .error (.described ("creating " ++ up.display))
    | .ok () => take p

def release (l : RunLock) : Program Unit := request (.unlock l.handle)

/-- A lock as it is shown to developers. -/
def inspect (l : RunLock) : String :=
  "RunLock \x7b path: " ++ Bytes.quoted l.path.bytes ++ " \x7d"

end RunLock

end LayerPack
