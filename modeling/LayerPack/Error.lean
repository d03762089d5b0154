import LayerPack.Disk.SystemError
import LayerPack.Path.Basic
import LayerPack.Text.Blank

/-! The causes for which a layer cannot be made, and their wording. -/
namespace LayerPack

inductive Error where
  /-- The workspace could not be removed or created. -/
  | workspace (path : Path) (cause : SystemError)
  /-- The build tool reported a failure. -/
  | build (line status stderr : String)
  /-- More than one wheel belongs to the project. -/
  | ambiguousWheel (project : String) (dir : Path) (found : List Path)
  /-- No wheel belongs to the project. -/
  | noWheel (project : String) (dir : Path) (contents : List String)
  /-- The installer could not satisfy the dependency constraints. -/
  | unresolved (wheel : Path) (stderr : String)
  /-- The isolated install failed for another reason. -/
  | install (wheel target : Path) (reason : String)
  | archive (path : Path) (reason : String)
  /-- The active environment could not be brought up to date. -/
  | reconciliation (project reason : String)
  /-- A stage did not finish within its time, given in milliseconds. -/
  | timeout (operation : String) (limit : Nat)
  /-- A command could not be started. -/
  | command (line : String) (cause : SystemError)
  /-- A file operation failed. -/
  | files (context : String) (path : Path) (cause : SystemError)
  /-- A zip file could not be read. -/
  | unreadableZip
  | other (message : String)
  deriving DecidableEq

namespace Error

def maxTail : Nat := 20

/-- The last lines of what a tool printed, on lines of their own. -/
def stderrTail (stderr : String) : String :=
  let lines := Text.lines (Text.trimEnd stderr)
  if lines = [] then ""
  else "\n" ++ "\n".intercalate (lines.drop (lines.length - maxTail))

def bullets (items : List String) : String :=
  String.join (items.map fun item => "\n  • " ++ item)

def listing (contents : List String) : String :=
  if contents = [] then " (directory is empty)" else "\ndirectory contents:" ++ bullets contents

def message : Error → String
  | workspace path cause =>
    "workspace " ++ path.display ++ " could not be prepared: " ++ cause.message
  | build line status stderr =>
    "build failed: `" ++ line ++ "` exited with " ++ status ++ stderrTail stderr
  | ambiguousWheel project dir found =>
    "found " ++ toString found.length ++ " distributions for `" ++ project ++ "` in " ++
      dir.display ++ ", expected exactly one:" ++ bullets (found.map Path.display)
  | noWheel project dir contents =>
    "no distribution for `" ++ project ++ "` found in " ++ dir.display ++ listing contents
  | unresolved wheel stderr =>
    "dependencies of " ++ wheel.display ++ " could not be resolved" ++ stderrTail stderr
  | install wheel target reason =>
    "installing " ++ wheel.display ++ " into " ++ target.display ++ " failed: " ++ reason
  | archive path reason => "archive " ++ path.display ++ " could not be written: " ++ reason
  | reconciliation project reason =>
    "reconciling `" ++ project ++ "` in the active environment failed: " ++ reason ++
      " (the environment may be partially updated, inspect it manually)"
  | timeout operation limit => operation ++ " timed out after " ++ toString (limit / 1000) ++ "s"
  | command line cause => "failed to run `" ++ line ++ "`: " ++ cause.message
  | files context path cause => context ++ " " ++ path.display ++ ": " ++ cause.message
  | unreadableZip => "zip error: this is not a readable zip file"
  | other message => message

end Error

end LayerPack
