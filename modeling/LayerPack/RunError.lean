import LayerPack.Error
import LayerPack.Pipeline.Stage

/-! What the command line reports when it fails: the cause, its exit status and what to do. -/
namespace LayerPack

/-- A run of the pipeline that ended in a failed stage. -/
structure Failure where
  stage : Stage
  cause : Error
  /-- The stages before it, all completed. -/
  completed : List StageRecord
  deriving DecidableEq

namespace Failure

def message (f : Failure) : String := f.stage.name ++ " stage failed: " ++ f.cause.message

/-- Only the last stage touches the active environment. -/
def environmentUntouched (f : Failure) : Bool := f.stage ≠ .reconcile

end Failure

inductive RunError where
  | invalidArguments (reason : String)
  | missingArgument (argument : String)
  /-- Another run holds the lock of the workspace. -/
  | locked (lockPath : String)
  /-- A step before the pipeline failed. -/
  | execution (command reason : String)
  | system (cause : SystemError)
  /-- The report has no form as JSON. -/
  | json (reason : String)
  /-- A failure outside the pipeline. -/
  | bundle (cause : Error)
  | pipeline (failure : Failure)
  | overLimits (violations : List String)
  /-- A failure that is only described. -/
  | described (message : String)
  deriving DecidableEq

namespace RunError

def message : RunError → String
  | invalidArguments reason => "CLI error: Invalid arguments: " ++ reason
  | missingArgument argument => "CLI error: Missing required argument: " ++ argument
  | locked lockPath => "CLI error: Workspace is locked by another run: " ++ lockPath
  | execution command reason =>
    "CLI error: Command execution failed: " ++ command ++ " - " ++ reason
  | system cause => "IO error: " ++ cause.message
  | json reason => "JSON error: " ++ reason
  | bundle cause => "Bundler error: " ++ cause.message
  | pipeline failure => "Pipeline failed: " ++ failure.message
  | overLimits violations => "Archive exceeds platform limits: " ++ "; ".intercalate violations
  | described message => message

/-- The exit status: 2 for arguments and settings, 3 for a held lock, that of the stage for a failed
run, 20 for an archive over its limits, 1 for all else. -/
def exitCode : RunError → Nat
  | locked _ => 3
  | invalidArguments _ | missingArgument _ => 2
  | pipeline failure => failure.stage.exitCode
  | overLimits _ => 20
  | _ => 1

/-- What may help after a failed stage. -/
def stageAdvice (stage : Stage) (cause : Error) : List String :=
  match stage, cause with
  | _, .timeout .. =>
    ["Raise --stage-timeout or check network access to the package index"]
  | .clean, _ => ["Check that the workspace path is writable and not in use"]
  | .build, .ambiguousWheel .. =>
    ["Remove stale wheels from the dist directory, or leave --dist-dir unset " ++
      "so it is wiped on every run"]
  | .build, .noWheel .. => ["Check that --project-name matches the name in the build metadata"]
  | .build, _ => ["Run the build command shown above by hand to see the full output"]
  | .materialize, .unresolved .. =>
    ["Relax the conflicting version constraints, or check --platform/--python-version"]
  | .materialize, _ => ["Check disk space and access to the package index"]
  | .archive, _ => ["Check that the output directory is writable"]
  | .reconcile, _ =>
    ["Inspect the active environment: the project may be uninstalled",
      "The layer archive was written and can still be used"]

def suggestions : RunError → List String
  | pipeline failure =>
    stageAdvice failure.stage failure.cause ++
      if failure.environmentUntouched then ["The active environment was not modified"] else []
  | _ => ["Check the error message above for specific details"]

end RunError

end LayerPack
