/-! The stages of a run and the states it goes through. -/
namespace LayerPack

/-- One step of a run, in the order of execution. -/
inductive Stage where
  /-- Reset the workspace and drop a stale archive. -/
  | clean
  /-- Build the wheel and select it. -/
  | build
  /-- Install the wheel and what it depends on into the workspace. -/
  | materialize
  /-- Write the layer archive. -/
  | archive
  /-- Replace the installation in the active environment. -/
  | reconcile
  deriving DecidableEq, Repr

namespace Stage

def all : List Stage := [clean, build, materialize, archive, reconcile]

def name : Stage → String
  | clean => "clean"
  | build => "build"
  | materialize => "materialize"
  | archive => "archive"
  | reconcile => "reconcile"

/-- What the log says when the stage begins. -/
def announcement (stage : Stage) : String := "▶ Stage " ++ stage.name

def completionStart (stage : Stage) : String := "Stage " ++ stage.name ++ " finished in "

/-- What the log says when the stage has succeeded, with its milliseconds. -/
def completion (stage : Stage) (duration : Nat) : String :=
  stage.completionStart ++ toString duration ++ " ms"

/-- The exit status of a run that fails in the stage. -/
def exitCode : Stage → Nat
  | clean => 10
  | build => 11
  | materialize => 12
  | archive => 13
  | reconcile => 14

end Stage

inductive RunState where
  | pending
  | running (stage : Stage)
  | done
  | failed (stage : Stage)
  deriving DecidableEq, Repr

namespace RunState

def isTerminal : RunState → Bool
  | done | failed _ => true
  | pending | running _ => false

def name : RunState → String
  | pending => "pending"
  | running _ => "running"
  | done => "done"
  | failed _ => "failed"

def stage? : RunState → Option Stage
  | running stage | failed stage => some stage
  | pending | done => none

end RunState

/-- A completed stage and how many milliseconds it took. -/
structure StageRecord where
  stage : Stage
  duration : Nat
  deriving DecidableEq, Repr

end LayerPack
