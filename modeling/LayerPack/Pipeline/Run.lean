import LayerPack.Archive.Write
import LayerPack.Pipeline.Materialize
import LayerPack.RunError
import LayerPack.Settings.Basic
import LayerPack.Workspace

/-! One run of the pipeline: the stages in their order, each under the time limit, until one
fails. Afterwards the workspace is removed unless it is to be kept. -/
namespace LayerPack

open Program

/-- What a successful run has done. -/
structure Report where
  project : String
  version : Option String
  /-- When it started, in milliseconds of the clock. -/
  startedAt : Nat
  wheel : Wheel
  archive : Archive.Summary
  treeDigest : String
  /-- Whether an installation was replaced; none if the environment was left alone. -/
  replaced : Option Bool
  stages : List StageRecord
  workspace : Path
  workspaceKept : Bool
  deriving DecidableEq

/-- How far a run has come. -/
structure Progress where
  state : RunState := .pending
  completed : List StageRecord := []
  /-- The workspace, once it has been prepared. -/
  workspace : Option Workspace := none
  deriving DecidableEq

/-- A part of a run. Its progress is known also if it fails. -/
def Steps (α : Type) := Progress → Program (Except Failure α × Progress)

namespace Steps

variable {α β : Type}

instance : Monad Steps where
  pure a := fun p => done (.ok a, p)
  bind s f := fun p => (s p).bind fun
    | (.ok a, p') => f a p'
    | (.error failure, p') => done (.error failure, p')

def now (program : Program α) : Steps α := fun p => program.bind fun a => done (.ok a, p)

def update (f : Progress → Progress) : Steps Unit := fun p => done (.ok (), f p)

def completed : Steps (List StageRecord) := fun p => done (.ok p.completed, p)

end Steps

namespace Pipeline

def timeoutOf (stage : Stage) (limit : Option Nat) : Stop → Error
  | .failed cause => cause
  | .late => .timeout (stage.name ++ " stage") (limit.getD 0)

/-- Runs one stage under its limit. It is recorded if it succeeds, and the run fails with it if it
does not. -/
def stage {α : Type} (limit : Option Nat) (stage : Stage) (work : Work α) : Steps α := fun p =>
  (request (.log .info stage.announcement)).bind fun _ =>
  (request .clock).bind fun (started : Nat) =>
  (work.run (limit.map (started + ·))).bind fun
    | .ok a =>
      (request .clock).bind fun (finished : Nat) =>
      (request (.log .debug (stage.completion (finished - started)))).bind fun _ =>
      done (.ok a,
        { p with
          state := .running stage
          completed := p.completed ++ [⟨stage, finished - started⟩] })
    | .error stop =>
      done (.error ⟨stage, timeoutOf stage limit stop, p.completed⟩,
        { p with state := .failed stage })

/-- Drops an archive of an earlier run. A directory in its place is left alone. -/
def removeStaleArchive (output : Path) : Work Unit := do
  match ← Work.await (Files.lstat output) with
  | .error e =>
    if e = .noEntry then return () else Work.fail (.files "inspecting output path" output e)
  | .ok s =>
    Work.failIf (s.kind = .dir) (.other ("output path " ++ output.display ++ " is a directory"))
    let removed ← Work.await (Files.unlink output)
    Work.ofExcept (removed.mapError (.files "removing stale archive" output))
    Work.now (request (.log .info ("Removed stale archive " ++ output.display)))

def makeDist (s : Settings) : Work Unit := do
  if s.distInWorkspace then return ()
  let made ← Work.await (Files.makeDirs s.dist)
  Work.ofExcept (made.mapError (.files "creating dist directory" s.dist))

/-- The work of the first stage. -/
def clean (s : Settings) : Work Workspace := do
  let workspace ← Workspace.prepare s.workspace
  makeDist s
  removeStaleArchive s.output
  return workspace

/-- The work of the third stage; its result is the digest of the tree. -/
def install (t : Toolchain) (s : Settings) (workspace : Workspace) (wheel : Wheel) :
    Work String := do
  materialize t wheel (workspace.installDir s.layerPrefix)
  Archive.treeDigest workspace.target

/-- The last stage, unless it is turned off. -/
def reconcile (t : Toolchain) (s : Settings) (wheel : Wheel) : Steps (Option Bool) :=
  if s.reconcile then do
    return some (← stage s.stageTimeout .reconcile (refreshEnvironment t s.project wheel))
  else do
    Steps.now (request (.log .info "Skipping reconcile; the active environment is left unchanged"))
    return none

/-- What is left to do when the archive is there: the last stage, and the report. -/
def finish (s : Settings) (t : Toolchain) (startedAt : Nat) (workspace : Workspace) (wheel : Wheel)
    (treeDigest : String) (archive : Archive.Summary) : Steps Report := do
  let replaced ← reconcile t s wheel
  Steps.update fun p => { p with state := .done }
  return {
    project := s.project
    version := s.package.version.or wheel.version?
    startedAt, wheel, archive, treeDigest, replaced
    stages := ← Steps.completed
    workspace := workspace.root
    workspaceKept := s.keepWorkspace }

/-- All stages in their order. -/
def stages (s : Settings) (t : Toolchain) (startedAt : Nat) : Steps Report := do
  let limit := s.stageTimeout
  let workspace ← stage limit .clean (clean s)
  Steps.update fun p => { p with workspace := some workspace }
  let wheel ← stage limit .build (buildWheel t s.source s.dist s.project)
  let treeDigest ← stage limit .materialize (install t s workspace wheel)
  let archive ← stage limit .archive (Archive.write workspace.target s.output)
  finish s t startedAt workspace wheel treeDigest archive

/-- The stages that a run goes through. -/
def planned (s : Settings) : List Stage :=
  Stage.all.filter fun stage => stage ≠ .reconcile || s.reconcile

/-- Removes the workspace after a run. A failure of that is only logged. -/
def cleanUp (s : Settings) : Option Workspace → Program Unit
  | none => return ()
  | some workspace => do
    if s.keepWorkspace then
      request (.log .info ("Keeping workspace at " ++ workspace.root.display))
    else
      match ← workspace.cleanup with
      | .ok () => return ()
      | .error e => request (.log .warn ("Failed to clean up workspace: " ++ e.message))

def logOutcome : Except Failure Report → Program Unit
  | .ok _ => request (.log .info "✓ Pipeline done")
  | .error failure => request (.log .error ("Pipeline failed: " ++ failure.message))

/-- One run, from the wiped workspace to its removal. It begins in the state in which the run
before it ended, and its own state is that at its end. -/
def run (s : Settings) (t : Toolchain) (previous : RunState := .pending) :
    Program (Except Failure Report × RunState) := do
  let startedAt ← request .clock
  let (result, progress) ← stages s t startedAt { state := previous }
  cleanUp s progress.workspace
  logOutcome result
  return (result, progress.state)

end Pipeline

end LayerPack
