import LayerPack.CommandLine.Choice
import LayerPack.CommandLine.Parser
import LayerPack.CommandLine.Report
import LayerPack.Lock
import LayerPack.Project.Load
import LayerPack.Toolchain.Interpreter
import LayerPack.Toolchain.Pip

/-! The command line as a program: checks, settings, interpreter and lock, then one run of the
pipeline and its report. What fails before the lock leaves the disk alone. -/
namespace LayerPack

open Program

/-- Steps of which the first that fails ends all. -/
abbrev Session := ExceptT RunError Program

namespace Session

variable {α : Type}

def now (p : Program α) : Session α := ExceptT.lift p

def orFail (p : Program (Except RunError α)) : Session α := ExceptT.mk p

/-- Printing ends the session if it fails. -/
def printing (p : Program (Except SystemError α)) : Session α :=
  ExceptT.mk (do return (← p).mapError .system)

def bundling (p : Program (Except Error α)) : Session α :=
  ExceptT.mk (do return (← p).mapError .bundle)

end Session

open Session

namespace Args

def checked (a : Args) : Session Unit := do
  match a.problem with
  | some reason => throw (.invalidArguments reason)
  | none =>
    if ← now (Files.isDir a.source) then return ()
    throw (.invalidArguments ("source tree " ++ a.source.display ++ " is not a directory"))

/-- Everything that is settled before anything is touched. -/
def prepare (a : Args) (t : Terminal) : Session (Settings × Path) := do
  a.checked
  let project ← orFail (Metadata.load a.source)
  if let some file := project.sourceFile then
    printing (t.detail ("Read project metadata from " ++ file.display))
  let s ← orFail (a.settings project)
  printing (t.section_ ("Bundling layer for " ++ s.project))
  printing (t.detail ("Source: " ++ s.source.display))
  printing (t.detail ("Workspace: " ++ s.workspace.display))
  printing (t.detail ("Output: " ++ s.output.display))
  let python ← bundling (Interpreter.resolve s.python)
  let installer ← bundling (Interpreter.installerVersion python).toProgram
  printing (t.detail installer)
  return (s, python)

def announce (t : Terminal) : List Stage → Session Unit
  | [] => return ()
  | stage :: rest => do
    printing (t.detail ("Planned stage: " ++ stage.name))
    announce t rest

/-- The run itself, under the lock. -/
def runLocked (t : Terminal) (s : Settings) (python : Path) (lock : RunLock) : Session Report := do
  printing (t.detail ("Holding " ++ lock.path.display))
  announce t (Pipeline.planned s)
  printing (t.progress ("Running " ++ toString (Pipeline.planned s).length ++ " stages"))
  let (result, _) ← now (Pipeline.run s (Pip.ofSettings s python).toolchain)
  match result with
  | .ok report => return report
  | .error failure => throw (.pipeline failure)

/-- Takes the lock, runs, and gives the lock back whatever happened. -/
def lockAndRun (t : Terminal) (s : Settings) (python : Path) : Session Report := do
  let lock ← orFail (RunLock.acquire s.workspace)
  ExceptT.mk do
    let result ← (runLocked t s python lock).run
    lock.release
    return result

def limits (a : Args) : Archive.Limits :=
  ⟨Archive.ofMib a.maxZippedMib, Archive.ofMib a.maxUnzippedMib⟩

def checkLimitsOf (a : Args) (t : Terminal) (r : Report) : Session (Option Archive.LimitReport) :=
  if a.checkLimits then do
    printing (t.progress "Checking layer size limits")
    return some (← bundling (Archive.check r.archive.path a.limits))
  else return none

def printReport (a : Args) (t : Terminal) (r : Report) (checked : Option Archive.LimitReport) :
    Session Unit :=
  if a.json then
    match r.toJson checked with
    | .error reason => throw (.json reason)
    | .ok document => printing (request (.print .out (document.render ++ "\n")))
  else printing (Report.printLines t (r.lines checked))

/-- An archive over its limits is reported like any other before it counts as a failure. -/
def verdict : Option Archive.LimitReport → Session Unit
  | some checked =>
    if checked.isWithin then return () else throw (.overLimits checked.violations)
  | none => return ()

/-- Runs with arguments that have been read. -/
def execute (a : Args) : Program (Except RunError Unit) := do
  let t ← Terminal.openWith a.isVerbose a.isQuiet
  (do
    let (s, python) ← a.prepare t
    let report ← lockAndRun t s python
    let checked ← a.checkLimitsOf t report
    a.printReport t report checked
    verdict checked : Session Unit).run

end Args

namespace CommandLine

def programName : String := "kodegen_bundler_layer"

def versionLine : String := programName ++ " 0.1.0"

def usageLine : String :=
  "Usage: " ++ programName ++ " " ++
    " ".intercalate (Opt.all.map fun o =>
      "[--" ++ o.long ++ (if o.isFlag then "]" else " <VALUE>]"))

/-- Prints why the command line was not read to its end. -/
def printUsage (u : Usage) : Program Unit := do
  match u with
  | .version => let _ ← request (.print .out (versionLine ++ "\n"))
  | .help => let _ ← request (.print .out (usageLine ++ "\n"))
  | _ =>
    let text := "error: the arguments cannot be read\n\n" ++ usageLine ++ "\n"
    let _ ← request (.print .err text)

def printHints (t : Terminal) : List String → Program Unit
  | [] => return ()
  | hint :: rest => do
    let _ ← t.error ("  hint: " ++ hint)
    printHints t rest

/-- Prints a failure and what may help. -/
def printFailure (e : RunError) : Program Unit := do
  let t ← Terminal.openWith false false
  let _ ← t.error e.message
  printHints t e.suggestions

/-- The whole program; its result is the exit status. -/
def main (argv : List Bytes) : Program Nat := do
  match ← Args.read argv with
  | .error u =>
    printUsage u
    return u.exitCode
  | .ok a =>
    match ← a.execute with
    | .ok () => return 0
    | .error e =>
      printFailure e
      return e.exitCode

end CommandLine

end LayerPack
