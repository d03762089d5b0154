import LayerPack.Host.Program

/-! Running commands to their end. What a command prints goes to the log line by line. -/
namespace LayerPack.Command

open Program

def logLines : List String → Program Unit
  | [] => return ()
  | line :: rest => do
    request (.log .debug ("  " ++ line))
    logLines rest

/-- The exit status as the log shows it. -/
def statusNote : ExitStatus → String
  | .code number => "Some(" ++ toString number ++ ")"
  | .signal _ => "None"

def logOutcome (c : Command) (output : CommandOutput) : Program Unit := do
  logLines (Text.lines output.stdout)
  if output.status.success then return ()
  request (.log .debug ("`" ++ c.display ++ "` failed with " ++ statusNote output.status))

/-- Waits for a command. A deadline kills it. -/
def await (c : Command) : Work Finished := fun deadline =>
  match deadline with
  | none => ask (.run c none) fun
    | .ok finished => done (.ok finished)
    | .error e => done (.error (.failed (.command c.display e)))
  | some limit => ask (.run c (some limit)) fun
    | none => done (.error .late)
    | some (.ok finished) => done (.ok finished)
    | some (.error e) => done (.error (.failed (.command c.display e)))

/-- Runs a command and captures its output. A failure of the command itself is not an error
here. -/
def run (c : Command) : Work CommandOutput := do
  Work.now (request (.log .debug ("Running: " ++ c.display)))
  let finished ← await c
  let output := finished.toOutput
  Work.now (logOutcome c output)
  return output

end LayerPack.Command
