import LayerPack.Path.Basic
import LayerPack.Text.Blank

/-! Commands as data, and what is left of a command that has ended. -/
namespace LayerPack

structure Command where
  program : Path
  args : List Bytes := []
  /-- Variables set for the command on top of those of its caller. -/
  envs : List (String × String) := []
  deriving DecidableEq

namespace Command

def arg (c : Command) (a : String) : Command := { c with args := c.args ++ [Bytes.ofString a] }

def argList (c : Command) (as : List String) : Command :=
  { c with args := c.args ++ as.map Bytes.ofString }

def argPath (c : Command) (p : Path) : Command := { c with args := c.args ++ [p.bytes] }

def env (c : Command) (key value : String) : Command := { c with envs := c.envs ++ [(key, value)] }

/-- Program and arguments with single spaces between them, without quotes. -/
def display (c : Command) : String :=
  " ".intercalate (c.program.display :: c.args.map Bytes.display)

end Command

inductive ExitStatus where
  | code (number : Nat)
  | signal (number : Nat)
  deriving DecidableEq

namespace ExitStatus

def success (s : ExitStatus) : Bool := s = code 0

def describe : ExitStatus → String
  | code number => "exit code " ++ toString number
  | signal _ => "termination by signal"

end ExitStatus

/-- What a command printed is kept as bytes. -/
structure Finished where
  status : ExitStatus
  stdout : ByteArray
  stderr : ByteArray

/-- The same with both outputs as text. -/
structure CommandOutput where
  status : ExitStatus
  stdout : String
  stderr : String

def Finished.toOutput (f : Finished) : CommandOutput :=
  ⟨f.status, displayContent f.stdout, displayContent f.stderr⟩

end LayerPack
